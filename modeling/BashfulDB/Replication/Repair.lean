import BashfulDB.Replication.Acks

/-! What the repair writes of a read leave at the owners, and what the next read finds there. -/
namespace BashfulDB.Replication

open Clock Data

/-- Every owner answers, each once. -/
def AllAnswer (owners : List NodeId) (env : Env) : Prop :=
  env.reads.Perm (owners.map fun n => (n, true))

instance (owners : List NodeId) (env : Env) : Decidable (AllAnswer owners env) :=
  inferInstanceAs (Decidable (List.Perm _ _))

/-- What the owners hold is read back as it was written. -/
def ReadsBack (reread : Document → Option Document) (replicas : Replicas) (key : ObjectKey)
    (owners : List NodeId) : Prop :=
  ∀ n ∈ owners, ∀ v, (replicas n).held key = some v → v.reread reread = some v

/-- The background task of a read, all of its writes delivered. -/
def deliverRepairs (replicas : Replicas) (repairs : List (NodeId × WriteRequest)) : Replicas :=
  repairs.foldl (fun replicas p => remoteWrite replicas p.1 p.2 .acked) replicas

/-- A replica that needs the winner: it holds nothing, or a version before or beside it. -/
def Stale (winner : VersionedDoc) (doc : Option VersionedDoc) : Prop :=
  ∀ v ∈ doc, Precedes v winner ∨ v.version.compare winner.version = .concurrent

variable {reread : Document → Option Document} {members : Membership} {replicas : Replicas}
  {key : ObjectKey} {owners : List NodeId}
  {env env' : Env} {c : Coordinator} {n : NodeId} {w : VersionedDoc}

theorem mem_staleNodes {rs : List (NodeId × Option VersionedDoc)} :
    n ∈ staleNodes rs w ↔ ∃ doc, (n, doc) ∈ rs ∧ Stale w doc := by
  have hpick : ∀ p : NodeId × Option VersionedDoc, n ∈ staleNodes [p] w ↔
      n = p.1 ∧ Stale w p.2 := by
    rintro ⟨m, _ | v⟩
    · simp [staleNodes, Stale]
    · cases hcmp : v.version.compare w.version <;> simp [staleNodes, Stale, Precedes, hcmp]
  induction rs with
  | nil => simp [staleNodes]
  | cons p rs ih =>
    have hcons : staleNodes (p :: rs) w = staleNodes [p] w ++ staleNodes rs w :=
      List.filterMap_append (l := [p])
    rw [hcons, List.mem_append, hpick]
    constructor
    · rintro (⟨rfl, hstale⟩ | hlater)
      · exact ⟨p.2, List.mem_cons_self, hstale⟩
      · obtain ⟨doc, hmem, hstale⟩ := ih.mp hlater
        exact ⟨doc, List.mem_cons_of_mem _ hmem, hstale⟩
    · rintro ⟨doc, hmem, hstale⟩
      rcases List.mem_cons.mp hmem with rfl | hmem
      · exact Or.inl ⟨rfl, hstale⟩
      · exact Or.inr (ih.mpr ⟨doc, hmem, hstale⟩)

theorem held_deliverRepairs {stale : List NodeId} {req : WriteRequest} {k : ObjectKey}
    (hhint : req.isHint = false) (hk : k.toBytes = req.key.toBytes) :
    ((deliverRepairs replicas (stale.map fun m => (m, req))) n).held k =
      if n ∈ stale then some req.versioned else (replicas n).held k := by
  have hfold : deliverRepairs replicas (stale.map fun m => (m, req)) =
      (broadcastWrite replicas req (stale.map fun m => (m, .acked))).2.2 := by
    simp only [deliverRepairs, broadcastWrite, List.foldl_map]
  have hreached : Reached (stale.map fun m => (m, WriteFate.acked)) n ↔ n ∈ stale := by
    constructor
    · rintro ⟨fate, hmem, -⟩
      obtain ⟨m, hm, heq⟩ := List.mem_map.mp hmem
      cases heq
      exact hm
    · intro hn
      exact ⟨.acked, List.mem_map_of_mem hn, rfl⟩
  rw [hfold, held_broadcastWrite hhint]
  simp only [hreached, hk, and_true]

theorem ReadsBack.handleRead (h : ReadsBack reread replicas key owners) (hn : n ∈ owners) :
    (replicas n).handleRead reread key = some ((replicas n).held key) := by
  cases hheld : (replicas n).held key with
  | none => simp [ReplicaStore.handleRead, hheld]
  | some v => exact ReplicaStore.handleRead_eq_some.mpr ⟨v, hheld, h n hn v hheld⟩

namespace AllAnswer

variable (h : AllAnswer owners env) (hback : ReadsBack reread replicas key owners)
include h hback

theorem responses_eq : responses reread replicas key env.reads =
    env.reads.map fun read => (read.1, (replicas read.1).held key) := by
  refine List.filterMap_eq_map_iff_forall_eq_some.mpr fun read hread => ?_
  obtain ⟨n, hn, rfl⟩ := List.mem_map.mp (h.mem_iff.mp hread)
  simp [hback.handleRead hn]

theorem mem_responses {doc : Option VersionedDoc} :
    (n, doc) ∈ responses reread replicas key env.reads ↔
      n ∈ owners ∧ (replicas n).held key = doc := by
  simp [h.responses_eq hback, h.mem_iff]

theorem answers_eq : Coordinator.answers reread replicas key env =
    (env.reads.map Prod.fst).filterMap fun n => (replicas n).held key := by
  simp [Coordinator.answers, h.responses_eq hback, List.filterMap_map]

theorem mem_answers {v : VersionedDoc} : v ∈ Coordinator.answers reread replicas key env ↔
    ∃ n ∈ owners, (replicas n).held key = some v := by
  simp [h.answers_eq hback, h.mem_iff]

theorem length_responses : (responses reread replicas key env.reads).length = owners.length := by
  rw [h.responses_eq hback, List.length_map, List.Perm.length_eq h, List.length_map]

theorem mem_staleNodes_iff :
    n ∈ staleNodes (responses reread replicas key env.reads) w ↔
      n ∈ owners ∧ Stale w ((replicas n).held key) := by
  simp [mem_staleNodes, h.mem_responses hback, and_assoc]

end AllAnswer

/-- What a read answers once enough owners responded. -/
theorem quorumRead_of_responses (howners : members.ownersForKey key.toBytes c.config.n ≠ [])
    (hr : c.config.r ≤ (responses reread replicas key env.reads).length) :
    c.quorumRead members reread replicas key env =
      match resolveConflict (Coordinator.answers reread replicas key env) with
      | none => (.ok ⟨none, .new, 0⟩, [])
      | some w =>
        (.ok ⟨w.document, w.version,
            (staleNodes (responses reread replicas key env.reads) w).length⟩,
          (staleNodes (responses reread replicas key env.reads) w).map fun node =>
            (node, ⟨key, w.document, w.version, w.hlc, false, none⟩)) := by
  have hempty : ¬ (members.ownersForKey key.toBytes c.config.n).isEmpty = true := by
    simpa using howners
  simp only [Coordinator.quorumRead]
  refine (if_neg hempty).trans ((if_neg (Nat.not_lt.mpr hr)).trans ?_)
  rfl

theorem quorumRead_ok {result : ReadResult} {repairs : List (NodeId × WriteRequest)}
    (h : c.quorumRead members reread replicas key env = (.ok result, repairs)) :
    members.ownersForKey key.toBytes c.config.n ≠ [] ∧
      c.config.r ≤ (responses reread replicas key env.reads).length := by
  simp only [Coordinator.quorumRead] at h
  split at h
  · cases h
  · rename_i hempty
    split at h
    · cases h
    · rename_i hlt
      exact ⟨by simpa using hempty, Nat.not_lt.mp hlt⟩

/-- What an owner holds once the repairs of a read with winner `w` are delivered: the document
and version of `w`, unless it held a causally later version, which the read has left alone. -/
theorem held_after_repairs (h : AllAnswer owners env)
    (hback : ReadsBack reread replicas key owners)
    (hsame : ∀ n ∈ owners, ∀ v, (replicas n).held key = some v →
      v.version.compare w.version = .equal → v = w) (hn : n ∈ owners) :
    let repair : WriteRequest := ⟨key, w.document, w.version, w.hlc, false, none⟩
    let repaired := deliverRepairs replicas
      ((staleNodes (responses reread replicas key env.reads) w).map fun m => (m, repair))
    ∃ v, (repaired n).held key = some v ∧
      ((v.document = w.document ∧ v.version = w.version) ∧
          (∀ u, (replicas n).held key = some u → ¬ Precedes w u) ∨
        Precedes w v ∧ (replicas n).held key = some v) := by
  intro repair repaired
  have hread : (repaired n).held key =
      if n ∈ staleNodes (responses reread replicas key env.reads) w then some repair.versioned
      else (replicas n).held key := held_deliverRepairs rfl rfl
  by_cases hstale : Stale w ((replicas n).held key)
  · rw [if_pos ((h.mem_staleNodes_iff hback).mpr ⟨hn, hstale⟩)] at hread
    refine ⟨_, hread, Or.inl ⟨⟨rfl, rfl⟩, ?_⟩⟩
    intro u hu hlater
    rcases hstale u hu with hbefore | hconcurrent
    · exact irrefl_of Precedes w (trans_of Precedes hlater hbefore)
    · cases (VectorClock.compare_after_iff_before.mpr hlater).symm.trans hconcurrent
  · rw [if_neg fun hmem => hstale ((h.mem_staleNodes_iff hback).mp hmem).2] at hread
    simp only [Stale, not_forall, not_or] at hstale
    obtain ⟨v, hv, hbefore, hconcurrent⟩ := hstale
    refine ⟨v, hread.trans hv, ?_⟩
    cases hcmp : v.version.compare w.version with
    | before => exact absurd hcmp hbefore
    | concurrent => exact absurd hcmp hconcurrent
    | after => exact Or.inr ⟨VectorClock.compare_after_iff_before.mp hcmp, hv⟩
    | equal =>
      obtain rfl : v = w := hsame n hn v hv hcmp
      refine Or.inl ⟨⟨rfl, rfl⟩, ?_⟩
      intro u hu hlater
      cases hv.symm.trans hu
      exact irrefl_of Precedes v hlater

/-- Among versions equal to that of `w` or later than it, a later one is chosen if there is one. -/
theorem precedes_resolveConflict {docs : List VersionedDoc} {u x : VersionedDoc}
    (hdocs : ∀ v ∈ docs, v.version = w.version ∨ Precedes w v)
    (hu : resolveConflict docs = some u) (hx : x ∈ docs) (hlater : Precedes w x) :
    Precedes w u := by
  rw [resolveConflict_eq_champion] at hu
  have hpick : ∀ a ∈ docs, ∀ b ∈ docs,
      (Precedes w a → Precedes w (resolveTwo a b)) ∧
        (Precedes w b → Precedes w (resolveTwo a b)) := by
    intro a ha b hb
    constructor
    · intro hwa
      rcases hdocs b hb with heq | hwb
      · have hba : Precedes b a := by rwa [Precedes, heq]
        rwa [resolveTwo_of_after hba]
      · rcases resolveTwo_selective a b with h | h <;> rwa [h]
    · intro hwb
      rcases hdocs a ha with heq | hwa
      · have hab : Precedes a b := by rwa [Precedes, heq]
        rwa [resolveTwo_of_before hab]
      · rcases resolveTwo_selective a b with h | h <;> rwa [h]
  exact Selection.le_champion (f := Precedes w) resolveTwo_selective hpick hu x hx hlater

theorem resolveConflict_eq_none {docs : List VersionedDoc} :
    resolveConflict docs = none ↔ docs = [] := by
  cases docs <;> simp [resolveConflict]

/-- The responses give no version just where no owner holds one. -/
theorem AllAnswer.resolve_eq_none (h : AllAnswer owners env)
    (hback : ReadsBack reread replicas key owners) :
    resolveConflict (Coordinator.answers reread replicas key env) = none ↔
      ∀ n ∈ owners, ∀ v, (replicas n).held key ≠ some v := by
  rw [resolveConflict_eq_none, List.eq_nil_iff_forall_not_mem]
  constructor
  · intro hnone n hn v hv
    exact hnone v ((h.mem_answers hback).mpr ⟨n, hn, hv⟩)
  · intro hnone v hv
    obtain ⟨n, hn, hnv⟩ := (h.mem_answers hback).mp hv
    exact hnone n hn v hnv

theorem AllAnswer.exists_holder (h : AllAnswer owners env)
    (hback : ReadsBack reread replicas key owners)
    (hwin : resolveConflict (Coordinator.answers reread replicas key env) = some w) :
    ∃ n ∈ owners, (replicas n).held key = some w :=
  (h.mem_answers hback).mp (resolveConflict_mem hwin)

/-- The versions later than that of `w` are where they were before the repairs. -/
theorem later_after_repairs {repaired : Replicas}
    (h : ∀ n ∈ owners, ∃ v, (repaired n).held key = some v ∧
      ((v.document = w.document ∧ v.version = w.version) ∧
          (∀ u, (replicas n).held key = some u → ¬ Precedes w u) ∨
        Precedes w v ∧ (replicas n).held key = some v)) :
    (∀ n ∈ owners, ∀ v, (repaired n).held key = some v → ¬ Precedes w v) ↔
      ∀ n ∈ owners, ∀ v, (replicas n).held key = some v → ¬ Precedes w v := by
  refine forall₂_congr fun n hn => ?_
  obtain ⟨v, hv, ⟨⟨-, hversion⟩, hnone⟩ | ⟨hwv, hkept⟩⟩ := h n hn
  · refine iff_of_true ?_ hnone
    intro v' hv' hwv
    cases hv.symm.trans hv'
    rw [Precedes, hversion] at hwv
    exact irrefl_of Precedes w hwv
  · rw [hv, hkept]

/-- A second read of owners that hold the version of `w`, or later ones, finds nothing to repair
and answers with `w` just where there are no later ones. -/
theorem second_answer_iff {u : VersionedDoc} (h : AllAnswer owners env)
    (hback : ReadsBack reread replicas key owners)
    (hheld : ∀ n ∈ owners, ∃ v, (replicas n).held key = some v ∧
      (v.document = w.document ∧ v.version = w.version ∨ Precedes w v))
    (hu : resolveConflict (Coordinator.answers reread replicas key env) = some u) :
    u.document = w.document ∧ u.version = w.version ∧
        staleNodes (responses reread replicas key env.reads) u = [] ↔
      ∀ n ∈ owners, ∀ v, (replicas n).held key = some v → ¬ Precedes w v := by
  have hanswer : ∀ v ∈ Coordinator.answers reread replicas key env,
      v.document = w.document ∧ v.version = w.version ∨ Precedes w v := by
    intro v hv
    obtain ⟨n, hn, hnv⟩ := (h.mem_answers hback).mp hv
    obtain ⟨v', hv', hcase⟩ := hheld n hn
    cases hnv.symm.trans hv'
    exact hcase
  constructor
  · rintro ⟨-, hversion, -⟩ n hn v hv hlater
    have hwu : Precedes w u := precedes_resolveConflict
      (fun v hv => (hanswer v hv).imp And.right id) hu
      ((h.mem_answers hback).mpr ⟨n, hn, hv⟩) hlater
    rw [Precedes, hversion] at hwu
    exact irrefl_of Precedes w hwu
  · intro hnone
    have hmem := resolveConflict_mem hu
    have hw : ∀ v ∈ Coordinator.answers reread replicas key env,
        v.document = w.document ∧ v.version = w.version := by
      intro v hv
      obtain ⟨n, hn, hnv⟩ := (h.mem_answers hback).mp hv
      exact (hanswer v hv).resolve_right (hnone n hn v hnv)
    refine ⟨(hw u hmem).1, (hw u hmem).2, List.eq_nil_iff_forall_not_mem.mpr ?_⟩
    intro n hstale
    obtain ⟨hn, hstale⟩ := (h.mem_staleNodes_iff hback).mp hstale
    obtain ⟨v, hv, -⟩ := hheld n hn
    have hequal : v.version.compare u.version = .equal := by
      rw [(hw v ((h.mem_answers hback).mpr ⟨n, hn, hv⟩)).2, (hw u hmem).2]
      exact VectorClock.compare_equal_iff.mpr ⟨.refl _, .refl _⟩
    rcases hstale v hv with hbefore | hconcurrent
    · cases hequal.symm.trans hbefore
    · cases hequal.symm.trans hconcurrent

/-- Repairs send what was read, so that what the owners hold is still read back. -/
theorem ReadsBack.deliverRepairs (hback : ReadsBack reread replicas key owners)
    (hw : w.reread reread = some w) (stale : List NodeId) :
    ReadsBack reread (deliverRepairs replicas (stale.map fun m =>
      (m, ⟨key, w.document, w.version, w.hlc, false, none⟩))) key owners := by
  intro n hn v hv
  rw [held_deliverRepairs rfl rfl] at hv
  split at hv
  · cases hv
    unfold VersionedDoc.reread at hw ⊢
    cases hdoc : w.document with
    | none => simp [WriteRequest.versioned]
    | some doc =>
      simp only [hdoc, Option.map_eq_some_iff] at hw
      obtain ⟨doc', hread, heq⟩ := hw
      have hdoc' : some doc' = some doc := (congrArg VersionedDoc.document heq).trans hdoc
      cases hdoc'
      simp [WriteRequest.versioned, hread]
  · exact hback n hn v hv

/-- The next read answers as the read before it and repairs nothing, just where no owner held a
version causally later than the one that was returned. -/
theorem next_read_iff {result : ReadResult} {repairs : List (NodeId × WriteRequest)}
    (hfirst : AllAnswer owners env) (hsecond : AllAnswer owners env')
    (hback : ReadsBack reread replicas key owners)
    (hsame : ∀ n ∈ owners, ∀ m ∈ owners, ∀ u v, (replicas n).held key = some u →
      (replicas m).held key = some v → u.version.compare v.version = .equal → u = v)
    (hread : c.quorumRead members reread replicas key env = (.ok result, repairs)) :
    (c.quorumRead members reread (deliverRepairs replicas repairs) key env').1 =
        .ok ⟨result.document, result.version, 0⟩ ↔
      ∀ n ∈ owners, ∀ v, (replicas n).held key = some v →
        result.version.compare v.version ≠ .before := by
  obtain ⟨hne, hr⟩ := quorumRead_ok hread
  rw [hfirst.length_responses hback] at hr
  rw [quorumRead_of_responses hne (by rwa [hfirst.length_responses hback])] at hread
  cases hwin : resolveConflict (Coordinator.answers reread replicas key env) with
  | none =>
    rw [hwin] at hread
    cases hread
    have hnone := (hfirst.resolve_eq_none hback).mp hwin
    have hback' : ReadsBack reread (deliverRepairs replicas []) key owners := hback
    rw [quorumRead_of_responses hne (hr.trans_eq (hsecond.length_responses hback').symm),
      (hsecond.resolve_eq_none hback').mpr hnone]
    exact iff_of_true rfl fun n hn v hv => absurd hv (hnone n hn v)
  | some w =>
    rw [hwin] at hread
    cases hread
    obtain ⟨m, hm, hmw⟩ := hfirst.exists_holder hback hwin
    have hrepaired := fun n (hn : n ∈ owners) =>
      held_after_repairs hfirst hback (fun n hn v hv => hsame n hn m hm v w hv hmw) hn
    have hback' := hback.deliverRepairs (hback m hm w hmw)
      (staleNodes (responses reread replicas key env.reads) w)
    dsimp only at hrepaired ⊢
    generalize deliverRepairs replicas _ = repaired at hrepaired hback' ⊢
    have hheld : ∀ n ∈ owners, ∃ v, (repaired n).held key = some v ∧
        (v.document = w.document ∧ v.version = w.version ∨ Precedes w v) := by
      intro n hn
      obtain ⟨v, hv, hcase⟩ := hrepaired n hn
      exact ⟨v, hv, hcase.imp And.left And.left⟩
    obtain ⟨u, hu⟩ :
        ∃ u, resolveConflict (Coordinator.answers reread repaired key env') = some u := by
      obtain ⟨v, hv, -⟩ := hheld m hm
      exact Option.ne_none_iff_exists'.mp fun hnone =>
        (hsecond.resolve_eq_none hback').mp hnone m hm v hv
    rw [quorumRead_of_responses hne (hr.trans_eq (hsecond.length_responses hback').symm), hu]
    refine Iff.trans ?_
      ((second_answer_iff hsecond hback' hheld hu).trans (later_after_repairs hrepaired))
    simp [List.length_eq_zero_iff]

/-- The owners answer in this order. -/
def Env.answering (nodes : List NodeId) : Env where
  now := 0
  tick := .ok Hlc.zero
  writes := []
  hints _ := .acked
  storedAt := 0
  reads := nodes.map fun n => (n, true)

/-- The versions that the owners hold. -/
def heldVersions (replicas : Replicas) (key : ObjectKey) (owners : List NodeId) :
    List VersionedDoc :=
  owners.filterMap fun n => (replicas n).held key

/-- `w` heads a chain of these versions, each of which prevails over the next, and none of them
prevails over the whole chain. -/
def CanWin (versions : List VersionedDoc) (w : VersionedDoc) : Prop :=
  ∃ chain, (w :: chain).Subperm versions ∧ (w :: chain).IsChain Prevails ∧
    ∀ e ∈ versions, ∃ s ∈ w :: chain, ¬ Prevails e s

theorem canWin_iff {versions : List VersionedDoc} :
    CanWin versions w ↔ Selection.CanWin resolveTwo versions w := by
  have hdisplaces : Selection.Displaces resolveTwo = Prevails := by
    funext a b
    exact propext displaces_iff
  rw [CanWin, Selection.CanWin, hdisplaces]

/-- The versions that can win are those that the responses of the owners can settle on. -/
theorem canWin_iff_exists_env (hback : ReadsBack reread replicas key owners) :
    CanWin (heldVersions replicas key owners) w ↔ ∃ env, AllAnswer owners env ∧
      resolveConflict (Coordinator.answers reread replicas key env) = some w := by
  rw [canWin_iff]
  constructor
  · intro h
    obtain ⟨docs, hdocs, hwin⟩ := Selection.exists_perm_of_canWin resolveTwo_selective h
    obtain ⟨nodes, hnodes, rfl⟩ := Selection.exists_perm_filterMap hdocs
    have hall : AllAnswer owners (.answering nodes) := hnodes.map _
    refine ⟨.answering nodes, hall, ?_⟩
    rw [hall.answers_eq hback, resolveConflict_eq_champion]
    simpa [Env.answering, Function.comp_def] using hwin
  · rintro ⟨env, hall, hwin⟩
    rw [hall.answers_eq hback, resolveConflict_eq_champion] at hwin
    refine (Selection.canWin_of_champion resolveTwo_selective hwin).perm (List.Perm.filterMap _ ?_)
    simpa [Function.comp_def] using List.Perm.map Prod.fst hall

/-- Two reads in a row answer alike, and the second repairs nothing, just where no version that can
win has a causal successor among the versions that the owners hold. -/
theorem second_read_iff (members : Membership) (reread : Document → Option Document)
    (c : Coordinator) (replicas : Replicas) (key : ObjectKey)
    (howners : members.ownersForKey key.toBytes c.config.n ≠ [])
    (hr : c.config.r ≤ (members.ownersForKey key.toBytes c.config.n).length)
    (hback : ReadsBack reread replicas key (members.ownersForKey key.toBytes c.config.n))
    (hsame : ∀ n ∈ members.ownersForKey key.toBytes c.config.n,
      ∀ m ∈ members.ownersForKey key.toBytes c.config.n, ∀ u v,
        (replicas n).held key = some u → (replicas m).held key = some v →
          u.version.compare v.version = .equal → u = v) :
    (∀ env env', AllAnswer (members.ownersForKey key.toBytes c.config.n) env →
        AllAnswer (members.ownersForKey key.toBytes c.config.n) env' →
        ∃ result repairs, c.quorumRead members reread replicas key env = (.ok result, repairs) ∧
          (c.quorumRead members reread (deliverRepairs replicas repairs) key env').1 =
            .ok ⟨result.document, result.version, 0⟩) ↔
      ∀ w, CanWin (heldVersions replicas key (members.ownersForKey key.toBytes c.config.n)) w →
        ∀ v ∈ heldVersions replicas key (members.ownersForKey key.toBytes c.config.n),
          ¬ Precedes w v := by
  have hmem : ∀ v, v ∈ heldVersions replicas key (members.ownersForKey key.toBytes c.config.n) ↔
      ∃ n ∈ members.ownersForKey key.toBytes c.config.n, (replicas n).held key = some v := by
    simp [heldVersions]
  have hanswer (env : Env) (hall : AllAnswer (members.ownersForKey key.toBytes c.config.n) env) :=
    quorumRead_of_responses howners (hr.trans_eq (hall.length_responses hback).symm)
  constructor
  · intro hreads w hcan v hv hlater
    obtain ⟨n, hn, hheld⟩ := (hmem v).mp hv
    obtain ⟨env, hall, hwin⟩ := (canWin_iff_exists_env hback).mp hcan
    obtain ⟨result, repairs, hfirst, hsecond⟩ := hreads env env hall hall
    have hnone := (next_read_iff hall hall hback hsame hfirst).mp hsecond n hn v hheld
    rw [hanswer env hall, hwin] at hfirst
    cases hfirst
    exact hnone hlater
  · intro hnone env env' hall hall'
    have hfirst := hanswer env hall
    cases hwin : resolveConflict (Coordinator.answers reread replicas key env) with
    | none =>
      rw [hwin] at hfirst
      refine ⟨_, _, hfirst, (next_read_iff hall hall' hback hsame hfirst).mpr ?_⟩
      intro n hn v hv
      exact absurd hv ((hall.resolve_eq_none hback).mp hwin n hn v)
    | some w =>
      rw [hwin] at hfirst
      refine ⟨_, _, hfirst, (next_read_iff hall hall' hback hsame hfirst).mpr ?_⟩
      intro n hn v hv
      exact hnone w ((canWin_iff_exists_env hback).mpr ⟨env, hall, hwin⟩) v
        ((hmem v).mpr ⟨n, hn, hv⟩)

/-- Replicas that hold nothing but these versions of a key. -/
def Replicas.holding (key : ObjectKey) (docs : NodeId → Option VersionedDoc) : Replicas :=
  fun n => { ReplicaStore.new n with
    default := match docs n with
      | none => OrdMap.empty
      | some v => OrdMap.empty.insert key.toBytes v }

theorem held_holding (docs : NodeId → Option VersionedDoc) :
    (Replicas.holding key docs n).held key = docs n := by
  unfold Replicas.holding ReplicaStore.held
  cases docs n with
  | none => rfl
  | some v => exact OrdMap.get_insert_self _

/-- No two owners hold versions that compare as equal. -/
theorem same_of_holding {docs : NodeId → Option VersionedDoc}
    (h : ∀ n ∈ owners, ∀ m ∈ owners, ∀ u ∈ docs n, ∀ v ∈ docs m,
      u.version.compare v.version = .equal → n = m) :
    ∀ n ∈ owners, ∀ m ∈ owners, ∀ u v, (Replicas.holding key docs n).held key = some u →
      (Replicas.holding key docs m).held key = some v →
        u.version.compare v.version = .equal → u = v := by
  intro n hn m hm u v hu hv hequal
  rw [held_holding] at hu hv
  obtain rfl : n = m := h n hn m hm u hu v hv hequal
  exact Option.some.inj (hu.symm.trans hv)

/-- A write and a concurrent delete, and an owner that has neither. -/
def writeAndDelete (n : NodeId) : Option VersionedDoc :=
  if n = ⟨⟨1⟩⟩ then some writeByOne else if n = ⟨⟨2⟩⟩ then some deleteByTwo else none

/-- In every order of the responses the delete is returned, and repaired at the other two owners. -/
theorem second_read_deleted :
    ((sampleCoordinator.quorumRead sixNodes some (.holding sampleKey writeAndDelete) sampleKey
        (.answering [⟨⟨1⟩⟩, ⟨⟨2⟩⟩, ⟨⟨3⟩⟩])).1.toOption.map fun r =>
          (r.document.isSome, r.repairsTriggered)) = some (false, 2) ∧
      ∀ env env', AllAnswer [⟨⟨1⟩⟩, ⟨⟨2⟩⟩, ⟨⟨3⟩⟩] env → AllAnswer [⟨⟨1⟩⟩, ⟨⟨2⟩⟩, ⟨⟨3⟩⟩] env' →
        ∃ result repairs, sampleCoordinator.quorumRead sixNodes some
            (.holding sampleKey writeAndDelete) sampleKey env = (.ok result, repairs) ∧
          (sampleCoordinator.quorumRead sixNodes some
            (deliverRepairs (.holding sampleKey writeAndDelete) repairs) sampleKey env').1 =
              .ok ⟨result.document, result.version, 0⟩ := by
  refine ⟨by decide +kernel, ?_⟩
  refine (second_read_iff sixNodes some sampleCoordinator _ sampleKey (by decide) (by decide)
    (fun _ _ v _ => reread_some v) (same_of_holding (by decide))).mpr ?_
  intro w hcan v hv
  have hall : ∀ w ∈ [writeByOne, deleteByTwo], ∀ v ∈ [writeByOne, deleteByTwo],
      ¬ Precedes w v := by
    decide
  have hheld : heldVersions (.holding sampleKey writeAndDelete) sampleKey
      (sixNodes.ownersForKey sampleKey.toBytes sampleCoordinator.config.n) =
        [writeByOne, deleteByTwo] := by
    simp only [heldVersions, held_holding]
    rfl
  rw [hheld] at hcan hv
  exact hall w (canWin_iff.mp hcan).mem v hv

/-- A write, the causal successor of a concurrent delete, and that delete. -/
def writeAndSuccessor (n : NodeId) : Option VersionedDoc :=
  if n = ⟨⟨1⟩⟩ then some writeByOne else if n = ⟨⟨2⟩⟩ then some rewriteByTwo else some deleteByTwo

/-- The first read returns the delete and leaves its successor alone; the second returns the
successor. -/
theorem second_read_successor :
    let replicas : Replicas := .holding sampleKey writeAndSuccessor
    let owners := sixNodes.ownersForKey sampleKey.toBytes sampleCoordinator.config.n
    let read := fun replicas => sampleCoordinator.quorumRead sixNodes some replicas sampleKey
      (.answering [⟨⟨1⟩⟩, ⟨⟨2⟩⟩, ⟨⟨3⟩⟩])
    AllAnswer owners (.answering [⟨⟨1⟩⟩, ⟨⟨2⟩⟩, ⟨⟨3⟩⟩]) ∧
      (∀ n ∈ owners, ∀ m ∈ owners, ∀ u v, (replicas n).held sampleKey = some u →
        (replicas m).held sampleKey = some v →
          u.version.compare v.version = .equal → u = v) ∧
      ((read replicas).1.toOption.map fun r => (r.document.isSome, r.version, r.repairsTriggered)) =
        some (false, .single ⟨⟨2⟩⟩ ⟨5⟩, 1) ∧
      ((read (deliverRepairs replicas (read replicas).2)).1.toOption.map fun r =>
          (r.document.isSome, r.version, r.repairsTriggered)) =
        some (true, .single ⟨⟨2⟩⟩ ⟨7⟩, 2) :=
  ⟨by decide, same_of_holding (by decide), by decide +kernel, by decide +kernel⟩

end BashfulDB.Replication

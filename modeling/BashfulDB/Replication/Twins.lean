import Mathlib.Data.List.Forall2
import BashfulDB.Replication.Coordinator

/-!
One coordinator in two runs whose clocks return different values. As long as the values stand
in the same order, the replicas hold the same documents and reads return the same ones.
-/
namespace BashfulDB.Replication

open Clock Data

variable {R R' : Hlc → Hlc → Prop} {last last' a a' b b' : Hlc} {node n : NodeId}
  {x x' y y' : VersionedDoc} {l l' : List VersionedDoc}

/-- The clock values of two runs that correspond, none above the last ones returned. -/
structure Twins (R : Hlc → Hlc → Prop) (last last' : Hlc) : Prop where
  order : ∀ {a a' b b'}, R a a' → R b b' → (a < b ↔ a' < b')
  bound : ∀ {a a'}, R a a' → a ≤ last ∧ a' ≤ last'

theorem twins_empty : Twins (fun _ _ => False) last last' where
  order h := h.elim
  bound h := h.elim

theorem Twins.mono (h : Twins R last last') (ha : last ≤ a) (ha' : last' ≤ a') :
    Twins R a a' where
  order := h.order
  bound hr := ⟨(h.bound hr).1.trans ha, (h.bound hr).2.trans ha'⟩

theorem Twins.symm (h : Twins R last last') : Twins (fun a a' => R a' a) last' last where
  order ha hb := (h.order ha hb).symm
  bound ha := (h.bound ha).symm

/-- Both clocks return a next value, which become twins. -/
theorem Twins.tick (h : Twins R last last') (ha : last < a) (ha' : last' < a') :
    Twins (fun b b' => R b b' ∨ b = a ∧ b' = a') a a' where
  order := by
    rintro b b' c c' (hb | ⟨rfl, rfl⟩) (hc | ⟨rfl, rfl⟩)
    · exact h.order hb hc
    · exact iff_of_true ((h.bound hb).1.trans_lt ha) ((h.bound hb).2.trans_lt ha')
    · exact iff_of_false (not_lt_of_gt ((h.bound hc).1.trans_lt ha))
        (not_lt_of_gt ((h.bound hc).2.trans_lt ha'))
    · exact iff_of_false (lt_irrefl _) (lt_irrefl _)
  bound := by
    rintro b b' (hb | ⟨rfl, rfl⟩)
    · exact ⟨((h.bound hb).1.trans_lt ha).le, ((h.bound hb).2.trans_lt ha').le⟩
    · exact ⟨le_rfl, le_rfl⟩

/-- Versions of one document that the coordinator on `node` stamped with twin values. -/
def TwinDoc (node : NodeId) (R : Hlc → Hlc → Prop) (x x' : VersionedDoc) : Prop :=
  ∃ doc a a', R a a' ∧ x = stamp node a doc ∧ x' = stamp node a' doc

theorem TwinDoc.mono (hR : ∀ a a', R a a' → R' a a') (h : TwinDoc node R x x') :
    TwinDoc node R' x x' := by
  obtain ⟨doc, a, a', ha, hx, hx'⟩ := h
  exact ⟨doc, a, a', hR a a' ha, hx, hx'⟩

theorem TwinDoc.symm (h : TwinDoc node R x x') : TwinDoc node (fun a a' => R a' a) x' x := by
  obtain ⟨doc, a, a', ha, hx, hx'⟩ := h
  exact ⟨doc, a', a, ha, hx', hx⟩

theorem TwinDoc.compare (h : Twins R last last') (hx : TwinDoc node R x x')
    (hy : TwinDoc node R y y') : x.version.compare y.version = x'.version.compare y'.version := by
  obtain ⟨_, a, a', ha, rfl, rfl⟩ := hx
  obtain ⟨_, b, b', hb, rfl, rfl⟩ := hy
  simp only [stamp, VectorClock.compare_single, h.order ha hb, h.order hb ha]

theorem resolveTwo_stamp (a b : Hlc) (doc doc' : Option Document) :
    resolveTwo (stamp node a doc) (stamp node b doc') =
      if a < b then stamp node b doc' else stamp node a doc := by
  rcases lt_trichotomy a b with hlt | rfl | hgt
  · simp [resolveTwo, stamp, VectorClock.compare_single, hlt]
  · simp [resolveTwo, stamp, VectorClock.compare_single]
  · simp [resolveTwo, stamp, VectorClock.compare_single, hgt, lt_asymm hgt]

theorem TwinDoc.resolveTwo (h : Twins R last last') (hx : TwinDoc node R x x')
    (hy : TwinDoc node R y y') : TwinDoc node R (resolveTwo x y) (resolveTwo x' y') := by
  obtain ⟨doc, a, a', ha, rfl, rfl⟩ := hx
  obtain ⟨doc', b, b', hb, rfl, rfl⟩ := hy
  rw [resolveTwo_stamp, resolveTwo_stamp]
  by_cases hlt : a < b
  · rw [if_pos hlt, if_pos ((h.order ha hb).mp hlt)]
    exact ⟨doc', b, b', hb, rfl, rfl⟩
  · rw [if_neg hlt, if_neg (mt (h.order ha hb).mpr hlt)]
    exact ⟨doc, a, a', ha, rfl, rfl⟩

theorem twin_resolveConflict (h : Twins R last last') (hl : List.Forall₂ (TwinDoc node R) l l') :
    Option.Rel (TwinDoc node R) (resolveConflict l) (resolveConflict l') := by
  cases hl with
  | nil => exact .none
  | @cons x x' l l' hx hl =>
    refine .some ?_
    induction hl generalizing x x' with
    | nil => exact hx
    | cons hy _ ih => exact ih (hx.resolveTwo h hy)

/-- What is read back of a document does not depend on its stamp. -/
theorem TwinDoc.read (reread : Document → Option Document) (hx : TwinDoc node R x x') :
    Option.Rel (TwinDoc node R) (x.reread reread) (x'.reread reread) := by
  obtain ⟨doc, a, a', ha, rfl, rfl⟩ := hx
  cases doc with
  | none => exact .some ⟨none, a, a', ha, rfl, rfl⟩
  | some doc =>
    simp only [VersionedDoc.reread, stamp]
    cases reread doc with
    | none => exact .none
    | some doc' => exact .some ⟨some doc', a, a', ha, rfl, rfl⟩

/-- The replicas hold twin versions under `key`. -/
def TwinReplicas (node : NodeId) (R : Hlc → Hlc → Prop) (key : ObjectKey)
    (replicas replicas' : Replicas) : Prop :=
  ∀ n, Option.Rel (TwinDoc node R) ((replicas n).held key) ((replicas' n).held key)

/-- Repair writes of twin versions to one node. -/
def TwinRepair (node : NodeId) (R : Hlc → Hlc → Prop) (key : ObjectKey)
    (p p' : NodeId × WriteRequest) : Prop :=
  p.1 = p'.1 ∧ ∃ x x', TwinDoc node R x x' ∧
    p.2 = ⟨key, x.document, x.version, x.hlc, false, none⟩ ∧
    p'.2 = ⟨key, x'.document, x'.version, x'.hlc, false, none⟩

section

variable {members : Membership} {c c' : Coordinator} {replicas replicas' : Replicas}
  {key : ObjectKey} {doc : Option Document} {env env' : Env}

theorem TwinReplicas.mono (hR : ∀ a a', R a a' → R' a a')
    (h : TwinReplicas node R key replicas replicas') :
    TwinReplicas node R' key replicas replicas' := by
  intro n
  have hn := h n
  generalize (replicas n).held key = o at hn ⊢
  generalize (replicas' n).held key = o' at hn ⊢
  cases hn with
  | some hx => exact .some (hx.mono hR)
  | none => exact .none

theorem TwinReplicas.symm (h : TwinReplicas node R key replicas replicas') :
    TwinReplicas node (fun a a' => R a' a) key replicas' replicas := by
  intro n
  have hn := h n
  generalize (replicas n).held key = o at hn ⊢
  generalize (replicas' n).held key = o' at hn ⊢
  cases hn with
  | some hx => exact .some hx.symm
  | none => exact .none

theorem TwinRepair.symm {p p' : NodeId × WriteRequest} (h : TwinRepair node R key p p') :
    TwinRepair node (fun a a' => R a' a) key p' p := by
  obtain ⟨hnode, x, x', hx, hp, hp'⟩ := h
  exact ⟨hnode.symm, x', x, hx.symm, hp', hp⟩

theorem twin_handleRead (reread : Document → Option Document)
    (h : TwinReplicas node R key replicas replicas') (n : NodeId) :
    Option.Rel (Option.Rel (TwinDoc node R)) ((replicas n).handleRead reread key)
      ((replicas' n).handleRead reread key) := by
  have hn := h n
  unfold ReplicaStore.handleRead
  generalize (replicas n).held key = o at hn ⊢
  generalize (replicas' n).held key = o' at hn ⊢
  cases hn with
  | none => exact .some .none
  | @some x x' hx =>
    have hread := hx.read reread
    dsimp only
    generalize x.reread reread = o at hread ⊢
    generalize x'.reread reread = o' at hread ⊢
    cases hread with
    | none => exact .none
    | some hx => exact .some (.some hx)

theorem twin_responses (reread : Document → Option Document)
    (h : TwinReplicas node R key replicas replicas') (reads : List (NodeId × Bool)) :
    List.Forall₂ (fun p p' => p.1 = p'.1 ∧ Option.Rel (TwinDoc node R) p.2 p'.2)
      (responses reread replicas key reads) (responses reread replicas' key reads) := by
  induction reads with
  | nil => exact .nil
  | cons read reads ih =>
    obtain ⟨n, _ | _⟩ := read
    · exact ih
    · have hn := twin_handleRead reread h n
      simp only [responses, List.filterMap_cons, if_true] at ih ⊢
      generalize (replicas n).handleRead reread key = o at hn ⊢
      generalize (replicas' n).handleRead reread key = o' at hn ⊢
      cases hn with
      | none => exact ih
      | some hx => exact .cons ⟨rfl, hx⟩ ih

theorem twin_answers {rs rs' : List (NodeId × Option VersionedDoc)}
    (h : List.Forall₂ (fun p p' => p.1 = p'.1 ∧ Option.Rel (TwinDoc node R) p.2 p'.2) rs rs') :
    List.Forall₂ (TwinDoc node R) (rs.filterMap Prod.snd) (rs'.filterMap Prod.snd) := by
  induction h with
  | nil => exact .nil
  | @cons p p' rs rs' hp _ ih =>
    obtain ⟨m, o⟩ := p
    obtain ⟨m', o'⟩ := p'
    cases hp.2 with
    | some hx => exact .cons hx ih
    | none => exact ih

theorem staleNodes_twin (h : Twins R last last') (hx : TwinDoc node R x x')
    {rs rs' : List (NodeId × Option VersionedDoc)}
    (hrs : List.Forall₂ (fun p p' => p.1 = p'.1 ∧ Option.Rel (TwinDoc node R) p.2 p'.2) rs rs') :
    staleNodes rs x = staleNodes rs' x' := by
  induction hrs with
  | nil => rfl
  | @cons p p' rs rs' hp _ ih =>
    obtain ⟨m, o⟩ := p
    obtain ⟨m', o'⟩ := p'
    obtain ⟨rfl, ho⟩ := hp
    cases ho with
    | some hy =>
      have hcompare := hy.compare h hx
      simp only [staleNodes, List.filterMap_cons] at ih ⊢
      rw [hcompare, ih]
    | none =>
      simp only [staleNodes, List.filterMap_cons] at ih ⊢
      rw [ih]

variable (members) (reread : Document → Option Document) in
/-- A read finds the same document in both runs, and leaves twin repairs. -/
theorem twin_quorumRead (h : Twins R last last') (hconfig : c'.config = c.config)
    (hrs : TwinReplicas node R key replicas replicas') (hreads : env'.reads = env.reads) :
    ((c.quorumRead members reread replicas key env).1.map fun r => (r.document, r.version.len)) =
        ((c'.quorumRead members reread replicas' key env').1.map fun r =>
          (r.document, r.version.len)) ∧
      List.Forall₂ (TwinRepair node R key) (c.quorumRead members reread replicas key env).2
        (c'.quorumRead members reread replicas' key env').2 := by
  have hresponses := twin_responses reread hrs env.reads
  have hwinner := twin_resolveConflict h (twin_answers hresponses)
  have hlength := hresponses.length_eq
  simp only [Coordinator.quorumRead, hconfig, hreads, ← hlength]
  split
  · exact ⟨rfl, .nil⟩
  split
  · exact ⟨rfl, .nil⟩
  generalize hw : resolveConflict ((responses reread replicas key env.reads).filterMap Prod.snd) = o
    at hwinner ⊢
  generalize hw' :
    resolveConflict ((responses reread replicas' key env.reads).filterMap Prod.snd) = o'
    at hwinner ⊢
  cases hwinner with
  | none => exact ⟨rfl, .nil⟩
  | @some x x' hx =>
    dsimp only
    rw [← staleNodes_twin h hx hresponses]
    refine ⟨?_, ?_⟩
    · obtain ⟨doc, a, a', -, rfl, rfl⟩ := hx
      rfl
    · rw [List.forall₂_map_left_iff, List.forall₂_map_right_iff, List.forall₂_same]
      exact fun m _ => ⟨rfl, x, x', hx, rfl, rfl⟩

/-- The same outside world, except for the value that a working clock returns. -/
structure SameOutside (env env' : Env) : Prop where
  now : env'.now = env.now
  tick : (env'.tick.map fun _ => ()) = env.tick.map fun _ => ()
  writes : env'.writes = env.writes
  hints : env'.hints = env.hints
  storedAt : env'.storedAt = env.storedAt
  reads : env'.reads = env.reads

/-- How many hints are stored depends on the nodes that take them, not on what they hold. -/
theorem storeSloppyHints_fst {w : Nat} {req req' : WriteRequest} {owners failed : List NodeId}
    {fate : NodeId → WriteFate} :
    (storeSloppyHints members w replicas req owners failed fate).1 =
      (storeSloppyHints members w replicas' req' owners failed fate).1 := by
  unfold storeSloppyHints
  split
  · rfl
  · dsimp only
    generalize (failed.take _).zip _ = pairs
    generalize 0 = stored
    induction pairs generalizing replicas replicas' stored with
    | nil => rfl
    | cons pair pairs ih =>
      rw [List.foldl_cons, List.foldl_cons]
      exact ih _

/-- The hints that a fan-out with the fates in `env` leads to. -/
def hintCount (members : Membership) (config : QuorumConfig) (key : ObjectKey) (env : Env) : Nat :=
  (storeSloppyHints members config.w (fun n => .new n) ⟨key, none, .new, .zero, false, none⟩
    (members.ownersForKey key.toBytes config.n) (failedNodes env.writes) env.hints).1

theorem replicate_fst (htick : env.tick = .ok a) :
    ((c.replicate members replicas key doc env).1.map fun _ => ()) =
      if c.config.w ≤ (ackedNodes env.writes).length then .ok ()
      else if c.config.w ≤ (ackedNodes env.writes).length + hintCount members c.config key env then
        .ok ()
      else .error (.insufficientReplicas c.config.w
        ((ackedNodes env.writes).length + hintCount members c.config key env)) := by
  have hcount (replicas : Replicas) (req : WriteRequest) :
      (storeSloppyHints members c.config.w replicas req
        (members.ownersForKey key.toBytes c.config.n) (failedNodes env.writes) env.hints).1 =
        hintCount members c.config key env := storeSloppyHints_fst
  simp only [Coordinator.replicate, htick, VectorClock.increment_new, broadcastWrite, hcount]
  by_cases hacked : c.config.w ≤ (ackedNodes env.writes).length
  · rw [if_pos hacked, if_pos hacked]
    rfl
  · rw [if_neg hacked, if_neg hacked]
    by_cases htotal :
        c.config.w ≤ (ackedNodes env.writes).length + hintCount members c.config key env
    · rw [if_pos htotal, if_pos htotal]
      rfl
    · rw [if_neg htotal, if_neg htotal]
      rfl

theorem SameOutside.ticks (henv : SameOutside env env') :
    (∃ e, env.tick = .error e ∧ env'.tick = .error e) ∨
      ∃ hlc hlc', env.tick = .ok hlc ∧ env'.tick = .ok hlc' := by
  have htick := henv.tick
  cases hc : env.tick <;> cases hc' : env'.tick <;> rw [hc, hc'] at htick <;> cases htick
  · exact Or.inl ⟨_, rfl, rfl⟩
  · exact Or.inr ⟨_, _, rfl, rfl⟩

/-- What corresponds after the same operation in both runs. -/
structure TwinOutcome (node : NodeId) (R : Hlc → Hlc → Prop) (replicas replicas' : Replicas)
    (res res' : Except ReplicationError WriteResult × Coordinator × Replicas) : Prop where
  answer : (res.1.map fun _ => ()) = res'.1.map fun _ => ()
  twins : ∃ R', (∀ a a', R a a' → R' a a') ∧ Twins R' res.2.1.clock res'.2.1.clock ∧
    ∀ k, TwinReplicas node R k replicas replicas' → TwinReplicas node R' k res.2.2 res'.2.2

variable (members) in
theorem twin_replicate (h : Twins R c.clock c'.clock) (hnode : c.localNode = node)
    (hnode' : c'.localNode = node) (hconfig : c'.config = c.config) (henv : SameOutside env env')
    (hclock : ∀ hlc, env.tick = .ok hlc → c.clock < hlc)
    (hclock' : ∀ hlc, env'.tick = .ok hlc → c'.clock < hlc) :
    TwinOutcome node R replicas replicas' (c.replicate members replicas key doc env)
      (c'.replicate members replicas' key doc env') := by
  rcases henv.ticks with ⟨e, htick, htick'⟩ | ⟨hlc, hlc', htick, htick'⟩
  · simp only [Coordinator.replicate, htick, htick']
    exact ⟨rfl, R, fun _ _ hr => hr, h, fun _ hk => hk⟩
  · have hsends := c.replicate_sends members replicas key doc htick
    have hsends' := c'.replicate_sends members replicas' key doc htick'
    refine ⟨?_, fun b b' => R b b' ∨ b = hlc ∧ b' = hlc', fun _ _ => Or.inl, ?_, ?_⟩
    · have hcount : hintCount members c.config key env' = hintCount members c.config key env := by
        rw [hintCount, hintCount, henv.writes, henv.hints]
      rw [replicate_fst htick, replicate_fst htick', hconfig, hcount, henv.writes]
    · rw [hsends.clock, hsends'.clock]
      exact h.tick (hclock hlc htick) (hclock' hlc' htick')
    · intro k hk n
      by_cases hreach : Reached env.writes n ∧ k.toBytes = key.toBytes
      · rw [hsends.reached n k hreach.1 hreach.2,
          hsends'.reached n k (henv.writes ▸ hreach.1) hreach.2, hnode, hnode']
        exact .some ⟨doc, hlc, hlc', Or.inr ⟨rfl, rfl⟩, rfl, rfl⟩
      · rw [hsends.others n k hreach, hsends'.others n k (henv.writes ▸ hreach)]
        exact hk.mono (fun _ _ => Or.inl) n

theorem TwinOutcome.remember
    {res res' : Except ReplicationError WriteResult × Coordinator × Replicas}
    (h : TwinOutcome node R replicas replicas' res res') (toVec : Document → Bytes) (ikey : String)
    (d : Document) (now : Nat) :
    TwinOutcome node R replicas replicas' (Coordinator.remember toVec ikey d now res)
      (Coordinator.remember toVec ikey d now res') := by
  obtain ⟨answer, c, rs⟩ := res
  obtain ⟨answer', c', rs'⟩ := res'
  have hanswer := h.answer
  cases answer <;> cases answer' <;> cases hanswer <;> exact ⟨h.answer, h.twins⟩

theorem TwinRepair.mono (hR : ∀ a a', R a a' → R' a a') {p p' : NodeId × WriteRequest}
    (h : TwinRepair node R key p p') : TwinRepair node R' key p p' := by
  obtain ⟨hnode, x, x', hx, hp, hp'⟩ := h
  exact ⟨hnode, x, x', hx.mono hR, hp, hp'⟩

/-- A repair that takes place in both runs, under this key or another. -/
theorem TwinReplicas.repair {k : ObjectKey} (h : TwinReplicas node R k replicas replicas')
    {p p' : NodeId × WriteRequest} (hp : TwinRepair node R key p p') (fate : WriteFate) :
    TwinReplicas node R k (remoteWrite replicas p.1 p.2 fate)
      (remoteWrite replicas' p'.1 p'.2 fate) := by
  obtain ⟨m, req⟩ := p
  obtain ⟨m', req'⟩ := p'
  obtain ⟨rfl, x, x', hx, rfl, rfl⟩ := hp
  intro n
  rw [held_remoteWrite rfl, held_remoteWrite rfl]
  by_cases hreach : n = m ∧ fate.applied = true ∧ k.toBytes = key.toBytes
  · rw [if_pos hreach, if_pos hreach]
    obtain ⟨doc, a, a', ha, rfl, rfl⟩ := hx
    exact .some ⟨doc, a, a', ha, rfl, rfl⟩
  · rw [if_neg hreach, if_neg hreach]
    exact h n

end

end BashfulDB.Replication

import BashfulDB.Replication.Drift
import BashfulDB.Replication.History

/-!
One coordinator for a key. Its stamps are ordered as its clock, no replica ever goes back, and so a
read finds the latest update that a write quorum acknowledged, or one attempted after it.
-/
namespace BashfulDB.Replication

open Clock Data

/-- Operations go through the coordinator on `node`. -/
def Event.Through (node : NodeId) : Event → Prop
  | .update n _ _ _ => n = node
  | .read n _ _ => n = node
  | .repair _ _ => True

/-- The event is an update through `node` that sends `document` with this version. -/
def Event.Issues (node : NodeId) (e : Event) (document : Option Document)
    (version : VectorClock) : Prop :=
  ∃ u env answer hlc, e = .update node u env answer ∧ env.tick = .ok hlc ∧
    document = u.document ∧ version = .single node hlc

/-- What the event writes is read back as it is, or not at all. -/
def Event.Faithful (reread : Document → Option Document) : Event → Prop
  | .update _ u _ _ => ∀ doc, u.document = some doc → Replication.Faithful reread doc
  | .read .. | .repair .. => True

variable {toVec : Document → Bytes} {reread : Document → Option Document} {members : Membership}
  {config : QuorumConfig} {key : ObjectKey} {s t : System} {e : Event} {v w : VersionedDoc}
  {node n : NodeId} {u : Update} {env : Env}

/-- Stamped by `node`, at a moment its clock has already passed. -/
structure System.StampedBy (s : System) (node : NodeId) (v : VersionedDoc) : Prop where
  version : v.version = .single node v.hlc
  tombstone : v.isTombstone = v.document.isNone
  clock : v.hlc ≤ (s.coordinators node).clock

/-- Only `node` has stamped versions, and a repair write in progress puts no replica back. -/
structure Solo (config : QuorumConfig) (key : ObjectKey) (node : NodeId) (s : System) : Prop where
  stamps : Stamps config key s
  replicas : ∀ n v, (s.replicas n).held key = some v → s.StampedBy node v
  pending : ∀ p ∈ s.pending, s.StampedBy node p.2.versioned
  forward : ∀ p ∈ s.pending, ∀ v, (s.replicas p.1).held key = some v → v.hlc ≤ p.2.hlc
  same : ∀ p ∈ s.pending, ∀ q ∈ s.pending, p.2.hlc = q.2.hlc

theorem solo_initial (clocks : NodeId → Hlc) : Solo config key node (.initial config clocks) where
  stamps := stamps_initial clocks
  replicas n v h := by cases h
  pending p h := by cases h
  forward p h := by cases h
  same p h := by cases h

theorem System.StampedBy.mono (h : s.StampedBy node v)
    (hle : (s.coordinators node).clock ≤ (t.coordinators node).clock) : t.StampedBy node v :=
  ⟨h.version, h.tombstone, h.clock.trans hle⟩

theorem System.StampedBy.read (h : s.StampedBy node v) (hw : v.reread reread = some w) :
    s.StampedBy node w := by
  obtain ⟨heq, hnone⟩ := VersionedDoc.reread_eq hw
  rw [heq]
  exact ⟨h.version, h.tombstone.trans hnone.symm, h.clock⟩

/-- What was issued is read as it was issued. -/
theorem Event.Issues.read (h : e.Issues node v.document v.version) (he : e.Faithful reread)
    (hw : v.reread reread = some w) : w = v := by
  obtain ⟨u, env, answer, hlc, rfl, -, hdoc, -⟩ := h
  exact VersionedDoc.reread_faithful (fun doc hv => he doc (hdoc ▸ hv)) hw

theorem stampedBy_stamp {hlc : Hlc} {doc : Option Document}
    (h : hlc ≤ (s.coordinators node).clock) : s.StampedBy node (stamp node hlc doc) :=
  ⟨rfl, rfl, h⟩

/-- Versions of one node never lose to an older one. -/
theorem hlc_le_resolveTwo (hv : s.StampedBy node v) (hw : s.StampedBy node w) :
    v.hlc ≤ (resolveTwo v w).hlc ∧ w.hlc ≤ (resolveTwo v w).hlc := by
  have hcompare : v.version.compare w.version =
      if v.hlc < w.hlc then .before else if w.hlc < v.hlc then .after else .equal := by
    rw [hv.version, hw.version, VectorClock.compare_single]
  by_cases hlt : v.hlc < w.hlc
  · rw [if_pos hlt] at hcompare
    rw [resolveTwo_of_before hcompare]
    exact ⟨hlt.le, le_rfl⟩
  · have hleft : resolveTwo v w = v := by
      rw [if_neg hlt] at hcompare
      by_cases hgt : w.hlc < v.hlc
      · rw [if_pos hgt] at hcompare
        simp only [resolveTwo, hcompare]
      · rw [if_neg hgt] at hcompare
        simp only [resolveTwo, hcompare]
    rw [hleft]
    exact ⟨le_rfl, not_lt.mp hlt⟩

/-- The winner of a read is the newest version that answered. -/
theorem Solo.hlc_le_winner (hs : Solo config key node s)
    (h : resolveConflict (Coordinator.answers reread s.replicas key env) = some w) :
    ∀ v ∈ Coordinator.answers reread s.replicas key env, v.hlc ≤ w.hlc := by
  have hstamped : ∀ v ∈ Coordinator.answers reread s.replicas key env, s.StampedBy node v := by
    intro v hv
    obtain ⟨n, u, -, hu, hread⟩ := Coordinator.mem_answers.mp hv
    exact (hs.replicas n u hu).read hread
  rw [resolveConflict_eq_champion] at h
  exact Selection.le_champion resolveTwo_selective
    (fun a ha b hb => hlc_le_resolveTwo (hstamped a ha) (hstamped b hb)) h

theorem winner_held (h : resolveConflict (Coordinator.answers reread s.replicas key env) = some w) :
    ∃ n v, (s.replicas n).held key = some v ∧ v.reread reread = some w := by
  obtain ⟨n, v, -, hv, hw⟩ := Coordinator.mem_answers.mp (resolveConflict_mem h)
  exact ⟨n, v, hv, hw⟩

/-- What a step through `node` can write to replica `n`: a new stamp, or a repair in progress. -/
def Written (s : System) (e : Event) (t : System) (node n : NodeId) (v : VersionedDoc) : Prop :=
  (∃ u env answer hlc, e = .update node u env answer ∧ env.tick = .ok hlc ∧
      v = stamp node hlc u.document ∧ (s.coordinators node).clock < hlc ∧
      (t.coordinators node).clock = hlc) ∨
    ∃ req, (n, req) ∈ s.pending ∧ v = req.versioned

theorem step_held (hs : Stamps config key s) (h : Step toVec reread members config key s e t)
    (hnode : e.Through node) (n : NodeId) :
    (t.replicas n).held key = (s.replicas n).held key ∨
      ∃ v, (t.replicas n).held key = some v ∧ Written s e t node n v := by
  cases e with
  | update m u env answer =>
    obtain rfl : m = node := hnode
    have hstep := step_update h
    rcases hstep.effect with ⟨hlc, hsends⟩ | ⟨hstops, -⟩
    · by_cases hreach : Reached env.writes n
      · have hread := hsends.reached n key hreach rfl
        rw [hs.localNode m] at hread
        exact Or.inr ⟨_, hread, Or.inl ⟨u, env, answer, hlc, rfl, hsends.tick, rfl,
          hstep.allowed.tick hlc hsends.tick, hsends.clock⟩⟩
      · exact Or.inl (hsends.others n key fun hr => hreach hr.1)
    · have hsame : t.replicas = s.replicas := hstops.replicas
      exact Or.inl (by rw [hsame])
  | read m env answer =>
    cases h
    exact Or.inl rfl
  | repair m fate =>
    cases h with
    | @repair _ req _ before after hpending =>
      have hmem : (m, req) ∈ s.pending := by simp [hpending]
      obtain ⟨hkey, hhint, -⟩ := hs.pending (m, req) hmem
      dsimp only
      rw [held_remoteWrite hhint]
      split
      · rename_i hn
        exact Or.inr ⟨_, rfl, Or.inr ⟨req, by rwa [hn.1], rfl⟩⟩
      · exact Or.inl rfl

/-- The repairs that a step leaves: some of those before it, or those of a read. -/
theorem step_pending (h : Step toVec reread members config key s e t) :
    t.pending ⊆ s.pending ∨ ∃ m env answer w, e = .read m env answer ∧
      resolveConflict (Coordinator.answers reread s.replicas key env) = some w ∧
      ∀ p ∈ t.pending, p.2 = ⟨key, w.document, w.version, w.hlc, false, none⟩ ∧
        ∃ doc, (p.1, doc) ∈ responses reread s.replicas key env.reads := by
  cases e with
  | update m u env answer =>
    rw [(step_update h).idle]
    exact Or.inl (List.nil_subset _)
  | read m env answer =>
    cases h with
    | read _ _ hread =>
      have hanswered := Coordinator.quorumRead_repairs hread
      rcases (s.coordinators m).quorumRead_cases members reread s.replicas key env with
        ⟨e, heq⟩ | ⟨-, ⟨-, heq⟩ | ⟨w, stale, hw, heq⟩⟩
      · cases heq.symm.trans hread
        exact Or.inl (List.nil_subset _)
      · cases heq.symm.trans hread
        exact Or.inl (List.nil_subset _)
      · cases heq.symm.trans hread
        refine Or.inr ⟨m, env, _, w, rfl, hw, fun p hp => ⟨?_, hanswered p hp⟩⟩
        obtain ⟨k, -, rfl⟩ := List.mem_map.mp hp
        rfl
  | repair m fate =>
    cases h with
    | repair hpending =>
      left
      intro p hp
      rw [hpending]
      simp only [List.mem_append, List.mem_cons] at hp ⊢
      tauto

theorem Solo.step (hs : Solo config key node s) (h : Step toVec reread members config key s e t)
    (hnode : e.Through node) : Solo config key node t := by
  have hclock := clock_le_step h node
  have hreplicas : ∀ n v, (t.replicas n).held key = some v → t.StampedBy node v := by
    intro n v hv
    rcases step_held hs.stamps h hnode n with hsame | ⟨v', hv', hwritten⟩
    · exact (hs.replicas n v (hsame.symm.trans hv)).mono hclock
    · cases hv'.symm.trans hv
      rcases hwritten with ⟨u, env, answer, hlc, -, -, rfl, -, hlast⟩ | ⟨req, hreq, rfl⟩
      · exact stampedBy_stamp hlast.ge
      · exact (hs.pending _ hreq).mono hclock
  have hwinner {env : Env} {w : VersionedDoc}
      (hw : resolveConflict (Coordinator.answers reread s.replicas key env) = some w) :
      WriteRequest.versioned ⟨key, w.document, w.version, w.hlc, false, none⟩ = w :=
    versioned_stamp (stamped_winner hs.stamps hw)
  refine ⟨stamps_step h hs.stamps, hreplicas, ?_, ?_, ?_⟩
  · intro p hp
    rcases step_pending h with hkept | ⟨m, env, answer, w, -, hw, hread⟩
    · exact (hs.pending p (hkept hp)).mono hclock
    · obtain ⟨n, v, hn, hv⟩ := winner_held hw
      rw [(hread p hp).1, hwinner hw]
      exact ((hs.replicas n v hn).read hv).mono hclock
  · intro p hp v hv
    rcases step_pending h with hkept | ⟨m, env, answer, w, rfl, hw, hread⟩
    · rcases step_held hs.stamps h hnode p.1 with hsame | ⟨v', hv', hwritten⟩
      · exact hs.forward p (hkept hp) v (hsame.symm.trans hv)
      · cases hv'.symm.trans hv
        rcases hwritten with ⟨u, env, answer, hlc, rfl, -⟩ | ⟨req, hreq, rfl⟩
        · rw [(step_update h).idle] at hp
          cases hp
        · exact (hs.same _ hreq p (hkept hp)).le
    · -- The node answered the read, so that the winner is not older than what it holds.
      obtain ⟨heq, doc, hanswered⟩ := hread p hp
      cases h
      rw [heq]
      obtain ⟨x, hmem, hx⟩ := Coordinator.exists_answer_of_held hanswered hv
      have hle := hs.hlc_le_winner hw x hmem
      rwa [(VersionedDoc.reread_eq hx).1] at hle
  · intro p hp q hq
    rcases step_pending h with hkept | ⟨m, env, answer, w, -, -, hread⟩
    · exact hs.same p (hkept hp) q (hkept hq)
    · rw [(hread p hp).1, (hread q hq).1]

/-- No replica goes back. -/
theorem Solo.hlc_le_step (hs : Solo config key node s)
    (h : Step toVec reread members config key s e t)
    (hnode : e.Through node) (hv : (s.replicas n).held key = some v) :
    ∃ v', (t.replicas n).held key = some v' ∧ v.hlc ≤ v'.hlc := by
  rcases step_held hs.stamps h hnode n with hsame | ⟨v', hv', hwritten⟩
  · exact ⟨v, hsame.trans hv, le_rfl⟩
  · refine ⟨v', hv', ?_⟩
    rcases hwritten with ⟨u, env, answer, hlc, -, -, rfl, hlt, -⟩ | ⟨req, hreq, rfl⟩
    · exact (hs.replicas n v hv).clock.trans hlt.le
    · exact hs.forward _ hreq v hv

/-- Every version from `floor` on, stored or in a repair, was issued by one of these events. -/
structure Origin (key : ObjectKey) (node : NodeId) (floor : Hlc) (events : List Event)
    (s : System) : Prop where
  replicas : ∀ n v, (s.replicas n).held key = some v → floor ≤ v.hlc →
    ∃ e ∈ events, e.Issues node v.document v.version
  pending : ∀ p ∈ s.pending, floor ≤ p.2.hlc → ∃ e ∈ events, e.Issues node p.2.doc p.2.version

theorem Origin.step {floor : Hlc} {events : List Event} (ho : Origin key node floor events s)
    (hfaithful : ∀ e ∈ events, e.Faithful reread)
    (hs : Solo config key node s) (h : Step toVec reread members config key s e t)
    (hnode : e.Through node) : Origin key node floor (events ++ [e]) t := by
  have hold {document : Option Document} {version : VectorClock}
      (hold : ∃ e ∈ events, e.Issues node document version) :
      ∃ e' ∈ events ++ [e], e'.Issues node document version := by
    obtain ⟨e', he', hissues⟩ := hold
    exact ⟨e', List.mem_append_left _ he', hissues⟩
  constructor
  · intro n v hv hfloor
    rcases step_held hs.stamps h hnode n with hsame | ⟨v', hv', hwritten⟩
    · exact hold (ho.replicas n v (hsame.symm.trans hv) hfloor)
    · cases hv'.symm.trans hv
      rcases hwritten with ⟨u, env, answer, hlc, rfl, htick, rfl, -⟩ | ⟨req, hreq, rfl⟩
      · exact ⟨_, by simp, u, env, answer, hlc, rfl, htick, rfl, rfl⟩
      · exact hold (ho.pending _ hreq hfloor)
  · intro p hp hfloor
    rcases step_pending h with hkept | ⟨m, env, answer, w, -, hw, hread⟩
    · exact hold (ho.pending p (hkept hp) hfloor)
    · obtain ⟨n, v, hn, hv⟩ := winner_held hw
      rw [(hread p hp).1] at hfloor ⊢
      have hfloor' : floor ≤ v.hlc := by rwa [(VersionedDoc.reread_eq hv).1] at hfloor
      obtain ⟨e', he', hissues⟩ := ho.replicas n v hn hfloor'
      rw [hissues.read (hfaithful e' he') hv]
      exact hold ⟨e', he', hissues⟩

/-- A write quorum holds versions from `floor` on. -/
def QuorumFrom (members : Membership) (config : QuorumConfig) (key : ObjectKey) (floor : Hlc)
    (s : System) : Prop :=
  ∃ acked ⊆ (owners members config key).toFinset, config.w ≤ acked.card ∧
    ∀ n ∈ acked, ∃ v, (s.replicas n).held key = some v ∧ floor ≤ v.hlc

theorem QuorumFrom.step {floor : Hlc} (hq : QuorumFrom members config key floor s)
    (hs : Solo config key node s) (h : Step toVec reread members config key s e t)
    (hnode : e.Through node) : QuorumFrom members config key floor t := by
  obtain ⟨acked, hsub, hcard, hheld⟩ := hq
  refine ⟨acked, hsub, hcard, fun n hn => ?_⟩
  obtain ⟨v, hv, hfloor⟩ := hheld n hn
  obtain ⟨v', hv', hle⟩ := hs.hlc_le_step h hnode hv
  exact ⟨v', hv', hfloor.trans hle⟩

/-- A read quorum hears of it. -/
theorem QuorumFrom.answered {floor : Hlc} (hq : QuorumFrom members config key floor s)
    (hcard : (owners members config key).length < config.r + config.w)
    (hnodup : (owners members config key).Nodup)
    (hreads : (env.reads.map Prod.fst).Perm (owners members config key))
    (hlen : config.r ≤ (responses reread s.replicas key env.reads).length) :
    ∃ v ∈ Coordinator.answers reread s.replicas key env, floor ≤ v.hlc := by
  obtain ⟨acked, hsub, hacked, hheld⟩ := hq
  obtain ⟨n, hn, doc, hmem⟩ := quorums_meet hcard hnodup hreads hlen hsub hacked
  obtain ⟨v, hv, hfloor⟩ := hheld n hn
  obtain ⟨w, hw, hread⟩ := Coordinator.exists_answer_of_held hmem hv
  refine ⟨w, hw, ?_⟩
  rwa [(VersionedDoc.reread_eq hread).1]

/-- After an acknowledged update: a write quorum holds its stamp, the only one that is so new. -/
theorem Solo.acked {r : WriteResult} (hs : Solo config key node s)
    (hnodup : (owners members config key).Nodup)
    (h : Step toVec reread members config key s (.update node u env (.ok r)) t)
    (hfresh : ¬ u.Replays toVec (s.coordinators node) env.now) (hack : config.w ≤ r.nodesAcked) :
    ∃ floor, QuorumFrom members config key floor t ∧
      Origin key node floor [.update node u env (.ok r)] t := by
  have hstep := step_update h
  rcases hstep.effect with ⟨hlc, hsends⟩ | ⟨-, ⟨e, he⟩ | hrep⟩
  · rw [(hsends.answer r rfl).2] at hack
    obtain ⟨acked, hsub, hcard, hheld⟩ :=
      quorum_of_sends hsends hnodup hstep.allowed.writes hack
    refine ⟨hlc, ⟨acked, hsub, hcard, fun n hn => ⟨_, hheld n hn, le_rfl⟩⟩, ?_, ?_⟩
    · intro n v hv hfloor
      rcases step_held hs.stamps h rfl n with hsame | ⟨v', hv', hwritten⟩
      · have hle := (hs.replicas n v (hsame.symm.trans hv)).clock
        exact absurd (hfloor.trans hle) (not_le.mpr (hstep.allowed.tick hlc hsends.tick))
      · cases hv'.symm.trans hv
        rcases hwritten with ⟨u', env', answer', g, heq, htick, rfl, -⟩ | ⟨req, hreq, -⟩
        · exact ⟨_, List.mem_singleton_self _, u', env', answer', g, heq, htick, rfl, rfl⟩
        · cases h with
          | update hidle _ _ =>
            rw [hidle] at hreq
            cases hreq
    · intro p hp
      rw [hstep.idle] at hp
      cases hp
  · cases he
  · exact absurd hrep hfresh

theorem solo_run (clocks : NodeId → Hlc) {events : List Event}
    (h : Steps (Step toVec reread members config key) (.initial config clocks) events s)
    (hnode : ∀ e ∈ events, e.Through node) (hfaithful : ∀ e ∈ events, e.Faithful reread) :
    Solo config key node s ∧ Origin key node Hlc.zero events s := by
  refine h.history (I := fun events s => Solo config key node s ∧
    Origin key node Hlc.zero events s) ⟨solo_initial clocks, ?_, ?_⟩ ?_
  · intro n v hv
    cases hv
  · intro p hp
    cases hp
  · rintro ys u e v - ⟨zs, rfl⟩ ⟨hs, ho⟩ hstep
    have he := hnode e (by simp)
    exact ⟨hs.step hstep he, ho.step (fun e he => hfaithful e (by simp [he])) hs hstep he⟩

/-- A successful read answers with what it found: nothing, or the winner among the replicas. -/
theorem Solo.read {r : ReadResult} (hs : Solo config key node s)
    (h : Step toVec reread members config key s (.read node env (.ok r)) t) :
    config.r ≤ (responses reread s.replicas key env.reads).length ∧
      (Coordinator.answers reread s.replicas key env = [] ∧ r.document = none ∧ r.version = .new ∨
        ∃ n x w, (s.replicas n).held key = some x ∧ x.reread reread = some w ∧
          (∀ v ∈ Coordinator.answers reread s.replicas key env, v.hlc ≤ w.hlc) ∧
          r.document = w.document ∧ r.version = w.version) := by
  cases h with
  | read _ _ hread =>
    rcases (s.coordinators node).quorumRead_cases members reread s.replicas key env with
      ⟨e, heq⟩ | ⟨hlen, ⟨hnil, heq⟩ | ⟨w, stale, hw, heq⟩⟩
    · cases heq.symm.trans hread
    · cases heq.symm.trans hread
      rw [hs.stamps.config node] at hlen
      exact ⟨hlen, Or.inl ⟨hnil, rfl, rfl⟩⟩
    · cases heq.symm.trans hread
      rw [hs.stamps.config node] at hlen
      obtain ⟨n, x, hn, hx⟩ := winner_held hw
      exact ⟨hlen, Or.inr ⟨n, x, w, hn, hx, hs.hlc_le_winner hw, rfl, rfl⟩⟩

/-- With all operations through one coordinator, a successful read returns nothing or what some
update issued; and it returns what the latest update acknowledged by a write quorum of owners
issued, or an update after it. An answer from the idempotency store is not an update of its own. -/
theorem read_latest_acked_or_later (clocks : NodeId → Hlc) {events : List Event} {r : ReadResult}
    (hquorum : config.n < config.r + config.w)
    (howners : (owners members config key).length = config.n)
    (hnodup : (owners members config key).Nodup)
    (hrun : Steps (Step toVec reread members config key) (.initial config clocks) events s)
    (hnode : ∀ e ∈ events, e.Through node) (hfaithful : ∀ e ∈ events, e.Faithful reread)
    (hread : Step toVec reread members config key s (.read node env (.ok r)) t) :
    (r.document = none ∧ r.version = .new ∨ ∃ e ∈ events, e.Issues node r.document r.version) ∧
      ∀ pre later s₁ s₂ u env' r', events = pre ++ .update node u env' (.ok r') :: later →
        Steps (Step toVec reread members config key) (.initial config clocks) pre s₁ →
        Step toVec reread members config key s₁ (.update node u env' (.ok r')) s₂ →
        Steps (Step toVec reread members config key) s₂ later s →
        ¬ u.Replays toVec (s₁.coordinators node) env'.now → config.w ≤ r'.nodesAcked →
        ∃ e ∈ .update node u env' (.ok r') :: later, e.Issues node r.document r.version := by
  obtain ⟨hs, ho⟩ := solo_run clocks hrun hnode hfaithful
  obtain ⟨hlen, hfound⟩ := hs.read hread
  have hreads : (env.reads.map Prod.fst).Perm (owners members config key) := by
    cases hread with
    | read _ hallowed _ => exact hallowed.reads
  constructor
  · rcases hfound with ⟨-, hnone⟩ | ⟨n, x, w, hn, hx, -, hdoc, hver⟩
    · exact Or.inl hnone
    · obtain ⟨e, he, hissues⟩ := ho.replicas n x hn (Hlc.zero_le _)
      rw [hdoc, hver, hissues.read (hfaithful e he) hx]
      exact Or.inr ⟨e, he, hissues⟩
  · rintro pre later s₁ s₂ u env' r' rfl hpre hupdate hlater hfresh hack
    obtain ⟨hs₁, -⟩ := solo_run clocks hpre (fun e he => hnode e (by simp [he]))
      fun e he => hfaithful e (by simp [he])
    obtain ⟨floor, hq₂, ho₂⟩ := hs₁.acked hnodup hupdate hfresh hack
    have hafter : Solo config key node s ∧ QuorumFrom members config key floor s ∧
        Origin key node floor (.update node u env' (.ok r') :: later) s := by
      refine hlater.history (I := fun ys s => Solo config key node s ∧
        QuorumFrom members config key floor s ∧
        Origin key node floor (.update node u env' (.ok r') :: ys) s)
        ⟨hs₁.step hupdate rfl, hq₂, ho₂⟩ ?_
      rintro ys s e t - ⟨zs, rfl⟩ ⟨hs, hq, ho⟩ hstep
      have he := hnode e (by simp)
      refine ⟨hs.step hstep he, hq.step hs hstep he, ho.step (fun e he => ?_) hs hstep he⟩
      exact hfaithful e (List.mem_append_right _ (by
        rcases List.mem_cons.mp he with rfl | he <;> simp [*]))
    obtain ⟨-, hq, ho'⟩ := hafter
    obtain ⟨v, hanswer, hfloor⟩ := hq.answered (by omega) hnodup hreads hlen
    rcases hfound with ⟨hnil, -⟩ | ⟨m, x, w, hm, hx, hbest, hdoc, hver⟩
    · rw [hnil] at hanswer
      cases hanswer
    · have hle := hfloor.trans (hbest v hanswer)
      rw [(VersionedDoc.reread_eq hx).1] at hle
      obtain ⟨e, he, hissues⟩ := ho'.replicas m x hm hle
      rw [hdoc, hver, hissues.read (hfaithful e (List.mem_append_right _ he)) hx]
      exact ⟨e, he, hissues⟩

/-- The update reaches the first owner, but no owner acknowledges it. -/
def Env.failing (hlc : Hlc) : Env :=
  { Env.reaching hlc .acked with
    writes := [(⟨⟨1⟩⟩, .failed true), (⟨⟨2⟩⟩, .failed false), (⟨⟨3⟩⟩, .failed false)] }

/-- A write that every owner acknowledges. -/
def ackedWrite : Event :=
  .update ⟨⟨1⟩⟩ (.write (.blank ⟨⟨0⟩⟩) none) (.reaching ⟨1⟩ .acked) (.ok ⟨.single ⟨⟨1⟩⟩ ⟨1⟩, 3, 0⟩)

/-- A deletion that fails. -/
def failedDelete : Event :=
  .update ⟨⟨1⟩⟩ .delete (.failing ⟨5⟩) (.error (.insufficientReplicas 2 0))

def afterAcked : System :=
  System.after (fun _ => []) threeOwners sampleKey (.initial ⟨3, 2, 2⟩ (fun _ => Hlc.zero)) ⟨⟨1⟩⟩
    (.write (.blank ⟨⟨0⟩⟩) none) (.reaching ⟨1⟩ .acked)

def afterFailed : System :=
  System.after (fun _ => []) threeOwners sampleKey afterAcked ⟨⟨1⟩⟩ .delete (.failing ⟨5⟩)

/-- The read returns the deletion, which reached one owner. -/
theorem read_latest_acked_or_later_failedDelete :
    ∃ r, ((afterFailed.coordinators ⟨⟨1⟩⟩).quorumRead threeOwners some afterFailed.replicas
        sampleKey (.reaching ⟨9⟩ .acked)).1 = .ok r ∧
      r.document = none ∧
      ∃ e ∈ [ackedWrite, failedDelete], e.Issues ⟨⟨1⟩⟩ r.document r.version := by
  have hresult : ((afterFailed.coordinators ⟨⟨1⟩⟩).quorumRead threeOwners some afterFailed.replicas
      sampleKey (.reaching ⟨9⟩ .acked)).1.toOption.map (fun r => r.document.isSome) =
        some false := by
    decide +kernel
  rcases hres : (afterFailed.coordinators ⟨⟨1⟩⟩).quorumRead threeOwners some afterFailed.replicas
    sampleKey (.reaching ⟨9⟩ .acked) with ⟨e | r, repairs⟩
  · rw [hres] at hresult
    cases hresult
  rw [hres] at hresult
  have hfirst : SampleStep (.initial ⟨3, 2, 2⟩ (fun _ => Hlc.zero)) ackedWrite afterAcked :=
    .update rfl (allowed_reaching (by decide)) rfl
  have hsecond : SampleStep afterAcked failedDelete afterFailed := by
    refine .update rfl ⟨List.Perm.refl _, List.Perm.refl _, ?_⟩ rfl
    rintro g ⟨⟩
    decide
  have hread : SampleStep afterFailed (.read ⟨⟨1⟩⟩ (.reaching ⟨9⟩ .acked) (.ok r)) _ :=
    .read rfl (allowed_reaching (by decide)) hres
  have hfaithful : ∀ e ∈ [ackedWrite, failedDelete], e.Faithful some := by
    simp [ackedWrite, failedDelete, Event.Faithful, faithful_some]
  have hlatest := (read_latest_acked_or_later (fun _ => Hlc.zero) (by decide) rfl (by decide)
    (.cons hfirst (.single hsecond)) (by simp [ackedWrite, failedDelete, Event.Through])
    hfaithful hread).2 [] [failedDelete] _ _ _ _ _ rfl .refl hfirst (.single hsecond)
    (by rintro ⟨doc, ikey, ⟨⟩, k, r, ⟨⟩, -⟩) (by decide)
  exact ⟨r, rfl, by simpa [Except.toOption] using hresult, hlatest⟩

/-- A write of a number that is not read back, which every owner acknowledges. -/
def driftingWrite : Event :=
  .update ⟨⟨1⟩⟩ (.write (measured ⟨⟨0⟩⟩ printed) none) (.reaching ⟨1⟩ .acked)
    (.ok ⟨.single ⟨⟨1⟩⟩ ⟨1⟩, 3, 0⟩)

def afterDrifting : System :=
  System.after (fun _ => []) threeOwners sampleKey (.initial ⟨3, 2, 2⟩ (fun _ => Hlc.zero)) ⟨⟨1⟩⟩
    (.write (measured ⟨⟨0⟩⟩ printed) none) (.reaching ⟨1⟩ .acked)

set_option maxRecDepth 10000 in
theorem read_afterDrifting :
    ∃ r repairs, (afterDrifting.coordinators ⟨⟨1⟩⟩).quorumRead threeOwners drifting
        afterDrifting.replicas sampleKey (.reaching ⟨9⟩ .acked) = (.ok r, repairs) ∧
      r.document = some (measured ⟨⟨0⟩⟩ parsed) :=
  ⟨_, _, rfl, rfl⟩

/-- The read that follows returns a document that nobody wrote. -/
theorem read_drifted :
    PrintedDrifts ∧
    ∃ r t, Steps (Step (fun _ => []) drifting threeOwners ⟨3, 2, 2⟩ sampleKey)
        (.initial ⟨3, 2, 2⟩ (fun _ => Hlc.zero)) [driftingWrite] afterDrifting ∧
      Step (fun _ => []) drifting threeOwners ⟨3, 2, 2⟩ sampleKey afterDrifting
        (.read ⟨⟨1⟩⟩ (.reaching ⟨9⟩ .acked) (.ok r)) t ∧
      r.document = some (measured ⟨⟨0⟩⟩ parsed) ∧
      ¬ ∃ e ∈ [driftingWrite], e.Issues ⟨⟨1⟩⟩ r.document r.version := by
  have hwrite : Step (fun _ => []) drifting threeOwners ⟨3, 2, 2⟩ sampleKey
      (.initial ⟨3, 2, 2⟩ (fun _ => Hlc.zero)) driftingWrite afterDrifting :=
    .update rfl (allowed_reaching (by decide)) rfl
  obtain ⟨r, repairs, hres, hdoc⟩ := read_afterDrifting
  refine ⟨printed_drifts, r, _, .single hwrite,
    .read rfl (allowed_reaching (by decide)) hres, hdoc, ?_⟩
  rw [hdoc]
  rintro ⟨e, he, u, env, answer, hlc, hupdate, -, hsent, -⟩
  cases hupdate.symm.trans (List.mem_singleton.mp he)
  exact measured_ne _ (Option.some.inj hsent)

end BashfulDB.Replication

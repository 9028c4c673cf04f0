import Mathlib.Data.Finset.Card
import BashfulDB.Library.Steps
import BashfulDB.Replication.Coordinator

/-!
Sequential histories of one key through any coordinators, and when an acknowledged update
is what later reads return.
-/
namespace BashfulDB.Replication

open Clock Data

inductive Update
  | write (doc : Document) (idempotencyKey : Option String)
  | delete

def Update.document : Update → Option Document
  | .write doc _ => some doc
  | .delete => none

/-- Every coordinator by the node it runs on, every replica, and the repair writes that
reads have left to the background. -/
structure System where
  coordinators : NodeId → Coordinator
  replicas : Replicas
  pending : List (NodeId × WriteRequest)

inductive Event
  | update (node : NodeId) (u : Update) (env : Env)
      (answer : Except ReplicationError WriteResult)
  | read (node : NodeId) (env : Env) (answer : Except ReplicationError ReadResult)
  | repair (node : NodeId) (fate : WriteFate)

section

variable (toVec : Document → Bytes) (reread : Document → Option Document) (members : Membership)
  (config : QuorumConfig) (key : ObjectKey)

/-- Empty replicas, and a coordinator on every node with its own clock. -/
def System.initial (clocks : NodeId → Hlc) : System where
  coordinators node := ⟨node, config, clocks node, .new⟩
  replicas node := .new node
  pending := []

def owners : List NodeId := members.ownersForKey key.toBytes config.n

/-- Each owner's write and read task ends once, and the clock moves forward. -/
structure Allowed (c : Coordinator) (env : Env) : Prop where
  writes : (env.writes.map Prod.fst).Perm (owners members config key)
  reads : (env.reads.map Prod.fst).Perm (owners members config key)
  tick : ∀ hlc, env.tick = .ok hlc → c.clock < hlc

def Update.run (u : Update) (c : Coordinator) (replicas : Replicas) (env : Env) :
    Except ReplicationError WriteResult × Coordinator × Replicas :=
  match u with
  | .write doc idempotencyKey =>
    c.quorumWrite members toVec replicas key doc idempotencyKey env
  | .delete => c.quorumDelete members replicas key env

/-- The system after an update. -/
def System.after (s : System) (node : NodeId) (u : Update) (env : Env) : System :=
  let res := u.run toVec members key (s.coordinators node) s.replicas env
  ⟨Function.update s.coordinators node res.2.1, res.2.2, s.pending⟩

/-- An operation starts only once no repair write is left over. -/
inductive Step : System → Event → System → Prop
  | update {s : System} {node : NodeId} {u : Update} {env : Env}
      {answer : Except ReplicationError WriteResult} :
      s.pending = [] → Allowed members config key (s.coordinators node) env →
      (u.run toVec members key (s.coordinators node) s.replicas env).1 = answer →
      Step s (.update node u env answer) (s.after toVec members key node u env)
  | read {s : System} {node : NodeId} {env : Env} {answer : Except ReplicationError ReadResult}
      {repairs : List (NodeId × WriteRequest)} :
      s.pending = [] → Allowed members config key (s.coordinators node) env →
      (s.coordinators node).quorumRead members reread s.replicas key env = (answer, repairs) →
      Step s (.read node env answer) { s with pending := repairs }
  | repair {s : System} {node : NodeId} {req : WriteRequest} {fate : WriteFate}
      {before after : List (NodeId × WriteRequest)} :
      s.pending = before ++ (node, req) :: after →
      Step s (.repair node fate)
        { s with replicas := remoteWrite s.replicas node req fate, pending := before ++ after }

end

/-- `v` was stamped by a coordinator, at a moment its clock has already passed. -/
def System.Stamped (s : System) (v : VersionedDoc) : Prop :=
  ∃ c hlc, v = stamp c hlc v.document ∧ Hlc.zero < hlc ∧ hlc ≤ (s.coordinators c).clock

/-- Every version in the system is one that a coordinator stamped. -/
structure Stamps (config : QuorumConfig) (key : ObjectKey) (s : System) : Prop where
  localNode : ∀ n, (s.coordinators n).localNode = n
  config : ∀ n, (s.coordinators n).config = config
  replicas : ∀ n v, (s.replicas n).held key = some v → s.Stamped v
  pending : ∀ p ∈ s.pending, p.2.key = key ∧ p.2.isHint = false ∧ s.Stamped p.2.versioned

variable {toVec : Document → Bytes} {reread : Document → Option Document} {members : Membership}
  {config : QuorumConfig} {key : ObjectKey} {s t : System} {e : Event} {v w : VersionedDoc}

theorem System.Stamped.mono (h : s.Stamped v)
    (hle : ∀ n, (s.coordinators n).clock ≤ (t.coordinators n).clock) : t.Stamped v := by
  obtain ⟨c, hlc, hv, hpos, hclock⟩ := h
  exact ⟨c, hlc, hv, hpos, hclock.trans (hle c)⟩

theorem stamps_initial (clocks : NodeId → Hlc) : Stamps config key (.initial config clocks) where
  localNode _ := rfl
  config _ := rfl
  replicas n v h := by cases h
  pending p h := by cases h

/-- The update is answered from the idempotency store, without a new stamp. -/
def Update.Replays (toVec : Document → Bytes) (u : Update) (c : Coordinator) (now : Nat) : Prop :=
  ∃ doc idempotencyKey, u = .write doc idempotencyKey ∧ c.Replays toVec doc idempotencyKey now

variable (toVec members key) in
theorem Update.run_cases (u : Update) (c : Coordinator) (replicas : Replicas) (env : Env) :
    (∃ hlc, c.Sends replicas key u.document env hlc (u.run toVec members key c replicas env)) ∨
      c.Stops replicas (u.run toVec members key c replicas env) ∧
        ((∃ e, (u.run toVec members key c replicas env).1 = .error e) ∨
          u.Replays toVec c env.now) := by
  cases u with
  | write doc ikey =>
    rcases c.quorumWrite_cases toVec members replicas key env doc ikey with h | ⟨h, he | hr⟩
    · exact Or.inl h
    · exact Or.inr ⟨h, Or.inl he⟩
    · exact Or.inr ⟨h, Or.inr ⟨doc, ikey, rfl, hr⟩⟩
  | delete =>
    rcases c.replicate_cases members replicas key none env with h | ⟨h, he⟩
    · exact Or.inl h
    · exact Or.inr ⟨h, Or.inl he⟩

variable {node n : NodeId} {u : Update} {env : Env} {answer : Except ReplicationError WriteResult}

/-- Everything an update can do to the system. -/
structure UpdateStep (toVec : Document → Bytes) (members : Membership) (config : QuorumConfig)
    (key : ObjectKey) (s : System) (node : NodeId) (u : Update) (env : Env)
    (answer : Except ReplicationError WriteResult) (t : System) : Prop where
  allowed : Allowed members config key (s.coordinators node) env
  idle : t.pending = []
  others : ∀ n, n ≠ node → t.coordinators n = s.coordinators n
  effect : (∃ hlc, (s.coordinators node).Sends s.replicas key u.document env hlc
      (answer, t.coordinators node, t.replicas)) ∨
    (s.coordinators node).Stops s.replicas (answer, t.coordinators node, t.replicas) ∧
      ((∃ e, answer = .error e) ∨ u.Replays toVec (s.coordinators node) env.now)

theorem step_update (h : Step toVec reread members config key s (.update node u env answer) t) :
    UpdateStep toVec members config key s node u env answer t := by
  cases h with
  | update hidle hallowed hanswer =>
    subst hanswer
    refine ⟨hallowed, hidle, fun n hn => Function.update_of_ne hn _ _, ?_⟩
    simpa only [System.after, Function.update_self] using
      u.run_cases toVec members key (s.coordinators node) s.replicas env

theorem clock_le_step (h : Step toVec reread members config key s e t) (n : NodeId) :
    (s.coordinators n).clock ≤ (t.coordinators n).clock := by
  cases e with
  | update node u env answer =>
    have hstep := step_update h
    by_cases hn : n = node
    · subst hn
      rcases hstep.effect with ⟨hlc, hsends⟩ | ⟨hstops, -⟩
      · exact (hsends.clock ▸ hstep.allowed.tick hlc hsends.tick).le
      · exact hstops.clock.ge
    · rw [hstep.others n hn]
  | read =>
    cases h
    exact le_rfl
  | repair =>
    cases h
    exact le_rfl

/-- What is read of a stamped version is stamped. -/
theorem System.Stamped.read (h : s.Stamped v) (hw : v.reread reread = some w) : s.Stamped w := by
  obtain ⟨c, hlc, hv, hpos, hclock⟩ := h
  obtain ⟨heq, hnone⟩ := VersionedDoc.reread_eq hw
  refine ⟨c, hlc, ?_, hpos, hclock⟩
  rw [heq, hv, stamp, stamp, hnone]

/-- A winner is one of the versions that answered. -/
theorem stamped_winner (hs : Stamps config key s)
    (h : resolveConflict (Coordinator.answers reread s.replicas key env) = some w) :
    s.Stamped w := by
  obtain ⟨n, v, -, hv, hw⟩ := Coordinator.mem_answers.mp (resolveConflict_mem h)
  exact (hs.replicas n v hv).read hw

theorem versioned_stamp (h : s.Stamped w) :
    WriteRequest.versioned ⟨key, w.document, w.version, w.hlc, false, none⟩ = w := by
  obtain ⟨c, hlc, hw, -⟩ := h
  rw [hw]
  rfl

theorem UpdateStep.same (h : UpdateStep toVec members config key s node u env answer t)
    (n : NodeId) : (t.coordinators n).localNode = (s.coordinators n).localNode ∧
      (t.coordinators n).config = (s.coordinators n).config := by
  by_cases hn : n = node
  · subst hn
    rcases h.effect with ⟨hlc, hsends⟩ | ⟨hstops, -⟩
    · exact ⟨hsends.localNode, hsends.config⟩
    · exact ⟨hstops.localNode, hstops.config⟩
  · rw [h.others n hn]
    exact ⟨rfl, rfl⟩

theorem UpdateStep.stamped (h : UpdateStep toVec members config key s node u env answer t)
    (hs : Stamps config key s) (hclock : ∀ n, (s.coordinators n).clock ≤ (t.coordinators n).clock)
    (hv : (t.replicas n).held key = some v) : t.Stamped v := by
  rcases h.effect with ⟨hlc, hsends⟩ | ⟨hstops, -⟩
  · by_cases hn : Reached env.writes n
    · rw [hsends.reached n key hn rfl, hs.localNode node] at hv
      cases hv
      exact ⟨node, hlc, rfl, lt_of_le_of_lt (Hlc.zero_le _) (h.allowed.tick hlc hsends.tick),
        hsends.clock.ge⟩
    · rw [hsends.others n key (fun hr => hn hr.1)] at hv
      exact (hs.replicas n v hv).mono hclock
  · have hsame : t.replicas = s.replicas := hstops.replicas
    rw [hsame] at hv
    exact (hs.replicas n v hv).mono hclock

theorem stamps_step (h : Step toVec reread members config key s e t) (hs : Stamps config key s) :
    Stamps config key t := by
  have hclock := clock_le_step h
  cases e with
  | update node u env answer =>
    have hstep := step_update h
    refine ⟨?_, ?_, fun n v => hstep.stamped hs hclock, ?_⟩
    · exact fun n => (hstep.same n).1.trans (hs.localNode n)
    · exact fun n => (hstep.same n).2.trans (hs.config n)
    · simp [hstep.idle]
  | read node env answer =>
    cases h with
    | read _ _ hread =>
      refine ⟨hs.localNode, hs.config, hs.replicas, fun p hp => ?_⟩
      rcases (s.coordinators node).quorumRead_cases members reread s.replicas key env with
        ⟨e, heq⟩ | ⟨-, ⟨-, heq⟩ | ⟨w, stale, hw, heq⟩⟩
      · cases heq.symm.trans hread
        cases hp
      · cases heq.symm.trans hread
        cases hp
      · cases heq.symm.trans hread
        obtain ⟨m, -, rfl⟩ := List.mem_map.mp hp
        have hstamped := stamped_winner hs hw
        exact ⟨rfl, rfl, by rwa [versioned_stamp hstamped]⟩
  | repair node fate =>
    cases h with
    | @repair _ req _ before after hpending =>
      have hmem : ∀ p ∈ before ++ after, p ∈ s.pending := by
        intro p hp
        rw [hpending]
        simp only [List.mem_append, List.mem_cons] at hp ⊢
        tauto
      obtain ⟨hkey, hhint, hreq⟩ := hs.pending (node, req) (by simp [hpending])
      refine ⟨hs.localNode, hs.config, fun n v hv => ?_, fun p hp => hs.pending p (hmem p hp)⟩
      rw [held_remoteWrite hhint] at hv
      split at hv
      · cases hv
        exact hreq
      · exact hs.replicas n v hv

/-- `w` is chosen over `v` in either order. -/
def Beats (w v : VersionedDoc) : Prop := v = w ∨ Prevails w v

theorem Beats.resolveTwo (h : Beats w v) : resolveTwo w v = w ∧ resolveTwo v w = w := by
  rcases h with rfl | h
  · exact ⟨resolveTwo_selective.self v, resolveTwo_selective.self v⟩
  · exact h.resolveTwo

/-- `w` is held by a write quorum, and wins against whatever the other owners hold. -/
structure Settled (members : Membership) (config : QuorumConfig) (key : ObjectKey)
    (w : VersionedDoc) (s : System) : Prop where
  quorum : ∃ acked ⊆ (owners members config key).toFinset, config.w ≤ acked.card ∧
    ∀ n ∈ acked, (s.replicas n).held key = some w
  beats : ∀ n ∈ owners members config key, ∀ v,
    (s.replicas n).held key = some v → Beats w v
  pending : ∀ p ∈ s.pending, p.2.key = key ∧ p.2.isHint = false ∧ p.2.versioned = w

/-- The owners that answer a read and those of a write quorum cannot miss each other. -/
theorem quorums_meet {acked : Finset NodeId} {replicas : Replicas}
    (hcard : (owners members config key).length < config.r + config.w)
    (hnodup : (owners members config key).Nodup)
    (hreads : (env.reads.map Prod.fst).Perm (owners members config key))
    (hlen : config.r ≤ (responses reread replicas key env.reads).length)
    (hsub : acked ⊆ (owners members config key).toFinset) (hacked : config.w ≤ acked.card) :
    ∃ n ∈ acked, ∃ doc, (n, doc) ∈ responses reread replicas key env.reads := by
  let answered := (responses reread replicas key env.reads).map Prod.fst
  have hanswered : answered.Nodup := (hreads.nodup_iff.mpr hnodup).sublist fst_responses
  have hsub' : answered.toFinset ⊆ (owners members config key).toFinset := by
    intro n hn
    exact List.mem_toFinset.mpr
      (hreads.mem_iff.mp (fst_responses.subset (List.mem_toFinset.mp hn)))
  have hcount : (owners members config key).toFinset.card <
      answered.toFinset.card + acked.card := by
    rw [List.toFinset_card_of_nodup hnodup, List.toFinset_card_of_nodup hanswered,
      List.length_map]
    omega
  obtain ⟨n, hn⟩ := Finset.inter_nonempty_of_card_lt_card_add_card hsub' hsub hcount
  obtain ⟨hn, hnacked⟩ := Finset.mem_inter.mp hn
  obtain ⟨⟨m, doc⟩, hmem, rfl⟩ := List.mem_map.mp (List.mem_toFinset.mp hn)
  exact ⟨m, hnacked, doc, hmem⟩

theorem Settled.resolveConflict (hset : Settled members config key w s)
    (hcard : (owners members config key).length < config.r + config.w)
    (hnodup : (owners members config key).Nodup)
    (hfaithful : ∀ doc, w.document = some doc → Faithful reread doc)
    (hreads : (env.reads.map Prod.fst).Perm (owners members config key))
    (hlen : config.r ≤ (responses reread s.replicas key env.reads).length) :
    resolveConflict (Coordinator.answers reread s.replicas key env) = some w := by
  have howner : ∀ n, (n, true) ∈ env.reads → n ∈ owners members config key := fun n hn =>
    hreads.mem_iff.mp (List.mem_map_of_mem hn)
  obtain ⟨acked, hsub, hacked, hheld⟩ := hset.quorum
  obtain ⟨n, hn, doc, hmem⟩ := quorums_meet hcard hnodup hreads hlen hsub hacked
  obtain ⟨w', hmem, hw⟩ := Coordinator.exists_answer_of_held hmem (hheld n hn)
  obtain rfl := VersionedDoc.reread_faithful hfaithful hw
  rw [resolveConflict_eq_champion]
  refine Selection.champion_of_undefeated resolveTwo_selective hmem fun e he => ?_
  obtain ⟨m, v, hm, hv, hev⟩ := Coordinator.mem_answers.mp he
  refine Beats.resolveTwo ?_
  rcases hset.beats m (howner m hm) v hv with rfl | hprevails
  · exact Or.inl (Option.some.inj (hev.symm.trans hw))
  · exact Or.inr (hprevails.reread hev)

section

variable (hcard : (owners members config key).length < config.r + config.w)
  (hnodup : (owners members config key).Nodup)
  (hfaithful : ∀ doc, w.document = some doc → Faithful reread doc)
include hcard hnodup hfaithful

theorem Settled.read (hset : Settled members config key w s) (hs : Stamps config key s)
    {answer : Except ReplicationError ReadResult}
    (h : Step toVec reread members config key s (.read node env answer) t) :
    Settled members config key w t ∧ ∀ r, answer = .ok r → r.document = w.document := by
  cases h with
  | read hidle hallowed hread =>
    rcases (s.coordinators node).quorumRead_cases members reread s.replicas key env with
      ⟨e, heq⟩ | ⟨hlen, hanswers⟩
    · cases heq.symm.trans hread
      exact ⟨⟨hset.quorum, hset.beats, by simp⟩, by simp⟩
    · rw [hs.config node] at hlen
      have hw := hset.resolveConflict hcard hnodup hfaithful hallowed.reads hlen
      rcases hanswers with ⟨hnil, -⟩ | ⟨winner, stale, hwin, heq⟩
      · rw [hnil] at hw
        cases hw
      · cases hw.symm.trans hwin
        cases heq.symm.trans hread
        refine ⟨⟨hset.quorum, hset.beats, fun p hp => ?_⟩, ?_⟩
        · obtain ⟨m, -, rfl⟩ := List.mem_map.mp hp
          exact ⟨rfl, rfl, versioned_stamp (stamped_winner hs hwin)⟩
        · rintro r ⟨⟩
          rfl

omit hcard hnodup hfaithful in
theorem Settled.repair {fate : WriteFate} (hset : Settled members config key w s)
    (h : Step toVec reread members config key s (.repair node fate) t) :
    Settled members config key w t := by
  cases h with
  | @repair _ req _ before after hpending =>
    obtain ⟨hkey, hhint, hreq⟩ := hset.pending (node, req) (by simp [hpending])
    have hread : ∀ n, (remoteWrite s.replicas node req fate n).held key = some w ∨
        (remoteWrite s.replicas node req fate n).held key =
          (s.replicas n).held key := by
      intro n
      rw [held_remoteWrite hhint, hreq]
      split
      · exact Or.inl rfl
      · exact Or.inr rfl
    obtain ⟨acked, hsub, hacked, hheld⟩ := hset.quorum
    refine ⟨⟨acked, hsub, hacked, fun n hn => ?_⟩, fun n hn v hv => ?_, fun p hp => ?_⟩
    · rcases hread n with h | h
      · exact h
      · exact h.trans (hheld n hn)
    · rcases hread n with h | h
      · cases h.symm.trans hv
        exact Or.inl rfl
      · exact hset.beats n hn v (h.symm.trans hv)
    · refine hset.pending p ?_
      rw [hpending]
      simp only [List.mem_append, List.mem_cons] at hp ⊢
      tauto

end

def Event.isUpdate : Event → Bool
  | .update .. => true
  | _ => false

/-- An update that beats everything it leaves standing: it is not answered from the
idempotency store, and each version at an owner it does not reach was stamped by the same
coordinator, is live while the update deletes, or is of the same kind and has a lower HLC. -/
structure Supersedes (toVec : Document → Bytes) (members : Membership) (config : QuorumConfig)
    (key : ObjectKey) (s : System) (node : NodeId) (u : Update) (env : Env) : Prop where
  fresh : ¬ u.Replays toVec (s.coordinators node) env.now
  outranks : ∀ hlc, env.tick = .ok hlc → ∀ n ∈ owners members config key,
    ¬ Reached env.writes n → ∀ v, (s.replicas n).held key = some v →
      (v.version.get node).isSome ∨ u.document = none ∧ v.isTombstone = false ∨
        v.isTombstone = u.document.isNone ∧ v.hlc < hlc

/-- A new stamp against an older one, which loses to it in causal order or in rank. -/
theorem Supersedes.beats {hlc : Hlc} (h : Supersedes toVec members config key s node u env)
    (htick : env.tick = .ok hlc) (hclock : (s.coordinators node).clock < hlc)
    (hn : n ∈ owners members config key) (hreach : ¬ Reached env.writes n)
    (hv : (s.replicas n).held key = some v) (hs : s.Stamped v) :
    Beats (stamp node hlc u.document) v := by
  have hout := h.outranks hlc htick n hn hreach v hv
  obtain ⟨c, g, hv, hpos, hle⟩ := hs
  have hver : v.version = .single c g := by rw [hv]; rfl
  right
  by_cases hc : c = node
  · subst hc
    left
    rw [hver]
    exact VectorClock.compare_single_before (lt_of_le_of_lt hle hclock)
  · have hcon : v.version.compare (stamp node hlc u.document).version = .concurrent := by
      rw [hver]
      exact VectorClock.compare_single_concurrent hc hpos
        (lt_of_le_of_lt (Hlc.zero_le _) hclock)
    have hget : ¬ (v.version.get node).isSome := by
      rw [hver]
      simp [VectorClock.get, VectorClock.single, OrdMap.get_insert, Ne.symm hc]
    refine Or.inr ⟨hcon, ?_⟩
    rcases hout with hsame | ⟨hdel, hlive⟩ | ⟨hkind, hlt⟩
    · exact absurd hsame hget
    · exact Or.inl ⟨by rw [hdel]; rfl, hlive⟩
    · exact Or.inr ⟨hkind.symm, hlt⟩

section

variable {c : Coordinator} {replicas : Replicas} {doc : Option Document} {hlc : Hlc}
  {res : Except ReplicationError WriteResult × Coordinator × Replicas}

/-- The owners that acknowledged an update hold its stamp. -/
theorem quorum_of_sends (hsends : c.Sends replicas key doc env hlc res)
    (hnodup : (owners members config key).Nodup)
    (hwrites : (env.writes.map Prod.fst).Perm (owners members config key))
    (hack : config.w ≤ (ackedNodes env.writes).length) :
    ∃ acked ⊆ (owners members config key).toFinset, config.w ≤ acked.card ∧
      ∀ n ∈ acked, (res.2.2 n).held key = some (stamp c.localNode hlc doc) := by
  have hacked : (ackedNodes env.writes).Nodup := by
    rw [ackedNodes_eq]
    exact (hwrites.nodup_iff.mpr hnodup).sublist (List.filter_sublist.map _)
  refine ⟨(ackedNodes env.writes).toFinset, fun n hn => ?_, ?_, fun n hn => ?_⟩
  · obtain ⟨fate, hmem, -⟩ := reached_of_mem_ackedNodes (List.mem_toFinset.mp hn)
    exact List.mem_toFinset.mpr (hwrites.mem_iff.mp (List.mem_map_of_mem hmem))
  · rwa [List.toFinset_card_of_nodup hacked]
  · exact hsends.reached n key (reached_of_mem_ackedNodes (List.mem_toFinset.mp hn)) rfl

/-- An update that a write quorum acknowledged, and that beats what the owners it did not reach
hold, settles what it has stamped. -/
theorem settled_of_sends (coordinators : NodeId → Coordinator)
    (hsends : c.Sends replicas key doc env hlc res) (hnodup : (owners members config key).Nodup)
    (hwrites : (env.writes.map Prod.fst).Perm (owners members config key))
    (hack : config.w ≤ (ackedNodes env.writes).length)
    (hbeats : ∀ n ∈ owners members config key, ¬ Reached env.writes n → ∀ v,
      (replicas n).held key = some v → Beats (stamp c.localNode hlc doc) v) :
    Settled members config key (stamp c.localNode hlc doc) ⟨coordinators, res.2.2, []⟩ := by
  refine ⟨quorum_of_sends hsends hnodup hwrites hack, fun n hn v hv => ?_, by simp⟩
  by_cases hreach : Reached env.writes n
  · cases (hsends.reached n key hreach rfl).symm.trans hv
    exact Or.inl rfl
  · have hv : (replicas n).held key = some v :=
      (hsends.others n key (fun h => hreach h.1)).symm.trans hv
    exact hbeats n hn hreach v hv

end

theorem settled_of_update {r : WriteResult} (hs : Stamps config key s)
    (hnodup : (owners members config key).Nodup)
    (h : Step toVec reread members config key s (.update node u env (.ok r)) t)
    (hack : config.w ≤ r.nodesAcked) (hsup : Supersedes toVec members config key s node u env) :
    ∃ hlc, Settled members config key (stamp node hlc u.document) t := by
  have hstep := step_update h
  rcases hstep.effect with ⟨hlc, hsends⟩ | ⟨-, ⟨e, he⟩ | hrep⟩
  · rw [(hsends.answer r rfl).2] at hack
    have hset := settled_of_sends t.coordinators hsends hnodup hstep.allowed.writes hack
    rw [hs.localNode node] at hset
    refine ⟨hlc, ?_⟩
    have hsettled := hset fun n hn hreach v hv =>
      hsup.beats hsends.tick (hstep.allowed.tick hlc hsends.tick) hn hreach hv (hs.replicas n v hv)
    rwa [← hstep.idle] at hsettled
  · cases he
  · exact absurd hrep hsup.fresh

/-- From a settled state on, reads and repairs keep it settled, and reads return its document. -/
theorem Settled.reads {later : List Event} (hcard : (owners members config key).length <
    config.r + config.w) (hnodup : (owners members config key).Nodup)
    (hfaithful : ∀ doc, w.document = some doc → Faithful reread doc)
    (hset : Settled members config key w s) (hs : Stamps config key s)
    (hlater : Steps (Step toVec reread members config key) s later t)
    (hnone : ∀ e ∈ later, e.isUpdate = false) :
    ∀ node env r, .read node env (.ok r) ∈ later → r.document = w.document := by
  induction hlater with
  | refl => simp
  | @cons s s' t e later hstep _ ih =>
    obtain ⟨he, hrest⟩ := List.forall_mem_cons.mp hnone
    have hs' := stamps_step hstep hs
    intro node env r hmem
    cases e with
    | update => cases he
    | read m env' answer =>
      obtain ⟨hset', hanswer⟩ := hset.read hcard hnodup hfaithful hs hstep
      rcases List.mem_cons.mp hmem with heq | hmem
      · cases heq
        exact hanswer r rfl
      · exact ih hset' hs' hrest node env r hmem
    | repair m fate =>
      rcases List.mem_cons.mp hmem with heq | hmem
      · cases heq
      · exact ih (hset.repair hstep) hs' hrest node env r hmem

/-- Three nodes that own every key. -/
def threeOwners : Membership := ⟨fun _ _ => [⟨⟨1⟩⟩, ⟨⟨2⟩⟩, ⟨⟨3⟩⟩], [⟨⟨1⟩⟩, ⟨⟨2⟩⟩, ⟨⟨3⟩⟩]⟩

/-- Every owner answers; the write reaches the last two, and the first as given. -/
def Env.reaching (hlc : Hlc) (first : WriteFate) : Env where
  now := 0
  tick := .ok hlc
  writes := [(⟨⟨1⟩⟩, first), (⟨⟨2⟩⟩, .acked), (⟨⟨3⟩⟩, .acked)]
  hints _ := .failed false
  storedAt := 0
  reads := [(⟨⟨1⟩⟩, true), (⟨⟨2⟩⟩, true), (⟨⟨3⟩⟩, true)]

/-- Steps of the default configuration over these three. -/
abbrev SampleStep : System → Event → System → Prop :=
  Step (fun _ => []) some threeOwners ⟨3, 2, 2⟩ sampleKey

theorem allowed_reaching {c : Coordinator} {hlc : Hlc} {first : WriteFate} (h : c.clock < hlc) :
    Allowed threeOwners ⟨3, 2, 2⟩ sampleKey c (.reaching hlc first) where
  writes := List.Perm.refl _
  reads := List.Perm.refl _
  tick := by
    rintro g ⟨⟩
    exact h

/-- One coordinator deletes the key everywhere. -/
def afterDelete : System :=
  System.after (fun _ => []) threeOwners sampleKey (.initial ⟨3, 2, 2⟩ (fun _ => Hlc.zero)) ⟨⟨1⟩⟩
    .delete (.reaching ⟨1⟩ .acked)

/-- Another one writes it, and misses the first owner. -/
def afterWrite : System :=
  System.after (fun _ => []) threeOwners sampleKey afterDelete ⟨⟨2⟩⟩
    (.write (.blank ⟨⟨0⟩⟩) none) (.reaching ⟨5⟩ (.failed false))

/-- The coordinator that deleted the key writes it again. -/
def afterRewrite : System :=
  System.after (fun _ => []) threeOwners sampleKey afterDelete ⟨⟨1⟩⟩
    (.write (.blank ⟨⟨0⟩⟩) none) (.reaching ⟨5⟩ (.failed false))

/-- An acknowledged update that supersedes what it leaves standing is what every read
returns until the next update, if its document is not read back as another. -/
theorem acked_update_read_back (clocks : NodeId → Hlc) {pre later : List Event}
    {s₁ s₂ s₃ : System} {r : WriteResult}
    (hquorum : config.n < config.r + config.w)
    (howners : (owners members config key).length = config.n)
    (hnodup : (owners members config key).Nodup)
    (hpre : Steps (Step toVec reread members config key) (.initial config clocks) pre s₁)
    (hupdate : Step toVec reread members config key s₁ (.update node u env (.ok r)) s₂)
    (hlater : Steps (Step toVec reread members config key) s₂ later s₃)
    (hnone : ∀ e ∈ later, e.isUpdate = false)
    (hack : config.w ≤ r.nodesAcked)
    (hsup : Supersedes toVec members config key s₁ node u env)
    (hfaithful : ∀ doc, u.document = some doc → Faithful reread doc) :
    ∀ node env result, .read node env (.ok result) ∈ later → result.document = u.document := by
  have hs₁ : Stamps config key s₁ :=
    hpre.invariant (fun _ _ _ => stamps_step) (stamps_initial clocks)
  obtain ⟨hlc, hset⟩ := settled_of_update hs₁ hnodup hupdate hack hsup
  exact hset.reads (by omega) hnodup hfaithful (stamps_step hupdate hs₁) hlater hnone

theorem acked_update_read_back_after_delete :
    ∃ result, ((afterRewrite.coordinators ⟨⟨3⟩⟩).quorumRead threeOwners some afterRewrite.replicas
        sampleKey (.reaching ⟨9⟩ .acked)).1 = .ok result ∧
      result.document = some (.blank ⟨⟨0⟩⟩) := by
  have hread : ((afterRewrite.coordinators ⟨⟨3⟩⟩).quorumRead threeOwners some afterRewrite.replicas
      sampleKey (.reaching ⟨9⟩ .acked)).1.toOption.isSome = true := by
    decide +kernel
  rcases hres : (afterRewrite.coordinators ⟨⟨3⟩⟩).quorumRead threeOwners some afterRewrite.replicas
    sampleKey (.reaching ⟨9⟩ .acked) with ⟨e | result, repairs⟩
  · rw [hres] at hread
    cases hread
  have hpre : Steps SampleStep (.initial ⟨3, 2, 2⟩ (fun _ => Hlc.zero))
      [.update ⟨⟨1⟩⟩ .delete (.reaching ⟨1⟩ .acked) (.ok ⟨_, 3, 0⟩)] afterDelete :=
    .single (.update rfl (allowed_reaching (by decide)) rfl)
  have hupdate : SampleStep afterDelete
      (.update ⟨⟨1⟩⟩ (.write (.blank ⟨⟨0⟩⟩) none) (.reaching ⟨5⟩ (.failed false))
        (.ok ⟨_, 2, 0⟩)) afterRewrite :=
    .update rfl (allowed_reaching (by decide)) rfl
  have hlater : Steps SampleStep afterRewrite [.read ⟨⟨3⟩⟩ (.reaching ⟨9⟩ .acked) (.ok result)] _ :=
    .single (.read rfl (allowed_reaching (by decide)) hres)
  have hsup : Supersedes (fun _ => []) threeOwners ⟨3, 2, 2⟩ sampleKey afterDelete ⟨⟨1⟩⟩
      (.write (.blank ⟨⟨0⟩⟩) none) (.reaching ⟨5⟩ (.failed false)) := by
    have hsame : ∀ n ∈ owners threeOwners ⟨3, 2, 2⟩ sampleKey,
        ((afterDelete.replicas n).held sampleKey).all
          (fun v => (v.version.get ⟨⟨1⟩⟩).isSome) = true := by
      decide +kernel
    refine ⟨?_, fun hlc _ n hn _ v hv => Or.inl ?_⟩
    · rintro ⟨doc, ikey, ⟨⟩, k, r, ⟨⟩, -⟩
    · have hn := hsame n hn
      rwa [hv, Option.all_some] at hn
  exact ⟨result, rfl, acked_update_read_back (fun _ => Hlc.zero) (by decide) rfl (by decide) hpre
    hupdate hlater (by simp [Event.isUpdate]) le_rfl hsup
    (fun _ _ _ hread => (Option.some.inj hread).symm) _ _ result (List.mem_singleton.mpr rfl)⟩

/-- A write acknowledged by a quorum, after a delete through another coordinator whose
tombstone it leaves on one replica, is invisible to the next read. -/
theorem acked_update_lost :
    ∃ (clocks : NodeId → Hlc) (pre later : List Event) (s₁ s₂ s₃ : System) (node : NodeId)
      (u : Update) (env : Env) (r : WriteResult) (node' : NodeId) (env' : Env)
      (result : ReadResult),
      Steps SampleStep (.initial ⟨3, 2, 2⟩ clocks) pre s₁ ∧
        SampleStep s₁ (.update node u env (.ok r)) s₂ ∧ Steps SampleStep s₂ later s₃ ∧
        (∀ e ∈ later, e.isUpdate = false) ∧ 2 ≤ r.nodesAcked ∧
        .read node' env' (.ok result) ∈ later ∧ result.document ≠ u.document := by
  have hread : ((afterWrite.coordinators ⟨⟨1⟩⟩).quorumRead threeOwners some afterWrite.replicas
      sampleKey (.reaching ⟨9⟩ .acked)).1.toOption.map (fun r => r.document.isSome) =
        some false := by
    decide +kernel
  rcases hres : (afterWrite.coordinators ⟨⟨1⟩⟩).quorumRead threeOwners some afterWrite.replicas
    sampleKey (.reaching ⟨9⟩ .acked) with ⟨e | result, repairs⟩
  · rw [hres] at hread
    cases hread
  rw [hres] at hread
  have hnone : result.document = none := by simpa [Except.toOption] using hread
  refine ⟨fun _ => Hlc.zero, [.update ⟨⟨1⟩⟩ .delete (.reaching ⟨1⟩ .acked) (.ok ⟨_, 3, 0⟩)],
    [.read ⟨⟨1⟩⟩ (.reaching ⟨9⟩ .acked) (.ok result)], afterDelete, afterWrite, _, ⟨⟨2⟩⟩,
    .write (.blank ⟨⟨0⟩⟩) none, .reaching ⟨5⟩ (.failed false), ⟨_, 2, 0⟩, ⟨⟨1⟩⟩,
    .reaching ⟨9⟩ .acked, result, .single (.update rfl (allowed_reaching (by decide)) rfl),
    .update rfl (allowed_reaching (by decide)) rfl,
    .single (.read rfl (allowed_reaching (by decide)) hres), by simp [Event.isUpdate], le_rfl,
    by simp, ?_⟩
  simp [hnone, Update.document]

end BashfulDB.Replication

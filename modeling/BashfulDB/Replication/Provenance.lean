import BashfulDB.Library.Steps
import BashfulDB.Replication.Drift
import BashfulDB.Replication.Processes

/-! Where stored versions come from: every copy of a key is what some update of that key issued. -/
namespace BashfulDB.Replication

open Clock Data

/-- An update that drew a stamp. -/
structure Issue where
  node : NodeId
  key : ObjectKey
  document : Option Document
  hlc : Hlc

/-- The update that an action starts, when it draws this stamp. -/
def Action.Issues (a : Action) (key : ObjectKey) (document : Option Document)
    (version : VectorClock) (hlc : Hlc) : Prop :=
  ∃ node, version = .single node hlc ∧
    ((∃ doc idempotencyKey now, document = some doc ∧
        a = .quorumWrite node key doc idempotencyKey now (.ok hlc)) ∨
      document = none ∧ a = .quorumDelete node key (.ok hlc))

/-- What the action writes is read back as it is, or not at all. -/
def Action.Faithful (reread : Document → Option Document) : Action → Prop
  | .quorumWrite _ _ doc _ _ _ => Replication.Faithful reread doc
  | _ => True

/-- `v` is what one of the updates of `key` sends. -/
def From (issues : List Issue) (key : ObjectKey) (v : VersionedDoc) : Prop :=
  ∃ i ∈ issues, i.key = key ∧ v = stamp i.node i.hlc i.document

/-- What the updates wrote is read back as it is, or not at all. -/
def Readable (codec : Codec) (issues : List Issue) : Prop :=
  ∀ i ∈ issues, ∀ doc, i.document = some doc → Faithful codec.reread doc

structure StoreFrom (issues : List Issue) (store : ReplicaStore) : Prop where
  default : ∀ k v, store.default.get k = some v → ∃ key : ObjectKey, k = key.toBytes ∧
    From issues key v
  hints : ∀ k h, store.hints.get k = some h → From issues h.key h.versioned

/-- What a process carries comes from the updates. -/
def Process.From (issues : List Issue) : Process → Prop
  | .broadcast w _ _ _ | .sloppy w _ _ _ => Replication.From issues w.req.key w.req.versioned
  | .collect _ key _ responses =>
    ∀ r ∈ responses, ∀ v, r.2 = some v → Replication.From issues key v
  | .repair _ req => Replication.From issues req.key req.versioned
  | .handoff _ pass => ∀ e ∈ pass.rest, Replication.From issues e.2.key e.2.versioned

/-- Every version in the cluster comes from the updates, whose stamps are all different. -/
structure Sourced (issues : List Issue) (s : Cluster) : Prop where
  localNode : ∀ n, (s.coordinators n).localNode = n
  clock : ∀ i ∈ issues, Hlc.zero < i.hlc ∧ i.hlc ≤ (s.coordinators i.node).clock
  unique : ∀ i ∈ issues, ∀ j ∈ issues, i.node = j.node → i.hlc = j.hlc → i = j
  replicas : ∀ n, StoreFrom issues (s.replicas n)
  processes : ∀ p ∈ s.processes, p.From issues

variable {toVec : Document → Bytes} {members : NodeId → Membership} {codec : Codec}
  {issues issues' : List Issue} {key : ObjectKey} {v : VersionedDoc} {s t : Cluster}
  {store : ReplicaStore} {req : WriteRequest} {replicas : Replicas} {fate : WriteFate}
  {node target : NodeId} {o : Outcome}

theorem From.mono (h : From issues key v) (hsub : issues ⊆ issues') : From issues' key v := by
  obtain ⟨i, hi, hkey, hv⟩ := h
  exact ⟨i, hsub hi, hkey, hv⟩

theorem StoreFrom.mono (h : StoreFrom issues store) (hsub : issues ⊆ issues') :
    StoreFrom issues' store where
  default k v hv := by
    obtain ⟨key, hk, hfrom⟩ := h.default k v hv
    exact ⟨key, hk, hfrom.mono hsub⟩
  hints k hint hh := (h.hints k hint hh).mono hsub

theorem Process.From.mono {p : Process} (h : p.From issues) (hsub : issues ⊆ issues') :
    p.From issues' := by
  cases p with
  | broadcast w tasks acked failed => exact Replication.From.mono h hsub
  | sloppy w pairs acked stored => exact Replication.From.mono h hsub
  | collect node key tasks responses => exact fun r hr v hv => (h r hr v hv).mono hsub
  | repair targets req => exact Replication.From.mono h hsub
  | handoff node pass => exact fun e he => (h e he).mono hsub

/-- The tombstone mark says no more than the missing document. -/
theorem From.isTombstone (h : From issues key v) : v.isTombstone = v.document.isNone := by
  obtain ⟨i, -, -, rfl⟩ := h
  rfl

/-- What is read of an issued version is that version. -/
theorem From.read {w : VersionedDoc} (h : From issues key v) (hjson : Readable codec issues)
    (hw : v.reread codec.reread = some w) : w = v := by
  obtain ⟨i, hi, -, rfl⟩ := h
  exact VersionedDoc.reread_faithful (hjson i hi) hw

/-- A copy of a version that is sent again is stored as it was. -/
theorem From.resend (h : From issues key v) :
    From issues key (WriteRequest.versioned ⟨key, v.document, v.version, v.hlc, false, none⟩) := by
  obtain ⟨document, version, hlc, isTombstone⟩ := v
  obtain rfl : isTombstone = document.isNone := h.isTombstone
  exact h

theorem StoreFrom.receive (hs : StoreFrom issues store) (hreq : From issues req.key req.versioned) :
    StoreFrom issues (store.receive req).2 := by
  cases hhint : req.isHint with
  | false =>
    have hhints : (store.receive req).2.hints = store.hints := by
      cases hdoc : req.doc <;>
        simp [ReplicaStore.receive, ReplicaStore.handleWrite, ReplicaStore.handleDelete, hdoc,
          hhint, ReplicaStore.handle_of_not_hint hhint]
    refine ⟨fun k v hv => ?_, by rw [hhints]; exact hs.hints⟩
    rw [default_receive hhint] at hv
    by_cases hk : k = req.key.toBytes
    · rw [hk, OrdMap.get_insert_self] at hv
      cases hv
      exact ⟨req.key, hk, hreq⟩
    · rw [OrdMap.get_insert_of_ne _ hk] at hv
      exact hs.default k v hv
  | true =>
    cases htarget : req.hintTarget with
    | none =>
      have hsame : (store.receive req).2 = store := by
        simp [ReplicaStore.receive, ReplicaStore.handleWrite, ReplicaStore.handle, hhint, htarget]
      rwa [hsame]
    | some target =>
      have hkept : (store.receive req).2 = store.storeHint target req := by
        simp [ReplicaStore.receive, ReplicaStore.handleWrite, ReplicaStore.handle, hhint, htarget]
      rw [hkept]
      refine ⟨hs.default, fun k hint hh => ?_⟩
      by_cases hk : k = makeHintKey target req.hlc req.key.objectId
      · rw [ReplicaStore.storeHint, hk, OrdMap.get_insert_self] at hh
        cases hh
        exact hreq
      · rw [ReplicaStore.storeHint, OrdMap.get_insert_of_ne _ hk] at hh
        exact hs.hints k hint hh

theorem storeFrom_remoteWrite (hs : ∀ n, StoreFrom issues (replicas n))
    (hreq : From issues req.key req.versioned) (n : NodeId) :
    StoreFrom issues (remoteWrite replicas target req fate n) := by
  unfold remoteWrite
  split
  · by_cases hn : n = target
    · subst hn
      rw [Function.update_self]
      exact (hs n).receive hreq
    · rw [Function.update_of_ne hn]
      exact hs n
  · exact hs n

/-- What a step of a process may do to a cluster whose versions come from `issues`. -/
structure StepFrom (issues : List Issue) (s : Cluster) (res : List Process × Cluster) : Prop where
  processes : ∀ p ∈ res.1, p.From issues
  replicas : ∀ n, StoreFrom issues (res.2.replicas n)
  localNode : ∀ n, (res.2.coordinators n).localNode = (s.coordinators n).localNode
  clock : ∀ n, (res.2.coordinators n).clock = (s.coordinators n).clock

theorem Sourced.ends (hs : Sourced issues s) : StepFrom issues s ([], s) :=
  ⟨by simp, hs.replicas, fun _ => rfl, fun _ => rfl⟩

theorem Sourced.goes {p : Process} (hs : Sourced issues s) (hp : p.From issues) :
    StepFrom issues s ([p], s) :=
  ⟨fun q hq => by rwa [List.mem_singleton.mp hq], hs.replicas, fun _ => rfl, fun _ => rfl⟩

theorem Sourced.writes {p : Process} (hs : Sourced issues s) (hp : p.From issues)
    (hreq : From issues req.key req.versioned) :
    StepFrom issues s ([p], { s with replicas := remoteWrite s.replicas target req fate }) :=
  ⟨fun q hq => by rwa [List.mem_singleton.mp hq], storeFrom_remoteWrite hs.replicas hreq,
    fun _ => rfl, fun _ => rfl⟩

theorem Sourced.keeps {w : Writing} {result : WriteResult} {now : Nat} (hs : Sourced issues s) :
    StepFrom issues s ([], s.keep toVec w result now) := by
  unfold Cluster.keep
  split
  · exact hs.ends
  · refine ⟨by simp, hs.replicas, fun n => ?_, fun n => ?_⟩ <;>
      by_cases hn : n = w.node <;> simp [Cluster.setCoordinator, hn]

/-- A pass sends on what it has scanned. -/
theorem attempt_from {pass : Pass} (hjson : Readable codec issues)
    (hrest : ∀ e ∈ pass.rest, From issues e.2.key e.2.versioned)
    (h : pass.attempt codec = some (target, req)) : From issues req.key req.versioned := by
  unfold Pass.attempt at h
  cases hpass : pass.rest with
  | nil => simp [hpass] at h
  | cons e rest =>
    obtain ⟨rawKey, rawVal⟩ := e
    have hfrom := hrest (rawKey, rawVal) (by simp [hpass])
    simp only [hpass] at h
    cases hexamine : examine codec pass.nowMs rawKey rawVal with
    | malformed => simp [hexamine] at h
    | expired => simp [hexamine] at h
    | attempt target' req' =>
      rw [hexamine] at h
      cases h
      obtain ⟨hint, hreread, rfl⟩ := reread_of_examine_attempt hexamine
      obtain ⟨versioned, hread, rfl⟩ := Option.map_eq_some_iff.mp hreread
      rw [hfrom.read hjson hread]
      exact hfrom.resend

theorem storeFrom_send {pass : Pass} (hs : Sourced issues s)
    (hjson : Readable codec issues)
    (hrest : ∀ e ∈ pass.rest, From issues e.2.key e.2.versioned) (fate : WriteFate) (n : NodeId) :
    StoreFrom issues (pass.send codec s.replicas fate n) := by
  unfold Pass.send
  cases hattempt : pass.attempt codec with
  | none => exact hs.replicas n
  | some a => exact storeFrom_remoteWrite hs.replicas (attempt_from hjson hrest hattempt) n

/-- A pass only takes away, from what it has scanned and from the hints in store. -/
theorem turn_shrinks (codec : Codec) (p : Pass) (store : ReplicaStore) (o : Turn) :
    (p.turn codec store o).1.rest ⊆ p.rest ∧
      (p.turn codec store o).2.1.default = store.default ∧
      ∀ k h, (p.turn codec store o).2.1.hints.get k = some h → store.hints.get k = some h := by
  have hdelete (rawKey : Bytes) (deletion : Deletion) :
      (store.deleteHint rawKey deletion).default = store.default ∧
        ∀ k h, (store.deleteHint rawKey deletion).hints.get k = some h →
          store.hints.get k = some h := by
    unfold ReplicaStore.deleteHint
    split
    · exact ⟨rfl, fun k h hk => hk⟩
    · refine ⟨rfl, fun k h hk => ?_⟩
      rw [OrdMap.get_erase] at hk
      split at hk
      · cases hk
      · exact hk
  have hdeleted (p : Pass) (deletion : Deletion) (delivered : Nat) :
      (p.deleted deletion delivered).rest = p.rest := by cases deletion <;> rfl
  unfold Pass.turn
  cases hrest : p.rest with
  | nil => exact ⟨List.nil_subset _, rfl, fun k h hk => hk⟩
  | cons e rest =>
    obtain ⟨rawKey, rawVal⟩ := e
    have hsub : rest ⊆ (rawKey, rawVal) :: rest := List.subset_cons_self _ _
    dsimp only
    split
    · exact ⟨by rwa [hdeleted], hdelete rawKey o.deletion⟩
    · exact ⟨by rwa [hdeleted], hdelete rawKey o.deletion⟩
    · split
      · exact ⟨by rwa [hdeleted], hdelete rawKey o.deletion⟩
      · exact ⟨hsub, rfl, fun k h hk => hk⟩

/-- A read goes on with what it finds in a store and repairs with one of its answers. -/
theorem Sourced.collects {tasks : List NodeId} {responses : List (NodeId × Option VersionedDoc)}
    (hs : Sourced issues s) (hp : (Process.collect node key tasks responses).From issues)
    (hjson : Readable codec issues) :
    StepFrom issues s
      ((Process.collect node key tasks responses).step toVec members codec s o) := by
  unfold Process.step
  cases tasks with
  | nil =>
    dsimp only
    split
    · exact hs.ends
    split
    · exact hs.ends
    case h_2 winner hwinner =>
      obtain ⟨r, hr, hv⟩ := List.mem_filterMap.mp (resolveConflict_mem hwinner)
      exact hs.goes (hp r hr winner hv).resend
  | cons task tasks =>
    dsimp only
    split
    · exact hs.goes hp
    refine hs.goes fun r hr w hw => ?_
    rcases List.mem_append.mp hr with hr | hr
    · exact hp r hr w hw
    · obtain ⟨doc, hdoc, rfl⟩ := Option.map_eq_some_iff.mp (Option.mem_toList.mp hr)
      obtain ⟨-, hread⟩ := Option.ite_none_right_eq_some.mp hdoc
      obtain rfl : doc = some w := hw
      obtain ⟨v, hv, hvw⟩ := ReplicaStore.handleRead_eq_some.mp hread
      obtain ⟨key', hkey, hfrom⟩ := (hs.replicas _).default _ v hv
      rw [hfrom.read hjson hvw]
      rwa [ObjectKey.toBytes_inj hkey]

/-- A pass hands on what it has scanned and forgets it. -/
theorem Sourced.handsOff {pass : Pass} (hs : Sourced issues s)
    (hp : (Process.handoff node pass).From issues)
    (hjson : Readable codec issues) :
    StepFrom issues s ((Process.handoff node pass).step toVec members codec s o) := by
  unfold Process.step
  dsimp only
  split
  · exact hs.ends
  · obtain ⟨hrest, hdefault, hhints⟩ := turn_shrinks codec pass
      (pass.send codec s.replicas o.fate node) ⟨o.fate = .acked, o.deletion⟩
    have hsent := storeFrom_send hs hjson hp o.fate
    refine ⟨?_, fun n => ?_, fun _ => rfl, fun _ => rfl⟩
    · intro q hq
      rw [List.mem_singleton.mp hq]
      exact fun e he => hp e (hrest he)
    · dsimp only
      by_cases hn : n = node
      · subst hn
        rw [Function.update_self]
        exact ⟨by rw [hdefault]; exact (hsent n).default,
          fun k h hk => (hsent n).hints k h (hhints k h hk)⟩
      · rw [Function.update_of_ne hn]
        exact hsent n

theorem Process.From.step {p : Process} (hp : p.From issues) (hs : Sourced issues s)
    (hjson : Readable codec issues) :
    StepFrom issues s (p.step toVec members codec s o) := by
  cases p with
  | broadcast w tasks acked failed =>
    unfold Process.step
    cases tasks with
    | nil =>
      dsimp only
      split
      · exact hs.keeps
      · exact hs.goes hp
    | cons task tasks =>
      dsimp only
      split
      · exact hs.goes hp
      · cases o.fate <;> exact hs.writes hp hp
  | sloppy w pairs acked stored =>
    unfold Process.step
    cases pairs with
    | nil =>
      dsimp only
      split
      · exact hs.keeps
      · exact hs.ends
    | cons pair pairs => exact hs.writes hp hp
  | collect node key tasks responses => exact hs.collects hp hjson
  | repair targets req =>
    unfold Process.step
    cases targets with
    | nil => exact hs.ends
    | cons target targets => exact hs.writes hp hp
  | handoff node pass => exact hs.handsOff hp hjson

theorem Sourced.setCoordinator {c : Coordinator} (hs : Sourced issues s)
    (hnode : c.localNode = (s.coordinators node).localNode)
    (hclock : (s.coordinators node).clock ≤ c.clock) :
    Sourced issues (s.setCoordinator node c) := by
  refine ⟨fun n => ?_, fun i hi => ⟨(hs.clock i hi).1, ?_⟩, hs.unique, hs.replicas, hs.processes⟩
  · by_cases hn : n = node
    · subst hn
      simpa [Cluster.setCoordinator, hnode] using hs.localNode n
    · simpa [Cluster.setCoordinator, hn] using hs.localNode n
  · have hold := (hs.clock i hi).2
    by_cases hn : i.node = node
    · rw [hn] at hold
      simpa [Cluster.setCoordinator, hn] using hold.trans hclock
    · simpa [Cluster.setCoordinator, hn] using hold

theorem Sourced.spawn {p : Process} (hs : Sourced issues s) (hp : p.From issues) :
    Sourced issues (s.spawn p) := by
  refine ⟨hs.localNode, hs.clock, hs.unique, hs.replicas, fun q hq => ?_⟩
  rcases List.mem_append.mp hq with hq | hq
  · exact hs.processes q hq
  · rwa [List.mem_singleton.mp hq]

/-- A stamp that is newer than the clock of its node is different from all others. -/
theorem Sourced.issue {doc : Option Document} {hlc : Hlc} (hs : Sourced issues s)
    (hclock : (s.coordinators node).clock < hlc) :
    Sourced (issues ++ [⟨node, key, doc, hlc⟩])
      (s.setCoordinator node { s.coordinators node with clock := hlc }) := by
  have hs' := hs.setCoordinator (c := { s.coordinators node with clock := hlc }) rfl hclock.le
  have hold : ∀ i ∈ issues, i.node = node → i.hlc ≠ hlc := by
    rintro i hi hnode rfl
    have hle := (hs.clock i hi).2
    rw [hnode] at hle
    exact not_lt_of_ge hle hclock
  have hsub : issues ⊆ issues ++ [⟨node, key, doc, hlc⟩] := List.subset_append_left _ _
  refine ⟨hs'.localNode, fun i hi => ?_, fun i hi j hj hnode hhlc => ?_,
    fun n => (hs'.replicas n).mono hsub, fun p hp => (hs'.processes p hp).mono hsub⟩
  · rcases List.mem_append.mp hi with hi | hi
    · exact hs'.clock i hi
    · rw [List.mem_singleton.mp hi]
      refine ⟨lt_of_le_of_lt (Hlc.zero_le _) hclock, ?_⟩
      simp [Cluster.setCoordinator]
  · rcases List.mem_append.mp hi with hi | hi <;> rcases List.mem_append.mp hj with hj | hj
    · exact hs.unique i hi j hj hnode hhlc
    · rw [List.mem_singleton.mp hj] at hnode hhlc
      exact absurd hhlc (hold i hi hnode)
    · rw [List.mem_singleton.mp hi] at hnode hhlc
      exact absurd hhlc.symm (hold j hj hnode.symm)
    · rw [List.mem_singleton.mp hi, List.mem_singleton.mp hj]

/-- An update that starts adds its own stamp, if it draws one. -/
theorem Sourced.send {doc : Option Document} {remember : Option (String × Document)}
    {tick : Except ClockError Hlc} (hs : Sourced issues s)
    (hclock : ∀ hlc, tick = .ok hlc → (s.coordinators node).clock < hlc) :
    Sourced issues (s.send members node key doc remember tick) ∨
      ∃ hlc, tick = .ok hlc ∧ Sourced (issues ++ [⟨node, key, doc, hlc⟩])
        (s.send members node key doc remember tick) := by
  cases tick with
  | error e => exact Or.inl hs
  | ok hlc =>
    refine Or.inr ⟨hlc, rfl, ?_⟩
    refine (hs.issue (hclock hlc rfl)).spawn
      ⟨_, List.mem_append_right _ (List.mem_singleton_self _), rfl, ?_⟩
    rw [hs.localNode node]
    rfl

/-- The updates of a run so far, all of them started by its actions. -/
def Explained (actions : List Action) (s : Cluster) : Prop :=
  ∃ issues, Sourced issues s ∧ ∀ i ∈ issues, ∃ a ∈ actions,
    a.Issues i.key i.document (.single i.node i.hlc) i.hlc

theorem Explained.same {actions : List Action} {a : Action} (hs : Sourced issues s)
    (hissues : ∀ i ∈ issues, ∃ a ∈ actions,
      a.Issues i.key i.document (.single i.node i.hlc) i.hlc) :
    Explained (actions ++ [a]) s := by
  refine ⟨issues, hs, fun i hi => ?_⟩
  obtain ⟨a', ha', hissue⟩ := hissues i hi
  exact ⟨a', List.mem_append_left _ ha', hissue⟩

theorem Explained.send {actions : List Action} {a : Action} {doc : Option Document}
    {remember : Option (String × Document)} {tick : Except ClockError Hlc}
    (hs : Sourced issues s)
    (hissues : ∀ i ∈ issues, ∃ a ∈ actions,
      a.Issues i.key i.document (.single i.node i.hlc) i.hlc)
    (hclock : ∀ hlc, tick = .ok hlc → (s.coordinators node).clock < hlc)
    (ha : ∀ hlc, tick = .ok hlc → a.Issues key doc (.single node hlc) hlc) :
    Explained (actions ++ [a]) (s.send members node key doc remember tick) := by
  rcases hs.send hclock with hsame | ⟨hlc, htick, hnew⟩
  · exact Explained.same hsame hissues
  · refine ⟨_, hnew, fun i hi => ?_⟩
    rcases List.mem_append.mp hi with hi | hi
    · obtain ⟨a', ha', hissue⟩ := hissues i hi
      exact ⟨a', List.mem_append_left _ ha', hissue⟩
    · rw [List.mem_singleton.mp hi]
      exact ⟨a, by simp, ha hlc htick⟩

theorem Sourced.advance {i : Nat} (hs : Sourced issues s)
    (hjson : Readable codec issues) :
    Sourced issues (s.after toVec members codec (.advance i o)) := by
  simp only [Cluster.after]
  cases hp : s.processes[i]? with
  | none => exact hs
  | some p =>
    have hfrom : StepFrom issues s (p.step toVec members codec s o) :=
      (hs.processes p (List.mem_of_getElem? hp)).step hs hjson
    refine ⟨fun n => ?_, fun i hi => ?_, hs.unique, hfrom.replicas, ?_⟩
    · exact (hfrom.localNode n).trans (hs.localNode n)
    · exact ⟨(hs.clock i hi).1, (hs.clock i hi).2.trans (hfrom.clock i.node).ge⟩
    · intro q hq
      simp only [List.mem_append] at hq
      rcases hq with (hq | hq) | hq
      · exact hs.processes q (List.mem_of_mem_take hq)
      · exact hfrom.processes q hq
      · exact hs.processes q (List.mem_of_mem_drop hq)

theorem readable_of_issues {actions : List Action}
    (hissues : ∀ i ∈ issues, ∃ a ∈ actions,
      a.Issues i.key i.document (.single i.node i.hlc) i.hlc)
    (hjson : ∀ a ∈ actions, a.Faithful codec.reread) : Readable codec issues := by
  intro i hi doc hdoc
  obtain ⟨a, ha, node, -, ⟨doc', ikey, now, hdoc', rfl⟩ | ⟨hnone, -⟩⟩ := hissues i hi
  · cases hdoc'.symm.trans hdoc
    exact hjson _ ha
  · cases hnone.symm.trans hdoc

/-- What one step of the cluster preserves. -/
theorem Explained.step {actions : List Action} {a : Action} (h : Explained actions s)
    (hjson : ∀ a ∈ actions, a.Faithful codec.reread)
    (hstep : s.Step toVec members codec a t) : Explained (actions ++ [a]) t := by
  obtain ⟨issues, hs, hissues⟩ := h
  obtain ⟨hticks, rfl⟩ := hstep
  cases a with
  | quorumWrite node key doc idempotencyKey now tick =>
    have hissue (hlc : Hlc) (htick : tick = .ok hlc) :
        Action.Issues (.quorumWrite node key doc idempotencyKey now tick) key (some doc)
          (.single node hlc) hlc :=
      ⟨node, rfl, Or.inl ⟨doc, idempotencyKey, now, rfl, by rw [htick]⟩⟩
    cases idempotencyKey with
    | none => exact Explained.send hs hissues hticks hissue
    | some ikey =>
      simp only [Cluster.after]
      generalize (s.coordinators node).idempotency.get toVec ikey doc now = res
      obtain ⟨answer, cache⟩ := res
      have hcache : Sourced issues
          (s.setCoordinator node { s.coordinators node with idempotency := cache }) :=
        hs.setCoordinator rfl le_rfl
      rcases answer with e | _ | cached
      · exact Explained.same hcache hissues
      · refine Explained.send hcache hissues (fun hlc htick => ?_) hissue
        simpa [Cluster.setCoordinator] using hticks hlc htick
      · exact Explained.same hcache hissues
  | quorumDelete node key tick =>
    refine Explained.send hs hissues hticks fun hlc htick => ?_
    exact ⟨node, rfl, Or.inr ⟨rfl, by rw [htick]⟩⟩
  | quorumRead node key =>
    simp only [Cluster.after]
    split
    · exact Explained.same hs hissues
    · exact Explained.same (hs.spawn (by simp [Process.From])) hissues
  | deliverPendingHints node nowMs =>
    refine Explained.same (hs.spawn fun e he => ?_) hissues
    exact (hs.replicas node).hints e.1 e.2 (OrdMap.get_eq_some_iff.mpr he)
  | advance i o => exact Explained.same (hs.advance (readable_of_issues hissues hjson)) hissues

theorem explained_initial (configs : NodeId → QuorumConfig) (clocks : NodeId → Hlc) :
    Explained [] (.initial configs clocks) := by
  refine ⟨[], ⟨fun _ => rfl, by simp, by simp, fun n => ⟨?_, ?_⟩, ?_⟩, by simp⟩
  · intro k v hv
    cases hv
  · intro k h hh
    cases hh
  · intro p hp
    cases hp

/-- A version stored under the key in some `default` column family, or a hint for it. -/
def Cluster.Copy (s : Cluster) (key : ObjectKey) (v : VersionedDoc) : Prop :=
  (∃ n, (s.replicas n).default.get key.toBytes = some v) ∨
    ∃ n k h, (s.replicas n).hints.get k = some h ∧ h.key = key ∧ h.versioned = v

theorem Cluster.copy_of_held {n : NodeId} (h : (s.replicas n).held key = some v) : s.Copy key v :=
  .inl ⟨n, h⟩

theorem Sourced.copy (hs : Sourced issues s) (h : s.Copy key v) : From issues key v := by
  rcases h with ⟨n, hv⟩ | ⟨n, k, hint, hh, rfl, rfl⟩
  · obtain ⟨key', hkey, hfrom⟩ := (hs.replicas n).default _ v hv
    rwa [ObjectKey.toBytes_inj hkey]
  · exact (hs.replicas n).hints k hint hh

/-- Two stamps with equal versions are the same one. -/
theorem Sourced.eq_of_equal {w : VersionedDoc} {key' : ObjectKey} (hs : Sourced issues s)
    (hv : From issues key v) (hw : From issues key' w)
    (hequal : v.version.compare w.version = .equal) : v = w := by
  obtain ⟨i, hi, -, rfl⟩ := hv
  obtain ⟨j, hj, -, rfl⟩ := hw
  change VectorClock.compare (.single i.node i.hlc) (.single j.node j.hlc) = .equal at hequal
  by_cases hnode : i.node = j.node
  · have hhlc : i.hlc = j.hlc := by
      rw [hnode, VectorClock.compare_single] at hequal
      split_ifs at hequal with hlt hgt
      exact le_antisymm (not_lt.mp hgt) (not_lt.mp hlt)
    rw [hs.unique i hi j hj hnode hhlc]
  · rw [VectorClock.compare_single_concurrent hnode (hs.clock i hi).1 (hs.clock j hj).1] at hequal
    cases hequal

/-- In every run, every copy of a key is what some update of that very key issued, is marked a
tombstone exactly when it has no document, and has the document of every copy with an equal
version. -/
theorem copies_issued_and_consistent (configs : NodeId → QuorumConfig) (clocks : NodeId → Hlc)
    (actions : List Action) (hjson : ∀ a ∈ actions, a.Faithful codec.reread)
    (hrun : Steps (Cluster.Step toVec members codec) (.initial configs clocks) actions s) :
    ∀ key v, s.Copy key v →
      (∃ a ∈ actions, a.Issues key v.document v.version v.hlc) ∧
      (v.isTombstone = true ↔ v.document = none) ∧
      ∀ w, s.Copy key w → v.version.compare w.version = .equal → v.document = w.document := by
  obtain ⟨issues, hs, hissues⟩ := hrun.history (I := Explained) (explained_initial configs clocks)
    fun ys u a t _ ⟨zs, hys⟩ h hstep => h.step (fun a ha => hjson a (by simp [hys, ha])) hstep
  intro key v hcopy
  have hv := hs.copy hcopy
  refine ⟨?_, ?_, fun w hw hequal => by rw [hs.eq_of_equal hv (hs.copy hw) hequal]⟩
  · obtain ⟨i, hi, rfl, rfl⟩ := hv
    exact hissues i hi
  · rw [hv.isTombstone, Option.isNone_iff_eq_none]

/-- A run of actions that draw no stamp. -/
theorem Cluster.steps_after {actions : List Action} (h : ∀ a ∈ actions, ∀ s, a.Ticks s) :
    Steps (Cluster.Step toVec members codec) s actions
      (actions.foldl (Cluster.after toVec members codec) s) := by
  induction actions generalizing s with
  | nil => exact .refl
  | cons a actions ih =>
    exact .cons ⟨h a (by simp) s, rfl⟩ (ih fun b hb => h b (by simp [hb]))

theorem Cluster.steps_started {a : Action} {actions : List Action} (ha : a.Ticks s)
    (h : ∀ a ∈ actions, ∀ s, a.Ticks s) :
    Steps (Cluster.Step toVec members codec) s (a :: actions)
      ((a :: actions).foldl (Cluster.after toVec members codec) s) :=
  .cons ⟨ha, rfl⟩ (Cluster.steps_after h)

/-- Two owners, and a third node that keeps hints. -/
def twoOwners : Membership := ⟨fun _ _ => [⟨⟨1⟩⟩, ⟨⟨2⟩⟩], [⟨⟨1⟩⟩, ⟨⟨2⟩⟩, ⟨⟨3⟩⟩]⟩

/-- The first task ends so. -/
def Outcome.ending (fate : WriteFate) : Outcome := ⟨0, fate, true, 0, .done⟩

/-- A write that misses the second owner, which then gets it from the hint. -/
def handoffRun : List Action :=
  [.quorumWrite ⟨⟨1⟩⟩ sampleKey (.blank ⟨⟨0⟩⟩) none 0 (.ok ⟨1⟩), .advance 0 (.ending .acked),
    .advance 0 (.ending (.failed false)), .advance 0 (.ending .acked), .advance 0 (.ending .acked),
    .advance 0 (.ending .acked), .deliverPendingHints ⟨⟨3⟩⟩ 1, .advance 0 (.ending .acked)]

def handoffCluster : Cluster :=
  handoffRun.foldl (Cluster.after (fun _ => []) (fun _ => twoOwners) oneNodeCodec)
    (.initial (fun _ => ⟨2, 2, 2⟩) (fun _ => Hlc.zero))

/-- Both owners hold the write. -/
theorem copies_issued_and_consistent_handoff :
    ∃ v w, (handoffCluster.replicas ⟨⟨1⟩⟩).held sampleKey = some v ∧
      (handoffCluster.replicas ⟨⟨2⟩⟩).held sampleKey = some w ∧
      (∃ a ∈ handoffRun, a.Issues sampleKey w.document w.version w.hlc) ∧
      v.document = w.document := by
  have hrun : Steps (Cluster.Step (fun _ => []) (fun _ => twoOwners) oneNodeCodec)
      (.initial (fun _ => ⟨2, 2, 2⟩) (fun _ => Hlc.zero)) handoffRun handoffCluster := by
    refine Cluster.steps_started ?_ (by simp [Action.Ticks])
    rintro hlc ⟨⟩
    decide
  have hjson : ∀ a ∈ handoffRun, a.Faithful oneNodeCodec.reread := by
    simp [handoffRun, Action.Faithful, oneNodeCodec, faithful_some]
  have hcopies := copies_issued_and_consistent _ _ handoffRun hjson hrun sampleKey
  have hheld : ((handoffCluster.replicas ⟨⟨1⟩⟩).held sampleKey).isSome = true ∧
      ((handoffCluster.replicas ⟨⟨2⟩⟩).held sampleKey).isSome = true := by
    decide +kernel
  obtain ⟨v, hv⟩ := Option.isSome_iff_exists.mp hheld.1
  obtain ⟨w, hw⟩ := Option.isSome_iff_exists.mp hheld.2
  have hequal : ((handoffCluster.replicas ⟨⟨1⟩⟩).held sampleKey).elim true (fun v =>
      ((handoffCluster.replicas ⟨⟨2⟩⟩).held sampleKey).elim true (fun w =>
        v.version.compare w.version = .equal)) = true := by
    decide +kernel
  rw [hv, hw] at hequal
  have hcopy := Cluster.copy_of_held hw
  exact ⟨v, w, hv, hw, (hcopies w hcopy).1,
    (hcopies v (Cluster.copy_of_held hv)).2.2 w hcopy (of_decide_eq_true hequal)⟩

/-- A write of a number that is not read back reaches the first owner; a read repairs the second. -/
def driftRun : List Action :=
  [.quorumWrite ⟨⟨1⟩⟩ sampleKey (measured ⟨⟨0⟩⟩ printed) none 0 (.ok ⟨1⟩),
    .advance 0 (.ending .acked), .advance 0 (.ending (.failed false)), .advance 0 (.ending .acked),
    .quorumRead ⟨⟨1⟩⟩ sampleKey, .advance 0 (.ending .acked), .advance 0 (.ending .acked),
    .advance 0 (.ending .acked), .advance 0 (.ending .acked)]

def driftCodec : Codec := { oneNodeCodec with reread := drifting }

def driftedCluster : Cluster :=
  driftRun.foldl (Cluster.after (fun _ => []) (fun _ => twoOwners) driftCodec)
    (.initial (fun _ => ⟨2, 2, 1⟩) (fun _ => Hlc.zero))

set_option maxRecDepth 20000 in
theorem held_driftedCluster :
    (driftedCluster.replicas ⟨⟨1⟩⟩).held sampleKey =
        some (stamp ⟨⟨1⟩⟩ ⟨1⟩ (some (measured ⟨⟨0⟩⟩ printed))) ∧
      (driftedCluster.replicas ⟨⟨2⟩⟩).held sampleKey =
        some (stamp ⟨⟨1⟩⟩ ⟨1⟩ (some (measured ⟨⟨0⟩⟩ parsed))) :=
  ⟨rfl, rfl⟩

/-- The repaired owner holds a document that nobody wrote, under the version of the one that was. -/
theorem drifted_copy :
    PrintedDrifts ∧
    Steps (Cluster.Step (fun _ => []) (fun _ => twoOwners) driftCodec)
        (.initial (fun _ => ⟨2, 2, 1⟩) (fun _ => Hlc.zero)) driftRun driftedCluster ∧
      ∃ v w, driftedCluster.Copy sampleKey v ∧ driftedCluster.Copy sampleKey w ∧
        v.version.compare w.version = .equal ∧ v.document ≠ w.document ∧
        ¬ ∃ a ∈ driftRun, a.Issues sampleKey w.document w.version w.hlc := by
  have hrun : Steps (Cluster.Step (fun _ => []) (fun _ => twoOwners) driftCodec)
      (.initial (fun _ => ⟨2, 2, 1⟩) (fun _ => Hlc.zero)) driftRun driftedCluster := by
    refine Cluster.steps_started ?_ (by simp [Action.Ticks])
    rintro hlc ⟨⟩
    decide
  have hne : some (measured ⟨⟨0⟩⟩ printed) ≠ some (measured ⟨⟨0⟩⟩ parsed) := fun h =>
    measured_ne _ (Option.some.inj h).symm
  refine ⟨printed_drifts, hrun, _, _, Cluster.copy_of_held held_driftedCluster.1,
    Cluster.copy_of_held held_driftedCluster.2, by decide, hne, ?_⟩
  -- The only write of the run is of the other document.
  rintro ⟨a, ha, node, -, ⟨doc, ikey, now, hdoc, rfl⟩ | ⟨hnone, -⟩⟩
  · simp only [driftRun, List.mem_cons, Action.quorumWrite.injEq, reduceCtorEq, or_false,
      List.not_mem_nil] at ha
    exact hne (by rw [← ha.2.2.1]; exact hdoc.symm)
  · cases hnone

end BashfulDB.Replication

import BashfulDB.Replication.Processes
import BashfulDB.Library.Steps

/-! An operation that nothing interrupts does, remote call by remote call, what the operations of
the coordinator do in one step. -/
namespace BashfulDB.Replication

open Clock Data

section

variable (toVec : Document → Bytes) (members : NodeId → Membership) (codec : Codec)

/-- Some run of the cluster leads from `s` to `t`. -/
def Cluster.Runs (s t : Cluster) : Prop :=
  ∃ actions, Steps (Cluster.Step toVec members codec) s actions t

end

variable {toVec : Document → Bytes} {members : NodeId → Membership} {codec : Codec}
  {s t u : Cluster} {w : Writing} {acked failed tasks : List NodeId} {node : NodeId}
  {key : ObjectKey} {env : Env}

namespace Cluster

theorem Runs.refl : s.Runs toVec members codec s := ⟨[], .refl⟩

theorem Runs.trans (h : s.Runs toVec members codec t) (k : t.Runs toVec members codec u) :
    s.Runs toVec members codec u := by
  obtain ⟨as, ha⟩ := h
  obtain ⟨bs, hb⟩ := k
  exact ⟨as ++ bs, ha.append hb⟩

theorem Runs.of_step {a : Action} (h : s.Step toVec members codec a t) :
    s.Runs toVec members codec t :=
  ⟨[a], .single h⟩

/-- A step of the only process. -/
theorem runs_advance (toVec : Document → Bytes) (members : NodeId → Membership)
    (codec : Codec) (o : Outcome) {p : Process} (hp : s.processes = [p]) :
    s.Runs toVec members codec
      { (p.step toVec members codec s o).2 with
        processes := (p.step toVec members codec s o).1 } :=
  .of_step (a := .advance 0 o) ⟨trivial, by simp [after, hp]⟩

end Cluster

/-- The outcome of a write task that ends so. -/
def Outcome.ofTask (task : Nat) (fate : WriteFate) (storedAt : Nat) : Outcome :=
  ⟨task, fate, false, storedAt, .done⟩

/-- The outcome of a read task that ends so. -/
def Outcome.ofRead (task : Nat) (answered : Bool) : Outcome := ⟨task, .acked, answered, 0, .done⟩

/-- A task among those left that ends, and those left after it. -/
theorem exists_task {α : Type*} {target : NodeId} {rest : List α} {f : α → NodeId}
    (h : (target :: rest.map f).Perm tasks) :
    ∃ i, tasks[i]? = some target ∧ (rest.map f).Perm (tasks.eraseIdx i) := by
  obtain ⟨i, hi⟩ := List.mem_iff_getElem?.mp (h.subset List.mem_cons_self)
  obtain ⟨hlt, hget⟩ := List.getElem?_eq_some_iff.mp hi
  have hpick := (List.getElem_cons_eraseIdx_perm hlt).symm
  rw [hget] at hpick
  exact ⟨i, hi, (h.trans hpick).cons_inv⟩

theorem step_broadcast {i now : Nat} {target : NodeId} {fate : WriteFate}
    (hi : tasks[i]? = some target) :
    (Process.broadcast w tasks acked failed).step toVec members codec s (.ofTask i fate now) =
      ([.broadcast w (tasks.eraseIdx i) (acked ++ ackedNodes [(target, fate)])
          (failed ++ failedNodes [(target, fate)])],
        { s with replicas := remoteWrite s.replicas target w.req fate }) := by
  cases tasks with
  | nil => simp at hi
  | cons task tasks =>
    cases fate <;>
      simp [Process.step, Outcome.ofTask, hi, ackedNodes, failedNodes]

/-- A fan-out whose tasks end in the given order. -/
theorem runs_broadcast {completions : List (NodeId × WriteFate)}
    (hperm : (completions.map Prod.fst).Perm tasks)
    (hp : s.processes = [.broadcast w tasks acked failed]) :
    s.Runs toVec members codec
      { s with
        replicas := (broadcastWrite s.replicas w.req completions).2.2
        processes := [.broadcast w [] (acked ++ ackedNodes completions)
          (failed ++ failedNodes completions)] } := by
  induction completions generalizing s tasks acked failed with
  | nil =>
    obtain rfl : tasks = [] := hperm.symm.eq_nil
    simp only [broadcastWrite, ackedNodes, failedNodes, List.foldl_nil, List.filterMap_nil,
      List.append_nil, ← hp]
    exact .refl
  | cons c completions ih =>
    obtain ⟨target, fate⟩ := c
    obtain ⟨i, hi, hrest⟩ := exists_task hperm
    have hstep := Cluster.runs_advance toVec members codec (.ofTask i fate 0) hp
    rw [step_broadcast hi] at hstep
    have hacked : ackedNodes ((target, fate) :: completions) =
        ackedNodes [(target, fate)] ++ ackedNodes completions := List.filterMap_append (l := [_])
    have hfailed : failedNodes ((target, fate) :: completions) =
        failedNodes [(target, fate)] ++ failedNodes completions := List.filterMap_append (l := [_])
    rw [hacked, hfailed, ← List.append_assoc, ← List.append_assoc]
    exact hstep.trans (ih hrest rfl)

/-- The hints that are sent for these pairs, and how many are stored. -/
def sendHints (req : WriteRequest) (fate : NodeId → WriteFate) (stored : Nat)
    (replicas : Replicas) (pairs : List (NodeId × NodeId)) : Nat × Replicas :=
  pairs.foldl (fun (stored, replicas) (failedOwner, fallback) =>
    (if fate fallback = .acked then stored + 1 else stored,
      remoteWrite replicas fallback { req with isHint := true, hintTarget := some failedOwner }
        (fate fallback))) (stored, replicas)

theorem storeSloppyHints_eq (members : Membership) (w : Nat) (replicas : Replicas)
    (req : WriteRequest) (owners failed : List NodeId) (fate : NodeId → WriteFate) :
    storeSloppyHints members w replicas req owners failed fate =
      sendHints req fate 0 replicas (hintPairs members w owners failed) := by
  cases failed with
  | nil => simp [storeSloppyHints, hintPairs, sendHints]
  | cons n failed => rfl

theorem runs_sloppy {pairs : List (NodeId × NodeId)} {ackedCount stored : Nat}
    (fate : NodeId → WriteFate) (hp : s.processes = [.sloppy w pairs ackedCount stored]) :
    s.Runs toVec members codec
      { s with
        replicas := (sendHints w.req fate stored s.replicas pairs).2
        processes := [.sloppy w [] ackedCount
          (sendHints w.req fate stored s.replicas pairs).1] } := by
  induction pairs generalizing s stored with
  | nil =>
    simp only [sendHints, List.foldl_nil, ← hp]
    exact .refl
  | cons pair pairs ih =>
    obtain ⟨failedOwner, fallback⟩ := pair
    exact (Cluster.runs_advance _ _ _ (.ofTask 0 (fate fallback) 0) hp).trans (ih rfl)

/-- The cluster in which an update leaves what it returned. -/
def Cluster.settle (toVec : Document → Bytes) (s : Cluster) (w : Writing) (now : Nat)
    (res : Except ReplicationError WriteResult × Replicas) : Cluster :=
  let s := { s with replicas := res.2, processes := [] }
  match res.1 with
  | .ok result => s.keep toVec w result now
  | .error _ => s

/-- What an update returns when it has sent its hints. -/
def Writing.verdict (quorum : Nat) (w : Writing) (acked stored : Nat) :
    Except ReplicationError WriteResult :=
  if acked + stored ≥ quorum then .ok ⟨w.req.version, acked, stored⟩
  else .error (.insufficientReplicas quorum (acked + stored))

/-- What is returned of an update, and the replicas, once its fan-out is joined. -/
def Writing.conclude (members : Membership) (quorum : Nat) (w : Writing)
    (acked failed : List NodeId) (replicas : Replicas) (hints : NodeId → WriteFate) :
    Except ReplicationError WriteResult × Replicas :=
  if acked.length ≥ quorum then (.ok ⟨w.req.version, acked.length, 0⟩, replicas)
  else
    let (stored, replicas) := storeSloppyHints members quorum replicas w.req w.owners failed hints
    (w.verdict quorum acked.length stored, replicas)

theorem keep_processes (w : Writing) (result : WriteResult) (now : Nat) (ps : List Process) :
    { s.keep toVec w result now with processes := ps } =
      Cluster.keep toVec { s with processes := ps } w result now := by
  unfold Cluster.keep
  split <;> rfl

theorem runs_verdict {ackedCount stored : Nat} (now : Nat)
    (hp : s.processes = [.sloppy w [] ackedCount stored]) :
    s.Runs toVec members codec (s.settle toVec w now
      (w.verdict (s.coordinators w.node).config.w ackedCount stored, s.replicas)) := by
  have hend := Cluster.runs_advance toVec members codec (.ofTask 0 .acked now) hp
  simp only [Process.step] at hend
  unfold Writing.verdict
  split at hend
  case isTrue hquorum =>
    rw [keep_processes] at hend
    rwa [if_pos hquorum]
  case isFalse hquorum => rwa [if_neg hquorum]

/-- A fan-out that has joined its tasks runs to the end of the update. -/
theorem runs_conclude (hints : NodeId → WriteFate) (now : Nat)
    (hp : s.processes = [.broadcast w [] acked failed]) :
    s.Runs toVec members codec (s.settle toVec w now
      (w.conclude (members w.node) (s.coordinators w.node).config.w acked failed s.replicas
        hints)) := by
  have hjoin := Cluster.runs_advance toVec members codec (.ofTask 0 .acked now) hp
  simp only [Process.step] at hjoin
  unfold Writing.conclude
  by_cases hquorum : acked.length ≥ (s.coordinators w.node).config.w
  · rw [if_pos hquorum, keep_processes] at hjoin
    rwa [if_pos hquorum]
  · rw [if_neg hquorum] at hjoin
    rw [if_neg hquorum, storeSloppyHints_eq]
    exact (hjoin.trans (runs_sloppy hints rfl)).trans (runs_verdict now rfl)

/-- The cluster after an operation at `node` that had it for itself. -/
def Cluster.put {ε : Type} (s : Cluster) (node : NodeId) (res : ε × Coordinator × Replicas) :
    Cluster :=
  ⟨Function.update s.coordinators node res.2.1, res.2.2, []⟩

theorem put_self {ε : Type} {e : ε} (hp : s.processes = []) :
    s.put node (e, s.coordinators node, s.replicas) = s := by
  obtain ⟨coordinators, replicas, processes⟩ := s
  obtain rfl : processes = [] := hp
  simp [Cluster.put]

/-- Keeps a result under an idempotency key, if there is one. -/
def keepResult (toVec : Document → Bytes) (remember : Option (String × Document)) (now : Nat)
    (res : Except ReplicationError WriteResult × Coordinator × Replicas) :
    Except ReplicationError WriteResult × Coordinator × Replicas :=
  match remember with
  | none => res
  | some (ikey, doc) => Coordinator.remember toVec ikey doc now res

theorem settle_eq_put {c : Coordinator} {replicas : Replicas} {ps : List Process} (now : Nat)
    (res : Except ReplicationError WriteResult × Replicas) :
    Cluster.settle toVec ⟨Function.update s.coordinators w.node c, replicas, ps⟩ w now res =
      s.put w.node (keepResult toVec w.remember now (res.1, c, res.2)) := by
  obtain ⟨verdict, replicas⟩ := res
  cases verdict <;> cases hw : w.remember <;>
    simp [Cluster.settle, Cluster.keep, Cluster.setCoordinator, Cluster.put, keepResult,
      Coordinator.remember, hw]

/-- The update that a coordinator stamps with `hlc`. -/
def Coordinator.writing (c : Coordinator) (members : Membership) (node : NodeId) (key : ObjectKey)
    (doc : Option Document) (remember : Option (String × Document)) (hlc : Hlc) : Writing :=
  ⟨node, ⟨key, doc, .single c.localNode hlc, hlc, false, none⟩,
    members.ownersForKey key.toBytes c.config.n, remember⟩

theorem replicate_eq {c : Coordinator} {members : Membership} {replicas : Replicas}
    {doc : Option Document} {remember : Option (String × Document)} {hlc : Hlc}
    (htick : env.tick = .ok hlc) :
    c.replicate members replicas key doc env =
      let w := c.writing members node key doc remember hlc
      let res := w.conclude members c.config.w (ackedNodes env.writes) (failedNodes env.writes)
        (broadcastWrite replicas w.req env.writes).2.2 env.hints
      (res.1, { c with clock := hlc }, res.2) := by
  simp only [Coordinator.replicate, htick, VectorClock.increment_new, Coordinator.writing,
    Writing.conclude, Writing.verdict, broadcastWrite]
  by_cases hacked : (ackedNodes env.writes).length ≥ c.config.w
  · exact (if_pos hacked).trans (by rw [if_pos hacked])
  · refine (if_neg hacked).trans ?_
    rw [if_neg hacked]
    symm
    apply apply_ite (fun v => (v, ({ c with clock := hlc } : Coordinator), _))

theorem keepResult_error {remember : Option (String × Document)} {now : Nat}
    {e : ReplicationError} {c : Coordinator} {replicas : Replicas} :
    keepResult toVec remember now (.error e, c, replicas) = (.error e, c, replicas) := by
  cases remember <;> rfl

/-- The fan-out of an update runs to what `replicate` returns. -/
theorem runs_writing (toVec : Document → Bytes) (codec : Codec) (c : Coordinator)
    (hwrites : (env.writes.map Prod.fst).Perm w.owners) :
    Cluster.Runs toVec members codec
      ⟨Function.update s.coordinators w.node c, s.replicas, [.broadcast w w.owners [] []]⟩
      (s.put w.node (keepResult toVec w.remember env.storedAt
        (let res := w.conclude (members w.node) c.config.w (ackedNodes env.writes)
          (failedNodes env.writes) (broadcastWrite s.replicas w.req env.writes).2.2 env.hints
        (res.1, c, res.2)))) := by
  let joined : Cluster := ⟨Function.update s.coordinators w.node c,
    (broadcastWrite s.replicas w.req env.writes).2.2,
    [.broadcast w [] (ackedNodes env.writes) (failedNodes env.writes)]⟩
  have hend : joined.Runs toVec members codec _ := runs_conclude env.hints env.storedAt rfl
  rw [settle_eq_put] at hend
  simp only [joined, Function.update_self] at hend
  exact (runs_broadcast hwrites rfl).trans hend

/-- A stamped update that nothing interrupts leaves what `replicate` leaves. -/
theorem runs_send {doc : Option Document} {remember : Option (String × Document)}
    (hp : s.processes = [])
    (hwrites : (env.writes.map Prod.fst).Perm
      ((members node).ownersForKey key.toBytes (s.coordinators node).config.n)) :
    (s.send members node key doc remember env.tick).Runs toVec members codec
      (s.put node (keepResult toVec remember env.storedAt
        ((s.coordinators node).replicate (members node) s.replicas key doc env))) := by
  cases htick : env.tick with
  | error e =>
    have hres : (s.coordinators node).replicate (members node) s.replicas key doc env =
        (.error (.clock e), s.coordinators node, s.replicas) := by
      simp [Coordinator.replicate, htick]
    rw [hres, keepResult_error, put_self hp]
    exact .refl
  | ok hlc =>
    let c := { s.coordinators node with clock := hlc }
    let w := (s.coordinators node).writing (members node) node key doc remember hlc
    have hsend : s.send members node key doc remember (.ok hlc) =
        ⟨Function.update s.coordinators node c, s.replicas, [.broadcast w w.owners [] []]⟩ := by
      simp [Cluster.send, VectorClock.increment_new, Cluster.setCoordinator, Cluster.spawn, hp,
        w, c, Coordinator.writing]
    rw [hsend, replicate_eq htick]
    have hw : (env.writes.map Prod.fst).Perm w.owners := hwrites
    exact runs_writing toVec codec c hw

theorem runs_quorumDelete (hp : s.processes = [])
    (htick : ∀ hlc, env.tick = .ok hlc → (s.coordinators node).clock < hlc)
    (hwrites : (env.writes.map Prod.fst).Perm
      ((members node).ownersForKey key.toBytes (s.coordinators node).config.n)) :
    s.Runs toVec members codec
      (s.put node ((s.coordinators node).quorumDelete (members node) s.replicas key env)) :=
  (Cluster.Runs.of_step (a := .quorumDelete node key env.tick) ⟨htick, rfl⟩).trans
    (runs_send hp hwrites)

theorem put_setCoordinator {ε : Type} (c : Coordinator) (res : ε × Coordinator × Replicas) :
    (s.setCoordinator node c).put node res = s.put node res := by
  simp [Cluster.put, Cluster.setCoordinator]

/-- A write that nothing interrupts, with or without an idempotency key. -/
theorem runs_quorumWrite {doc : Document} {idempotencyKey : Option String} (hp : s.processes = [])
    (htick : ∀ hlc, env.tick = .ok hlc → (s.coordinators node).clock < hlc)
    (hwrites : (env.writes.map Prod.fst).Perm
      ((members node).ownersForKey key.toBytes (s.coordinators node).config.n)) :
    s.Runs toVec members codec
      (s.put node ((s.coordinators node).quorumWrite (members node) toVec s.replicas key doc
        idempotencyKey env)) := by
  refine (Cluster.Runs.of_step
    (a := .quorumWrite node key doc idempotencyKey env.now env.tick) ⟨htick, rfl⟩).trans ?_
  cases idempotencyKey with
  | none => exact runs_send hp hwrites
  | some ikey =>
    obtain ⟨⟨found, cache⟩, hget⟩ :
        ∃ res, (s.coordinators node).idempotency.get toVec ikey doc env.now = res := ⟨_, rfl⟩
    let c := { s.coordinators node with idempotency := cache }
    have hself : (s.setCoordinator node c).coordinators node = c := by
      simp [Cluster.setCoordinator]
    have hended {e : Except ReplicationError WriteResult} :
        s.put node (e, c, s.replicas) = s.setCoordinator node c := by
      rw [← put_setCoordinator c]
      nth_rewrite 2 [← hself]
      exact put_self hp
    -- A hit and a conflict end with the lookup; a miss goes on to the fan-out.
    obtain e | (_ | cached) := found
    · simp only [Cluster.after, Coordinator.quorumWrite, hget]
      rw [hended]
      exact .refl
    · simp only [Cluster.after, Coordinator.quorumWrite, hget]
      have hw : (env.writes.map Prod.fst).Perm ((members node).ownersForKey key.toBytes
          ((s.setCoordinator node c).coordinators node).config.n) := by
        rw [hself]
        exact hwrites
      have hrun : ((s.setCoordinator node c).send members node key (some doc)
          (some (ikey, doc)) env.tick).Runs toVec members codec _ := runs_send hp hw
      rw [put_setCoordinator, hself] at hrun
      exact hrun
    · simp only [Cluster.after, Coordinator.quorumWrite, hget]
      rw [hended]
      exact .refl

theorem step_collect {i : Nat} {target : NodeId} {answered : Bool}
    {found : List (NodeId × Option VersionedDoc)} (hi : tasks[i]? = some target) :
    (Process.collect node key tasks found).step toVec members codec s (.ofRead i answered) =
      ([.collect node key (tasks.eraseIdx i)
        (found ++ responses codec.reread s.replicas key [(target, answered)])], s) := by
  cases tasks with
  | nil => simp at hi
  | cons task tasks =>
    cases answered with
    | false => simp [Process.step, Outcome.ofRead, hi, responses]
    | true =>
      cases hread : (s.replicas target).handleRead codec.reread key <;>
        simp [Process.step, Outcome.ofRead, hi, responses, hread]

/-- The reads of a quorum, answered in the given order. -/
theorem runs_collect {reads : List (NodeId × Bool)}
    {found : List (NodeId × Option VersionedDoc)} (hperm : (reads.map Prod.fst).Perm tasks)
    (hp : s.processes = [.collect node key tasks found]) :
    s.Runs toVec members codec
      { s with
        processes :=
          [.collect node key [] (found ++ responses codec.reread s.replicas key reads)] } := by
  induction reads generalizing s tasks found with
  | nil =>
    obtain rfl : tasks = [] := hperm.symm.eq_nil
    simp only [responses, List.filterMap_nil, List.append_nil, ← hp]
    exact .refl
  | cons read reads ih =>
    obtain ⟨target, answered⟩ := read
    obtain ⟨i, hi, hrest⟩ := exists_task hperm
    have hstep := Cluster.runs_advance toVec members codec (.ofRead i answered) hp
    rw [step_collect hi] at hstep
    have hcons : responses codec.reread s.replicas key ((target, answered) :: reads) =
        responses codec.reread s.replicas key [(target, answered)] ++
          responses codec.reread s.replicas key reads :=
      List.filterMap_append (l := [_])
    rw [hcons, ← List.append_assoc]
    exact hstep.trans (ih hrest rfl)

/-- The repair writes of a read, sent one after the other. -/
def sendRepairs (replicas : Replicas) (fate : NodeId → WriteFate)
    (repairs : List (NodeId × WriteRequest)) : Replicas :=
  repairs.foldl (fun replicas repair => remoteWrite replicas repair.1 repair.2 (fate repair.1))
    replicas

theorem runs_repair {targets : List NodeId} {req : WriteRequest} (fate : NodeId → WriteFate)
    (hp : s.processes = [.repair targets req]) :
    s.Runs toVec members codec
      { s with
        replicas := sendRepairs s.replicas fate (targets.map (fun node => (node, req)))
        processes := [] } := by
  induction targets generalizing s with
  | nil => exact Cluster.runs_advance toVec members codec (.ofTask 0 .acked 0) hp
  | cons target targets ih =>
    exact (Cluster.runs_advance _ _ _ (.ofTask 0 (fate target) 0) hp).trans (ih rfl)

/-- A read that has joined its tasks runs to the end of its repairs. -/
theorem runs_resolve (repairs : NodeId → WriteFate)
    (howners : ¬ ((members node).ownersForKey key.toBytes
      (s.coordinators node).config.n).isEmpty = true)
    (hp : s.processes = [.collect node key [] (responses codec.reread s.replicas key env.reads)]) :
    s.Runs toVec members codec
      { s with
        replicas := sendRepairs s.replicas repairs
          ((s.coordinators node).quorumRead (members node) codec.reread s.replicas key env).2
        processes := [] } := by
  have hjoin := Cluster.runs_advance toVec members codec (.ofRead 0 true) hp
  simp only [Process.step] at hjoin
  simp only [Coordinator.quorumRead, if_neg howners]
  by_cases hquorum :
      (responses codec.reread s.replicas key env.reads).length < (s.coordinators node).config.r
  · rw [if_pos hquorum] at hjoin ⊢
    exact hjoin
  · rw [if_neg hquorum] at hjoin ⊢
    cases hwinner : resolveConflict
        ((responses codec.reread s.replicas key env.reads).filterMap Prod.snd) with
    | none =>
      simp only [hwinner] at hjoin ⊢
      exact hjoin
    | some winner =>
      simp only [hwinner] at hjoin ⊢
      exact hjoin.trans (runs_repair repairs rfl)

/-- A read that nothing interrupts repairs the replicas that its answer finds stale. -/
theorem runs_quorumRead (repairs : NodeId → WriteFate) (hp : s.processes = [])
    (hreads : (env.reads.map Prod.fst).Perm
      ((members node).ownersForKey key.toBytes (s.coordinators node).config.n)) :
    s.Runs toVec members codec
      { s with
        replicas := sendRepairs s.replicas repairs
          ((s.coordinators node).quorumRead (members node) codec.reread s.replicas key env).2
        processes := [] } := by
  refine (Cluster.Runs.of_step (a := .quorumRead node key) ⟨trivial, rfl⟩).trans ?_
  simp only [Cluster.after]
  split
  case isTrue howners =>
    simp only [Coordinator.quorumRead, if_pos howners, ← hp]
    exact .refl
  case isFalse howners =>
    have hspawned : (s.spawn (.collect node key ((members node).ownersForKey key.toBytes
        (s.coordinators node).config.n) [])).processes =
        [.collect node key ((members node).ownersForKey key.toBytes
          (s.coordinators node).config.n) []] := by
      simp [Cluster.spawn, hp]
    exact (runs_collect hreads hspawned).trans (runs_resolve repairs howners rfl)

end BashfulDB.Replication

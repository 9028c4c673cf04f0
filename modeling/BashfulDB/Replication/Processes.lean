import BashfulDB.Replication.Coordinator
import BashfulDB.Replication.Hints

/-!
Any number of coordinators and hint passes over all keys, cut at every remote call: operations,
read repair and hint delivery interleave freely. A remote call succeeds or fails as the outside
decides, whatever nodes are down or partitioned.
-/
namespace BashfulDB.Replication

open Clock Data

/-- A `quorum_write` or `quorum_delete` that has its stamp. -/
structure Writing where
  node : NodeId
  req : WriteRequest
  owners : List NodeId
  /-- The idempotency key and document under which the result is kept. -/
  remember : Option (String × Document)

/-- An operation or task in progress, by what it still has to do. -/
inductive Process
  | broadcast (w : Writing) (tasks acked failed : List NodeId)
  | sloppy (w : Writing) (pairs : List (NodeId × NodeId)) (acked stored : Nat)
  | collect (node : NodeId) (key : ObjectKey) (tasks : List NodeId)
      (responses : List (NodeId × Option VersionedDoc))
  | repair (targets : List NodeId) (req : WriteRequest)
  | handoff (node : NodeId) (pass : Pass)

/-- What the outside decides in one step of a process. -/
structure Outcome where
  /-- Which task of a fan-out ends. -/
  task : Nat
  fate : WriteFate
  answered : Bool
  storedAt : Nat
  deletion : Deletion

structure Cluster where
  coordinators : NodeId → Coordinator
  replicas : Replicas
  processes : List Process

inductive Action
  | quorumWrite (node : NodeId) (key : ObjectKey) (doc : Document) (idempotencyKey : Option String)
      (now : Nat) (tick : Except ClockError Hlc)
  | quorumDelete (node : NodeId) (key : ObjectKey) (tick : Except ClockError Hlc)
  | quorumRead (node : NodeId) (key : ObjectKey)
  | deliverPendingHints (node : NodeId) (nowMs : UInt64)
  /-- The `i`-th process takes its next step. -/
  | advance (i : Nat) (o : Outcome)

/-- The failed owners that get a hint, each with the node that is to keep it. -/
def hintPairs (members : Membership) (w : Nat) (owners failed : List NodeId) :
    List (NodeId × NodeId) :=
  (failed.take (min failed.length w)).zip
    (members.allNodes.filter fun n => !owners.contains n)

section

-- Every coordinator has its own view of the membership.
variable (toVec : Document → Bytes) (members : NodeId → Membership) (codec : Codec)

/-- The request that a pass is about to send, with its target. -/
def Pass.attempt (p : Pass) : Option (NodeId × WriteRequest) :=
  match p.rest with
  | [] => none
  | (rawKey, rawVal) :: _ =>
    match examine codec p.nowMs rawKey rawVal with
    | .attempt target req => some (target, req)
    | .malformed | .expired => none

/-- The replicas after a pass has sent its request, if it sends one. -/
def Pass.send (p : Pass) (replicas : Replicas) (fate : WriteFate) : Replicas :=
  match p.attempt codec with
  | some (target, req) => remoteWrite replicas target req fate
  | none => replicas

namespace Cluster

def initial (configs : NodeId → QuorumConfig) (clocks : NodeId → Hlc) : Cluster where
  coordinators node := ⟨node, configs node, clocks node, .new⟩
  replicas node := .new node
  processes := []

def setCoordinator (s : Cluster) (node : NodeId) (c : Coordinator) : Cluster :=
  { s with coordinators := Function.update s.coordinators node c }

def spawn (s : Cluster) (p : Process) : Cluster := { s with processes := s.processes ++ [p] }

/-- Stamps an update and starts its fan-out. -/
def send (s : Cluster) (node : NodeId) (key : ObjectKey) (doc : Option Document)
    (remember : Option (String × Document)) (tick : Except ClockError Hlc) : Cluster :=
  match tick with
  | .error _ => s
  | .ok hlc =>
    let c := { s.coordinators node with clock := hlc }
    let s := s.setCoordinator node c
    match VectorClock.new.increment c.localNode hlc with
    | .error _ => s
    | .ok version =>
      let owners := (members node).ownersForKey key.toBytes c.config.n
      s.spawn (.broadcast ⟨node, ⟨key, doc, version, hlc, false, none⟩, owners, remember⟩ owners
        [] [])

/-- Keeps the result of a write that has an idempotency key. -/
def keep (s : Cluster) (w : Writing) (result : WriteResult) (now : Nat) : Cluster :=
  match w.remember with
  | none => s
  | some (ikey, doc) =>
    let c := s.coordinators w.node
    s.setCoordinator w.node
      { c with idempotency := c.idempotency.store toVec ikey doc result now }

end Cluster

/-- One step of a process: the processes that take its place, and the cluster. -/
def Process.step (s : Cluster) (o : Outcome) : Process → List Process × Cluster
  | .broadcast w tasks acked failed =>
    match tasks with
    | [] =>
      let config := (s.coordinators w.node).config
      if acked.length ≥ config.w then
        ([], s.keep toVec w ⟨w.req.version, acked.length, 0⟩ o.storedAt)
      else ([.sloppy w (hintPairs (members w.node) config.w w.owners failed) acked.length 0], s)
    | _ :: _ =>
      match tasks[o.task]? with
      | none => ([.broadcast w tasks acked failed], s)
      | some target =>
        let s := { s with replicas := remoteWrite s.replicas target w.req o.fate }
        let rest := tasks.eraseIdx o.task
        match o.fate with
        | .acked => ([.broadcast w rest (acked ++ [target]) failed], s)
        | .failed _ => ([.broadcast w rest acked (failed ++ [target])], s)
        | .panicked _ => ([.broadcast w rest acked failed], s)
  | .sloppy w pairs acked stored =>
    match pairs with
    | [] =>
      if acked + stored ≥ (s.coordinators w.node).config.w then
        ([], s.keep toVec w ⟨w.req.version, acked, stored⟩ o.storedAt)
      else ([], s)
    | (failedOwner, fallback) :: pairs =>
      let req := { w.req with isHint := true, hintTarget := some failedOwner }
      ([.sloppy w pairs acked (if o.fate = .acked then stored + 1 else stored)],
        { s with replicas := remoteWrite s.replicas fallback req o.fate })
  | .collect node key tasks responses =>
    match tasks with
    | [] =>
      if responses.length < (s.coordinators node).config.r then ([], s)
      else
        match resolveConflict (responses.filterMap Prod.snd) with
        | none => ([], s)
        | some winner =>
          ([.repair (staleNodes responses winner)
            ⟨key, winner.document, winner.version, winner.hlc, false, none⟩], s)
    | _ :: _ =>
      match tasks[o.task]? with
      | none => ([.collect node key tasks responses], s)
      | some target =>
        let rest := tasks.eraseIdx o.task
        let response := if o.answered then (s.replicas target).handleRead codec.reread key else none
        ([.collect node key rest (responses ++ (response.map (target, ·)).toList)], s)
  | .repair targets req =>
    match targets with
    | [] => ([], s)
    | target :: targets =>
      ([.repair targets req], { s with replicas := remoteWrite s.replicas target req o.fate })
  | .handoff node pass =>
    match pass.answer with
    | some _ => ([], s)
    | none =>
      let replicas := pass.send codec s.replicas o.fate
      let (pass, store, _) := pass.turn codec (replicas node) ⟨o.fate = .acked, o.deletion⟩
      ([.handoff node pass], { s with replicas := Function.update replicas node store })

namespace Cluster

def after (s : Cluster) : Action → Cluster
  | .quorumWrite node key doc idempotencyKey now tick =>
    match idempotencyKey with
    | none => s.send members node key (some doc) none tick
    | some ikey =>
      let c := s.coordinators node
      match c.idempotency.get toVec ikey doc now with
      | (.ok none, cache) =>
        (s.setCoordinator node { c with idempotency := cache }).send members node key (some doc)
          (some (ikey, doc)) tick
      | (_, cache) => s.setCoordinator node { c with idempotency := cache }
  | .quorumDelete node key tick => s.send members node key none none tick
  | .quorumRead node key =>
    let owners := (members node).ownersForKey key.toBytes (s.coordinators node).config.n
    if owners.isEmpty then s else s.spawn (.collect node key owners [])
  | .deliverPendingHints node nowMs =>
    s.spawn (.handoff node ⟨nowMs, (s.replicas node).hints.entries, 0, none⟩)
  | .advance i o =>
    match s.processes[i]? with
    | none => s
    | some p =>
      let (next, t) := p.step toVec members codec s o
      { t with processes := s.processes.take i ++ next ++ s.processes.drop (i + 1) }

end Cluster

/-- The clock of the coordinator moves forward. -/
def Action.Ticks (s : Cluster) : Action → Prop
  | .quorumWrite node _ _ _ _ tick | .quorumDelete node _ tick =>
    ∀ hlc, tick = .ok hlc → (s.coordinators node).clock < hlc
  | _ => True

/-- A step of the cluster. -/
def Cluster.Step (s : Cluster) (a : Action) (t : Cluster) : Prop :=
  a.Ticks s ∧ t = s.after toVec members codec a

end

end BashfulDB.Replication

import BashfulDB.Clock.VectorClock

/-! The membership table and the digests that nodes exchange about it. -/
namespace BashfulDB.Cluster

open Clock

inductive NodeState
  | joining
  | bootstrapping
  | healthy
  | leaving
  | draining
  | suspect
  | down
  | rebuilding
  deriving DecidableEq, Repr

namespace NodeState

def canServeWrites : NodeState → Bool
  | .healthy => true
  | _ => false

def validTransitions : NodeState → List NodeState
  | .joining => [.bootstrapping, .down]
  | .bootstrapping => [.healthy, .down]
  | .healthy => [.leaving, .draining, .suspect, .down]
  | .leaving => [.draining, .down]
  | .draining => [.down]
  | .suspect => [.healthy, .down]
  | .down => [.rebuilding, .joining]
  | .rebuilding => [.healthy, .down]

def canTransitionTo (state target : NodeState) : Bool := state.validTransitions.contains target

end NodeState

inductive ClusterError
  | invalidStateTransition (source target : NodeState)
  | nodeNotFound (nodeId : NodeId)
  deriving DecidableEq, Repr

structure MemberRecord where
  state : NodeState
  generation : UInt64
  updatedAt : Hlc
  deriving DecidableEq

structure MemberDigest where
  id : NodeId
  state : NodeState
  generation : UInt64
  updatedAt : Hlc

structure ClusterMembership where
  localNode : NodeId
  members : OrdMap NodeId MemberRecord
  schemaVersion : UInt64

def saturatingSucc (n : UInt64) : UInt64 := if n = UInt64.ofNat (2 ^ 64 - 1) then n else n + 1

namespace ClusterMembership

def new (localNode : NodeId) (state : NodeState) (now : Hlc) : ClusterMembership :=
  ⟨localNode, OrdMap.empty.insert localNode ⟨state, 0, now⟩, 0⟩

def memberDigests (m : ClusterMembership) : List MemberDigest :=
  m.members.entries.map (fun (id, r) => ⟨id, r.state, r.generation, r.updatedAt⟩)

def allNodes (m : ClusterMembership) : List NodeId := m.members.keys

def nodeState (m : ClusterMembership) (node : NodeId) : Option NodeState :=
  (m.members.get node).map MemberRecord.state

def upsertLocalMember (m : ClusterMembership) (node : NodeId) (state : NodeState)
    (updatedAt : Hlc) : Except ClusterError ClusterMembership :=
  match m.members.get node with
  | some existing =>
    if !existing.state.canTransitionTo state ∧ existing.state ≠ state then
      .error (.invalidStateTransition existing.state state)
    else
      let record : MemberRecord := ⟨state, saturatingSucc existing.generation, updatedAt⟩
      .ok { m with members := m.members.insert node record }
  | none => .ok { m with members := m.members.insert node ⟨state, 0, updatedAt⟩ }

def transitionState (m : ClusterMembership) (node : NodeId) (target : NodeState)
    (updatedAt : Hlc) : Except ClusterError ClusterMembership :=
  match m.members.get node with
  | none => .error (.nodeNotFound node)
  | some r =>
    if r.state ≠ target ∧ !r.state.canTransitionTo target then
      .error (.invalidStateTransition r.state target)
    else
      let record : MemberRecord := ⟨target, saturatingSucc r.generation, updatedAt⟩
      .ok { m with members := m.members.insert node record }

/-- One round of the merge loop, with its `changed` flag. -/
def mergeDigest (acc : Bool × ClusterMembership) (digest : MemberDigest) :
    Bool × ClusterMembership :=
  let (changed, m) := acc
  let record : MemberRecord := ⟨digest.state, digest.generation, digest.updatedAt⟩
  match m.members.get digest.id with
  | some r =>
    let remoteIsNewer := digest.generation > r.generation ∨
      digest.generation = r.generation ∧ digest.updatedAt > r.updatedAt
    if ¬ remoteIsNewer then (changed, m)
    else if digest.state ≠ r.state ∧ !r.state.canTransitionTo digest.state then (changed, m)
    else (true, { m with members := m.members.insert digest.id record })
  | none =>
    if digest.state ≠ .joining ∧ digest.state ≠ .healthy then (changed, m)
    else (true, { m with members := m.members.insert digest.id record })

def mergeRemoteDigests (m : ClusterMembership) (remote : List MemberDigest) :
    Bool × ClusterMembership :=
  remote.foldl mergeDigest (false, m)

end ClusterMembership

end BashfulDB.Cluster

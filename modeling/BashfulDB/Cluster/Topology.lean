import BashfulDB.Cluster.Exchange
import BashfulDB.Cluster.Ring

/-!
The membership table with all that its records hold, the ring that is kept beside it, and the
events that are sent to subscribers.
-/
namespace BashfulDB.Cluster

open Clock

structure SocketAddr where
  ip : List UInt8
  port : UInt16

structure NodeInfo where
  id : NodeId
  address : SocketAddr
  gossipAddress : SocketAddr
  state : NodeState
  vnodes : List VnodeId

/-- A record of the table. -/
structure Member where
  info : NodeInfo
  generation : UInt64
  updatedAt : Hlc

/-- The part of a record that digests carry. -/
def Member.record (r : Member) : MemberRecord := ⟨r.info.state, r.generation, r.updatedAt⟩

inductive MembershipEvent
  | nodeJoined (node : NodeId)
  | nodeLeft (node : NodeId)
  | stateChanged (node : NodeId) (source target : NodeState)
  | ringRebalanced

/-- The order in which a hash map hands out its values. -/
structure Iteration where
  order : List Member → List Member
  perm : ∀ l, (order l).Perm l

/-- The values in the order of their keys. -/
def Iteration.ascending : Iteration := ⟨id, fun _ => .refl _⟩

def unknownNodeAddress : SocketAddr := ⟨[127, 0, 0, 1], 0⟩

structure Topology where
  localNode : NodeId
  ring : Ring
  members : OrdMap NodeId Member
  /-- All that was sent, the latest last. Sending does not wait for subscribers; what the channel
  still holds for one that lags behind, the latest 1024, is not part of the table. -/
  events : List MembershipEvent
  schemaVersion : UInt64

namespace Topology

def send (t : Topology) (event : MembershipEvent) : Topology :=
  { t with events := t.events ++ [event] }

/-- `self.members.insert`. -/
def put (t : Topology) (id : NodeId) (member : Member) : Topology :=
  { t with members := t.members.insert id member }

def rebuildRing (t : Topology) (it : Iteration) : Topology :=
  { t with ring := (it.order t.members.values).foldl (fun ring member =>
      if member.info.state = .healthy then ring.addNode member.info.id else ring) .new }

def emitRebalanceIfNeeded (t : Topology) (it : Iteration) (source target : Option NodeState) :
    Topology :=
  let beforeHealthy : Bool := (source.map fun s => decide (s = .healthy)).getD false
  let afterHealthy : Bool := (target.map fun s => decide (s = .healthy)).getD false
  if beforeHealthy ≠ afterHealthy ∨ source.isNone ∧ afterHealthy then
    (t.rebuildRing it).send .ringRebalanced
  else t

def emitStateEvents (t : Topology) (it : Iteration) (node : NodeId) (source target : NodeState) :
    Topology :=
  if source ≠ target then
    let t := t.send (.stateChanged node source target)
    let t := if target = .down then t.send (.nodeLeft node) else t
    t.emitRebalanceIfNeeded it (some source) (some target)
  else t

def new (it : Iteration) (localInfo : NodeInfo) (now : Hlc) : Topology :=
  rebuildRing ⟨localInfo.id, .new, OrdMap.empty.insert localInfo.id ⟨localInfo, 0, now⟩, [], 0⟩ it

def upsertLocalMember (t : Topology) (it : Iteration) (info : NodeInfo) (updatedAt : Hlc) :
    Except ClusterError Unit × Topology :=
  match t.members.get info.id with
  | some existing =>
    if !existing.info.state.canTransitionTo info.state ∧ existing.info.state ≠ info.state then
      (.error (.invalidStateTransition existing.info.state info.state), t)
    else
      let t := t.put info.id ⟨info, saturatingSucc existing.generation, updatedAt⟩
      (.ok (), t.emitStateEvents it info.id existing.info.state info.state)
  | none =>
    let t := (t.put info.id ⟨info, 0, updatedAt⟩).send (.nodeJoined info.id)
    (.ok (), t.emitRebalanceIfNeeded it none (some info.state))

def transitionState (t : Topology) (it : Iteration) (node : NodeId) (target : NodeState)
    (updatedAt : Hlc) : Except ClusterError Unit × Topology :=
  match t.members.get node with
  | none => (.error (.nodeNotFound node), t)
  | some current =>
    if current.info.state ≠ target ∧ !current.info.state.canTransitionTo target then
      (.error (.invalidStateTransition current.info.state target), t)
    else
      let info := { current.info with state := target }
      let t := t.put node ⟨info, saturatingSucc current.generation, updatedAt⟩
      (.ok (), t.emitStateEvents it node current.info.state target)

/-- One round of the merge loop, with its `changed` flag. -/
def mergeDigest (acc : Bool × Topology) (digest : MemberDigest) (it : Iteration) :
    Bool × Topology :=
  let (changed, t) := acc
  match t.members.get digest.id with
  | some r =>
    let remoteIsNewer := digest.generation > r.generation ∨
      digest.generation = r.generation ∧ digest.updatedAt > r.updatedAt
    if ¬ remoteIsNewer then (changed, t)
    else if digest.state ≠ r.info.state ∧ !r.info.state.canTransitionTo digest.state then
      (changed, t)
    else
      let info := { r.info with state := digest.state }
      let t := t.put digest.id ⟨info, digest.generation, digest.updatedAt⟩
      (true, t.emitStateEvents it digest.id r.info.state digest.state)
  | none =>
    if digest.state ≠ .joining ∧ digest.state ≠ .healthy then (changed, t)
    else
      let info : NodeInfo := ⟨digest.id, unknownNodeAddress, unknownNodeAddress, digest.state, []⟩
      let t := (t.put digest.id ⟨info, digest.generation, digest.updatedAt⟩).send
        (.nodeJoined digest.id)
      (true, t.emitRebalanceIfNeeded it none (some digest.state))

/-- Each digest comes with the order of iteration that a rebuild in its round meets. -/
def mergeRemoteDigests (t : Topology) (remote : List (MemberDigest × Iteration)) :
    Bool × Topology :=
  remote.foldl (fun acc d => mergeDigest acc d.1 d.2) (false, t)

def ringSnapshot (t : Topology) : Ring := t.ring

def ownersForKey (t : Topology) (key : Bytes) (n : Nat) : Option (List NodeId) :=
  t.ring.ownersForKey key n

def nodeState (t : Topology) (node : NodeId) : Option NodeState :=
  (t.members.get node).map (·.info.state)

def allNodes (t : Topology) : List NodeId := t.members.keys

variable {t t' : Topology} {it : Iteration} {id node : NodeId} {member : Member} {info : NodeInfo}
  {source target : NodeState} {updatedAt : Hlc}

/-- The table holds `member` under `id`, and the ring has been built again unless the node is as
healthy, or as little, as before. -/
structure Puts (t : Topology) (id : NodeId) (member : Member) (t' : Topology) : Prop where
  localNode : t'.localNode = t.localNode
  schemaVersion : t'.schemaVersion = t.schemaVersion
  members : t'.members = t.members.insert id member
  ring : (∃ it, t'.ring = (t'.rebuildRing it).ring) ∨
    t'.ring = t.ring ∧ (t.nodeState id = some .healthy ↔ member.info.state = .healthy)

theorem puts_emitRebalanceIfNeeded (member : Member) (events : List MembershipEvent)
    (it : Iteration) :
    Puts t id member ({ t.put id member with events := events }.emitRebalanceIfNeeded it
      (t.nodeState id) (some member.info.state)) := by
  unfold emitRebalanceIfNeeded
  dsimp only
  split
  · exact ⟨rfl, rfl, rfl, Or.inl ⟨it, rfl⟩⟩
  · rename_i hkept
    refine ⟨rfl, rfl, rfl, Or.inr ⟨rfl, ?_⟩⟩
    have hsame := not_not.mp (not_or.mp hkept).1
    cases hstate : t.nodeState id with
    | none => simpa [hstate] using hsame
    | some source => simpa [hstate] using hsame

theorem puts_known (member : Member) (it : Iteration) (hsource : t.nodeState id = some source) :
    Puts t id member ((t.put id member).emitStateEvents it id source member.info.state) := by
  unfold emitStateEvents
  split
  · rw [← hsource]
    dsimp only
    split
    · exact puts_emitRebalanceIfNeeded member _ it
    · exact puts_emitRebalanceIfNeeded member _ it
  · rename_i hsame
    rw [not_not] at hsame
    refine ⟨rfl, rfl, rfl, Or.inr ⟨rfl, ?_⟩⟩
    rw [hsource, hsame, Option.some.injEq]

theorem puts_new (member : Member) (it : Iteration) (hnone : t.nodeState id = none) :
    Puts t id member (((t.put id member).send (.nodeJoined id)).emitRebalanceIfNeeded it none
      (some member.info.state)) := by
  rw [← hnone]
  exact puts_emitRebalanceIfNeeded member _ it

/-- Everything that one turn of an operation can do to the table, where `later` is what it makes
sure of between the record of a known node and the one before. -/
inductive Effect (later : Member → Member → Prop) (t t' : Topology) : Prop
  | kept : t' = t → Effect later t t'
  | updated {id : NodeId} {r member : Member} : Puts t id member t' → t.members.get id = some r →
      later member r → r.info.state.Follows member.info.state →
      (r.info.id = id → member.info.id = id) → Effect later t t'
  | joined {id : NodeId} {member : Member} : Puts t id member t' → t.members.get id = none →
      member.info.id = id → Effect later t t'

/-- The generation is the next one. -/
def Bumped (member r : Member) : Prop := member.generation = saturatingSucc r.generation

theorem nodeState_of_get {r : Member} (h : t.members.get id = some r) :
    t.nodeState id = some r.info.state := by
  rw [nodeState, h]
  rfl

theorem nodeState_of_not_known (h : t.members.get id = none) : t.nodeState id = none := by
  rw [nodeState, h]
  rfl

theorem follows_of_legal
    (h : ¬ (source ≠ target ∧ (!source.canTransitionTo target) = true)) :
    source.Follows target := by
  rw [NodeState.Follows]
  by_contra hnot
  obtain ⟨hne, hillegal⟩ := not_or.mp hnot
  exact h ⟨Ne.symm hne, by simpa using hillegal⟩

theorem effect_upsertLocalMember (t : Topology) (it : Iteration) (info : NodeInfo)
    (updatedAt : Hlc) : Effect Bumped t (t.upsertLocalMember it info updatedAt).2 := by
  unfold upsertLocalMember
  split
  · rename_i existing hget
    split
    · exact .kept rfl
    · rename_i hlegal
      have hfollows := follows_of_legal fun h => hlegal ⟨h.2, h.1⟩
      have hputs := puts_known ⟨info, saturatingSucc existing.generation, updatedAt⟩ it
        (nodeState_of_get hget)
      exact .updated hputs hget rfl hfollows fun _ => rfl
  · rename_i hget
    have hputs := puts_new ⟨info, 0, updatedAt⟩ it (nodeState_of_not_known hget)
    exact .joined hputs hget rfl

theorem effect_transitionState (t : Topology) (it : Iteration) (node : NodeId)
    (target : NodeState) (updatedAt : Hlc) :
    Effect Bumped t (t.transitionState it node target updatedAt).2 := by
  unfold transitionState
  split
  · exact .kept rfl
  · rename_i current hget
    split
    · exact .kept rfl
    · rename_i hlegal
      have hputs := puts_known ⟨{ current.info with state := target },
        saturatingSucc current.generation, updatedAt⟩ it (nodeState_of_get hget)
      exact .updated hputs hget rfl (follows_of_legal hlegal) fun h => h

theorem effect_mergeDigest (changed : Bool) (t : Topology) (digest : MemberDigest)
    (it : Iteration) : Effect (fun member r => member.record.Newer r.record) t
      (mergeDigest (changed, t) digest it).2 := by
  unfold mergeDigest
  dsimp only
  split
  · rename_i r hget
    split
    · exact .kept rfl
    · rename_i hnewer
      split
      · exact .kept rfl
      · rename_i hlegal
        have hfollows := follows_of_legal fun h => hlegal ⟨Ne.symm h.1, h.2⟩
        have hputs := puts_known ⟨{ r.info with state := digest.state }, digest.generation,
          digest.updatedAt⟩ it (nodeState_of_get hget)
        exact .updated hputs hget (not_not.mp hnewer) hfollows fun h => h
  · rename_i hget
    split
    · exact .kept rfl
    · have hputs := puts_new ⟨⟨digest.id, unknownNodeAddress, unknownNodeAddress, digest.state, []⟩,
        digest.generation, digest.updatedAt⟩ it (nodeState_of_not_known hget)
      exact .joined hputs hget rfl

/-- `m` records the same of each node as `t` does, but for its addresses and vnodes. -/
structure Refines (t : Topology) (m : ClusterMembership) : Prop where
  localNode : m.localNode = t.localNode
  schemaVersion : m.schemaVersion = t.schemaVersion
  members : ∀ id, m.members.get id = (t.members.get id).map Member.record

variable {m m' : ClusterMembership}

theorem Refines.put (h : t.Refines m) (hputs : Puts t id member t') :
    t'.Refines { m with members := m.members.insert id member.record } where
  localNode := h.localNode.trans hputs.localNode.symm
  schemaVersion := h.schemaVersion.trans hputs.schemaVersion.symm
  members j := by
    rw [hputs.members, OrdMap.get_insert, OrdMap.get_insert, h.members]
    split <;> rfl

theorem Refines.new (it : Iteration) (info : NodeInfo) (now : Hlc) :
    (Topology.new it info now).Refines (.new info.id info.state now) where
  localNode := rfl
  schemaVersion := rfl
  members j := by
    change (OrdMap.empty.insert _ _).get j = ((OrdMap.empty.insert _ _).get j).map _
    rw [OrdMap.get_insert, OrdMap.get_insert]
    split <;> rfl

/-- The table with its ring takes every local change that the bare table takes, and refuses the
others with the same error. -/
theorem Refines.upsertLocalMember (h : t.Refines m) (it : Iteration) (info : NodeInfo)
    (updatedAt : Hlc) :
    (t.upsertLocalMember it info updatedAt).1 =
        (m.upsertLocalMember info.id info.state updatedAt).map (fun _ => ()) ∧
      ∀ m', m.upsertLocalMember info.id info.state updatedAt = .ok m' →
        (t.upsertLocalMember it info updatedAt).2.Refines m' := by
  have hget := h.members info.id
  unfold ClusterMembership.upsertLocalMember Topology.upsertLocalMember
  cases hmember : t.members.get info.id with
  | none =>
    simp only [hget, hmember, Option.map_none]
    refine ⟨rfl, ?_⟩
    rintro m' ⟨⟩
    exact h.put (puts_new ⟨info, 0, updatedAt⟩ it (nodeState_of_not_known hmember))
  | some existing =>
    simp only [hget, hmember, Option.map_some, Member.record]
    split
    · refine ⟨rfl, ?_⟩
      rintro m' ⟨⟩
    · refine ⟨rfl, ?_⟩
      rintro m' ⟨⟩
      exact h.put (puts_known ⟨info, saturatingSucc existing.generation, updatedAt⟩ it
        (nodeState_of_get hmember))

theorem Refines.transitionState (h : t.Refines m) (it : Iteration) (node : NodeId)
    (target : NodeState) (updatedAt : Hlc) :
    (t.transitionState it node target updatedAt).1 =
        (m.transitionState node target updatedAt).map (fun _ => ()) ∧
      ∀ m', m.transitionState node target updatedAt = .ok m' →
        (t.transitionState it node target updatedAt).2.Refines m' := by
  have hget := h.members node
  unfold ClusterMembership.transitionState Topology.transitionState
  cases hmember : t.members.get node with
  | none =>
    simp only [hget, hmember, Option.map_none]
    refine ⟨rfl, ?_⟩
    rintro m' ⟨⟩
  | some current =>
    simp only [hget, hmember, Option.map_some, Member.record]
    split
    · refine ⟨rfl, ?_⟩
      rintro m' ⟨⟩
    · refine ⟨rfl, ?_⟩
      rintro m' ⟨⟩
      exact h.put (puts_known ⟨{ current.info with state := target },
        saturatingSucc current.generation, updatedAt⟩ it (nodeState_of_get hmember))

theorem Refines.mergeDigest (h : t.Refines m) (changed : Bool) (digest : MemberDigest)
    (it : Iteration) :
    (Topology.mergeDigest (changed, t) digest it).1 =
        (ClusterMembership.mergeDigest (changed, m) digest).1 ∧
      (Topology.mergeDigest (changed, t) digest it).2.Refines
        (ClusterMembership.mergeDigest (changed, m) digest).2 := by
  have hget := h.members digest.id
  unfold ClusterMembership.mergeDigest Topology.mergeDigest
  cases hmember : t.members.get digest.id with
  | none =>
    simp only [hget, hmember, Option.map_none]
    split
    · exact ⟨rfl, h⟩
    · exact ⟨rfl, h.put (puts_new ⟨⟨digest.id, unknownNodeAddress, unknownNodeAddress,
        digest.state, []⟩, digest.generation, digest.updatedAt⟩ it
        (nodeState_of_not_known hmember))⟩
  | some r =>
    simp only [hget, hmember, Option.map_some, Member.record]
    split
    · exact ⟨rfl, h⟩
    · split
      · exact ⟨rfl, h⟩
      · exact ⟨rfl, h.put (puts_known ⟨{ r.info with state := digest.state }, digest.generation,
          digest.updatedAt⟩ it (nodeState_of_get hmember))⟩

/-- A merge changes the same records as it does without the ring, and says so. -/
theorem Refines.mergeRemoteDigests (h : t.Refines m) (remote : List (MemberDigest × Iteration)) :
    (t.mergeRemoteDigests remote).1 = (m.mergeRemoteDigests (remote.map Prod.fst)).1 ∧
      (t.mergeRemoteDigests remote).2.Refines
        (m.mergeRemoteDigests (remote.map Prod.fst)).2 := by
  rw [Topology.mergeRemoteDigests, ClusterMembership.mergeRemoteDigests, List.foldl_map]
  generalize false = changed
  induction remote generalizing t m changed with
  | nil => exact ⟨rfl, h⟩
  | cons d remote ih =>
    obtain ⟨hchanged, hrefines⟩ := h.mergeDigest changed d.1 d.2
    rw [List.foldl_cons, List.foldl_cons]
    generalize Topology.mergeDigest (changed, t) d.1 d.2 = next at hchanged hrefines ⊢
    generalize ClusterMembership.mergeDigest (changed, m) d.1 = next' at hchanged hrefines ⊢
    obtain ⟨changed', t'⟩ := next
    obtain ⟨changed'', m'⟩ := next'
    obtain rfl : changed' = changed'' := hchanged
    exact ih hrefines _

end Topology

end BashfulDB.Cluster

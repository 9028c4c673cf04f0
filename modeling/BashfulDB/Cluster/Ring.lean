import Mathlib.Data.List.Nodup
import BashfulDB.Clock.VectorClock
import BashfulDB.Library.Bytes

/-! The consistent hash ring: the positions of the nodes, and the owners of a key. -/
namespace BashfulDB.Cluster

open Clock

def defaultVnodesPerNode : Nat := 256

structure VnodeId where
  position : UInt64
  deriving DecidableEq

structure Ring where
  ring : OrdMap UInt64 (VnodeId × NodeId)
  vnodesPerNode : Nat

/-- FNV-1a. -/
def fnv1aHash (data : Bytes) : UInt64 :=
  data.foldl (fun hash byte => (hash ^^^ byte.toUInt64) * 0x100000001b3) 0xcbf29ce484222325

def hashKey (key : Bytes) : UInt64 := fnv1aHash key

/-- The bytes of the node's UUID, and the index as a little-endian `u64`. -/
def hashVnode (node : NodeId) (index : Nat) : UInt64 :=
  fnv1aHash (Bytes.ofNat 16 node.uuid.bits.toNat ++ (Bytes.ofNat 8 index).reverse)

/-- The hash of a node's own bytes, before those of the index. -/
def baseHash (node : NodeId) : UInt64 := fnv1aHash (Bytes.ofNat 16 node.uuid.bits.toNat)

/-- The one byte of the index is mixed in, and seven bytes of zeros only multiply. -/
theorem hashVnode_eq {node : NodeId} {i : Nat} (hi : i < 256) :
    hashVnode node i = (baseHash node ^^^ UInt64.ofNat i) * 0x1efac7090aef4a21 := by
  have hbytes : (Bytes.ofNat 8 i).reverse = [UInt8.ofNat i, 0, 0, 0, 0, 0, 0, 0] := by
    simp (disch := omega) [Bytes.ofNat, Nat.div_eq_of_lt]
  have hindex : (UInt8.ofNat i).toUInt64 = UInt64.ofNat i := by
    apply UInt64.toNat_inj.mp
    simp
    omega
  have hzero : (0 : UInt8).toUInt64 = 0 := rfl
  rw [hashVnode, fnv1aHash, List.foldl_append, hbytes, ← fnv1aHash, ← baseHash]
  simp only [List.foldl_cons, List.foldl_nil, hindex, hzero, UInt64.xor_zero, UInt64.mul_assoc]
  rfl

/-- Vnodes of two nodes meet only if the hashes of the nodes agree but for the last byte. -/
theorem hashVnode_ne {a b : NodeId} {i j : Nat} (h : baseHash a >>> 8 ≠ baseHash b >>> 8)
    (hi : i < 256) (hj : j < 256) : hashVnode a i ≠ hashVnode b j := by
  rw [hashVnode_eq hi, hashVnode_eq hj]
  intro heq
  -- The factor is odd, so it can be divided out.
  have hinv : (0x1efac7090aef4a21 : UInt64) * 0x48e254e75f5eb9e1 = 1 := by decide
  have hxor := congrArg (· * (0x48e254e75f5eb9e1 : UInt64)) heq
  simp only [UInt64.mul_assoc, hinv, UInt64.mul_one] at hxor
  have hlow {k : Nat} (hk : k < 256) : UInt64.ofNat k >>> 8 = 0 := by
    apply UInt64.toNat_inj.mp
    simp [Nat.shiftRight_eq_div_pow]
    omega
  have hhigh := congrArg (· >>> (8 : UInt64)) hxor
  simp only [UInt64.shiftRight_xor, hlow hi, hlow hj, UInt64.xor_zero] at hhigh
  exact h hhigh

namespace Ring

def new : Ring := ⟨OrdMap.empty, defaultVnodesPerNode⟩

def withVnodesPerNode (vnodesPerNode : Nat) : Ring := ⟨OrdMap.empty, vnodesPerNode⟩

/-- What a node enters into the ring. -/
def vnodes (vnodesPerNode : Nat) (node : NodeId) : List (UInt64 × VnodeId × NodeId) :=
  (List.range vnodesPerNode).map fun i => (hashVnode node i, ⟨hashVnode node i⟩, node)

def addNode (r : Ring) (node : NodeId) : Ring :=
  { r with ring := r.ring.insertAll (vnodes r.vnodesPerNode node) }

def removeNode (r : Ring) (node : NodeId) : Ring :=
  { r with ring := r.ring.retain fun _ v => v.2 ≠ node }

/-- One of the two loops of `owners_for_key`. It ends the function, as `.error`, once `n` owners
are found. -/
def walk (n : Nat) : List NodeId → List NodeId → Except (List NodeId) (List NodeId)
  | owners, [] => .ok owners
  | owners, node :: rest =>
    if node ∈ owners then walk n owners rest
    else if (owners ++ [node]).length ≥ n then .error (owners ++ [node])
    else walk n (owners ++ [node]) rest

/-- The two loops of `owners_for_key`: clockwise from the position of the key, then around to it. -/
def collectOwners (r : Ring) (key : Bytes) (n : Nat) : List NodeId :=
  let position := hashKey key
  let nodes := fun (p : UInt64 → Bool) => (r.ring.entries.filter (p ·.1)).map (·.2.2)
  match walk n [] (nodes (position ≤ ·)) with
  | .error owners => owners
  | .ok owners =>
    match walk n owners (nodes (· < position)) with
    | .error owners => owners
    | .ok owners => owners

/-- The capacity is within `isize::MAX` bytes, of which a `NodeId` takes 16. -/
def Allocatable (n : Nat) : Prop := 16 * n < 2 ^ 63

instance (n : Nat) : Decidable (Allocatable n) := inferInstanceAs (Decidable (_ < _))

/-- `none` where `Vec::with_capacity(n)` panics. -/
def ownersForKey (r : Ring) (key : Bytes) (n : Nat) : Option (List NodeId) :=
  if r.ring.entries.isEmpty then some []
  else if Allocatable n then some (r.collectOwners key n)
  else none

/-- Each node of the ring once, in ascending order. -/
def allNodes (r : Ring) : List NodeId := (OrdMap.collect (r.ring.values.map (·.2))).keys

variable {r : Ring} {n : Nat} {owners nodes nodes' : List NodeId} {node : NodeId} {key : Bytes}

/-- What either way out of a loop has collected. -/
def found : Except (List NodeId) (List NodeId) → List NodeId
  | .error owners => owners
  | .ok owners => owners

theorem nodup_walk (h : owners.Nodup) : (found (walk n owners nodes)).Nodup := by
  induction nodes generalizing owners with
  | nil => exact h
  | cons node nodes ih =>
    unfold walk
    split
    · exact ih h
    · rename_i hnew
      have hnodup : (owners ++ [node]).Nodup := by
        refine h.append (List.nodup_singleton _) ?_
        intro m hm hnode
        rw [List.mem_singleton.mp hnode] at hm
        exact hnew hm
      split
      · exact hnodup
      · exact ih hnodup

/-- No node owns a key twice. -/
theorem nodup_collectOwners (r : Ring) (key : Bytes) (n : Nat) : (r.collectOwners key n).Nodup := by
  unfold collectOwners
  dsimp only
  generalize hfirst : walk n [] _ = first
  have hnodup : (found first).Nodup := hfirst ▸ nodup_walk List.nodup_nil
  cases first with
  | error owners => exact hnodup
  | ok owners =>
    dsimp only
    generalize hsecond : walk n owners _ = second
    have hnodup : (found second).Nodup := hsecond ▸ nodup_walk hnodup
    cases second with
    | error owners => exact hnodup
    | ok owners => exact hnodup

theorem collectOwners_of_isEmpty (h : r.ring.entries = []) : r.collectOwners key n = [] := by
  simp [collectOwners, h, walk]

/-- Where `owners_for_key` returns, and what. -/
theorem ownersForKey_eq_some : r.ownersForKey key n = some owners ↔
    (r.ring.entries = [] ∨ Allocatable n) ∧ owners = r.collectOwners key n := by
  unfold ownersForKey
  by_cases hempty : r.ring.entries = []
  · rw [if_pos (List.isEmpty_iff.mpr hempty), collectOwners_of_isEmpty hempty, Option.some_inj]
    exact ⟨fun h => ⟨Or.inl hempty, h.symm⟩, fun h => h.2.symm⟩
  · rw [if_neg (mt List.isEmpty_iff.mp hempty)]
    by_cases hn : Allocatable n
    · rw [if_pos hn, Option.some_inj]
      exact ⟨fun h => ⟨Or.inr hn, h.symm⟩, fun h => h.2.symm⟩
    · rw [if_neg hn]
      exact ⟨nofun, fun h => absurd h.1 (by simp [hempty, hn])⟩

theorem mem_allNodes : node ∈ r.allNodes ↔ ∃ p id, r.ring.get p = some (id, node) := by
  simp only [allNodes, OrdMap.mem_keys_collect, OrdMap.values, List.mem_map,
    OrdMap.get_eq_some_iff]
  constructor
  · rintro ⟨v, ⟨⟨p, id, m⟩, hmem, rfl⟩, rfl⟩
    exact ⟨p, id, hmem⟩
  · rintro ⟨p, id, hmem⟩
    exact ⟨_, ⟨_, hmem, rfl⟩, rfl⟩

/-- Adding nodes one after the other enters all their vnodes. -/
theorem foldl_addNode (nodes : List NodeId) (r : Ring) :
    nodes.foldl addNode r =
      { r with ring := r.ring.insertAll (nodes.flatMap (vnodes r.vnodesPerNode)) } := by
  induction nodes generalizing r with
  | nil => rfl
  | cons node nodes ih =>
    rw [List.foldl_cons, ih, List.flatMap_cons, OrdMap.insertAll_append]
    rfl

/-- The vnodes of different nodes have different positions. -/
def Apart (vnodesPerNode : Nat) (nodes : List NodeId) : Prop :=
  ∀ a ∈ nodes, ∀ b ∈ nodes, a ≠ b → ∀ i < vnodesPerNode, ∀ j < vnodesPerNode,
    hashVnode a i ≠ hashVnode b j

theorem apart_of_baseHash
    (h : ∀ a ∈ nodes, ∀ b ∈ nodes, a ≠ b → baseHash a >>> 8 ≠ baseHash b >>> 8) :
    Apart defaultVnodesPerNode nodes :=
  fun a ha b hb hne _ hi _ hj => hashVnode_ne (h a ha b hb hne) hi hj

theorem Apart.coherent {k : Nat} (h : Apart k nodes) :
    OrdMap.Coherent (nodes.flatMap (vnodes k)) := by
  intro p hp q hq hpq
  obtain ⟨a, ha, hp⟩ := List.mem_flatMap.mp hp
  obtain ⟨b, hb, hq⟩ := List.mem_flatMap.mp hq
  obtain ⟨i, hi, rfl⟩ := List.mem_map.mp hp
  obtain ⟨j, hj, rfl⟩ := List.mem_map.mp hq
  have hab : a = b := by
    by_contra hne
    exact h a ha b hb hne i (List.mem_range.mp hi) j (List.mem_range.mp hj) hpq
  exact Prod.ext (congrArg VnodeId.mk hpq) hab

/-- The order in which nodes are added to an empty ring does not matter. -/
theorem foldl_addNode_congr (h : Apart defaultVnodesPerNode nodes)
    (hmem : ∀ m, m ∈ nodes ↔ m ∈ nodes') : nodes.foldl addNode new = nodes'.foldl addNode new := by
  rw [foldl_addNode, foldl_addNode]
  refine congrArg (Ring.mk · _) (OrdMap.insertAll_congr h.coherent fun e => ?_)
  simp only [List.mem_flatMap, hmem]

theorem mem_allNodes_foldl_addNode (h : Apart defaultVnodesPerNode nodes) :
    node ∈ (nodes.foldl addNode new).allNodes ↔ node ∈ nodes := by
  rw [foldl_addNode, mem_allNodes]
  constructor
  · rintro ⟨p, id, hget⟩
    rcases (OrdMap.get_insertAll h.coherent).mp hget with hmem | ⟨-, hempty⟩
    · obtain ⟨m, hm, hmem⟩ := List.mem_flatMap.mp hmem
      obtain ⟨i, -, heq⟩ := List.mem_map.mp hmem
      cases heq
      exact hm
    · cases hempty
  · intro hnode
    refine ⟨hashVnode node 0, ⟨hashVnode node 0⟩, (OrdMap.get_insertAll h.coherent).mpr ?_⟩
    refine Or.inl (List.mem_flatMap.mpr ⟨node, hnode, List.mem_map.mpr ⟨0, ?_, rfl⟩⟩)
    exact List.mem_range.mpr (by decide)

end Ring

end BashfulDB.Cluster

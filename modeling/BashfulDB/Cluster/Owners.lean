import BashfulDB.Cluster.Ring
import BashfulDB.Library.Firsts

/-! The owners of a key are the first distinct nodes clockwise from its position, and a node that
joins the ring moves no more of them than it must. -/
namespace BashfulDB.Cluster.Ring

open Clock Firsts

variable {r : Ring} {n : Nat} {owners nodes : List NodeId} {node x : NodeId} {key : Bytes}
  {position : UInt64}

/-- The nodes of the vnodes, clockwise from the first at or after a position and once around. -/
def clockwise (r : Ring) (position : UInt64) : List NodeId :=
  (r.ring.entries.filter (position ≤ ·.1) ++ r.ring.entries.filter (·.1 < position)).map (·.2.2)

/-- A loop goes through the first occurrences, and ends the function at the `n`th of them. -/
theorem walk_eq (h : owners.Nodup) (hn : owners.length < n) :
    walk n owners nodes =
      if n ≤ (owners ++ nodes).eraseDups.length then .error ((owners ++ nodes).eraseDups.take n)
      else .ok (owners ++ nodes).eraseDups := by
  induction nodes generalizing owners with
  | nil =>
    rw [List.append_nil, eraseDups_of_nodup h, if_neg (Nat.not_le.mpr hn)]
    rfl
  | cons node nodes ih =>
    unfold walk
    by_cases hnode : node ∈ owners
    · rw [if_pos hnode, ih h hn, eraseDups_append_cons_of_mem hnode]
    · have hnodup : (owners ++ [node]).Nodup := List.concat_eq_append ▸ h.concat hnode
      have hcons : owners ++ node :: nodes = (owners ++ [node]) ++ nodes := by simp
      rw [if_neg hnode, hcons]
      by_cases hfull : n ≤ (owners ++ [node]).length
      · obtain ⟨rest, hrest⟩ : owners ++ [node] <+: (owners ++ [node] ++ nodes).eraseDups :=
          prefix_eraseDups_append hnodup
        have hlength : (owners ++ [node]).length = n := by
          rw [List.length_append, List.length_singleton] at hfull ⊢
          omega
        rw [if_pos hfull, ← hrest, if_pos (by rw [List.length_append]; omega), ← hlength,
          List.take_left]
      · rw [if_neg hfull, ih hnodup (Nat.not_le.mp hfull)]

/-- The two loops are one walk around the ring. -/
theorem collectOwners_eq (hn : 1 ≤ n) :
    r.collectOwners key n = (r.clockwise (hashKey key)).eraseDups.take n := by
  unfold collectOwners clockwise
  dsimp only
  rw [List.map_append]
  generalize (r.ring.entries.filter _).map _ = ahead
  generalize (r.ring.entries.filter _).map _ = around
  have hahead : walk n [] ahead = _ := walk_eq List.nodup_nil hn
  rw [List.nil_append] at hahead
  rw [hahead]
  by_cases hfull : n ≤ ahead.eraseDups.length
  · rw [if_pos hfull]
    dsimp only
    rw [List.eraseDups_append, List.take_append_of_le_length hfull]
  · rw [if_neg hfull]
    dsimp only
    rw [walk_eq (nodup_eraseDups ahead) (Nat.not_le.mp hfull), eraseDups_eraseDups_append]
    by_cases hfull' : n ≤ (ahead ++ around).eraseDups.length
    · rw [if_pos hfull']
    · rw [if_neg hfull', List.take_of_length_le (Nat.le_of_not_le hfull')]

theorem mem_clockwise : node ∈ r.clockwise position ↔ node ∈ r.allNodes := by
  simp only [clockwise, mem_allNodes, OrdMap.get_eq_some_iff, List.mem_map, List.mem_append,
    List.mem_filter, decide_eq_true_eq]
  constructor
  · rintro ⟨⟨p, id, m⟩, ⟨hmem, -⟩ | ⟨hmem, -⟩, rfl⟩
    · exact ⟨p, id, hmem⟩
    · exact ⟨p, id, hmem⟩
  · rintro ⟨p, id, hmem⟩
    rcases le_or_gt position p with hle | hlt
    · exact ⟨_, Or.inl ⟨hmem, hle⟩, rfl⟩
    · exact ⟨_, Or.inr ⟨hmem, hlt⟩, rfl⟩

/-- Around the ring each of its nodes is met. -/
theorem length_eraseDups_clockwise :
    (r.clockwise position).eraseDups.length = r.allNodes.length := by
  have hperm : (r.clockwise position).eraseDups.Perm r.allNodes := by
    refine (List.perm_ext_iff_of_nodup (nodup_eraseDups _) (OrdMap.nodup_keys _)).mpr fun m => ?_
    rw [List.mem_eraseDups, mem_clockwise]
    rfl
  exact hperm.length_eq

theorem length_collectOwners (hn : 1 ≤ n) :
    (r.collectOwners key n).length = min n r.allNodes.length := by
  rw [collectOwners_eq hn, List.length_take, length_eraseDups_clockwise]

/-- The owners of a key are the first distinct nodes clockwise from its position, as many as are
asked for and on the ring: just where the ring is empty, or a vector of as many nodes as are asked
for can be allocated. -/
theorem ownersForKey_clockwise_iff (r : Ring) (key : Bytes) (n : Nat) (hn : 1 ≤ n) :
    (∃ owners, r.ownersForKey key n = some owners ∧
        owners = (r.clockwise (hashKey key)).eraseDups.take (min n r.allNodes.length) ∧
        owners.length = min n r.allNodes.length ∧ owners.Nodup) ↔
      r.ring.entries = [] ∨ 16 * n < 2 ^ 63 := by
  simp only [ownersForKey_eq_some]
  constructor
  · rintro ⟨owners, ⟨hcan, -⟩, -⟩
    exact hcan
  · intro hcan
    refine ⟨_, ⟨hcan, rfl⟩, ?_, length_collectOwners hn, nodup_collectOwners r key n⟩
    rw [collectOwners_eq hn, ← length_eraseDups_clockwise, ← List.take_eq_take_min]

/-- Two nodes, of two vnodes each. -/
def pair : Ring := ((withVnodesPerNode 2).addNode ⟨⟨1⟩⟩).addNode ⟨⟨2⟩⟩

theorem ownersForKey_clockwise_pair :
    pair.clockwise (hashKey [107]) = [⟨⟨1⟩⟩, ⟨⟨1⟩⟩, ⟨⟨2⟩⟩, ⟨⟨2⟩⟩] ∧
      ∃ owners, pair.ownersForKey [107] 5 = some owners ∧
        owners = (pair.clockwise (hashKey [107])).eraseDups.take (min 5 pair.allNodes.length) ∧
        owners.length = min 5 pair.allNodes.length ∧ owners.Nodup :=
  ⟨by decide +kernel,
    (ownersForKey_clockwise_iff pair [107] 5 (by decide)).mpr (Or.inr (by decide))⟩

/-- More owners are asked for than a vector can have room for. -/
theorem ownersForKey_panics : pair.ownersForKey [107] (2 ^ 59) = none := by
  decide +kernel

/-- Taking a node off the ring takes it out of every walk. -/
theorem clockwise_removeNode :
    (r.removeNode node).clockwise position = (r.clockwise position).filter (· ≠ node) := by
  simp only [clockwise, removeNode, OrdMap.retain, List.filter_map, List.filter_append,
    List.filter_filter, List.map_append]
  congr 3 <;> funext e <;> exact Bool.and_comm _ _

theorem coherent_vnodes {k : Nat} : OrdMap.Coherent (vnodes k node) := by
  intro p hp q hq hpq
  obtain ⟨i, -, rfl⟩ := List.mem_map.mp hp
  obtain ⟨j, -, rfl⟩ := List.mem_map.mp hq
  exact Prod.ext (congrArg VnodeId.mk hpq) rfl

/-- A node that took the place of no other leaves the ring as it found it. -/
theorem removeNode_addNode (hx : x ∉ r.allNodes)
    (hfree : ∀ i < r.vnodesPerNode, r.ring.get (hashVnode x i) = none) :
    (r.addNode x).removeNode x = r := by
  have hring : (r.ring.insertAll (vnodes r.vnodesPerNode x)).retain (fun _ v => v.2 ≠ x) =
      r.ring := by
    refine OrdMap.ext_get fun p => ?_
    rw [OrdMap.get_retain]
    apply Option.ext
    rintro ⟨id, m⟩
    rw [Option.filter_eq_some_iff, OrdMap.get_insertAll coherent_vnodes]
    constructor
    · rintro ⟨hmem | ⟨-, hget⟩, hm⟩
      · obtain ⟨i, -, heq⟩ := List.mem_map.mp hmem
        cases heq
        simp at hm
      · exact hget
    · intro hget
      have hnot : p ∉ (vnodes r.vnodesPerNode x).map Prod.fst := by
        intro hp
        obtain ⟨e, he, rfl⟩ := List.mem_map.mp hp
        obtain ⟨i, hi, rfl⟩ := List.mem_map.mp he
        rw [hfree i (List.mem_range.mp hi)] at hget
        cases hget
      have hm : m ≠ x := fun heq => hx (mem_allNodes.mpr ⟨p, id, heq ▸ hget⟩)
      exact ⟨Or.inr ⟨hnot, hget⟩, by simpa using hm⟩
  exact congrArg (Ring.mk · r.vnodesPerNode) hring

theorem owners_removeNode_addNode (hn : 1 ≤ n) (hback : (r.addNode x).removeNode x = r) :
    r.collectOwners key n =
      (((r.addNode x).clockwise (hashKey key)).eraseDups.filter (· ≠ x)).take n := by
  conv_lhs => rw [← hback]
  rw [collectOwners_eq hn, clockwise_removeNode, filter_eraseDups]

theorem isEmpty_of_addNode (hback : (r.addNode x).removeNode x = r)
    (h : (r.addNode x).ring.entries = []) : r.ring.entries = [] := by
  rw [← hback]
  simp [removeNode, OrdMap.retain, h]

/-- A node that joins the ring, at positions of its own, either owns the key, and then pushes back
at most the last of the owners, or changes none of them; leaving gives the ring back. So it is just
where the ring stays empty, or a vector of as many nodes as are asked for can be allocated. -/
theorem owners_addNode_iff (r : Ring) (x : NodeId) (key : Bytes) (n : Nat) (hn : 1 ≤ n)
    (hx : x ∉ r.allNodes)
    (hfree : ∀ i < r.vnodesPerNode, r.ring.get (hashVnode x i) = none) :
    (∃ owners owners', r.ownersForKey key n = some owners ∧
        (r.addNode x).ownersForKey key n = some owners' ∧
        (x ∉ owners' → owners' = owners) ∧
        (x ∈ owners' → owners'.erase x <+: owners ∧
          owners.length - 1 ≤ (owners'.erase x).length) ∧
        (r.addNode x).removeNode x = r) ↔
      (r.addNode x).ring.entries = [] ∨ 16 * n < 2 ^ 63 := by
  have hback := removeNode_addNode hx hfree
  simp only [ownersForKey_eq_some]
  constructor
  · rintro ⟨owners, owners', -, ⟨hcan, -⟩, -⟩
    exact hcan
  · intro hcan
    refine ⟨_, _, ⟨hcan.imp_left (isEmpty_of_addNode hback), rfl⟩, ⟨hcan, rfl⟩, ?_⟩
    rw [owners_removeNode_addNode hn hback, collectOwners_eq hn]
    refine ⟨fun hnot => (take_filter_ne hnot).symm, fun hmem => ?_, hback⟩
    obtain ⟨hfront, hlength⟩ := take_erase_prefix (nodup_eraseDups _) hmem
    exact ⟨hfront, by omega⟩

/-- One node, of two vnodes. -/
def single : Ring := (withVnodesPerNode 2).addNode ⟨⟨1⟩⟩

theorem free_single : (⟨⟨2⟩⟩ : NodeId) ∉ single.allNodes ∧
    ∀ i < single.vnodesPerNode, single.ring.get (hashVnode ⟨⟨2⟩⟩ i) = none := by
  decide +kernel

theorem owners_addNode_second :
    ∃ owners owners', single.ownersForKey [107] 2 = some owners ∧
      (single.addNode ⟨⟨2⟩⟩).ownersForKey [107] 2 = some owners' ∧ ⟨⟨2⟩⟩ ∈ owners' ∧
      owners'.erase ⟨⟨2⟩⟩ <+: owners ∧ (single.addNode ⟨⟨2⟩⟩).removeNode ⟨⟨2⟩⟩ = single := by
  obtain ⟨owners, owners', hbefore, hafter, -, hmoved, hback⟩ :=
    (owners_addNode_iff single ⟨⟨2⟩⟩ [107] 2 (by decide) free_single.1 free_single.2).mpr
      (Or.inr (by decide))
  have hx : (((single.addNode ⟨⟨2⟩⟩).ownersForKey [107] 2).all (⟨⟨2⟩⟩ ∈ ·)) = true := by
    decide +kernel
  rw [hafter] at hx
  have hmem : (⟨⟨2⟩⟩ : NodeId) ∈ owners' := by simpa using hx
  exact ⟨owners, owners', hbefore, hafter, hmem, (hmoved hmem).1, hback⟩

/-- Before and after the node joins, more owners are asked for than a vector can have room for. -/
theorem owners_addNode_panics :
    single.ownersForKey [107] (2 ^ 59) = none ∧
      (single.addNode ⟨⟨2⟩⟩).ownersForKey [107] (2 ^ 59) = none := by
  decide +kernel

end BashfulDB.Cluster.Ring

import BashfulDB.Clock.VectorClock
import Mathlib.Data.Finset.Card

/-! Vector clocks under `merge`: a join-semilattice bounded by the capacity. -/
namespace BashfulDB.Clock.VectorClock

variable {u v w m : VectorClock}

/-- The nodes that have an entry. -/
def nodes (v : VectorClock) : Finset NodeId := v.entries.keys.toFinset

theorem mem_nodes {n : NodeId} : n ∈ v.nodes ↔ (v.get n).isSome := by
  rw [nodes, List.mem_toFinset, OrdMap.mem_keys]
  rfl

theorem card_nodes (v : VectorClock) : v.nodes.card = v.entries.length := by
  rw [nodes, List.toFinset_card_of_nodup v.entries.nodup_keys, OrdMap.keys, List.length_map]
  rfl

/-- What the capacity check of `merge` counts is the size of the union. -/
theorem card_nodes_union (v w : VectorClock) : (v.nodes ∪ w.nodes).card =
    v.entries.length + (w.entries.keys.filter fun k => !v.entries.contains k).length := by
  have hnew : (w.entries.keys.filter fun k => !v.entries.contains k).toFinset =
      w.nodes \ v.nodes := by
    ext n
    rw [List.mem_toFinset, List.mem_filter, OrdMap.mem_keys, Finset.mem_sdiff, mem_nodes,
      mem_nodes]
    simp [OrdMap.contains, get]
  rw [← List.toFinset_card_of_nodup (w.entries.nodup_keys.filter _), hnew, ← card_nodes,
    Finset.union_comm, ← Finset.card_sdiff_add_card, Nat.add_comm]

/-- The map `merge` computes when it fits. -/
def join (v w : VectorClock) : VectorClock := ⟨v.entries.unionWith max w.entries⟩

theorem merge_eq (v w : VectorClock) : merge v w =
    if (v.nodes ∪ w.nodes).card ≤ maxEntries then .ok (join v w)
    else .error .vectorClockCapacityExceeded := by
  have hmax : (fun existing hlc : Hlc => if hlc > existing then hlc else existing) = max := by
    funext a b
    rcases le_or_gt b a with h | h
    · rw [if_neg (not_lt_of_ge h), max_eq_left h]
    · rw [if_pos h, max_eq_right h.le]
  unfold merge join
  rw [hmax, card_nodes_union]
  simp only [gt_iff_lt, ← not_le, ite_not]

theorem merge_ok_iff :
    merge v w = .ok m ↔ (v.nodes ∪ w.nodes).card ≤ maxEntries ∧ join v w = m := by
  rw [merge_eq]
  split <;> simp_all

theorem get_join (v w : VectorClock) (n : NodeId) :
    (join v w).get n = (v.get n).merge max (w.get n) :=
  OrdMap.get_unionWith max v.entries w.entries

theorem ext_get (h : ∀ n, v.get n = w.get n) : v = w :=
  congrArg VectorClock.mk (OrdMap.ext_get h)

theorem nodes_join (v w : VectorClock) : (join v w).nodes = v.nodes ∪ w.nodes := by
  ext n
  rw [Finset.mem_union, mem_nodes, mem_nodes, mem_nodes, get_join]
  cases v.get n <;> cases w.get n <;> simp

theorem join_comm (v w : VectorClock) : join v w = join w v := by
  apply ext_get
  intro n
  rw [get_join, get_join]
  cases v.get n <;> cases w.get n <;> simp [max_comm]

theorem join_assoc (u v w : VectorClock) : join (join u v) w = join u (join v w) := by
  apply ext_get
  intro n
  simp only [get_join]
  cases u.get n <;> cases v.get n <;> cases w.get n <;> simp [max_assoc]

theorem join_self (v : VectorClock) : join v v = v := by
  apply ext_get
  intro n
  rw [get_join]
  cases v.get n <;> simp

/-- Zero is the least HLC, so an absent entry joins as if it were there. -/
theorem read_join (v w : VectorClock) (n : NodeId) :
    (join v w).read n = max (v.read n) (w.read n) := by
  unfold read
  rw [get_join]
  cases v.get n <;> cases w.get n <;> simp [Hlc.zero_le]

theorem le_join_left (v w : VectorClock) : Le v (join v w) := by
  intro n
  rw [read_join]
  exact le_max_left _ _

theorem le_join_right (v w : VectorClock) : Le w (join v w) := by
  intro n
  rw [read_join]
  exact le_max_right _ _

theorem join_le (hv : Le v u) (hw : Le w u) : Le (join v w) u := by
  intro n
  rw [read_join]
  exact max_le (hv n) (hw n)

theorem before_or_equal_iff : compare v w = .before ∨ compare v w = .equal ↔ Le v w := by
  rw [compare_before_iff, compare_equal_iff]
  tauto

theorem merge_comm (v w : VectorClock) : merge v w = merge w v := by
  rw [merge_eq, merge_eq, Finset.union_comm, join_comm]

/-- Merging three clocks succeeds and agrees in either grouping as soon as all nodes fit. -/
theorem merge_assoc (h : (u.nodes ∪ v.nodes ∪ w.nodes).card ≤ maxEntries) :
    (do merge (← merge u v) w) = .ok (join (join u v) w) ∧
      (do merge u (← merge v w)) = .ok (join (join u v) w) := by
  have huv : (u.nodes ∪ v.nodes).card ≤ maxEntries :=
    le_trans (Finset.card_le_card Finset.subset_union_left) h
  have hvw : (v.nodes ∪ w.nodes).card ≤ maxEntries := by
    refine le_trans (Finset.card_le_card ?_) h
    rw [Finset.union_assoc]
    exact Finset.subset_union_right
  constructor
  · rw [merge_ok_iff.mpr ⟨huv, rfl⟩]
    exact merge_ok_iff.mpr ⟨by rwa [nodes_join], rfl⟩
  · rw [merge_ok_iff.mpr ⟨hvw, rfl⟩]
    exact merge_ok_iff.mpr ⟨by rwa [nodes_join, ← Finset.union_assoc], (join_assoc u v w).symm⟩

/-- `m` is the least clock above `v` and `w`. -/
def IsLeastUpperBound (v w m : VectorClock) : Prop :=
  Le v m ∧ Le w m ∧ ∀ d, Le v d → Le w d → Le m d

/-- `compare` is the pointwise order, and `merge` its join wherever the result fits. -/
theorem merge_joinSemilattice (a b c : VectorClock) :
    (compare a b = .before ↔ Le a b ∧ ¬ Le b a) ∧
    (compare a b = .after ↔ Le b a ∧ ¬ Le a b) ∧
    (compare a b = .equal ↔ Le a b ∧ Le b a) ∧
    (compare a b = .concurrent ↔ ¬ Le a b ∧ ¬ Le b a) ∧
    (compare a b = .before ↔ compare b a = .after) ∧
    (compare a a = .before ∨ compare a a = .equal) ∧
    (compare a b = .before ∨ compare a b = .equal →
      compare b c = .before ∨ compare b c = .equal →
      compare a c = .before ∨ compare a c = .equal) ∧
    ((∃ m, merge a b = .ok m) ↔ (a.nodes ∪ b.nodes).card ≤ 4096) ∧
    ((∃ m, merge b a = .ok m) ↔ (a.nodes ∪ b.nodes).card ≤ 4096) ∧
    (∀ m, merge a b = .ok m → IsLeastUpperBound a b m) ∧
    merge a b = merge b a ∧
    ((a.nodes ∪ b.nodes ∪ c.nodes).card ≤ 4096 →
      ∃ m, (do merge (← merge a b) c) = .ok m ∧ (do merge a (← merge b c)) = .ok m) ∧
    (∀ m, merge a a = .ok m → m = a) := by
  have hok (v w : VectorClock) : (∃ m, merge v w = .ok m) ↔ (v.nodes ∪ w.nodes).card ≤ 4096 := by
    simp only [merge_ok_iff, exists_and_left, exists_eq', and_true, maxEntries]
  refine ⟨compare_before_iff, compare_after_iff, compare_equal_iff, compare_concurrent_iff,
    compare_after_iff_before.symm, ?_, ?_, hok a b, ?_, ?_, merge_comm a b, ?_, ?_⟩
  · rw [before_or_equal_iff]
    exact Le.refl a
  · rw [before_or_equal_iff, before_or_equal_iff, before_or_equal_iff]
    exact Le.trans
  · rw [Finset.union_comm]
    exact hok b a
  · intro m hm
    obtain ⟨-, rfl⟩ := merge_ok_iff.mp hm
    exact ⟨le_join_left a b, le_join_right a b, fun d => join_le⟩
  · intro h
    exact ⟨_, merge_assoc h⟩
  · intro m hm
    obtain ⟨-, rfl⟩ := merge_ok_iff.mp hm
    exact join_self a

end BashfulDB.Clock.VectorClock

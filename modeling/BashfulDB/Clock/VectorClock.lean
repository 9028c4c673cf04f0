import BashfulDB.Clock.Hlc
import BashfulDB.Library.OrdMap
import BashfulDB.Library.Uuid

/-! Vector clocks: a bounded map from nodes to HLC values, absent entries reading as zero. -/
namespace BashfulDB.Clock

structure NodeId where
  uuid : Uuid
  deriving DecidableEq, Repr

instance : LinearOrder NodeId := LinearOrder.lift' NodeId.uuid (by
  intro a b h
  cases a; cases b
  simpa using h)

def maxEntries : Nat := 4096

inductive CausalOrder
  | before
  | after
  | concurrent
  | equal
  deriving DecidableEq, Repr

structure VectorClock where
  entries : OrdMap NodeId Hlc
  deriving DecidableEq

namespace VectorClock

def new : VectorClock := ⟨OrdMap.empty⟩

def len (v : VectorClock) : Nat := v.entries.length

def get (v : VectorClock) (node : NodeId) : Option Hlc := v.entries.get node

def increment (v : VectorClock) (node : NodeId) (hlc : Hlc) : Except ClockError VectorClock :=
  if !v.entries.contains node && v.entries.length ≥ maxEntries then
    .error .vectorClockCapacityExceeded
  else
    match v.entries.get node with
    | some existing =>
      .ok ⟨v.entries.insert node (if hlc > existing then hlc else existing)⟩
    | none => .ok ⟨v.entries.insert node hlc⟩

/-- The capacity is checked before the first entry is entered. -/
def merge (v w : VectorClock) : Except ClockError VectorClock :=
  let newNodes := (w.entries.keys.filter fun k => !v.entries.contains k).length
  if v.entries.length + newNodes > maxEntries then .error .vectorClockCapacityExceeded
  else
    .ok ⟨v.entries.unionWith (fun existing hlc => if hlc > existing then hlc else existing)
      w.entries⟩

/-- The `BTreeSet` of the nodes present in either clock. -/
def allNodes (v w : VectorClock) : List NodeId :=
  (OrdMap.collect (v.entries.keys ++ w.entries.keys)).keys

def compare (v w : VectorClock) : CausalOrder :=
  let flags := (allNodes v w).foldl (fun (le : Bool × Bool) node =>
    let selfHlc := (v.get node).getD Hlc.zero
    let otherHlc := (w.get node).getD Hlc.zero
    (if selfHlc > otherHlc then false else le.1,
      if otherHlc > selfHlc then false else le.2)) (true, true)
  match flags with
  | (true, true) => .equal
  | (true, false) => .before
  | (false, true) => .after
  | (false, false) => .concurrent

/-- The entry a comparison reads at `node`. -/
def read (v : VectorClock) (node : NodeId) : Hlc := (v.get node).getD Hlc.zero

/-- Pointwise order of the entries. -/
def Le (v w : VectorClock) : Prop := ∀ node, v.read node ≤ w.read node

variable {u v w : VectorClock}

theorem Le.refl (v : VectorClock) : Le v v := fun _ => le_rfl

theorem Le.trans (h : Le u v) (k : Le v w) : Le u w := fun n => le_trans (h n) (k n)

theorem mem_allNodes {n : NodeId} :
    n ∈ allNodes v w ↔ (v.get n).isSome ∨ (w.get n).isSome := by
  rw [allNodes, OrdMap.mem_keys_collect, List.mem_append, OrdMap.mem_keys, OrdMap.mem_keys]
  rfl

theorem le_iff_allNodes : Le v w ↔ ∀ n ∈ allNodes v w, v.read n ≤ w.read n := by
  constructor
  · intro h n _
    exact h n
  · intro h n
    by_cases hn : n ∈ allNodes v w
    · exact h n hn
    · rw [mem_allNodes, not_or] at hn
      rw [read, Option.not_isSome_iff_eq_none.mp hn.1]
      exact Hlc.zero_le _

/-- Each loop flag survives exactly when no node contradicts it. -/
theorem flags_foldl (f g : NodeId → Hlc) (l : List NodeId) (a b : Bool) :
    l.foldl (fun (acc : Bool × Bool) n =>
      (if f n > g n then false else acc.1, if g n > f n then false else acc.2)) (a, b) =
    (a && decide (∀ n ∈ l, f n ≤ g n), b && decide (∀ n ∈ l, g n ≤ f n)) := by
  induction l generalizing a b with
  | nil => simp
  | cons n l ih =>
    rw [List.foldl_cons, ih]
    by_cases h : f n ≤ g n <;> by_cases k : g n ≤ f n <;>
      simp [h, k, not_lt_of_ge, not_le.mp]

theorem compare_eq (v w : VectorClock) [Decidable (Le v w)] [Decidable (Le w v)] :
    compare v w = match decide (Le v w), decide (Le w v) with
      | true, true => .equal
      | true, false => .before
      | false, true => .after
      | false, false => .concurrent := by
  have hv : decide (Le v w) = decide (∀ n ∈ allNodes v w, v.read n ≤ w.read n) := by
    rw [decide_eq_decide]
    exact le_iff_allNodes
  have hw : decide (Le w v) = decide (∀ n ∈ allNodes v w, w.read n ≤ v.read n) := by
    rw [decide_eq_decide, le_iff_allNodes]
    simp only [mem_allNodes, or_comm]
  have hf := flags_foldl v.read w.read (allNodes v w) true true
  rw [Bool.true_and, Bool.true_and, ← hv, ← hw] at hf
  unfold compare
  change (match List.foldl (fun (acc : Bool × Bool) n =>
      (if v.read n > w.read n then false else acc.1,
        if w.read n > v.read n then false else acc.2)) (true, true) (allNodes v w) with
    | (true, true) => CausalOrder.equal
    | (true, false) => .before
    | (false, true) => .after
    | (false, false) => .concurrent) = _
  rw [hf]
  cases decide (Le v w) <;> cases decide (Le w v) <;> rfl

theorem compare_equal_iff : compare v w = .equal ↔ Le v w ∧ Le w v := by
  classical
  rw [compare_eq]
  by_cases h : Le v w <;> by_cases k : Le w v <;> simp [h, k]

theorem compare_before_iff : compare v w = .before ↔ Le v w ∧ ¬ Le w v := by
  classical
  rw [compare_eq]
  by_cases h : Le v w <;> by_cases k : Le w v <;> simp [h, k]

theorem compare_after_iff : compare v w = .after ↔ Le w v ∧ ¬ Le v w := by
  classical
  rw [compare_eq]
  by_cases h : Le v w <;> by_cases k : Le w v <;> simp [h, k]

theorem compare_concurrent_iff : compare v w = .concurrent ↔ ¬ Le v w ∧ ¬ Le w v := by
  classical
  rw [compare_eq]
  by_cases h : Le v w <;> by_cases k : Le w v <;> simp [h, k]

theorem compare_after_iff_before : compare v w = .after ↔ compare w v = .before := by
  rw [compare_after_iff, compare_before_iff]

theorem compare_concurrent_symm : compare v w = .concurrent ↔ compare w v = .concurrent := by
  rw [compare_concurrent_iff, compare_concurrent_iff, and_comm]

theorem compare_equal_symm : compare v w = .equal ↔ compare w v = .equal := by
  rw [compare_equal_iff, compare_equal_iff, and_comm]

theorem before_trans (h : compare u v = .before) (k : compare v w = .before) :
    compare u w = .before := by
  rw [compare_before_iff] at h k ⊢
  exact ⟨h.1.trans k.1, fun hw => k.2 (hw.trans h.1)⟩

/-- A clock with the one entry `node ↦ hlc`. -/
def single (node : NodeId) (hlc : Hlc) : VectorClock := ⟨OrdMap.empty.insert node hlc⟩

theorem increment_new (node : NodeId) (hlc : Hlc) :
    new.increment node hlc = .ok (single node hlc) :=
  rfl

theorem read_single (node n : NodeId) (hlc : Hlc) :
    (single node hlc).read n = if n = node then hlc else Hlc.zero := by
  unfold read get single
  rw [OrdMap.get_insert]
  by_cases h : n = node <;> simp [h]

theorem single_le_iff {a b : NodeId} {g h : Hlc} :
    Le (single a g) (single b h) ↔ g = Hlc.zero ∨ a = b ∧ g ≤ h := by
  constructor
  · intro hle
    have ha := hle a
    rw [read_single, read_single, if_pos rfl] at ha
    by_cases hab : a = b
    · rw [if_pos hab] at ha
      exact Or.inr ⟨hab, ha⟩
    · rw [if_neg hab] at ha
      exact Or.inl (le_antisymm ha (Hlc.zero_le g))
  · intro hc n
    rw [read_single, read_single]
    by_cases hn : n = a
    · rw [if_pos hn]
      rcases hc with rfl | ⟨rfl, hgh⟩
      · exact Hlc.zero_le _
      · rwa [if_pos hn]
    · rw [if_neg hn]
      exact Hlc.zero_le _

theorem compare_single_before {c : NodeId} {g h : Hlc} (hlt : g < h) :
    compare (single c g) (single c h) = .before := by
  rw [compare_before_iff, single_le_iff, single_le_iff]
  refine ⟨Or.inr ⟨rfl, hlt.le⟩, ?_⟩
  rintro (rfl | ⟨-, hle⟩)
  · exact not_lt_of_ge (Hlc.zero_le g) hlt
  · exact not_lt_of_ge hle hlt

/-- Versions of one node are ordered as their HLC values. -/
theorem compare_single (c : NodeId) (g h : Hlc) : compare (single c g) (single c h) =
    if g < h then .before else if h < g then .after else .equal := by
  rcases lt_trichotomy g h with hlt | rfl | hgt
  · rw [if_pos hlt, compare_single_before hlt]
  · rw [if_neg (lt_irrefl g), if_neg (lt_irrefl g), compare_equal_iff]
    exact ⟨Le.refl _, Le.refl _⟩
  · rw [if_neg (lt_asymm hgt), if_pos hgt, compare_after_iff_before, compare_single_before hgt]

theorem compare_single_concurrent {c d : NodeId} {g h : Hlc} (hne : c ≠ d) (hg : Hlc.zero < g)
    (hh : Hlc.zero < h) : compare (single c g) (single d h) = .concurrent := by
  rw [compare_concurrent_iff, single_le_iff, single_le_iff]
  constructor
  · rintro (rfl | ⟨heq, -⟩)
    · exact lt_irrefl _ hg
    · exact hne heq
  · rintro (rfl | ⟨heq, -⟩)
    · exact lt_irrefl _ hh
    · exact hne heq.symm

end VectorClock

end BashfulDB.Clock

import Mathlib.Logic.Function.Basic
import Mathlib.Tactic.Common

/-! Tables with at most one entry for an id, in which an entry is added or replaced. -/
namespace Table

variable {ι α κ : Type}

/-- No two entries have a mark in common. -/
def AtMostOne (m : ι → Option α) (R : α → κ → Prop) : Prop :=
  ∀ k id a id' a', m id = some a → m id' = some a' → R a k → R a' k → id = id'

variable [DecidableEq ι] {m : ι → Option α} {R : α → κ → Prop} {id id' : ι} {a b : α}

theorem update_eq_some : Function.update m id (some a) id' = some b ↔
    (id' = id ∧ a = b) ∨ (id' ≠ id ∧ m id' = some b) := by
  by_cases hid : id' = id
  · rw [hid, Function.update_self]
    simp
  · rw [Function.update_of_ne hid]
    simp [hid]

/-- What holds of all entries, and of the new one. -/
theorem forall_update {P : ι → α → Prop} (h : ∀ id b, m id = some b → P id b) (ha : P id a) :
    ∀ id' b, Function.update m id (some a) id' = some b → P id' b := by
  intro id' b hb
  rcases update_eq_some.mp hb with ⟨rfl, rfl⟩ | ⟨-, hb⟩
  · exact ha
  · exact h id' b hb

/-- One entry is added exactly when the id is new. -/
theorem one_added_iff :
    (∃! id', m id' = none ∧ Function.update m id (some a) id' ≠ none) ↔ m id = none := by
  constructor
  · rintro ⟨id', ⟨hnone, hsome⟩, -⟩
    obtain ⟨b, hb⟩ := Option.ne_none_iff_exists'.mp hsome
    rcases update_eq_some.mp hb with ⟨rfl, -⟩ | ⟨-, hb⟩
    · exact hnone
    · cases hnone.symm.trans hb
  · intro hnew
    refine ⟨id, ⟨hnew, by simp⟩, ?_⟩
    rintro id' ⟨hnone, hsome⟩
    by_contra hid
    rw [Function.update_of_ne hid] at hsome
    exact hsome hnone

/-- A new entry must not have a mark that is in use. -/
theorem atMostOne_update_iff (h : AtMostOne m R) (hid : m id = none) :
    AtMostOne (Function.update m id (some a)) R ↔
      ∀ k, R a k → ∀ id' a', m id' = some a' → ¬ R a' k := by
  have hold : ∀ {id' a'}, m id' = some a' → id' ≠ id := by
    rintro id' a' ha' rfl
    cases hid.symm.trans ha'
  constructor
  · intro hall k hk id' a' ha' hk'
    have heq := hall k id a id' a' (Function.update_self ..)
      (update_eq_some.mpr (Or.inr ⟨hold ha', ha'⟩)) hk hk'
    exact hold ha' heq.symm
  · intro hfree k i b j c hb hc hbk hck
    rcases update_eq_some.mp hb with ⟨rfl, rfl⟩ | ⟨-, hi⟩
    · rcases update_eq_some.mp hc with ⟨rfl, -⟩ | ⟨-, hj⟩
      · rfl
      · exact absurd hck (hfree k hbk j c hj)
    · rcases update_eq_some.mp hc with ⟨rfl, rfl⟩ | ⟨-, hj⟩
      · exact absurd hbk (hfree k hck i b hi)
      · exact h k i b j c hi hj hbk hck

end Table

import Mathlib.Data.List.Forall2
import Mathlib.Tactic.Common

/-! Inversion of `Except` computations, one bind at a time. -/

namespace Except

universe u v

variable {ε : Type u} {α β : Type v}

theorem bind_eq_ok {x : Except ε α} {f : α → Except ε β} {b : β} :
    x >>= f = .ok b ↔ ∃ a, x = .ok a ∧ f a = .ok b := by
  cases x with
  | error e => simp [bind, Except.bind]
  | ok a => simp [bind, Except.bind]

theorem bind_eq_error {x : Except ε α} {f : α → Except ε β} {e : ε} :
    x >>= f = .error e ↔ x = .error e ∨ ∃ a, x = .ok a ∧ f a = .error e := by
  cases x with
  | error e => simp [bind, Except.bind]
  | ok a => simp [bind, Except.bind]

@[simp] theorem ok_bind (a : α) (f : α → Except ε β) : (.ok a : Except ε α) >>= f = f a := rfl

@[simp] theorem error_bind (e : ε) (f : α → Except ε β) :
    (.error e : Except ε α) >>= f = .error e := rfl

theorem mapError_eq_ok {δ : Type*} {f : ε → δ} {x : Except ε α} {a : α} :
    x.mapError f = .ok a ↔ x = .ok a := by
  cases x <;> simp [Except.mapError]

theorem toBool_eq_true {x : Except ε α} : x.toBool = true ↔ ∃ a, x = .ok a := by
  cases x <;> simp [Except.toBool]

theorem toOption_eq_some {x : Except ε α} {a : α} : x.toOption = some a ↔ x = .ok a := by
  cases x <;> simp [Except.toOption]

/-- Results that agree after `f` are the same error, or values that agree after `f`. -/
theorem map_eq_map {γ : Type*} {f : α → β} {g : γ → β} {x : Except ε α} {y : Except ε γ} :
    x.map f = y.map g ↔
      (∃ e, x = .error e ∧ y = .error e) ∨ ∃ a b, x = .ok a ∧ y = .ok b ∧ f a = g b := by
  cases x <;> cases y <;> simp [Except.map, eq_comm]

/-- A guarded computation succeeds when the guard does not stop it. -/
theorem guard_eq_ok {c : Prop} [Decidable c] {e : ε} {x : Except ε α} {a : α} :
    (if c then .error e else x) = .ok a ↔ ¬ c ∧ x = .ok a := by
  by_cases hc : c <;> simp [hc]

/-- A loop of checks passes when each of them does. -/
theorem forM_eq_ok {γ : Type*} {f : γ → Except ε PUnit} {l : List γ} :
    forM l f = .ok ⟨⟩ ↔ ∀ a ∈ l, f a = .ok ⟨⟩ := by
  induction l with
  | nil => simp [List.forM_nil, pure, Except.pure]
  | cons a l ih =>
    rw [List.forM_cons, bind_eq_ok, List.forall_mem_cons, ← ih]
    exact ⟨fun ⟨_, ha, hl⟩ => ⟨ha, hl⟩, fun ⟨ha, hl⟩ => ⟨_, ha, hl⟩⟩

/-- The error of a loop of checks is that of one of them. -/
theorem forM_eq_error {γ : Type*} {f : γ → Except ε PUnit} {l : List γ} {e : ε}
    (h : forM l f = .error e) : ∃ a ∈ l, f a = .error e := by
  induction l with
  | nil => cases h
  | cons a l ih =>
    rw [List.forM_cons, bind_eq_error] at h
    rcases h with ha | ⟨_, -, hl⟩
    · exact ⟨a, List.mem_cons_self, ha⟩
    · obtain ⟨b, hb, he⟩ := ih hl
      exact ⟨b, List.mem_cons_of_mem _ hb, he⟩

/-- A loop that collects succeeds when each of its rounds does. -/
theorem mapM_eq_ok {γ : Type*} {f : γ → Except ε α} {l : List γ} {r : List α} :
    l.mapM f = .ok r ↔ List.Forall₂ (fun a b => f a = .ok b) l r := by
  induction l generalizing r with
  | nil => simp [pure, Except.pure, List.forall₂_nil_left_iff, eq_comm]
  | cons a l ih =>
    rw [List.mapM_cons, bind_eq_ok]
    constructor
    · rintro ⟨b, hb, h⟩
      obtain ⟨rest, hrest, h⟩ := bind_eq_ok.mp h
      cases h
      exact .cons hb (ih.mp hrest)
    · intro h
      cases h with
      | cons hb hrest => exact ⟨_, hb, by rw [ih.mpr hrest]; rfl⟩

theorem map_eq_ok {f : α → β} {x : Except ε α} {b : β} :
    x.map f = .ok b ↔ ∃ a, x = .ok a ∧ f a = b := by
  cases x <;> simp [Except.map]

end Except

import Mathlib.Data.List.Infix

/-! Loops around a body that says whether to go on, and records of what happens in them. -/

namespace Loop

variable {σ ρ : Type*}

/-- The loop around `body`, for at most that many turns. -/
def run (body : σ → σ ⊕ ρ) : (turns : Nat) → σ → σ ⊕ ρ
  | 0, s => .inl s
  | turns + 1, s =>
    match body s with
    | .inl s => run body turns s
    | .inr r => .inr r

/-- A loop whose turns keep an invariant and make a measure smaller comes to one end, whatever the
bound above that measure. -/
theorem run_total {body : σ → σ ⊕ ρ} {I : σ → Prop} {Q : ρ → Prop} (μ : σ → Nat)
    (hagain : ∀ s t, I s → body s = .inl t → I t ∧ μ t < μ s)
    (hend : ∀ s r, I s → body s = .inr r → Q r) {s : σ} (hs : I s) :
    ∃ r, Q r ∧ ∀ turns, μ s < turns → run body turns s = .inr r := by
  induction hn : μ s using Nat.strong_induction_on generalizing s with
  | _ n ih =>
    subst hn
    cases hbody : body s with
    | inr r =>
      refine ⟨r, hend s r hs hbody, fun turns hturns => ?_⟩
      obtain ⟨k, rfl⟩ := Nat.exists_eq_add_one_of_ne_zero (Nat.ne_zero_of_lt hturns)
      simp only [run, hbody]
    | inl t =>
      obtain ⟨ht, hlt⟩ := hagain s t hs hbody
      obtain ⟨r, hr, hrun⟩ := ih (μ t) hlt ht rfl
      refine ⟨r, hr, fun turns hturns => ?_⟩
      obtain ⟨k, rfl⟩ := Nat.exists_eq_add_one_of_ne_zero (Nat.ne_zero_of_lt hturns)
      simp only [run, hbody]
      exact hrun k (by omega)

end Loop

/-- Once `P` holds of the start of a record, nothing more is in it. -/
def ClosesAt {α : Type*} (P : List α → Prop) (record : List α) : Prop :=
  ∀ first rest, record = first ++ rest → P first → rest = []

namespace ClosesAt

variable {α : Type*} {P P' : List α → Prop} {record : List α}

theorem of_never (h : ∀ first, first <+: record → ¬ P first) : ClosesAt P record := by
  rintro first rest rfl hP
  exact absurd hP (h first (List.prefix_append _ _))

theorem of_concat {a : α} (h : ∀ first, first <+: record → ¬ P first) :
    ClosesAt P (record ++ [a]) := by
  intro first rest hrecord hP
  rcases List.eq_nil_or_concat rest with hrest | ⟨init, b, rfl⟩
  · exact hrest
  · rw [List.concat_eq_append, ← List.append_assoc] at hrecord
    obtain ⟨rfl, -⟩ := List.append_inj' hrecord rfl
    exact absurd hP (h first (List.prefix_append _ _))

theorem mono (h : ClosesAt P record) (hP : ∀ first, P' first → P first) : ClosesAt P' record :=
  fun first rest hrecord hfirst => h first rest hrecord (hP first hfirst)

end ClosesAt

import Mathlib.Data.List.Forall2
import BashfulDB.Library.Steps

/-!
Two runs that agree on their visible labels. What one visible label of each run, or one hidden
label of either, does to a relation between the runs decides what whole runs do to it.
-/

variable {σ α : Type*}

/-- `Sim xs s ys t` relates a run that took the labels `xs` to `s` with one that took `ys` to `t`.
It survives hidden labels of either run, and visible labels `Same a b` of both, which then are
observed alike. `Apart x a` may be asked of a visible `a` and every earlier label `x` of its run. -/
structure Unwinding (step : σ → α → σ → Prop) (visible : α → Bool) (Same Apart Obs : α → α → Prop)
    (Sim : List α → σ → List α → σ → Prop) : Prop where
  left : ∀ {xs s ys t a u}, Sim xs s ys t → step s a u → visible a = false → Sim (xs ++ [a]) u ys t
  right : ∀ {xs s ys t b v}, Sim xs s ys t → step t b v → visible b = false →
    Sim xs s (ys ++ [b]) v
  both : ∀ {xs s ys t a b u v}, Sim xs s ys t → step s a u → step t b v → visible a = true →
    Same a b → (∀ x ∈ xs, Apart x a) → (∀ y ∈ ys, Apart y b) →
    Obs a b ∧ Sim (xs ++ [a]) u (ys ++ [b]) v

namespace Unwinding

variable {step : σ → α → σ → Prop} {visible : α → Bool} {Same Apart Obs : α → α → Prop}
  {Sim : List α → σ → List α → σ → Prop} {s t u v : σ} {xs ys as bs : List α}

theorem right_run (h : Unwinding step visible Same Apart Obs Sim) (ht : Steps step t bs v)
    (hhidden : ∀ b ∈ bs, visible b = false) (hsim : Sim xs s ys t) : Sim xs s (ys ++ bs) v := by
  induction ht generalizing ys with
  | refl => simpa using hsim
  | @cons t t' v b bs hstep _ ih =>
    have hnext := h.right hsim hstep (hhidden b (by simp))
    simpa using ih (fun b' hb' => hhidden b' (by simp [hb'])) hnext

theorem apart_of_pairwise {a : α} (h : (xs ++ a :: as).Pairwise Apart) : ∀ x ∈ xs, Apart x a :=
  fun x hx => (List.pairwise_append.mp h).2.2 x hx a (by simp)

/-- Runs that agree on their visible labels stay related, and these labels are observed alike. -/
theorem run (h : Unwinding step visible Same Apart Obs Sim) (hs : Steps step s as u)
    (ht : Steps step t bs v) (hsim : Sim xs s ys t)
    (hsame : List.Forall₂ Same (as.filter visible) (bs.filter visible))
    (hapart : (xs ++ as).Pairwise Apart) (hapart' : (ys ++ bs).Pairwise Apart) :
    List.Forall₂ Obs (as.filter visible) (bs.filter visible) ∧ Sim (xs ++ as) u (ys ++ bs) v := by
  induction hs generalizing xs ys t bs with
  | refl =>
    obtain hnil : bs.filter visible = [] := by simpa using hsame
    rw [hnil, List.append_nil]
    have hhidden : ∀ b ∈ bs, visible b = false := by simpa using List.filter_eq_nil_iff.mp hnil
    exact ⟨.nil, h.right_run ht hhidden hsim⟩
  | @cons s s' u a as hstep _ ih =>
    have hassoc : xs ++ a :: as = xs ++ [a] ++ as := by simp
    cases ha : visible a with
    | false =>
      rw [List.filter_cons_of_neg (by simp [ha])] at hsame ⊢
      rw [hassoc] at hapart ⊢
      exact ih ht (h.left hsim hstep ha) hsame hapart hapart'
    | true =>
      rw [List.filter_cons_of_pos ha] at hsame ⊢
      generalize hbs : bs.filter visible = rest at hsame
      cases hsame with
      | @cons _ b _ rest hab hrest =>
        -- The other run reaches its next visible label after some hidden ones.
        obtain ⟨before, after, rfl, hbefore, -, rfl⟩ := List.filter_eq_cons_iff.mp hbs
        obtain ⟨t', hpre, hpost⟩ := Steps.append_iff.mp ht
        obtain ⟨v', hstep', hpost⟩ := Steps.cons_iff.mp hpost
        have hhidden : ∀ b ∈ before, visible b = false := by simpa using hbefore
        rw [← List.append_assoc] at hapart' ⊢
        obtain ⟨hobs, hnext⟩ := h.both (h.right_run hpre hhidden hsim) hstep hstep' ha hab
          (apart_of_pairwise hapart) (apart_of_pairwise hapart')
        have hassoc' : ys ++ before ++ b :: after = ys ++ before ++ [b] ++ after := by simp
        rw [hassoc] at hapart ⊢
        rw [hassoc'] at hapart' ⊢
        obtain ⟨hrestObs, hend⟩ := ih hpost hnext hrest hapart hapart'
        exact ⟨.cons hobs hrestObs, hend⟩

end Unwinding

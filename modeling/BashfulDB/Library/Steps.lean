import Mathlib.Data.List.Induction

/-! Finite labelled runs of an arbitrary step relation, and their induction rules. -/

/-- `Steps step s xs t`: the labels `xs`, taken in order, lead from `s` to `t`. -/
inductive Steps {σ α : Type*} (step : σ → α → σ → Prop) : σ → List α → σ → Prop
  | refl {s : σ} : Steps step s [] s
  | cons {s u t : σ} {a : α} {xs : List α} :
      step s a u → Steps step u xs t → Steps step s (a :: xs) t

namespace Steps

variable {σ α : Type*} {step : σ → α → σ → Prop} {s t u : σ} {a : α} {xs ys : List α}

theorem append (h : Steps step s xs t) (k : Steps step t ys u) : Steps step s (xs ++ ys) u := by
  induction h with
  | refl => exact k
  | cons hs _ ih => exact .cons hs (ih k)

theorem single (h : step s a t) : Steps step s [a] t := .cons h .refl

theorem append_iff : Steps step s (xs ++ ys) u ↔ ∃ t, Steps step s xs t ∧ Steps step t ys u := by
  constructor
  · intro h
    induction xs generalizing s with
    | nil => exact ⟨s, .refl, h⟩
    | cons a xs ih =>
      cases h with
      | cons hs hx =>
        obtain ⟨t, ht, hu⟩ := ih hx
        exact ⟨t, .cons hs ht, hu⟩
  · rintro ⟨t, ht, hu⟩
    exact ht.append hu

theorem cons_iff : Steps step s (a :: xs) u ↔ ∃ t, step s a t ∧ Steps step t xs u := by
  constructor
  · intro h
    cases h with
    | cons hs hx => exact ⟨_, hs, hx⟩
  · rintro ⟨t, ht, hu⟩
    exact .cons ht hu

theorem snoc_iff : Steps step s (xs ++ [a]) u ↔ ∃ t, Steps step s xs t ∧ step t a u := by
  rw [append_iff]
  constructor
  · rintro ⟨t, ht, hu⟩
    cases hu with
    | cons hs hx =>
      cases hx
      exact ⟨t, ht, hs⟩
  · rintro ⟨t, ht, hu⟩
    exact ⟨t, ht, single hu⟩

/-- What every step preserves holds at the end of every run. -/
theorem invariant {I : σ → Prop} (hstep : ∀ s a t, step s a t → I s → I t)
    (h : Steps step s xs t) (hs : I s) : I t := by
  induction h with
  | refl => exact hs
  | cons hst _ ih => exact ih (hstep _ _ _ hst hs)

/-- Invariant rule for a statement about the state and the labels taken so far. -/
theorem history {I : List α → σ → Prop} (h : Steps step s xs t) (hs : I [] s)
    (hstep : ∀ ys u a v, Steps step s ys u → (∃ zs, xs = ys ++ a :: zs) →
      I ys u → step u a v → I (ys ++ [a]) v) : I xs t := by
  induction xs using List.reverseRecOn generalizing t with
  | nil =>
    cases h
    exact hs
  | append_singleton xs a ih =>
    obtain ⟨u, hu, hst⟩ := snoc_iff.mp h
    refine hstep xs u a t hu ⟨[], rfl⟩ (ih hu ?_) hst
    rintro ys v b w hv ⟨zs, rfl⟩ hi hvw
    exact hstep ys v b w hv ⟨zs ++ [a], by simp⟩ hi hvw

end Steps

/-- Each label is `ok` in the state that it meets, where `next` computes the states. -/
def Throughout {σ α : Type*} (next : σ → α → σ) (ok : σ → α → Prop) : σ → List α → Prop
  | _, [] => True
  | s, a :: xs => ok s a ∧ Throughout next ok (next s a) xs

namespace Throughout

variable {σ α : Type*} {next : σ → α → σ} {ok : σ → α → Prop} {s : σ} {xs : List α}

instance decidable [∀ s a, Decidable (ok s a)] : (s : σ) → (xs : List α) →
    Decidable (Throughout next ok s xs)
  | _, [] => inferInstanceAs (Decidable True)
  | s, a :: xs =>
    have := decidable (next s a) xs
    inferInstanceAs (Decidable (_ ∧ _))

theorem append_iff {ys : List α} : Throughout next ok s (xs ++ ys) ↔
    Throughout next ok s xs ∧ Throughout next ok (xs.foldl next s) ys := by
  induction xs generalizing s with
  | nil => simp [Throughout]
  | cons a xs ih =>
    rw [List.cons_append, Throughout, Throughout, ih, and_assoc]
    rfl

theorem and {ok' : σ → α → Prop} (h : Throughout next ok s xs) (h' : Throughout next ok' s xs) :
    Throughout next (fun s a => ok s a ∧ ok' s a) s xs := by
  induction xs generalizing s with
  | nil => trivial
  | cons a xs ih => exact ⟨⟨h.1, h'.1⟩, ih h.2 h'.2⟩

theorem imp {ok' : σ → α → Prop} (himp : ∀ s a, ok s a → ok' s a) (h : Throughout next ok s xs) :
    Throughout next ok' s xs := by
  induction xs generalizing s with
  | nil => trivial
  | cons a xs ih => exact ⟨himp s a h.1, ih h.2⟩

theorem of_forall {p : α → Prop} (h : ∀ a ∈ xs, p a) : Throughout next (fun _ a => p a) s xs := by
  induction xs generalizing s with
  | nil => trivial
  | cons a xs ih =>
    exact ⟨h a List.mem_cons_self, ih fun b hb => h b (List.mem_cons_of_mem _ hb)⟩

/-- What follows from an invariant in each state follows all along. -/
theorem of_invariant {I : σ → Prop} {ok' : σ → α → Prop}
    (hstep : ∀ s a, ok s a → I s → I (next s a)) (himp : ∀ s a, I s → ok' s a)
    (h : Throughout next ok s xs) (hs : I s) : Throughout next ok' s xs := by
  induction xs generalizing s with
  | nil => trivial
  | cons a xs ih => exact ⟨himp s a hs, ih h.2 (hstep s a h.1 hs)⟩

theorem congr {ok' : σ → α → Prop} (hiff : ∀ s a, ok s a ↔ ok' s a) :
    Throughout next ok s xs ↔ Throughout next ok' s xs :=
  ⟨imp fun s a => (hiff s a).mp, imp fun s a => (hiff s a).mpr⟩

/-- A property holds after each label exactly when each label keeps it, where `I` is what holds in
every state of a run whose labels are all `ok'`. -/
theorem after_iff_of {ok' : σ → α → Prop} {I P : σ → Prop} (h : Throughout next ok' s xs)
    (hstep : ∀ s a, ok' s a → I s → I (next s a))
    (hiff : ∀ s a, ok' s a → I s → P s → (P (next s a) ↔ ok s a)) (hi : I s) (hs : P s) :
    Throughout next (fun s a => P (next s a)) s xs ↔ Throughout next ok s xs := by
  induction xs generalizing s with
  | nil => rfl
  | cons a xs ih =>
    have hhead := hiff s a h.1 hi hs
    rw [Throughout, Throughout, hhead]
    refine and_congr_right fun hok => ?_
    exact ih h.2 (hstep s a h.1 hi) (hhead.mpr hok)

theorem after_iff {I P : σ → Prop} (hstep : ∀ s, ∀ a ∈ xs, I s → I (next s a))
    (hiff : ∀ s, ∀ a ∈ xs, I s → P s → (P (next s a) ↔ ok s a)) (hi : I s) (hs : P s) :
    Throughout next (fun s a => P (next s a)) s xs ↔ Throughout next ok s xs :=
  after_iff_of (of_forall fun _ ha => ha) hstep hiff hi hs

theorem invariant {I : σ → Prop} (hstep : ∀ s a, ok s a → I s → I (next s a))
    (h : Throughout next ok s xs) (hs : I s) : I (xs.foldl next s) := by
  induction xs generalizing s with
  | nil => exact hs
  | cons a xs ih => exact ih h.2 (hstep s a h.1 hs)

end Throughout

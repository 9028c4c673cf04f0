import Mathlib.Data.List.InsertIdx
import Mathlib.Data.List.Perm.Basic

/-!
Processes side by side, of which one at a time takes a step or ends. The others, when it is the turn
of the `i`-th process of `l`, are `l.eraseIdx i`.
-/
namespace Pool

variable {α β κ : Type*}

/-- The `i`-th process goes on as `next`, or has ended. -/
def resume (l : List α) (i : Nat) : Option α → List α
  | some next => l.set i next
  | none => l.eraseIdx i

variable {l : List α} {i : Nat} {a b : α} {next : Option α} {key : α → Option κ} {k : κ}

theorem perm_others (hi : l[i]? = some a) : l.Perm (a :: l.eraseIdx i) := by
  obtain ⟨hlt, rfl⟩ := List.getElem?_eq_some_iff.mp hi
  exact (List.getElem_cons_eraseIdx_perm hlt).symm

theorem perm_resume (hi : l[i]? = some a) :
    (resume l i next).Perm (next.toList ++ l.eraseIdx i) := by
  cases next with
  | none => exact List.Perm.refl _
  | some c => exact List.set_perm_cons_eraseIdx (List.getElem?_eq_some_iff.mp hi).1 c

theorem mem_iff_others (hi : l[i]? = some a) : b ∈ l ↔ b = a ∨ b ∈ l.eraseIdx i := by
  rw [(perm_others hi).mem_iff, List.mem_cons]

theorem mem_resume (hi : l[i]? = some a) :
    b ∈ resume l i next ↔ next = some b ∨ b ∈ l.eraseIdx i := by
  rw [(perm_resume hi).mem_iff, List.mem_append, Option.mem_toList]

theorem self_mem_resume (hi : l[i]? = some a) (b : α) : b ∈ resume l i (some b) :=
  (mem_resume hi).mpr (Or.inl rfl)

/-- A process whose turn it is not stays. -/
theorem mem_resume_of_ne (hi : l[i]? = some a) (hb : b ∈ l) (hne : b ≠ a) :
    b ∈ resume l i next := by
  rcases (mem_iff_others hi).mp hb with heq | hb
  · exact absurd heq hne
  · exact (mem_resume hi).mpr (Or.inr hb)

/-- A process that is not the one that goes on is still there. -/
theorem exists_resume {P : α → Prop} (hi : l[i]? = some a) (ha : ¬ P a) (h : ∃ b ∈ l, P b) :
    ∃ b ∈ resume l i next, P b := by
  obtain ⟨b, hb, hP⟩ := h
  refine ⟨b, mem_resume_of_ne hi hb ?_, hP⟩
  rintro rfl
  exact ha hP

/-- Neither the process that goes on nor what it has become is `b`. -/
theorem mem_resume_iff (hi : l[i]? = some a) (ha : b ≠ a) (hnext : next ≠ some b) :
    b ∈ resume l i next ↔ b ∈ l := by
  rw [mem_resume hi, mem_iff_others hi]
  simp [ha, hnext]

theorem count_resume [BEq α] [LawfulBEq α] (hi : l[i]? = some a) (next : Option α) (b : α) :
    (resume l i next).count b + [a].count b = l.count b + next.toList.count b := by
  have hothers : ([a] ++ l.eraseIdx i).count b = [a].count b + (l.eraseIdx i).count b :=
    List.count_append
  rw [List.singleton_append] at hothers
  rw [(perm_resume hi).count_eq, (perm_others hi).count_eq, List.count_append, hothers]
  omega

/-- What held of all processes, and holds of the one that goes on. -/
theorem forall_resume {P : α → Prop} (hi : l[i]? = some a) (h : ∀ b ∈ l, P b)
    (hnext : ∀ b, next = some b → P b) : ∀ b ∈ resume l i next, P b := by
  intro b hb
  rcases (mem_resume hi).mp hb with hb | hb
  · exact hnext b hb
  · exact h b (List.mem_of_mem_eraseIdx hb)

/-- What held of all processes, and holds of one that starts. -/
theorem forall_concat {P : α → Prop} (h : ∀ b ∈ l, P b) (ha : P a) : ∀ b ∈ l ++ [a], P b :=
  List.forall_mem_append.mpr ⟨h, List.forall_mem_singleton.mpr ha⟩

theorem length_filter_resume {p : α → Bool} (hi : l[i]? = some a) (hb : p b = p a) :
    ((resume l i (some b)).filter p).length = (l.filter p).length := by
  rw [← List.countP_eq_length_filter, ← List.countP_eq_length_filter, (perm_resume hi).countP_eq,
    (perm_others hi).countP_eq, Option.toList_some, List.singleton_append, List.countP_cons,
    List.countP_cons, hb]

/-- No two processes hold the same key. -/
def Distinct (key : α → Option κ) (l : List α) : Prop :=
  l.Pairwise fun a b => ∀ k, key a = some k → key b ≠ some k

theorem Distinct.perm {l' : List α} (hperm : l.Perm l') (h : Distinct key l) : Distinct key l' := by
  refine (hperm.pairwise_iff ?_).mp h
  intro a b hab k hb ha
  exact hab k ha hb

/-- The others do not hold the key of the `i`-th process. -/
theorem Distinct.others (h : Distinct key l) (hi : l[i]? = some a) (hk : key a = some k)
    (hb : b ∈ l.eraseIdx i) : key b ≠ some k :=
  (List.pairwise_cons.mp (h.perm (perm_others hi))).1 b hb k hk

theorem Distinct.resume (h : Distinct key l) (hi : l[i]? = some a)
    (hnext : ∀ c, next = some c → ∀ k, key c = some k → ∀ b ∈ l.eraseIdx i, key b ≠ some k) :
    Distinct key (resume l i next) := by
  have hothers : Distinct key (l.eraseIdx i) := List.Pairwise.sublist (List.eraseIdx_sublist l i) h
  refine Distinct.perm (perm_resume hi).symm ?_
  cases next with
  | none => exact hothers
  | some c => exact List.pairwise_cons.mpr ⟨fun b hb k hk => hnext c rfl k hk b hb, hothers⟩

/-- A process that goes on with the key it holds, or with none. -/
theorem Distinct.keep (h : Distinct key l) (hi : l[i]? = some a)
    (hnext : ∀ c, next = some c → ∀ k, key c = some k → key a = some k) :
    Distinct key (Pool.resume l i next) :=
  h.resume hi fun c hc k hk _ hb => h.others hi (hnext c hc k hk) hb

theorem Distinct.concat (h : Distinct key l) (ha : key a = none) : Distinct key (l ++ [a]) := by
  refine List.pairwise_append.mpr ⟨h, List.pairwise_singleton _ _, ?_⟩
  intro b hb c hc k hk
  rw [List.mem_singleton.mp hc, ha]
  exact fun h => nomatch h

end Pool

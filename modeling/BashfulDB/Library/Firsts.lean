import Mathlib.Data.List.Nodup
import Mathlib.Data.List.Infix

/-! First occurrences: what `eraseDups` keeps of a list, and what taking one value out of a list of
distinct values does to its first `n`. -/
namespace BashfulDB.Firsts

variable {α : Type*} [DecidableEq α] {l l' : List α} {a : α} {n : ℕ}

theorem eraseDups_concat (l : List α) (a : α) :
    (l ++ [a]).eraseDups = if a ∈ l then l.eraseDups else l.eraseDups ++ [a] := by
  rw [List.eraseDups_append]
  split
  · next h => simp [List.removeAll, h]
  · next h => simp [List.removeAll, h, List.eraseDups_cons]

theorem nodup_eraseDups (l : List α) : l.eraseDups.Nodup := by
  induction l using List.reverseRecOn with
  | nil => exact List.nodup_nil
  | append_singleton l a ih =>
    rw [eraseDups_concat]
    split
    · exact ih
    · next h =>
      have hnew : a ∉ l.eraseDups := fun hmem => h (List.mem_eraseDups.mp hmem)
      exact List.concat_eq_append ▸ ih.concat hnew

theorem filter_eraseDups (p : α → Bool) (l : List α) :
    l.eraseDups.filter p = (l.filter p).eraseDups := by
  induction l using List.reverseRecOn with
  | nil => rfl
  | append_singleton l a ih =>
    rw [eraseDups_concat, List.filter_append]
    by_cases ha : p a
    · have hone : [a].filter p = [a] := by simp [ha]
      have hmem : a ∈ l.filter p ↔ a ∈ l := by simp [ha]
      rw [hone, eraseDups_concat]
      simp only [hmem]
      split
      · exact ih
      · rw [List.filter_append, ih, hone]
    · have hnone : [a].filter p = [] := by simp [ha]
      rw [hnone, List.append_nil]
      split
      · exact ih
      · rw [List.filter_append, ih, hnone, List.append_nil]

theorem eraseDups_of_nodup (h : l.Nodup) : l.eraseDups = l := by
  induction l with
  | nil => rfl
  | cons a l ih =>
    obtain ⟨ha, hl⟩ := List.nodup_cons.mp h
    have hkeep : l.filter (fun b => !b == a) = l := by
      refine List.filter_eq_self.mpr fun b hb => ?_
      have hne : b ≠ a := fun heq => ha (heq ▸ hb)
      simpa using hne
    rw [List.eraseDups_cons, hkeep, ih hl]

/-- What is there already stays in front, in the order it has. -/
theorem prefix_eraseDups_append (h : l.Nodup) : l <+: (l ++ l').eraseDups := by
  rw [List.eraseDups_append, eraseDups_of_nodup h]
  exact List.prefix_append _ _

theorem eraseDups_append_cons_of_mem (h : a ∈ l) :
    (l ++ a :: l').eraseDups = (l ++ l').eraseDups := by
  rw [List.eraseDups_append, List.eraseDups_append]
  congr 2
  simp [List.removeAll, h]

theorem eraseDups_eraseDups_append (l l' : List α) :
    (l.eraseDups ++ l').eraseDups = (l ++ l').eraseDups := by
  rw [List.eraseDups_append, List.eraseDups_append, eraseDups_of_nodup (nodup_eraseDups l)]
  simp [List.removeAll, List.mem_eraseDups]

/-- A value that is not among the first `n` does not count for them. -/
theorem take_filter_ne (h : a ∉ l.take n) : (l.filter (· ≠ a)).take n = l.take n := by
  have hkeep : (l.take n).filter (· ≠ a) = l.take n := by
    refine List.filter_eq_self.mpr fun b hb => ?_
    have hne : b ≠ a := fun heq => h (heq ▸ hb)
    simpa using hne
  rcases Nat.le_total l.length n with hle | hle
  · rw [List.take_of_length_le hle] at hkeep ⊢
    rw [hkeep, List.take_of_length_le hle]
  · have hsplit : l.filter (· ≠ a) = l.take n ++ (l.drop n).filter (· ≠ a) := by
      conv_lhs => rw [← List.take_append_drop n l, List.filter_append, hkeep]
    rw [hsplit, List.take_append_of_le_length (by simp [hle]), List.take_take, Nat.min_self]

/-- Without one of them, the first `n` are still in front of the others, which move up by one. -/
theorem take_erase_prefix (hl : l.Nodup) (h : a ∈ l.take n) :
    (l.take n).erase a <+: (l.filter (· ≠ a)).take n ∧
      ((l.filter (· ≠ a)).take n).length ≤ ((l.take n).erase a).length + 1 := by
  have herase : (l.take n).erase a = (l.take n).filter (· ≠ a) := by
    rw [(hl.sublist (List.take_sublist n l)).erase_eq_filter]
    exact List.filter_congr fun b _ => by simp [bne, beq_eq_decide]
  have hlength : ((l.take n).erase a).length = (l.take n).length - 1 :=
    List.length_erase_of_mem h
  have hsplit : l.filter (· ≠ a) = (l.take n).erase a ++ (l.drop n).filter (· ≠ a) := by
    conv_lhs => rw [← List.take_append_drop n l, List.filter_append, ← herase]
  have htake : (l.take n).length ≤ n := List.length_take_le n l
  constructor
  · have hfits : ((l.take n).erase a).length ≤ n := by omega
    rw [hsplit, List.take_append, List.take_of_length_le hfits]
    exact List.prefix_append _ _
  · rcases Nat.lt_or_ge (l.take n).length n with hlt | hge
    · -- All of `l` is among the first `n`.
      have hdrop : l.drop n = [] := by
        apply List.drop_eq_nil_of_le
        rw [List.length_take] at hlt
        omega
      rw [hsplit, hdrop, List.filter_nil, List.append_nil]
      have := List.length_take_le' n ((l.take n).erase a)
      omega
    · have := List.length_take_le n (l.filter (· ≠ a))
      omega

end BashfulDB.Firsts

import Mathlib.Algebra.Group.Nat.Defs
import Mathlib.Order.Lattice
import Mathlib.Tactic.Common

/-! 128-bit identifiers, ordered as their big-endian bytes, and their hyphenated text. -/

structure Uuid where
  bits : BitVec 128
  deriving DecidableEq, Repr

namespace Uuid

instance : LinearOrder Uuid := LinearOrder.lift' (fun u => u.bits.toNat) (by
  intro a b h
  cases a; cases b
  simpa [BitVec.toNat_inj] using h)

/-- Hexadecimal digit `i` of the 32, the most significant first. -/
def nibble (u : Uuid) (i : Nat) : Nat := u.bits.toNat / 16 ^ (31 - i) % 16

def hexDigit (n : Nat) : Char := if n < 10 then Char.ofNat (48 + n) else Char.ofNat (87 + n)

/-- Digits `lo`, …, `lo + len - 1` as lowercase text. -/
def group (u : Uuid) (lo len : Nat) : List Char :=
  (List.range len).map fun i => hexDigit (u.nibble (lo + i))

/-- The 8-4-4-4-12 form. -/
def hyphenated (u : Uuid) : String :=
  String.ofList (u.group 0 8 ++ '-' :: u.group 8 4 ++ '-' :: u.group 12 4 ++
    '-' :: u.group 16 4 ++ '-' :: u.group 20 12)

theorem mem_hyphenated {u : Uuid} {c : Char} (h : c ∈ u.hyphenated.toList) :
    c = '-' ∨ ∃ n < 16, c = hexDigit n := by
  have hgroup (lo len : Nat) (h : c ∈ u.group lo len) : ∃ n < 16, c = hexDigit n := by
    obtain ⟨i, -, rfl⟩ := List.mem_map.mp h
    exact ⟨_, Nat.mod_lt _ (by decide), rfl⟩
  simp only [hyphenated, String.toList_ofList, List.mem_append, List.mem_cons] at h
  rcases h with (((h | h | h) | h | h) | h | h) | h | h
  all_goals first
    | exact Or.inl h
    | exact Or.inr (hgroup _ _ h)

/-- The text holds only digits and hyphens. -/
theorem not_mem_hyphenated {u : Uuid} {c : Char} (hhyphen : c ≠ '-')
    (hdigit : ∀ n < 16, c ≠ hexDigit n) : c ∉ u.hyphenated.toList := by
  intro h
  rcases mem_hyphenated h with rfl | ⟨n, hn, rfl⟩
  · exact hhyphen rfl
  · exact hdigit n hn rfl

@[simp] theorem length_group (u : Uuid) (lo len : Nat) : (u.group lo len).length = len := by
  simp [group]

theorem length_hyphenated (u : Uuid) : u.hyphenated.toList.length = 36 := by
  simp [hyphenated]

theorem nibble_eq_of_group {u v : Uuid} {lo len i : Nat} (h : u.group lo len = v.group lo len)
    (hi : i < len) : u.nibble (lo + i) = v.nibble (lo + i) := by
  have hdigit : hexDigit (u.nibble (lo + i)) = hexDigit (v.nibble (lo + i)) := by
    have hget := congrArg (·[i]?) h
    simpa [group, hi] using hget
  have hall : ∀ m < 16, ∀ n < 16, hexDigit m = hexDigit n → m = n := by decide
  exact hall _ (Nat.mod_lt _ (by decide)) _ (Nat.mod_lt _ (by decide)) hdigit

/-- The digits determine the identifier: `k` of them determine all but the lower ones. -/
theorem eq_of_nibble {u v : Uuid} (h : ∀ i < 32, u.nibble i = v.nibble i) : u = v := by
  have hdiv (k : Nat) (hk : k ≤ 32) :
      u.bits.toNat / 16 ^ (32 - k) = v.bits.toNat / 16 ^ (32 - k) := by
    induction k with
    | zero =>
      have hu := u.bits.isLt
      have hv := v.bits.isLt
      rw [Nat.div_eq_of_lt (by simpa using hu), Nat.div_eq_of_lt (by simpa using hv)]
    | succ k ih =>
      have hnibble := h k (by omega)
      unfold nibble at hnibble
      have hsub : 32 - k = 32 - (k + 1) + 1 := by omega
      have hpow : 31 - k = 32 - (k + 1) := by omega
      have hprev := ih (by omega)
      rw [hsub, Nat.pow_succ, ← Nat.div_div_eq_div_mul, ← Nat.div_div_eq_div_mul] at hprev
      rw [hpow] at hnibble
      rw [← Nat.div_add_mod (u.bits.toNat / _) 16, hprev, hnibble, Nat.div_add_mod]
  have hbits := hdiv 32 le_rfl
  simp only [Nat.sub_self, Nat.pow_zero, Nat.div_one] at hbits
  obtain ⟨a⟩ := u
  obtain ⟨b⟩ := v
  exact congrArg Uuid.mk (BitVec.eq_of_toNat_eq hbits)

theorem hyphenated_inj {u v : Uuid} (h : u.hyphenated = v.hyphenated) : u = v := by
  have hlist := congrArg String.toList h
  simp only [hyphenated, String.toList_ofList, List.append_assoc, List.cons_append] at hlist
  obtain ⟨h₁, hlist⟩ := List.append_inj hlist (by simp)
  obtain ⟨h₂, hlist⟩ := List.append_inj (List.cons.inj hlist).2 (by simp)
  obtain ⟨h₃, hlist⟩ := List.append_inj (List.cons.inj hlist).2 (by simp)
  obtain ⟨h₄, hlist⟩ := List.append_inj (List.cons.inj hlist).2 (by simp)
  have h₅ := (List.cons.inj hlist).2
  refine eq_of_nibble fun i hi => ?_
  have hgroup {lo len : Nat} (h : u.group lo len = v.group lo len) (hlo : lo ≤ i)
      (hlen : i < lo + len) : u.nibble i = v.nibble i := by
    have hnibble := nibble_eq_of_group h (i := i - lo) (by omega)
    rwa [Nat.add_sub_cancel' hlo] at hnibble
  by_cases h8 : i < 8
  · exact hgroup h₁ (by omega) (by omega)
  by_cases h12 : i < 12
  · exact hgroup h₂ (by omega) (by omega)
  by_cases h16 : i < 16
  · exact hgroup h₃ (by omega) (by omega)
  by_cases h20 : i < 20
  · exact hgroup h₄ (by omega) (by omega)
  · exact hgroup h₅ (by omega) (by omega)

end Uuid

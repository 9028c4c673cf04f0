import Mathlib.Algebra.Group.Nat.Defs
import Mathlib.Tactic.Common

/-! Numerals in bases up to sixteen, and how decimal ones are read back. -/

namespace Digits

variable {b d e m n : Nat} {c : Char}

theorem digitChar_inj (hd : d < 16) (he : e < 16) (h : d.digitChar = e.digitChar) : d = e := by
  have hall : ∀ d e : Fin 16, d.val.digitChar = e.val.digitChar → d = e := by decide
  exact congrArg Fin.val (hall ⟨d, hd⟩ ⟨e, he⟩ h)

theorem mem_toDigits (hb : 1 < b) (h : c ∈ Nat.toDigits b n) : ∃ d, d < b ∧ c = d.digitChar := by
  induction n using Nat.strongRecOn with
  | ind n ih =>
    rw [Nat.toDigits_eq_if hb] at h
    split at h
    · exact ⟨n, ‹_›, List.mem_singleton.mp h⟩
    · rcases List.mem_append.mp h with h | h
      · exact ih (n / b) (Nat.div_lt_self (by omega) hb) h
      · exact ⟨n % b, Nat.mod_lt n (by omega), List.mem_singleton.mp h⟩

theorem toDigits_inj (hb : 1 < b) (hb' : b ≤ 16) (h : Nat.toDigits b m = Nat.toDigits b n) :
    m = n := by
  have hmod (k : Nat) : k % b < 16 := Nat.lt_of_lt_of_le (Nat.mod_lt k (by omega)) hb'
  induction m using Nat.strongRecOn generalizing n with
  | ind m ih =>
    rw [Nat.toDigits_eq_if (n := m) hb, Nat.toDigits_eq_if (n := n) hb] at h
    split at h <;> split at h
    · rw [List.singleton_inj] at h
      exact digitChar_inj (by omega) (by omega) h
    · exact absurd (congrArg List.length h) (by simp [Nat.toDigits_ne_nil])
    · exact absurd (congrArg List.length h) (by simp [Nat.toDigits_ne_nil])
    · obtain ⟨hdiv, hlast⟩ := List.append_inj' h rfl
      have hquot : m / b = n / b := ih (m / b) (Nat.div_lt_self (by omega) hb) hdiv
      have hrem : m % b = n % b := digitChar_inj (hmod m) (hmod n) (List.singleton_inj.mp hlast)
      rw [← Nat.div_add_mod m b, ← Nat.div_add_mod n b, hquot, hrem]

/-- The number that decimal digits denote, after the digits of `acc`. -/
def ofDecimal (acc : Nat) (digits : List Char) : Nat :=
  digits.foldl (fun n c => n * 10 + (c.toNat - '0'.toNat)) acc

/-- `str::parse::<u64>`: an optional plus sign, then digits that do not overflow. -/
def parseU64 (s : String) : Option Nat :=
  let digits := match s.toList with
    | '+' :: rest => rest
    | l => l
  if digits.isEmpty || !digits.all Char.isDigit then none
  else
    let n := ofDecimal 0 digits
    if n < 2 ^ 64 then some n else none

/-- Whether a minus sign comes first, and what follows the sign. -/
def splitSign : List Char → Bool × List Char
  | '-' :: rest => (true, rest)
  | '+' :: rest => (false, rest)
  | l => (false, l)

/-- `str::parse::<i64>`: an optional sign, then digits that do not overflow. -/
def parseI64 (s : String) : Option Int64 :=
  let (negative, digits) := splitSign s.toList
  if digits.isEmpty || !digits.all Char.isDigit then none
  else
    let n := ofDecimal 0 digits
    if negative then if n ≤ 2 ^ 63 then some (Int64.ofInt (-n)) else none
    else if n < 2 ^ 63 then some (Int64.ofInt n) else none

theorem digitChar_decimal (hd : d < 10) :
    d.digitChar.isDigit = true ∧ d.digitChar.toNat - '0'.toNat = d ∧
      d.digitChar ≠ '+' ∧ d.digitChar ≠ '-' := by
  have hall : ∀ d : Fin 10, d.val.digitChar.isDigit = true ∧
      d.val.digitChar.toNat - '0'.toNat = d.val ∧
      d.val.digitChar ≠ '+' ∧ d.val.digitChar ≠ '-' := by decide
  exact hall ⟨d, hd⟩

theorem ofDecimal_toDigits (n : Nat) : ofDecimal 0 (Nat.toDigits 10 n) = n := by
  induction n using Nat.strongRecOn with
  | ind n ih =>
    rw [Nat.toDigits_eq_if (by decide)]
    split
    · rename_i hlt
      rw [ofDecimal, List.foldl_cons, List.foldl_nil, (digitChar_decimal hlt).2.1]
      omega
    · have hrem : n % 10 < 10 := Nat.mod_lt n (by decide)
      have hquot := ih (n / 10) (Nat.div_lt_self (by omega) (by decide))
      rw [ofDecimal] at hquot ⊢
      rw [List.foldl_append, hquot, List.foldl_cons, List.foldl_nil, (digitChar_decimal hrem).2.1]
      omega

theorem mem_toString (h : c ∈ (toString n).toList) : ∃ d < 10, c = d.digitChar := by
  rw [Nat.toString_eq_ofList_toDigits, String.toList_ofList] at h
  exact mem_toDigits (by decide) h

theorem toList_toString (n : Nat) : (toString n).toList = Nat.toDigits 10 n := by
  rw [Nat.toString_eq_ofList_toDigits, String.toList_ofList]

/-- A numeral is made of digits and has no sign. -/
theorem numeral (n : Nat) : (Nat.toDigits 10 n).isEmpty = false ∧
    (Nat.toDigits 10 n).all Char.isDigit = true ∧
    ∀ rest, Nat.toDigits 10 n ≠ '+' :: rest ∧ Nat.toDigits 10 n ≠ '-' :: rest := by
  have hdigit : ∀ c ∈ Nat.toDigits 10 n, c.isDigit = true ∧ c ≠ '+' ∧ c ≠ '-' := by
    intro c hc
    obtain ⟨d, hd, rfl⟩ := mem_toDigits (by decide) hc
    exact ⟨(digitChar_decimal hd).1, (digitChar_decimal hd).2.2⟩
  refine ⟨by simp [Nat.toDigits_ne_nil], List.all_eq_true.mpr fun c hc => (hdigit c hc).1, ?_⟩
  intro rest
  constructor
  · intro h
    exact (hdigit '+' (by rw [h]; exact List.mem_cons_self)).2.1 rfl
  · intro h
    exact (hdigit '-' (by rw [h]; exact List.mem_cons_self)).2.2 rfl

/-- A number is read back from its own numeral. -/
theorem parseU64_toString (h : n < 2 ^ 64) : parseU64 (toString n) = some n := by
  obtain ⟨hne, hall, hsign⟩ := numeral n
  rw [parseU64, toList_toString]
  split
  · rename_i rest hplus
    exact absurd hplus (hsign rest).1
  · simpa [hne, hall, ofDecimal_toDigits] using h

theorem splitSign_numeral (n : Nat) :
    splitSign (Nat.toDigits 10 n) = (false, Nat.toDigits 10 n) := by
  obtain ⟨-, -, hsign⟩ := numeral n
  unfold splitSign
  split
  · exact absurd ‹_› (hsign _).2
  · exact absurd ‹_› (hsign _).1
  · rfl

theorem parseI64_toString_nat (h : n < 2 ^ 63) :
    parseI64 (toString n) = some (Int64.ofInt n) := by
  obtain ⟨hne, hall, -⟩ := numeral n
  rw [parseI64, toList_toString, splitSign_numeral]
  simpa [hne, hall, ofDecimal_toDigits] using h

theorem toList_toString_negSucc (n : Nat) :
    (toString (Int.negSucc n)).toList = '-' :: Nat.toDigits 10 (n + 1) := by
  rw [← toList_toString]
  exact String.toList_append

theorem mem_toString_int {i : Int} (h : c ∈ (toString i).toList) :
    c = '-' ∨ ∃ d < 10, c = d.digitChar := by
  cases i with
  | ofNat n => exact Or.inr (mem_toString h)
  | negSucc n =>
    rw [toList_toString_negSucc, List.mem_cons] at h
    exact h.imp_right (mem_toDigits (by decide))

theorem parseI64_toString_neg (h : n + 1 ≤ 2 ^ 63) :
    parseI64 (toString (Int.negSucc n)) = some (Int64.ofInt (Int.negSucc n)) := by
  obtain ⟨hne, hall, -⟩ := numeral (n + 1)
  rw [parseI64, toList_toString_negSucc, splitSign]
  simp only [hne, hall, Bool.not_true, Bool.or_self, Bool.false_eq_true, if_false, if_true,
    ofDecimal_toDigits]
  rw [if_pos h, Int.negSucc_eq]
  rfl

/-- A signed number is read back from its own numeral. -/
theorem parseI64_toString (n : Int64) : parseI64 (toString n.toInt) = some n := by
  have hlt := n.toInt_lt
  have hle := n.le_toInt
  have hread : parseI64 (toString n.toInt) = some (Int64.ofInt n.toInt) := by
    generalize n.toInt = i at hlt hle
    cases i with
    | ofNat k =>
      rw [Int.ofNat_eq_natCast] at hlt
      exact parseI64_toString_nat (by omega)
    | negSucc k =>
      rw [Int.negSucc_eq] at hle
      exact parseI64_toString_neg (by omega)
  rw [hread, n.ofInt_toInt]

end Digits

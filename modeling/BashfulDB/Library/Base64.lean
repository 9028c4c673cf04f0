import BashfulDB.Library.Bytes
import Mathlib.Data.List.Basic

/-! Base64 with the URL-safe alphabet and without padding, and the standard form of a text. -/
namespace Base64

/-- Three bytes make four digits; one or two bytes at the end make two or three. -/
def digits : Bytes → List Nat
  | a :: b :: c :: rest =>
    let n := a.toNat * 65536 + b.toNat * 256 + c.toNat
    n / 262144 :: n / 4096 % 64 :: n / 64 % 64 :: n % 64 :: digits rest
  | [a, b] =>
    let n := a.toNat * 256 + b.toNat
    [n / 1024, n / 16 % 64, n % 16 * 4]
  | [a] => [a.toNat / 4, a.toNat % 4 * 16]
  | [] => []

def alphabet : List Char :=
  "ABCDEFGHIJKLMNOPQRSTUVWXYZabcdefghijklmnopqrstuvwxyz0123456789-_".toList

def char (digit : Nat) : Char := alphabet.getD digit 'A'

def encode (bytes : Bytes) : String := String.ofList ((digits bytes).map char)

def standardAlphabet : List Char :=
  "ABCDEFGHIJKLMNOPQRSTUVWXYZabcdefghijklmnopqrstuvwxyz0123456789+/".toList

/-- The standard alphabet, and padding up to a multiple of four characters. -/
def encodeStandard (bytes : Bytes) : String :=
  let chars := (digits bytes).map fun digit => standardAlphabet.getD digit 'A'
  String.ofList (chars ++ List.replicate ((4 - chars.length % 4) % 4) '=')

example : encodeStandard [0xDE, 0xAD, 0xBE, 0xEF] = "3q2+7w==" := by decide +kernel

theorem lt_of_mem_digits (bytes : Bytes) : ∀ d ∈ digits bytes, d < 64 := by
  fun_induction digits bytes with
  | case1 a b c rest n ih =>
    have ha := a.toNat_lt
    have hb := b.toNat_lt
    have hc := c.toNat_lt
    refine List.forall_mem_cons.mpr ⟨by omega, List.forall_mem_cons.mpr ⟨by omega,
      List.forall_mem_cons.mpr ⟨by omega, List.forall_mem_cons.mpr ⟨by omega, ih⟩⟩⟩⟩
  | case2 a b n =>
    have ha := a.toNat_lt
    have hb := b.toNat_lt
    simp only [List.forall_mem_cons, List.not_mem_nil, false_imp_iff, implies_true, and_true]
    omega
  | case3 a =>
    have ha := a.toNat_lt
    simp only [List.forall_mem_cons, List.not_mem_nil, false_imp_iff, implies_true, and_true]
    omega
  | case4 => simp

/-- What four digits stand for, or two or three at the end; bits that stand for nothing are zero. -/
def ofDigits : List Nat → Option Bytes
  | a :: b :: c :: d :: rest =>
    let n := a * 262144 + b * 4096 + c * 64 + d
    (ofDigits rest).map fun bytes =>
      UInt8.ofNat (n / 65536) :: UInt8.ofNat (n / 256) :: UInt8.ofNat n :: bytes
  | [a, b, c] =>
    let n := a * 1024 + b * 16 + c / 4
    if c % 4 = 0 then some [UInt8.ofNat (n / 256), UInt8.ofNat n] else none
  | [a, b] => if b % 16 = 0 then some [UInt8.ofNat (a * 4 + b / 16)] else none
  | [_] => none
  | [] => some []

def value (c : Char) : Option Nat := if c ∈ alphabet then some (alphabet.idxOf c) else none

def decode (text : String) : Option Bytes := (text.toList.mapM value).bind ofDigits

theorem ofDigits_digits (bytes : Bytes) : ofDigits (digits bytes) = some bytes := by
  have heq {x : UInt8} {n : Nat} (h : n % 256 = x.toNat) : UInt8.ofNat n = x := by
    apply UInt8.toNat_inj.mp
    rw [UInt8.toNat_ofNat']
    exact h
  fun_induction digits bytes with
  | case1 a b c rest n ih =>
    have ha := a.toNat_lt
    have hb := b.toNat_lt
    have hc := c.toNat_lt
    rw [ofDigits, ih, Option.map_some, heq (x := a) (by omega), heq (x := b) (by omega),
      heq (x := c) (by omega)]
  | case2 a b n =>
    have ha := a.toNat_lt
    have hb := b.toNat_lt
    rw [ofDigits, if_pos (by omega), heq (x := a) (by omega), heq (x := b) (by omega)]
  | case3 a =>
    have ha := a.toNat_lt
    rw [ofDigits, if_pos (by omega), heq (x := a) (by omega)]
  | case4 => rfl

/-- The letters, the decimal digits, and two more. -/
theorem alphabet_eq : alphabet =
    (List.range' 65 26 ++ List.range' 97 26 ++ List.range' 48 10 ++ [45, 95]).map Char.ofNat := by
  decide +kernel

theorem value_char : ∀ digit < 64, value (char digit) = some digit := by
  simp only [value, char, alphabet_eq]
  decide +kernel

theorem mapM_value_digits (bytes : Bytes) :
    ((digits bytes).map char).mapM value = some (digits bytes) := by
  have hlt := lt_of_mem_digits bytes
  generalize digits bytes = ds at hlt ⊢
  induction ds with
  | nil => rfl
  | cons d ds ih =>
    obtain ⟨hd, hds⟩ := List.forall_mem_cons.mp hlt
    rw [List.map_cons, List.mapM_cons, value_char d hd, ih hds]
    rfl

theorem decode_encode (bytes : Bytes) : decode (encode bytes) = some bytes := by
  rw [decode, encode, String.toList_ofList, mapM_value_digits, Option.bind_some, ofDigits_digits]

/-- Different byte strings have different texts. -/
theorem encode_inj {bytes bytes' : Bytes} (h : encode bytes = encode bytes') : bytes = bytes' := by
  have hdecode := decode_encode bytes
  rw [h, decode_encode] at hdecode
  exact (Option.some.inj hdecode).symm

theorem char_cases : ∀ digit < 64,
    (char digit).isAlphanum = true ∨ char digit = '-' ∨ char digit = '_' := by
  simp only [char, alphabet_eq]
  decide +kernel

theorem not_mem_encode {bytes : Bytes} {c : Char} (hletter : c.isAlphanum = false)
    (hdash : c ≠ '-') (hscore : c ≠ '_') : c ∉ (encode bytes).toList := by
  intro h
  rw [encode, String.toList_ofList] at h
  obtain ⟨d, hd, rfl⟩ := List.mem_map.mp h
  rcases char_cases d (lt_of_mem_digits bytes d hd) with hc | hc | hc
  · exact absurd (hletter.symm.trans hc) (by decide)
  · exact hdash hc
  · exact hscore hc

/-- The alphabet has no separator of paths. -/
theorem slash_not_mem_encode (bytes : Bytes) : '/' ∉ (encode bytes).toList :=
  not_mem_encode (by decide) (by decide) (by decide)

theorem cons_lt_iff_toNat {a b : UInt8} {s t : Bytes} :
    a :: s < b :: t ↔ a.toNat < b.toNat ∨ a.toNat = b.toNat ∧ s < t := by
  rw [List.cons_lt_cons_iff, UInt8.lt_iff_toNat_lt, UInt8.toNat_inj]

mutual

/-- The digits one after the other, with the bits of a byte that are left for the next digit. -/
def first : Bytes → List Nat
  | [] => []
  | a :: s => a.toNat / 4 :: second (a.toNat % 4) s

def second (carry : Nat) : Bytes → List Nat
  | [] => [carry * 16]
  | b :: s => (carry * 16 + b.toNat / 16) :: third (b.toNat % 16) s

def third (carry : Nat) : Bytes → List Nat
  | [] => [carry * 4]
  | c :: s => (carry * 4 + c.toNat / 64) :: c.toNat % 64 :: first s

end

theorem digits_eq_first (s : Bytes) : digits s = first s := by
  induction s using digits.induct with
  | case1 a b c rest ih =>
    have ha := a.toNat_lt
    have hb := b.toNat_lt
    have hc := c.toNat_lt
    simp only [digits, first, second, third, ih, List.cons.injEq, and_true]
    omega
  | case2 a b =>
    have ha := a.toNat_lt
    have hb := b.toNat_lt
    simp only [digits, first, second, third, List.cons.injEq, and_true]
    omega
  | case3 a => rfl
  | case4 => rfl

mutual

theorem first_lt : ∀ {s t : Bytes}, s < t → first s < first t
  | _, [], h => absurd h (List.not_lt_nil _)
  | [], _ :: _, _ => List.nil_lt_cons _ _
  | a :: s, b :: t, h => by
    rw [first, first, List.cons_lt_cons_iff]
    rcases cons_lt_iff_toNat.mp h with hlt | ⟨heq, hlt⟩
    · by_cases hhigh : a.toNat / 4 < b.toNat / 4
      · exact Or.inl hhigh
      · exact Or.inr ⟨by omega, second_lt (Or.inl (by omega))⟩
    · rw [heq]
      exact Or.inr ⟨rfl, second_lt (Or.inr ⟨rfl, hlt⟩)⟩

theorem second_lt : ∀ {r r' : Nat} {s t : Bytes}, r < r' ∨ r = r' ∧ s < t →
    second r s < second r' t
  | r, r', [], [], h => by
    have hr : r < r' := by simpa using h
    exact List.cons_lt_cons_iff.mpr (Or.inl (by omega))
  | r, r', a :: s, [], h => by
    have hr : r < r' := by simpa using h
    have ha := a.toNat_lt
    exact List.cons_lt_cons_iff.mpr (Or.inl (by omega))
  | r, r', [], b :: t, h => by
    rw [second, second, List.cons_lt_cons_iff]
    by_cases hhigh : r * 16 < r' * 16 + b.toNat / 16
    · exact Or.inl hhigh
    · exact Or.inr ⟨by omega, by cases t <;> exact List.nil_lt_cons _ _⟩
  | r, r', a :: s, b :: t, h => by
    rw [second, second, List.cons_lt_cons_iff]
    have ha := a.toNat_lt
    rcases h with hr | ⟨rfl, h⟩
    · exact Or.inl (by omega)
    · rcases cons_lt_iff_toNat.mp h with hlt | ⟨heq, hlt⟩
      · by_cases hhigh : a.toNat / 16 < b.toNat / 16
        · exact Or.inl (by omega)
        · exact Or.inr ⟨by omega, third_lt (Or.inl (by omega))⟩
      · rw [heq]
        exact Or.inr ⟨rfl, third_lt (Or.inr ⟨rfl, hlt⟩)⟩

theorem third_lt : ∀ {r r' : Nat} {s t : Bytes}, r < r' ∨ r = r' ∧ s < t →
    third r s < third r' t
  | r, r', [], [], h => by
    have hr : r < r' := by simpa using h
    exact List.cons_lt_cons_iff.mpr (Or.inl (by omega))
  | r, r', a :: s, [], h => by
    have hr : r < r' := by simpa using h
    have ha := a.toNat_lt
    exact List.cons_lt_cons_iff.mpr (Or.inl (by omega))
  | r, r', [], b :: t, h => by
    rw [third, third, List.cons_lt_cons_iff]
    by_cases hhigh : r * 4 < r' * 4 + b.toNat / 64
    · exact Or.inl hhigh
    · exact Or.inr ⟨by omega, List.nil_lt_cons _ _⟩
  | r, r', a :: s, b :: t, h => by
    rw [third, third, List.cons_lt_cons_iff, List.cons_lt_cons_iff]
    have ha := a.toNat_lt
    rcases h with hr | ⟨rfl, h⟩
    · exact Or.inl (by omega)
    · rcases cons_lt_iff_toNat.mp h with hlt | ⟨heq, hlt⟩
      · by_cases hhigh : a.toNat / 64 < b.toNat / 64
        · exact Or.inl (by omega)
        · exact Or.inr ⟨by omega, Or.inl (by omega)⟩
      · rw [heq]
        exact Or.inr ⟨rfl, Or.inr ⟨rfl, first_lt hlt⟩⟩

end

theorem digits_lt {s t : Bytes} (h : s < t) : digits s < digits t := by
  rw [digits_eq_first, digits_eq_first]
  exact first_lt h

/-- The byte of a digit in a text. -/
def code (digit : Nat) : UInt8 := UInt8.ofNat (char digit).toNat

theorem utf8EncodeChar_char : ∀ digit < 64, String.utf8EncodeChar (char digit) = [code digit] := by
  simp only [code, char, alphabet_eq]
  decide +kernel

theorem asBytes_encode (bytes : Bytes) : (encode bytes).asBytes = (digits bytes).map code := by
  rw [String.asBytes_eq_flatMap, encode, String.toList_ofList, List.flatMap_map,
    List.map_eq_flatMap]
  exact List.flatMap_congr fun d hd => utf8EncodeChar_char d (lt_of_mem_digits bytes d hd)

/-- The digits at the first place where two lists of them differ. -/
def firstDifference : List Nat → List Nat → Option (Nat × Nat)
  | x :: xs, y :: ys => if x = y then firstDifference xs ys else some (x, y)
  | _, _ => none

/-- A smaller digit with a greater character: digits stand before letters, `-` before both, and `_`
between the upper and the lower case. -/
def Inverted (x y : Nat) : Prop :=
  x < 52 ∧ 52 ≤ y ∧ y ≤ 62 ∨ 26 ≤ x ∧ x < 52 ∧ y = 63 ∨ 52 ≤ x ∧ x ≤ 61 ∧ y = 62

theorem toNat_code : ∀ digit < 64, (code digit).toNat =
    if digit < 26 then digit + 65 else if digit < 52 then digit + 71
    else if digit < 62 then digit - 4 else if digit = 62 then 45 else 95 := by
  simp only [code, char, alphabet_eq]
  decide +kernel

/-- Two digits have different characters, in the opposite order if they are inverted. -/
theorem code_cases {x y : Nat} (hlt : x < y) (hy : y < 64) :
    code x ≠ code y ∧ (code x < code y ↔ ¬ Inverted x y) := by
  rw [UInt8.lt_iff_toNat_lt, ne_eq, ← UInt8.toNat_inj, Inverted, toNat_code x (by omega),
    toNat_code y hy]
  split_ifs <;> omega

/-- Texts are ordered by the characters where their digits first differ. -/
theorem map_code_lt_iff {xs ys : List Nat} (h : xs < ys) (hxs : ∀ x ∈ xs, x < 64)
    (hys : ∀ y ∈ ys, y < 64) : xs.map code < ys.map code ↔
      ∀ x y, firstDifference xs ys = some (x, y) → ¬ Inverted x y := by
  induction xs generalizing ys with
  | nil =>
    cases ys with
    | nil => exact absurd h (List.not_lt_nil _)
    | cons y ys => exact iff_of_true (List.nil_lt_cons _ _) (by simp [firstDifference])
  | cons x xs ih =>
    cases ys with
    | nil => exact absurd h (List.not_lt_nil _)
    | cons y ys =>
      obtain ⟨-, hxs'⟩ := List.forall_mem_cons.mp hxs
      obtain ⟨hy, hys'⟩ := List.forall_mem_cons.mp hys
      rw [List.map_cons, List.map_cons, List.cons_lt_cons_iff, firstDifference]
      rcases List.cons_lt_cons_iff.mp h with hlt | ⟨rfl, hlt⟩
      · obtain ⟨hne, hiff⟩ := code_cases hlt hy
        rw [if_neg (Nat.ne_of_lt hlt), or_iff_left (fun hsame => hne hsame.1), hiff]
        simp
      · rw [if_pos rfl, ← ih hlt hxs' hys']
        simp

/-- The texts of two byte strings are in their order exactly if the characters are where the digits
first differ. -/
theorem encode_lt_iff {s t : Bytes} (h : s < t) : (encode s).asBytes < (encode t).asBytes ↔
    ∀ x y, firstDifference (digits s) (digits t) = some (x, y) → ¬ Inverted x y := by
  rw [asBytes_encode, asBytes_encode]
  exact map_code_lt_iff (digits_lt h) (lt_of_mem_digits s) (lt_of_mem_digits t)

end Base64

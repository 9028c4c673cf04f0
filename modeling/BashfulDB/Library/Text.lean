import BashfulDB.Library.Bytes

/-! Reading text: lossy UTF-8, and splitting at a separator. -/

namespace Text

/-- A continuation byte. -/
def continues (b : UInt8) : Bool := 0x80 ≤ b && b ≤ 0xBF

/-- The bytes that may follow the first one of three. -/
def continuesThree (a b : UInt8) : Bool :=
  a == 0xE0 && 0xA0 ≤ b && b ≤ 0xBF || 0xE1 ≤ a && a ≤ 0xEC && continues b ||
    a == 0xED && 0x80 ≤ b && b ≤ 0x9F || 0xEE ≤ a && a ≤ 0xEF && continues b

/-- The bytes that may follow the first one of four. -/
def continuesFour (a b : UInt8) : Bool :=
  a == 0xF0 && 0x90 ≤ b && b ≤ 0xBF || 0xF1 ≤ a && a ≤ 0xF3 && continues b ||
    a == 0xF4 && 0x80 ≤ b && b ≤ 0x8F

/-- The character of a sequence whose first byte has the value `first`. -/
def assemble (first : Nat) (rest : List UInt8) : Char :=
  Char.ofNat (rest.foldl (fun n b => n * 64 + b.toNat % 64) first)

/-- U+FFFD. -/
def replacement : Char := Char.ofNat 0xFFFD

/-- `String::from_utf8_lossy`: each longest start of a sequence that breaks off becomes one
replacement character. -/
def fromUtf8Lossy : Bytes → List Char
  | [] => []
  | a :: rest =>
    if a < 0x80 then Char.ofNat a.toNat :: fromUtf8Lossy rest
    else if 0xC2 ≤ a && a ≤ 0xDF then
      match rest with
      | b :: rest' =>
        if continues b then assemble (a.toNat % 32) [b] :: fromUtf8Lossy rest'
        else replacement :: fromUtf8Lossy (b :: rest')
      | [] => [replacement]
    else if 0xE0 ≤ a && a ≤ 0xEF then
      match rest with
      | b :: c :: rest' =>
        if !continuesThree a b then replacement :: fromUtf8Lossy (b :: c :: rest')
        else if continues c then assemble (a.toNat % 16) [b, c] :: fromUtf8Lossy rest'
        else replacement :: fromUtf8Lossy (c :: rest')
      | [b] => if continuesThree a b then [replacement] else replacement :: fromUtf8Lossy [b]
      | [] => [replacement]
    else if 0xF0 ≤ a && a ≤ 0xF4 then
      match rest with
      | b :: c :: d :: rest' =>
        if !continuesFour a b then replacement :: fromUtf8Lossy (b :: c :: d :: rest')
        else if !continues c then replacement :: fromUtf8Lossy (c :: d :: rest')
        else if continues d then assemble (a.toNat % 8) [b, c, d] :: fromUtf8Lossy rest'
        else replacement :: fromUtf8Lossy (d :: rest')
      | [b, c] =>
        if !continuesFour a b then replacement :: fromUtf8Lossy [b, c]
        else if continues c then [replacement]
        else replacement :: fromUtf8Lossy [c]
      | [b] => if continuesFour a b then [replacement] else replacement :: fromUtf8Lossy [b]
      | [] => [replacement]
    else replacement :: fromUtf8Lossy rest

/-- The characters from byte `n` of their encoding on, if a character starts there. -/
def dropBytes : Nat → List Char → Option (List Char)
  | 0, l => some l
  | _ + 1, [] => none
  | n + 1, c :: l => if c.utf8Size ≤ n + 1 then dropBytes (n + 1 - c.utf8Size) l else none

/-- `&s[n..]`, which panics where this is `none`. -/
def sliceFrom (s : String) (n : Nat) : Option String := (dropBytes n s.toList).map String.ofList

/-- `str::splitn`: the last of at most `n` parts is all that is left. -/
def splitn (sep : Char) : Nat → List Char → List (List Char)
  | 0, _ => []
  | 1, l => [l]
  | n + 2, l =>
    match l.dropWhile (· ≠ sep) with
    | [] => [l]
    | _ :: rest => l.takeWhile (· ≠ sep) :: splitn sep (n + 1) rest

/-- A character takes one byte, which is its code, or several that are all beyond ASCII. -/
theorem utf8EncodeChar_cases (c : Char) :
    (c.utf8Size = 1 ∧ c.toNat < 0x80 ∧ String.utf8EncodeChar c = [UInt8.ofNat c.toNat]) ∨
      (1 < c.utf8Size ∧ 0x80 ≤ c.toNat ∧ ∀ b ∈ String.utf8EncodeChar c, 0x80 ≤ b) := by
  rw [← String.length_utf8EncodeChar]
  have hval : c.toNat = c.val.toNat := rfl
  rw [hval]
  unfold String.utf8EncodeChar
  dsimp only
  split
  · exact Or.inl ⟨rfl, by omega, rfl⟩
  · refine Or.inr ?_
    have hbyte (k : Nat) (h : 128 ≤ k) (h' : k < 256) : 0x80 ≤ UInt8.ofNat k := by
      rw [UInt8.le_iff_toNat_le, UInt8.toNat_ofNat', Nat.mod_eq_of_lt h']
      exact h
    split <;> (try split) <;>
      simp only [List.length_cons, List.length_nil, List.forall_mem_cons, List.not_mem_nil,
        false_imp_iff, implies_true, and_true]
    · exact ⟨by omega, by omega, hbyte _ (by omega) (by omega), hbyte _ (by omega) (by omega)⟩
    · exact ⟨by omega, by omega, hbyte _ (by omega) (by omega), hbyte _ (by omega) (by omega),
        hbyte _ (by omega) (by omega)⟩
    · exact ⟨by omega, by omega, hbyte _ (by omega) (by omega), hbyte _ (by omega) (by omega),
        hbyte _ (by omega) (by omega), hbyte _ (by omega) (by omega)⟩

/-- An ASCII byte in the encoding of a text is one of its characters. -/
theorem mem_of_mem_asBytes {s : String} {b : UInt8} (hb : b < 0x80) (h : b ∈ s.asBytes) :
    Char.ofNat b.toNat ∈ s.toList := by
  rw [String.asBytes_eq_flatMap] at h
  obtain ⟨c, hc, hmem⟩ := List.mem_flatMap.mp h
  rcases utf8EncodeChar_cases c with ⟨-, hlt, hbytes⟩ | ⟨-, -, hwide⟩
  · rw [hbytes, List.mem_singleton] at hmem
    have hnat : b.toNat = c.toNat := by
      rw [hmem, UInt8.toNat_ofNat']
      omega
    rwa [hnat, Char.ofNat_toNat]
  · exact absurd hb (UInt8.not_lt.mpr (hwide b hmem))

/-- A slice from the second byte on exists if the first character is an ASCII one. -/
theorem sliceFrom_one (c : Char) (l : List Char) :
    sliceFrom (String.ofList (c :: l)) 1 =
      if c.utf8Size = 1 then some (String.ofList l) else none := by
  have hpos := c.utf8Size_pos
  rw [sliceFrom, String.toList_ofList, dropBytes]
  by_cases hc : c.utf8Size = 1
  · rw [if_pos hc, if_pos (by omega), hc, dropBytes, Option.map_some]
  · rw [if_neg hc, if_neg (by omega)]
    rfl

theorem splitn_cons {sep : Char} {part rest : List Char} {n : Nat} (h : sep ∉ part) :
    splitn sep (n + 2) (part ++ sep :: rest) = part :: splitn sep (n + 1) rest := by
  have hpart : ∀ c ∈ part, decide (c ≠ sep) = true := by
    intro c hc
    exact decide_eq_true fun heq => h (heq ▸ hc)
  have htake : (part ++ sep :: rest).takeWhile (· ≠ sep) = part := by
    rw [List.takeWhile_append_of_pos hpart]
    simp
  have hdrop : (part ++ sep :: rest).dropWhile (· ≠ sep) = sep :: rest := by
    rw [List.dropWhile_append_of_pos hpart]
    simp
  rw [splitn, hdrop, htake]

section Utf8

variable {v : Nat} (rest : Bytes)

theorem toNat_ofNat_of_lt {n : Nat} (h : n < 256) : (UInt8.ofNat n).toNat = n := by
  rw [UInt8.toNat_ofNat']
  omega

theorem continues_ofNat (n : Nat) : continues (UInt8.ofNat (n % 64 + 128)) = true := by
  have h := toNat_ofNat_of_lt (show n % 64 + 128 < 256 by omega)
  simp only [continues, Bool.and_eq_true, decide_eq_true_eq, UInt8.le_iff_toNat_le, h,
    UInt8.reduceToNat]
  omega

/-- The second of three bytes: neither an overlong form nor a surrogate. -/
theorem continuesThree_ofNat (hlow : 0x7FF < v) (hhigh : v ≤ 0xFFFF)
    (hvalid : v < 0xD800 ∨ 0xDFFF < v) :
    continuesThree (UInt8.ofNat (v / 4096 % 16 + 224)) (UInt8.ofNat (v / 64 % 64 + 128)) =
      true := by
  have ha := toNat_ofNat_of_lt (show v / 4096 % 16 + 224 < 256 by omega)
  have hb := toNat_ofNat_of_lt (show v / 64 % 64 + 128 < 256 by omega)
  simp only [continuesThree, continues, Bool.or_eq_true, Bool.and_eq_true, decide_eq_true_eq,
    beq_iff_eq, UInt8.le_iff_toNat_le, ← UInt8.toNat_inj, ha, hb, UInt8.reduceToNat]
  omega

/-- The second of four bytes: neither an overlong form nor beyond the last code point. -/
theorem continuesFour_ofNat (hlow : 0xFFFF < v) (hhigh : v < 0x110000) :
    continuesFour (UInt8.ofNat (v / 262144 % 8 + 240)) (UInt8.ofNat (v / 4096 % 64 + 128)) =
      true := by
  have ha := toNat_ofNat_of_lt (show v / 262144 % 8 + 240 < 256 by omega)
  have hb := toNat_ofNat_of_lt (show v / 4096 % 64 + 128 < 256 by omega)
  simp only [continuesFour, continues, Bool.or_eq_true, Bool.and_eq_true, decide_eq_true_eq,
    beq_iff_eq, UInt8.le_iff_toNat_le, ← UInt8.toNat_inj, ha, hb, UInt8.reduceToNat]
  omega

theorem fromUtf8Lossy_one (h : v ≤ 0x7F) :
    fromUtf8Lossy (UInt8.ofNat v :: rest) = Char.ofNat v :: fromUtf8Lossy rest := by
  have ha := toNat_ofNat_of_lt (show v < 256 by omega)
  have hlt : v < 128 := by omega
  rw [fromUtf8Lossy.eq_def]
  simp only [UInt8.lt_iff_toNat_lt, ha, UInt8.reduceToNat, hlt, if_true]

theorem fromUtf8Lossy_two (hlow : 0x7F < v) (hhigh : v ≤ 0x7FF) :
    fromUtf8Lossy (UInt8.ofNat (v / 64 % 32 + 192) :: UInt8.ofNat (v % 64 + 128) :: rest) =
      Char.ofNat v :: fromUtf8Lossy rest := by
  have ha := toNat_ofNat_of_lt (show v / 64 % 32 + 192 < 256 by omega)
  have hb := toNat_ofNat_of_lt (show v % 64 + 128 < 256 by omega)
  have hcode : (v / 64 % 32 + 192) % 32 * 64 + (v % 64 + 128) % 64 = v := by omega
  have hfirst : ¬ v / 64 % 32 + 192 < 128 := by omega
  have hrange : 194 ≤ v / 64 % 32 + 192 ∧ v / 64 % 32 + 192 ≤ 223 := by omega
  rw [fromUtf8Lossy.eq_def]
  simp only [UInt8.lt_iff_toNat_lt, UInt8.le_iff_toNat_le, ha, UInt8.reduceToNat, hfirst, hrange,
    continues_ofNat, assemble, List.foldl_cons, List.foldl_nil, hb, hcode, if_true, if_false,
    Bool.and_eq_true, decide_eq_true_eq, and_self]

theorem fromUtf8Lossy_three (hlow : 0x7FF < v) (hhigh : v ≤ 0xFFFF)
    (hvalid : v < 0xD800 ∨ 0xDFFF < v) :
    fromUtf8Lossy (UInt8.ofNat (v / 4096 % 16 + 224) :: UInt8.ofNat (v / 64 % 64 + 128) ::
      UInt8.ofNat (v % 64 + 128) :: rest) = Char.ofNat v :: fromUtf8Lossy rest := by
  have ha := toNat_ofNat_of_lt (show v / 4096 % 16 + 224 < 256 by omega)
  have hb := toNat_ofNat_of_lt (show v / 64 % 64 + 128 < 256 by omega)
  have hc := toNat_ofNat_of_lt (show v % 64 + 128 < 256 by omega)
  have hcode : ((v / 4096 % 16 + 224) % 16 * 64 + (v / 64 % 64 + 128) % 64) * 64 +
      (v % 64 + 128) % 64 = v := by omega
  have hfirst : ¬ v / 4096 % 16 + 224 < 128 ∧ ¬ v / 4096 % 16 + 224 ≤ 223 := by omega
  have hrange : 224 ≤ v / 4096 % 16 + 224 ∧ v / 4096 % 16 + 224 ≤ 239 := by omega
  rw [fromUtf8Lossy.eq_def]
  simp only [UInt8.lt_iff_toNat_lt, UInt8.le_iff_toNat_le, ha, UInt8.reduceToNat, hfirst, hrange,
    continuesThree_ofNat hlow hhigh hvalid, continues_ofNat, assemble, List.foldl_cons,
    List.foldl_nil, hb, hc, hcode, if_true, if_false, Bool.and_eq_true, decide_eq_true_eq,
    and_self, and_false, Bool.not_true, Bool.false_eq_true]

theorem fromUtf8Lossy_four (hlow : 0xFFFF < v) (hhigh : v < 0x110000) :
    fromUtf8Lossy (UInt8.ofNat (v / 262144 % 8 + 240) :: UInt8.ofNat (v / 4096 % 64 + 128) ::
      UInt8.ofNat (v / 64 % 64 + 128) :: UInt8.ofNat (v % 64 + 128) :: rest) =
      Char.ofNat v :: fromUtf8Lossy rest := by
  have ha := toNat_ofNat_of_lt (show v / 262144 % 8 + 240 < 256 by omega)
  have hb := toNat_ofNat_of_lt (show v / 4096 % 64 + 128 < 256 by omega)
  have hc := toNat_ofNat_of_lt (show v / 64 % 64 + 128 < 256 by omega)
  have hd := toNat_ofNat_of_lt (show v % 64 + 128 < 256 by omega)
  have hcode : (((v / 262144 % 8 + 240) % 8 * 64 + (v / 4096 % 64 + 128) % 64) * 64 +
      (v / 64 % 64 + 128) % 64) * 64 + (v % 64 + 128) % 64 = v := by omega
  have hfirst : ¬ v / 262144 % 8 + 240 < 128 ∧ ¬ v / 262144 % 8 + 240 ≤ 223 ∧
      ¬ v / 262144 % 8 + 240 ≤ 239 := by omega
  have hrange : 240 ≤ v / 262144 % 8 + 240 ∧ v / 262144 % 8 + 240 ≤ 244 := by omega
  rw [fromUtf8Lossy.eq_def]
  simp only [UInt8.lt_iff_toNat_lt, UInt8.le_iff_toNat_le, ha, UInt8.reduceToNat, hfirst, hrange,
    continuesFour_ofNat hlow hhigh, continues_ofNat, assemble, List.foldl_cons, List.foldl_nil, hb,
    hc, hd, hcode, if_true, if_false, Bool.and_eq_true, decide_eq_true_eq, and_self, and_false,
    Bool.not_true, Bool.false_eq_true]

/-- The bytes of a character are read back as that character. -/
theorem fromUtf8Lossy_utf8EncodeChar (c : Char) :
    fromUtf8Lossy (String.utf8EncodeChar c ++ rest) = c :: fromUtf8Lossy rest := by
  have hvalid : c.val.toNat < 0xD800 ∨ 0xDFFF < c.val.toNat ∧ c.val.toNat < 0x110000 := c.valid
  have hchar : Char.ofNat c.val.toNat = c := Char.ofNat_toNat c
  unfold String.utf8EncodeChar
  dsimp only
  generalize c.val.toNat = v at hvalid hchar
  subst hchar
  -- One case for each width of the encoding.
  split
  · exact fromUtf8Lossy_one rest (by omega)
  · split
    · exact fromUtf8Lossy_two rest (by omega) (by omega)
    · split
      · exact fromUtf8Lossy_three rest (by omega) (by omega) (by omega)
      · exact fromUtf8Lossy_four rest (by omega) (by omega)

end Utf8

/-- Text is read back from its bytes, whatever follows. -/
theorem fromUtf8Lossy_append (s : String) (rest : Bytes) :
    fromUtf8Lossy (s.asBytes ++ rest) = s.toList ++ fromUtf8Lossy rest := by
  rw [String.asBytes_eq_flatMap]
  induction s.toList with
  | nil => rfl
  | cons c l ih =>
    rw [List.flatMap_cons, List.append_assoc, fromUtf8Lossy_utf8EncodeChar, ih, List.cons_append]

theorem fromUtf8Lossy_asBytes (s : String) : fromUtf8Lossy s.asBytes = s.toList := by
  simpa [fromUtf8Lossy] using fromUtf8Lossy_append s []

/-- No text has the largest byte. -/
theorem lt_of_mem_asBytes {s : String} {b : UInt8} (h : b ∈ s.asBytes) : b < 0xFF := by
  rw [String.asBytes_eq_flatMap] at h
  obtain ⟨c, -, hb⟩ := List.mem_flatMap.mp h
  have hbyte (k : Nat) (hk : k < 255) : UInt8.ofNat k < 0xFF := by
    rw [UInt8.lt_iff_toNat_lt, toNat_ofNat_of_lt (by omega)]
    exact hk
  unfold String.utf8EncodeChar at hb
  dsimp only at hb
  split at hb
  · rw [List.mem_singleton.mp hb]
    exact hbyte _ (by omega)
  · split at hb
    · simp only [List.mem_cons, List.not_mem_nil, or_false] at hb
      rcases hb with rfl | rfl <;> exact hbyte _ (by omega)
    · split at hb
      · simp only [List.mem_cons, List.not_mem_nil, or_false] at hb
        rcases hb with rfl | rfl | rfl <;> exact hbyte _ (by omega)
      · simp only [List.mem_cons, List.not_mem_nil, or_false] at hb
        rcases hb with rfl | rfl | rfl | rfl <;> exact hbyte _ (by omega)

/-- What `str::from_utf8` accepts. -/
def Utf8 (bytes : Bytes) : Prop := (String.fromUTF8? ⟨bytes.toArray⟩).isSome = true

instance Utf8.decidable (bytes : Bytes) : Decidable (Utf8 bytes) :=
  inferInstanceAs (Decidable (_ = true))

theorem utf8_iff {bytes : Bytes} : Utf8 bytes ↔ ∃ s : String, bytes = s.asBytes := by
  rw [Utf8, Option.isSome_iff_exists]
  exact exists_congr fun _ => String.fromUTF8_eq_some

theorem utf8_asBytes (s : String) : Utf8 s.asBytes := utf8_iff.mpr ⟨s, rfl⟩

theorem Utf8.max_not_mem {bytes : Bytes} (h : Utf8 bytes) : 0xFF ∉ bytes := by
  obtain ⟨s, rfl⟩ := utf8_iff.mp h
  exact fun hmem => lt_irrefl _ (lt_of_mem_asBytes hmem)

/-- No text goes on from anywhere with the largest byte. -/
theorem Utf8.not_max_after {bytes : Bytes} (h : Utf8 bytes) (start : Bytes) :
    ¬ start ++ [0xFF] <+: bytes := by
  intro hmax
  have hmem : 0xFF ∈ start ++ [0xFF] := List.mem_append_right start List.mem_cons_self
  exact h.max_not_mem (hmax.subset hmem)

end Text

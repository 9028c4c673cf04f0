import BashfulDB.Protocol.Headers

/-! The inputs on which the parser panics. -/
namespace BashfulDB.Protocol

variable {p : Platform} {limits : Limits} {header : String}

/-- A text whose first character takes more than one byte. -/
def StartsWide (header : String) : Prop := ∃ b rest, header.asBytes = b :: rest ∧ 0x80 ≤ b

/-- Reading a line, and taking its type byte off, panics here. -/
def Breaks (p : Platform) (limits : Limits) (l : Bytes) : Prop :=
  l ≠ [] ∧ lineLimit p limits.maxLine = none ∨
    ∃ header rest, Line p limits.maxLine l header rest ∧ StartsWide header

theorem splitHeader_panic_iff : splitHeader header = .error .panic ↔ StartsWide header := by
  obtain ⟨chars, rfl⟩ : ∃ chars, header = String.ofList chars := ⟨_, String.ofList_toList.symm⟩
  rw [splitHeader, StartsWide, String.asBytes_eq_flatMap, String.toList_ofList]
  cases chars with
  | nil => simp
  | cons c chars =>
    rw [Text.sliceFrom_one, List.flatMap_cons]
    rcases Text.utf8EncodeChar_cases c with ⟨hsize, hlt, hbytes⟩ | ⟨hsize, -, hwide⟩
    · have hb : UInt8.ofNat c.toNat < 0x80 := by
        rw [UInt8.lt_iff_toNat_lt, UInt8.toNat_ofNat']
        exact Nat.lt_of_le_of_lt (Nat.mod_le _ _) hlt
      simp [hbytes, hsize, hb]
    · have hne : String.utf8EncodeChar c ≠ [] := String.utf8EncodeChar_ne_nil
      obtain ⟨b, rest, hbytes⟩ := List.exists_cons_of_ne_nil hne
      have hb : 0x80 ≤ b := hwide b (by rw [hbytes]; exact List.mem_cons_self)
      simp [hbytes, hsize.ne', hb]

theorem lenient_fails : Lenient (.fails (· = .panic)) where
  lift {β} {x} hx := by
    rw [ReadM.Logic.holds_fails]
    intro cs
    simpa using hx
  exact n := ReadM.Logic.holds_fails.mpr (ReadM.fails_exactly (by simp) n)

theorem fails_splitHeader (header : String) : (ReadM.Logic.fails (· = .panic)).Holds
    (fun _ => StartsWide header) (liftM (splitHeader header) : ParseM _) := by
  rw [ReadM.Logic.holds_fails]
  intro cs
  simpa using splitHeader_panic_iff

theorem fails_parseFrame : (parseFrame p limits).Fails (· = .panic)
    (AtHeader p limits (Breaks p limits) (maxNestingDepth + 1)) :=
  ReadM.Logic.holds_fails.mp (lenient_fails.parseFrameInner fails_splitHeader
    (ReadM.Logic.holds_fails.mpr fails_readLineLoop) _)

theorem fails_parseCommand : (parseCommand p limits).Fails (· = .panic)
    (AtHeader p limits (Breaks p limits) (maxNestingDepth + 1)) :=
  ReadM.Logic.holds_fails.mp (lenient_fails.parseCommand fails_splitHeader
    (ReadM.Logic.holds_fails.mpr fails_readLineLoop))

/-- The entry points do not panic just where no header that is read overflows the limit of its line
or starts with a character beyond ASCII. -/
theorem parse_no_panic_iff (p : Platform) (limits : Limits) (cs : Chunks UInt8) :
    ((parseFrame p limits).call cs).1 ≠ .error .panic ∧
        ((parseCommand p limits).call cs).1 ≠ .error .panic ↔
      ¬ AtHeader p limits (Breaks p limits) (maxNestingDepth + 1) cs.flat := by
  have hframe : (∃ e, ((parseFrame p limits).call cs).1 = .error e ∧ e = .panic) ↔ _ :=
    fails_parseFrame cs
  have hcommand : (∃ e, ((parseCommand p limits).call cs).1 = .error e ∧ e = .panic) ↔ _ :=
    fails_parseCommand cs
  simp only [exists_eq_right] at hframe hcommand
  rw [ne_eq, ne_eq, hframe, hcommand, and_self]

/-- A line of one letter with an accent, at the default limits. -/
theorem parse_accent_panics :
    ((parseFrame ⟨false, id, id⟩ Limits.default).call
        [⟨[0xC3, 0xA9, 0x0D, 0x0A], by decide⟩]).1 = .error .panic ∧
      ((parseCommand ⟨false, id, id⟩ Limits.default).call
        [⟨[0xC3, 0xA9, 0x0D, 0x0A], by decide⟩]).1 = .error .panic := by
  exact ⟨rfl, rfl⟩

end BashfulDB.Protocol

import BashfulDB.Protocol.Headers

/-! The command loop of a connection, and what it owes to the way its input was cut. -/
namespace BashfulDB.Protocol

variable {p : Platform} {limits : Limits}

def maxConsecutiveErrors : Nat := 10

inductive ErrorKind
  | lineTooLong
  | bulkTooLarge
  | malformed
  | unexpectedEof
  | nestingTooDeep
  | unknownType
  deriving DecidableEq

def ProtocolError.kind : ProtocolError → ErrorKind
  | .lineTooLong _ _ => .lineTooLong
  | .bulkTooLarge _ _ => .bulkTooLarge
  | .malformed _ => .malformed
  | .unexpectedEof => .unexpectedEof
  | .nestingTooDeep _ => .nestingTooDeep
  | .unknownType _ => .unknownType

/-- What comes of one call of `parse_command`, other than the end of the input. -/
inductive Outcome
  | command (cmd : Command)
  | error (kind : ErrorKind)
  | panic
  deriving DecidableEq

/-- The state of the command loop of `handle_connection`. -/
structure Connection where
  reader : Chunks UInt8
  consecutiveErrors : Nat

/-- One turn of the loop: what it meets, and how it goes on unless it stops there. -/
def Connection.turn (p : Platform) (limits : Limits) (c : Connection) :
    Option (Outcome × Option Connection) :=
  match (parseCommand p limits).call c.reader with
  | (.ok none, _) => none
  | (.ok (some cmd), reader) => some (.command cmd, some ⟨reader, 0⟩)
  | (.error .panic, _) => some (.panic, none)
  | (.error (.error e), reader) =>
    let consecutiveErrors := c.consecutiveErrors + 1
    some (.error e.kind, if consecutiveErrors > maxConsecutiveErrors then none
      else some ⟨reader, consecutiveErrors⟩)

/-- What the first turns of the loop meet. -/
def Connection.outcomes (p : Platform) (limits : Limits) : Nat → Connection → List Outcome
  | 0, _ => []
  | turns + 1, c =>
    match c.turn p limits with
    | none => []
    | some (outcome, none) => [outcome]
    | some (outcome, some c) => outcome :: c.outcomes p limits turns

/-- In the first turns no header that is read is longer than one byte beyond the limit. -/
def Connection.ShortLines (p : Platform) (limits : Limits) : Nat → Connection → Prop
  | 0, _ => True
  | turns + 1, c =>
    ¬ AtHeader p limits (Long p limits.maxLine) (maxNestingDepth + 1) c.reader.flat ∧
      ∀ outcome c', c.turn p limits = some (outcome, some c') → c'.ShortLines p limits turns

theorem lenient_uncut : Lenient .uncut where
  lift _ := ReadM.Logic.holds_uncut.mpr (ReadM.uncut_lift _)
  exact n := ReadM.Logic.holds_uncut.mpr (ReadM.uncut_exactly _ n)

theorem uncut_parseCommand : (parseCommand p limits).Uncut
    (AtHeader p limits (Long p limits.maxLine) (maxNestingDepth + 1)) := by
  have hsplit (header : String) : ReadM.Logic.uncut.Holds (fun _ => False)
      (liftM (splitHeader header) : ParseM _) := ReadM.Logic.holds_uncut.mpr (ReadM.uncut_lift _)
  simpa [ReadM.Logic.holds_uncut] using
    lenient_uncut.parseCommand hsplit (ReadM.Logic.holds_uncut.mpr uncut_readLineLoop)

theorem lenient_keeps : Lenient .keeps where
  lift _ := ReadM.Logic.holds_keeps.mpr (ReadM.keeps_lift _)
  exact n := ReadM.Logic.holds_keeps.mpr (ReadM.keeps_exactly _ n)

/-- How far a line is read. -/
theorem readLineLoop_drop (maxLen : UInt64) (cs : Chunks UInt8) :
    ∃ n, (readLineLoop p maxLen [] cs).2.flat = cs.flat.drop n ∧ n ≤ cs.flat.length ∧
      ((readLineLoop p maxLen [] cs).1 = .ok none ∨
        (readLineLoop p maxLen [] cs).1 = .error .panic ∨ 0 < n) := by
  cases cs with
  | nil => exact ⟨0, rfl, le_rfl, Or.inl rfl⟩
  | cons c cs =>
    cases hlimit : lineLimit p maxLen with
    | none =>
      refine ⟨0, ?_, Nat.zero_le _, Or.inr (Or.inl ?_)⟩
      · simp [readLineLoop, hlimit]
      · simp [readLineLoop, hlimit]
    | some limit =>
      have hle := lineLength_le (Chunks.flat (c :: cs))
      by_cases hlen : lineLength (Chunks.flat (c :: cs)) ≤ limit
      · obtain ⟨-, hrest⟩ := readLineLoop_within hlimit (c :: cs) List.not_mem_nil hlen
        refine ⟨_, hrest, hle, Or.inr (Or.inr ?_)⟩
        obtain ⟨b, l, hl⟩ : ∃ b l, Chunks.flat (c :: cs) = b :: l :=
          List.exists_cons_of_ne_nil (by simp [c.property])
        rw [List.nil_append, hl, lineLength]
        split <;> omega
      · rw [Nat.not_le] at hlen
        obtain ⟨n, hn, hn', -, hrest⟩ :=
          readLineLoop_beyond hlimit (c :: cs) List.not_mem_nil (Nat.zero_le _) hlen
        exact ⟨n, hrest, hn'.trans hle, Or.inr (Or.inr (Nat.zero_lt_of_lt hn))⟩

theorem keeps_readLineLoop (maxLen : UInt64) :
    (ReadM.of (readLineLoop p maxLen []) : ParseM _).Keeps := by
  intro cs
  obtain ⟨n, hrest, -⟩ := readLineLoop_drop (p := p) maxLen cs
  rw [ReadM.call_of, hrest]
  exact List.drop_suffix _ _

theorem consumes_readLineLoop (maxLen : UInt64) :
    (ReadM.of (readLineLoop p maxLen []) : ParseM _).Consumes (· = .panic) := by
  intro cs
  obtain ⟨n, hrest, hlen, hres⟩ := readLineLoop_drop (p := p) maxLen cs
  rw [ReadM.call_of, hrest]
  rcases hres with hnone | hpanic | hpos
  · exact Or.inl hnone
  · exact Or.inr (Or.inl ⟨_, hpanic, rfl⟩)
  · refine Or.inr (Or.inr ⟨cs.flat.take n, ?_, (List.take_append_drop n cs.flat).symm⟩)
    exact List.ne_nil_of_length_pos (by rw [List.length_take]; omega)

theorem keeps_splitHeader (header : String) : ReadM.Logic.keeps.Holds (fun _ => False)
    (liftM (splitHeader header) : ParseM _) := ReadM.Logic.holds_keeps.mpr (ReadM.keeps_lift _)

theorem keeps_parseFrameInner (levels : Nat) : (parseFrameInner p limits levels).Keeps := by
  have hline : ReadM.Logic.keeps.Holds (fun _ => False)
      (ReadM.of (readLineLoop p limits.maxLine []) : ParseM _) :=
    ReadM.Logic.holds_keeps.mpr (keeps_readLineLoop _)
  exact ReadM.Logic.holds_keeps.mp (lenient_keeps.parseFrameInner keeps_splitHeader hline levels)

theorem keeps_parseBody (levels : Nat) (header : String) :
    (parseBody p limits (parseFrameInner p limits levels) header).Keeps := by
  have hframe : ReadM.Logic.keeps.Holds (fun _ => False) (parseFrameInner p limits levels) :=
    ReadM.Logic.holds_keeps.mpr (keeps_parseFrameInner levels)
  exact ReadM.Logic.holds_keeps.mp
    (lenient_keeps.parseBody keeps_splitHeader (parses_parseFrameInner levels) hframe)

theorem keeps_parseCommand : (parseCommand p limits).Keeps :=
  (keeps_parseFrameInner _).bind fun _ => ReadM.keeps_lift _

variable (p limits) in
/-- A call that neither panics nor finds the end of the input reads a byte at least. -/
theorem consumes_parseCommand : (parseCommand p limits).Consumes (· = .panic) := by
  have hheader : (readLineLimited p limits.maxLine).Consumes (· = .panic) :=
    (consumes_readLineLoop _).bindOption rfl fun _ =>
      (ReadM.keeps_lift _).bind fun _ => ReadM.keeps_lift (.ok _)
  have hframe : (parseFrame p limits).Consumes (· = .panic) :=
    hheader.bindOption rfl fun _ =>
      (keeps_parseBody _ _).bind fun _ => ReadM.keeps_lift (.ok _)
  exact hframe.bindOption rfl fun _ => ReadM.keeps_lift _

/-- Both connections have the same input unread, and have met as many errors in a row. -/
def Connection.Alike (c c' : Connection) : Prop :=
  c.reader.flat = c'.reader.flat ∧ c.consecutiveErrors = c'.consecutiveErrors

theorem Connection.Alike.turn {c c' : Connection} (h : c.Alike c')
    (hshort : ¬ AtHeader p limits (Long p limits.maxLine) (maxNestingDepth + 1) c.reader.flat) :
    (c.turn p limits = none ∧ c'.turn p limits = none) ∨
      (∃ outcome, c.turn p limits = some (outcome, none) ∧
        c'.turn p limits = some (outcome, none)) ∨
      ∃ outcome d d', c.turn p limits = some (outcome, some d) ∧
        c'.turn p limits = some (outcome, some d') ∧ d.Alike d' := by
  obtain ⟨hres, hrest⟩ := uncut_parseCommand c.reader c'.reader h.1 hshort
  have herrors := h.2
  unfold Connection.turn
  rcases hcall : (parseCommand p limits).call c.reader with ⟨res, rest⟩
  rcases hcall' : (parseCommand p limits).call c'.reader with ⟨res', rest'⟩
  rw [hcall, hcall'] at hres hrest
  obtain rfl : res = res' := hres
  rcases res with (e | _) | (_ | cmd)
  · by_cases hmax : c.consecutiveErrors + 1 > maxConsecutiveErrors
    · exact Or.inr (Or.inl ⟨.error e.kind, by simp [hmax], by simp [← herrors, hmax]⟩)
    · refine Or.inr (Or.inr ⟨.error e.kind, ⟨rest, c.consecutiveErrors + 1⟩,
        ⟨rest', c'.consecutiveErrors + 1⟩, ?_, ?_, hrest, ?_⟩)
      · simp [hmax]
      · simp [← herrors, hmax]
      · simp [herrors]
  · exact Or.inr (Or.inl ⟨.panic, rfl, rfl⟩)
  · exact Or.inl ⟨rfl, rfl⟩
  · exact Or.inr (Or.inr ⟨.command cmd, _, _, rfl, rfl, hrest, rfl⟩)

theorem Connection.Alike.outcomes {turns : Nat} {c c' : Connection} (h : c.Alike c')
    (hshort : c.ShortLines p limits turns) :
    c.outcomes p limits turns = c'.outcomes p limits turns := by
  induction turns generalizing c c' with
  | zero => rfl
  | succ turns ih =>
    rw [Connection.outcomes, Connection.outcomes]
    obtain ⟨hlines, hnext⟩ := hshort
    rcases h.turn hlines with ⟨hc, hc'⟩ | ⟨outcome, hc, hc'⟩ | ⟨outcome, d, d', hc, hc', halike⟩
    · rw [hc, hc']
    · rw [hc, hc']
    · rw [hc, hc']
      exact congrArg (outcome :: ·) (ih halike (hnext outcome d hc))

/-- However the input is cut, a connection meets the same commands and kinds of errors as long as no
header is longer than the limit by more than a byte. -/
theorem outcomes_eq_of_shortLines (p : Platform) (limits : Limits) (cs cs' : Chunks UInt8)
    (turns : Nat) (hflat : cs.flat = cs'.flat)
    (hshort : Connection.ShortLines p limits turns ⟨cs, 0⟩) :
    Connection.outcomes p limits turns ⟨cs, 0⟩ = Connection.outcomes p limits turns ⟨cs', 0⟩ :=
  Connection.Alike.outcomes ⟨hflat, rfl⟩ hshort

/-- A command of two lines, in one piece and in two. -/
theorem outcomes_ping :
    Connection.outcomes ⟨false, id, id⟩ .default 2
        ⟨[⟨"*1\r\n$4\r\nPING\r\n".asBytes, by decide⟩], 0⟩ =
      Connection.outcomes ⟨false, id, id⟩ .default 2
        ⟨[⟨"*1\r\n$".asBytes, by decide⟩, ⟨"4\r\nPING\r\n".asBytes, by decide⟩], 0⟩ := by
  refine outcomes_eq_of_shortLines _ _ _ _ 2 (by decide +kernel) ?_
  have hshort {l : Bytes} (hl : l.length ≤ 14) : ¬ AtHeader ⟨false, id, id⟩ .default
      (Long ⟨false, id, id⟩ Limits.default.maxLine) (maxNestingDepth + 1) l := by
    intro h
    obtain ⟨t, ht, limit, hlimit, hlong⟩ := h.exists_suffix
    cases hlimit
    have := lineLength_le t
    have := ht.length_le
    change 1048579 < lineLength t at hlong
    omega
  have hturn : Connection.turn ⟨false, id, id⟩ .default
      ⟨[⟨"*1\r\n$4\r\nPING\r\n".asBytes, by decide⟩], 0⟩ =
        some (.command ⟨"PING", []⟩, some ⟨[], 0⟩) := by rfl
  refine ⟨hshort (by decide), fun outcome c hc => ?_⟩
  rw [hturn] at hc
  cases hc
  refine ⟨hshort (by decide), fun outcome c hc => ?_⟩
  trivial

/-- After a line that is too long, a command is met in one cut and refused in another. -/
theorem outcomes_smuggled_command :
    Chunks.flat [⟨"AAAAAA*1\r\n$4\r\nPING\r\n".asBytes, by decide⟩] =
      Chunks.flat [⟨"AAAAAA".asBytes, by decide⟩, ⟨"*1\r\n$4\r\nPING\r\n".asBytes, by decide⟩] ∧
    Connection.outcomes ⟨false, id, id⟩ ⟨3, 16⟩ 4
      ⟨[⟨"AAAAAA*1\r\n$4\r\nPING\r\n".asBytes, by decide⟩], 0⟩ =
        [.error .lineTooLong, .error .malformed] ∧
    Connection.outcomes ⟨false, id, id⟩ ⟨3, 16⟩ 4
      ⟨[⟨"AAAAAA".asBytes, by decide⟩, ⟨"*1\r\n$4\r\nPING\r\n".asBytes, by decide⟩], 0⟩ =
        [.error .lineTooLong, .command ⟨"PING", []⟩] := by
  decide +kernel

end BashfulDB.Protocol

import BashfulDB.Protocol.RoundTrip

/-! What the line reader promises: which lines it returns, and how much of them it holds. -/
namespace BashfulDB.Protocol

variable {p : Platform} {maxLen : UInt64} {l line raw rest buf : Bytes} {limit : Nat}
  {message text : String} {cs : Chunks UInt8}

theorem fromUtf8_eq_ok : fromUtf8 message buf = .ok text ↔ buf = text.asBytes := by
  rw [← String.fromUTF8_eq_some, fromUtf8]
  cases String.fromUTF8? ⟨buf.toArray⟩ <;> simp

/-- The first line of the input, in front of its newline. -/
theorem exists_line (h : newline ∈ l) :
    ∃ line rest, l = line ++ newline :: rest ∧ newline ∉ line ∧
      l.take (lineLength l) = line ++ [newline] ∧ l.drop (lineLength l) = rest := by
  obtain ⟨line, rest, rfl, hline⟩ := List.eq_append_cons_of_mem h
  have hlength : lineLength (line ++ newline :: rest) = (line ++ [newline]).length := by
    rw [lineLength_append hline, List.length_append]
    rfl
  have hsplit : line ++ newline :: rest = (line ++ [newline]) ++ rest := by simp
  refine ⟨line, rest, rfl, hline, ?_, ?_⟩
  · rw [hlength, hsplit, List.take_left]
  · rw [hlength, hsplit, List.drop_left]

/-- A line loses its newline, and a carriage return right in front of it. -/
theorem stripLineEnd_cases (line : Bytes) :
    (crlf <:+ line ++ [newline] ∧ line ++ [newline] = stripLineEnd (line ++ [newline]) ++ crlf) ∨
      ¬ crlf <:+ line ++ [newline] ∧ stripLineEnd (line ++ [newline]) = line := by
  by_cases hcrlf : crlf <:+ line ++ [newline]
  · left
    refine ⟨hcrlf, ?_⟩
    obtain ⟨front, hfront⟩ := hcrlf
    have hlen : (front ++ crlf).length - 2 = front.length := by
      rw [List.length_append]
      rfl
    rw [← hfront, stripLineEnd, if_pos (by simp), hlen, List.take_left]
  · right
    refine ⟨hcrlf, ?_⟩
    rw [stripLineEnd, if_neg (by simpa using hcrlf), if_pos (by simp), List.length_append,
      List.length_singleton, Nat.add_sub_cancel, List.take_left]

/-- The line in front of which the reader stands has its carriage return. -/
def EndsInCrlf (l : Bytes) : Prop := crlf <:+ l.take (lineLength l)

/-- What a returned line looks like in the input. -/
theorem line_cases (h : Line p maxLen l text rest) :
    newline ∉ text.asBytes ∧
      ((EndsInCrlf l ∧ l = text.asBytes ++ crlf ++ rest ∧
          ∃ limit, lineLimit p maxLen = some limit ∧ text.asBytes.length + 2 ≤ limit) ∨
        ¬ EndsInCrlf l ∧ l = text.asBytes ++ newline :: rest) := by
  obtain ⟨raw, ⟨hmem, ⟨limit, hlimit, hlen⟩, rfl, rfl⟩, hutf8⟩ := h
  obtain ⟨line, tail, hl, hline, htake, hdrop⟩ := exists_line hmem
  rw [fromUtf8_eq_ok, htake] at hutf8
  unfold EndsInCrlf
  rw [htake, hdrop]
  rcases stripLineEnd_cases line with ⟨hcrlf, hstrip⟩ | ⟨hcrlf, hstrip⟩
  · rw [hutf8] at hstrip
    have hwhole : l = text.asBytes ++ crlf ++ tail := by
      rw [← hstrip, hl]
      simp
    have hclean : newline ∉ text.asBytes := by
      intro hmem
      -- the text is in front of the carriage return, which is still in front of the newline
      have hfront : text.asBytes ++ [0x0D] = line := by
        have happ : text.asBytes ++ [0x0D] ++ [newline] = line ++ [newline] := by
          rw [hstrip]
          simp [crlf]
        exact List.append_cancel_right happ
      exact hline (hfront ▸ List.mem_append_left _ hmem)
    refine ⟨hclean, Or.inl ⟨hcrlf, hwhole, limit, hlimit, ?_⟩⟩
    have hsize : lineLength l = text.asBytes.length + 2 := by
      rw [hwhole, List.append_assoc, lineLength_append hclean]
      rfl
    omega
  · rw [hstrip] at hutf8
    exact ⟨hutf8 ▸ hline, Or.inr ⟨hcrlf, hutf8 ▸ hl⟩⟩

section Trace

/-- The loop of `read_line_limited` again, with the values of `buf` from turn to turn. -/
def readLineTraced (p : Platform) (maxLen : UInt64) :
    Bytes → Chunks UInt8 → (Except Fault (Option Bytes) × Chunks UInt8) × List Bytes
  | buf, [] => ((if buf.isEmpty then .ok none else .error (.error .unexpectedEof), []), [buf])
  | buf, available :: cs =>
    let (stop, found) := lineEnd available.val
    let newTotal := buf.length + stop
    match lineLimit p maxLen with
    | none => ((.error .panic, available :: cs), [buf])
    | some limit =>
      let rest := Chunks.push (available.val.drop stop) cs
      if newTotal > limit then ((.error (.error (.lineTooLong newTotal maxLen)), rest), [buf])
      else
        let extended := buf ++ available.val.take stop
        if found then ((.ok (some extended), rest), [buf, extended])
        else
          let (result, held) := readLineTraced p maxLen extended cs
          (result, buf :: held)

theorem readLineTraced_fst (buf : Bytes) (cs : Chunks UInt8) :
    (readLineTraced p maxLen buf cs).1 = readLineLoop p maxLen buf cs := by
  induction cs generalizing buf with
  | nil => rfl
  | cons c cs ih =>
    rw [readLineTraced, readLineLoop]
    cases lineLimit p maxLen with
    | none => rfl
    | some limit =>
      dsimp only
      split
      · rfl
      · split
        · rfl
        · exact ih _

/-- What is held is within the limit that the loop checks. -/
theorem length_le_of_held (hlimit : lineLimit p maxLen = some limit) (hbuf : buf.length ≤ limit) :
    ∀ b ∈ (readLineTraced p maxLen buf cs).2, b.length ≤ limit := by
  induction cs generalizing buf with
  | nil => simpa [readLineTraced] using hbuf
  | cons c cs ih =>
    rw [readLineTraced, hlimit]
    dsimp only
    split
    · simpa using hbuf
    · rename_i hshort
      have hextended : (buf ++ c.val.take (lineEnd c.val).1).length ≤ limit := by
        rw [List.length_append, List.length_take]
        omega
      split
      · simp only [List.mem_cons, List.not_mem_nil, or_false, forall_eq_or_imp, forall_eq]
        exact ⟨hbuf, hextended⟩
      · exact List.forall_mem_cons.mpr ⟨hbuf, ih hextended⟩

theorem lineLimit_le (hlimit : lineLimit p maxLen = some limit) : limit ≤ maxLen.toNat + 2 := by
  by_cases hsize : maxLen.toNat + 2 < UInt64.size
  · rw [lineLimit_of_lt p hsize] at hlimit
    cases hlimit
    exact Nat.le_refl _
  · have hone := lineLimit_le_one hsize hlimit
    omega

theorem held_le (p : Platform) (maxLen : UInt64) (cs : Chunks UInt8) :
    ∀ b ∈ (readLineTraced p maxLen [] cs).2, b.length ≤ maxLen.toNat + 2 := by
  cases hlimit : lineLimit p maxLen with
  | none =>
    intro b hb
    have hempty : b = [] := by
      cases cs with
      | nil => simpa [readLineTraced] using hb
      | cons c cs => simpa [readLineTraced, hlimit] using hb
    simp [hempty]
  | some limit =>
    intro b hb
    exact (length_le_of_held hlimit (Nat.zero_le _) b hb).trans (lineLimit_le hlimit)

end Trace

theorem readLineLimited_eq_some (cs : Chunks UInt8) (text : String) (rest : Bytes) :
    ((readLineLimited p maxLen).call cs).1 = .ok (some text) ∧
        ((readLineLimited p maxLen).call cs).2.flat = rest ↔ Line p maxLen cs.flat text rest :=
  accepts_readLineLimited cs (some text) rest

/-- A limit with room for two bytes more than a line is the one that does not overflow. -/
theorem lt_size_of_le (hlimit : lineLimit p maxLen = some limit) (h : 2 ≤ limit) :
    limit = maxLen.toNat + 2 ∧ maxLen.toNat + 2 < UInt64.size := by
  by_cases hsize : maxLen.toNat + 2 < UInt64.size
  · rw [lineLimit_of_lt p hsize] at hlimit
    cases hlimit
    exact ⟨rfl, hsize⟩
  · have hone := lineLimit_le_one hsize hlimit
    omega

/-- A line that is returned was followed by CRLF, within the limit, exactly if its newline came
after a carriage return. A line that should be returned is, exactly if two more than the limit is
still a `usize`. No more than that is ever held. -/
theorem readLine_contract_iff (p : Platform) (maxLen : UInt64) (cs : Chunks UInt8) :
    (∀ text, ((readLineLimited p maxLen).call cs).1 = .ok (some text) →
      ((∃ rest, cs.flat = text.asBytes ++ crlf ++ rest) ∧
          text.asBytes.length ≤ maxLen.toNat ↔ EndsInCrlf cs.flat)) ∧
    (∀ text rest, '\n' ∉ text.toList → text.asBytes.length ≤ maxLen.toNat →
      cs.flat = text.asBytes ++ crlf ++ rest →
      (((readLineLimited p maxLen).call cs).1 = .ok (some text) ∧
          ((readLineLimited p maxLen).call cs).2.flat = rest ↔
        maxLen.toNat + 2 < UInt64.size)) ∧
    (readLineTraced p maxLen [] cs).1 = readLineLoop p maxLen [] cs ∧
    ∀ buf ∈ (readLineTraced p maxLen [] cs).2, buf.length ≤ maxLen.toNat + 2 := by
  refine ⟨?_, ?_, readLineTraced_fst [] cs, held_le p maxLen cs⟩
  · intro text hok
    obtain ⟨-, hends | ⟨hends, hwhole⟩⟩ := line_cases ((readLineLimited_eq_some cs text _).mp
      ⟨hok, rfl⟩)
    · obtain ⟨hends, hwhole, limit, hlimit, hlen⟩ := hends
      obtain ⟨rfl, -⟩ := lt_size_of_le hlimit (by omega)
      exact iff_of_true ⟨⟨_, hwhole⟩, by omega⟩ hends
    · refine iff_of_false ?_ hends
      rintro ⟨⟨rest, hcrlf⟩, -⟩
      rw [hwhole, List.append_assoc, List.append_cancel_left_eq] at hcrlf
      injection hcrlf with hbyte
      exact absurd hbyte (by decide)
  · intro text rest hline hlen hflat
    have hclean : newline ∉ text.asBytes := fun hmem =>
      hline (Text.mem_of_mem_asBytes (by decide) hmem)
    rw [readLineLimited_eq_some, hflat]
    constructor
    · rintro ⟨-, ⟨-, ⟨limit, hlimit, hle⟩, -⟩, -⟩
      have hsize : lineLength (text.asBytes ++ crlf ++ rest) = text.asBytes.length + 2 := by
        rw [List.append_assoc, lineLength_append hclean]
        rfl
      exact (lt_size_of_le hlimit (by omega)).2
    · intro hsize
      exact line_header rest (lineLimit_of_lt p hsize) hclean hlen

/-- A lone newline ends a line as well, which may then have one byte more than the limit. -/
theorem readLine_lone_newline :
    ((readLineLimited ⟨true, id, id⟩ 2).call [⟨"abc\n".asBytes, by decide⟩]).1 = .ok (some "abc") ∧
      "abc".asBytes.length = 3 ∧ ¬ "abc".asBytes ++ crlf <+: "abc\n".asBytes := by
  exact ⟨rfl, rfl, by decide⟩

end BashfulDB.Protocol

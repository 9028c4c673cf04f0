import BashfulDB.Protocol.Parser

/-! The wire format as a relation on bytes, and the parser accepts just what is in it. -/
namespace BashfulDB.Protocol

variable {p : Platform} {limits : Limits} {levels limit : Nat} {maxLen : UInt64}
  {l buf body rest : Bytes} {header payload : String} {f : RespFrame}
  {elem : Bytes → RespFrame → Bytes → Prop} {parse : ParseM (Option RespFrame)}

/-- The length of the first line with its newline, or of everything if there is none. -/
def lineLength : Bytes → Nat
  | [] => 0
  | b :: l => if b = newline then 1 else lineLength l + 1

theorem lineLength_le (l : Bytes) : lineLength l ≤ l.length := by
  induction l with
  | nil => exact Nat.le_refl _
  | cons b l ih =>
    by_cases hb : b = newline <;> simp [lineLength, hb, ih]

theorem lineLength_append (h : newline ∉ buf) (l : Bytes) :
    lineLength (buf ++ l) = buf.length + lineLength l := by
  induction buf with
  | nil => simp
  | cons b buf ih =>
    obtain ⟨hb, hbuf⟩ := List.ne_and_not_mem_of_not_mem_cons h
    simp [lineLength, Ne.symm hb, ih hbuf]
    omega

theorem lineLength_append_of_mem (h : newline ∈ buf) (l : Bytes) :
    lineLength (buf ++ l) = lineLength buf := by
  induction buf with
  | nil => simp at h
  | cons b buf ih =>
    by_cases hb : b = newline
    · simp [lineLength, hb]
    · have hbuf : newline ∈ buf := by simpa [Ne.symm hb] using h
      simp [lineLength, hb, ih hbuf]

theorem lineLength_le_append (buf l : Bytes) : lineLength buf ≤ lineLength (buf ++ l) := by
  by_cases h : newline ∈ buf
  · rw [lineLength_append_of_mem h]
  · have hle := lineLength_le buf
    rw [lineLength_append h]
    omega

theorem lineLength_of_not_mem (h : newline ∉ buf) : lineLength buf = buf.length := by
  simpa [lineLength] using lineLength_append h []

theorem lineEnd_eq (l : Bytes) : lineEnd l = (lineLength l, decide (newline ∈ l)) := by
  induction l with
  | nil => rfl
  | cons b l ih =>
    by_cases hb : b = newline
    · simp [lineEnd, List.findIdx?_cons, lineLength, hb]
    · rw [lineEnd] at ih ⊢
      rw [List.findIdx?_cons, if_neg (by simpa using hb)]
      cases hl : l.findIdx? (· == newline) <;> simp_all [lineLength, Ne.symm hb]

section Loop

variable (hlimit : lineLimit p maxLen = some limit)
include hlimit

theorem readLineLoop_cons (buf : Bytes) (c : { c : Bytes // c ≠ [] }) (cs : Chunks UInt8) :
    readLineLoop p maxLen buf (c :: cs) =
      if limit < buf.length + lineLength c.val then
        (.error (.error (.lineTooLong (buf.length + lineLength c.val) maxLen)),
          Chunks.push (c.val.drop (lineLength c.val)) cs)
      else if newline ∈ c.val then
        (.ok (some (buf ++ c.val.take (lineLength c.val))),
          Chunks.push (c.val.drop (lineLength c.val)) cs)
      else readLineLoop p maxLen (buf ++ c.val) cs := by
  rw [readLineLoop, lineEnd_eq, hlimit]
  by_cases hc : newline ∈ c.val
  · simp [hc]
  · simp [hc, lineLength_of_not_mem hc]

/-- What is read of a line within the limit. -/
def lineResult (l : Bytes) : Except Fault (Option Bytes) :=
  if newline ∈ l then .ok (some (l.take (lineLength l)))
  else if l = [] then .ok none
  else .error (.error .unexpectedEof)

/-- A line within the limit is read the same way however it is cut. -/
theorem readLineLoop_within (cs : Chunks UInt8) (hbuf : newline ∉ buf)
    (hlen : lineLength (buf ++ cs.flat) ≤ limit) :
    (readLineLoop p maxLen buf cs).1 = lineResult (buf ++ cs.flat) ∧
      (readLineLoop p maxLen buf cs).2.flat =
        (buf ++ cs.flat).drop (lineLength (buf ++ cs.flat)) := by
  induction cs generalizing buf with
  | nil =>
    simp [readLineLoop, lineResult, hbuf, lineLength_of_not_mem hbuf]
  | cons c cs ih =>
    rw [readLineLoop_cons hlimit]
    rw [Chunks.flat_cons] at hlen ⊢
    by_cases hc : newline ∈ c.val
    · have hline :
          lineLength (buf ++ (c.val ++ Chunks.flat cs)) = buf.length + lineLength c.val := by
        rw [lineLength_append hbuf, lineLength_append_of_mem hc]
      have hle := lineLength_le c.val
      rw [hline] at hlen ⊢
      rw [if_neg (by omega), if_pos hc, lineResult, if_pos (by simp [hc]), hline]
      rw [List.take_length_add_append, List.drop_length_add_append,
        List.take_append_of_le_length hle, List.drop_append_of_le_length hle]
      exact ⟨rfl, Chunks.flat_push _ _⟩
    · rw [← List.append_assoc] at hlen ⊢
      have hbuf' : newline ∉ buf ++ c.val := by simp [hbuf, hc]
      have hle : (buf ++ c.val).length ≤ limit := by
        rw [lineLength_append hbuf'] at hlen
        omega
      rw [List.length_append, ← lineLength_of_not_mem hc] at hle
      rw [if_neg (by omega), if_neg hc]
      exact ih hbuf' hlen

/-- Of a longer line some part beyond the limit is read, up to where a piece ends. -/
theorem readLineLoop_beyond (cs : Chunks UInt8) (hbuf : newline ∉ buf) (hle : buf.length ≤ limit)
    (hlen : limit < lineLength (buf ++ cs.flat)) :
    ∃ n, limit < n ∧ n ≤ lineLength (buf ++ cs.flat) ∧
      (readLineLoop p maxLen buf cs).1 = .error (.error (.lineTooLong n maxLen)) ∧
      (readLineLoop p maxLen buf cs).2.flat = (buf ++ cs.flat).drop n := by
  induction cs generalizing buf with
  | nil =>
    rw [Chunks.flat_nil, List.append_nil, lineLength_of_not_mem hbuf] at hlen
    omega
  | cons c cs ih =>
    rw [readLineLoop_cons hlimit]
    rw [Chunks.flat_cons] at hlen ⊢
    have hle' := lineLength_le c.val
    by_cases hlong : limit < buf.length + lineLength c.val
    · refine ⟨buf.length + lineLength c.val, hlong, ?_, ?_⟩
      · rw [lineLength_append hbuf]
        have := lineLength_le_append c.val (Chunks.flat cs)
        omega
      · rw [if_pos hlong, List.drop_length_add_append, List.drop_append_of_le_length hle']
        exact ⟨rfl, Chunks.flat_push _ _⟩
    · by_cases hc : newline ∈ c.val
      · rw [lineLength_append hbuf, lineLength_append_of_mem hc] at hlen
        omega
      · rw [if_neg hlong, if_neg hc]
        rw [lineLength_of_not_mem hc] at hlong
        rw [← List.append_assoc] at hlen ⊢
        exact ih (by simp [hbuf, hc]) (by simpa using hlong) hlen

end Loop

/-- Either the input is at its end, or `R` says what is read. -/
def OrEnd {β : Type} (R : Bytes → β → Bytes → Prop) (l : Bytes) : Option β → Bytes → Prop
  | none, rest => l = [] ∧ rest = []
  | some b, rest => R l b rest

/-- A whole line within the limit. -/
def RawLine (p : Platform) (maxLen : UInt64) (l line rest : Bytes) : Prop :=
  newline ∈ l ∧ (∃ limit, lineLimit p maxLen = some limit ∧ lineLength l ≤ limit) ∧
    line = l.take (lineLength l) ∧ rest = l.drop (lineLength l)

/-- A whole line within the limit, as text without its end. -/
def Line (p : Platform) (maxLen : UInt64) (l : Bytes) (header : String) (rest : Bytes) : Prop :=
  ∃ line, RawLine p maxLen l line rest ∧
    fromUtf8 "invalid UTF-8 in RESP line" (stripLineEnd line) = .ok header

/-- A line that goes on for more than one byte beyond the limit. -/
def Long (p : Platform) (maxLen : UInt64) (l : Bytes) : Prop :=
  ∃ limit, lineLimit p maxLen = some limit ∧ limit + 1 < lineLength l

theorem lineResult_ok_iff (l : Bytes) (b : Option Bytes) : lineResult l = .ok b ↔
    (b = none ∧ l = []) ∨ (newline ∈ l ∧ b = some (l.take (lineLength l))) := by
  unfold lineResult
  by_cases hl : l = []
  · simp [hl, eq_comm]
  · by_cases hmem : newline ∈ l <;> simp [hl, hmem, eq_comm]

theorem accepts_readLineLoop :
    (ReadM.of (readLineLoop p maxLen []) : ParseM _).Accepts (OrEnd (RawLine p maxLen)) := by
  intro cs b rest
  rw [ReadM.call_of]
  cases hlimit : lineLimit p maxLen with
  | none =>
    cases cs with
    | nil => cases b <;> simp [readLineLoop, OrEnd, RawLine, eq_comm]
    | cons c cs => cases b <;> simp [readLineLoop, hlimit, OrEnd, RawLine, c.property]
  | some limit =>
    by_cases hlen : lineLength cs.flat ≤ limit
    · obtain ⟨hres, hrest⟩ := readLineLoop_within hlimit cs List.not_mem_nil hlen
      rw [hres, hrest, List.nil_append, lineResult_ok_iff]
      cases b <;> simp +contextual [OrEnd, RawLine, hlimit, hlen, eq_comm, and_assoc]
    · rw [Nat.not_le] at hlen
      obtain ⟨n, -, -, hres, -⟩ :=
        readLineLoop_beyond hlimit cs List.not_mem_nil (Nat.zero_le _) hlen
      rw [hres]
      cases b with
      | none =>
        have hne : cs.flat ≠ [] := fun h => by simp [h, lineLength] at hlen
        simp [OrEnd, hne]
      | some line => simp [OrEnd, RawLine, hlimit, Nat.not_le.mpr hlen]

theorem fails_readLineLoop : (ReadM.of (readLineLoop p maxLen []) : ParseM _).Fails (· = .panic)
    (fun l => l ≠ [] ∧ lineLimit p maxLen = none) := by
  intro cs
  rw [ReadM.call_of]
  cases hlimit : lineLimit p maxLen with
  | none =>
    cases cs with
    | nil => simp [readLineLoop]
    | cons c cs => simp [readLineLoop, hlimit, c.property]
  | some limit =>
    by_cases hlen : lineLength cs.flat ≤ limit
    · obtain ⟨hres, -⟩ := readLineLoop_within hlimit cs List.not_mem_nil hlen
      rw [hres, lineResult]
      split <;> (try split) <;> simp
    · rw [Nat.not_le] at hlen
      obtain ⟨n, -, -, hres, -⟩ :=
        readLineLoop_beyond hlimit cs List.not_mem_nil (Nat.zero_le _) hlen
      simp [hres]

theorem uncut_readLineLoop :
    (ReadM.of (readLineLoop p maxLen []) : ParseM _).Uncut (Long p maxLen) := by
  intro cs cs' hflat hlong
  rw [ReadM.call_of, ReadM.call_of]
  cases hlimit : lineLimit p maxLen with
  | none =>
    cases cs with
    | nil =>
      obtain rfl := Chunks.flat_eq_nil.mp hflat.symm
      exact ⟨rfl, rfl⟩
    | cons c cs =>
      cases cs' with
      | nil => exact absurd (Chunks.flat_eq_nil.mp hflat) (by simp)
      | cons c' cs' =>
        simpa [readLineLoop, hlimit, ReadM.Same] using hflat
  | some limit =>
    have hshort : lineLength cs.flat ≤ limit + 1 := by
      by_contra hlen
      exact hlong ⟨limit, hlimit, by omega⟩
    by_cases hlen : lineLength cs.flat ≤ limit
    · obtain ⟨hres, hrest⟩ := readLineLoop_within hlimit cs List.not_mem_nil hlen
      rw [hflat] at hlen
      obtain ⟨hres', hrest'⟩ := readLineLoop_within hlimit cs' List.not_mem_nil hlen
      rw [ReadM.Same, hres, hrest, hres', hrest', hflat]
      exact ⟨rfl, rfl⟩
    · -- the limit is passed by one byte, the last of the line
      rw [Nat.not_le] at hlen
      obtain ⟨n, hn, hn', hres, hrest⟩ :=
        readLineLoop_beyond hlimit cs List.not_mem_nil (Nat.zero_le _) hlen
      rw [List.nil_append] at hn' hrest
      rw [hflat] at hlen hshort
      obtain ⟨m, hm, hm', hres', hrest'⟩ :=
        readLineLoop_beyond hlimit cs' List.not_mem_nil (Nat.zero_le _) hlen
      rw [List.nil_append] at hm' hrest'
      rw [hflat] at hn' hrest
      obtain rfl : n = m := by omega
      rw [ReadM.Same, hres, hrest, hres', hrest']
      exact ⟨rfl, rfl⟩

theorem accepts_readLineLimited :
    (readLineLimited p maxLen).Accepts (OrEnd (Line p maxLen)) := by
  refine ReadM.Accepts.congr (ReadM.Accepts.bindOption accepts_readLineLoop
    (ReadM.accepts_pure none) fun line => ReadM.Accepts.bind (ReadM.accepts_lift _) fun header =>
      ReadM.accepts_pure (some header)) ?_
  intro l b rest
  cases b <;> simp [OrEnd, Line]

/-- Frames one after the other. -/
inductive Elements (elem : Bytes → RespFrame → Bytes → Prop) :
    Bytes → List RespFrame → Bytes → Prop
  | nil (l : Bytes) : Elements elem l [] l
  | cons {l mid rest : Bytes} {f : RespFrame} {fs : List RespFrame} :
    elem l f mid → Elements elem mid fs rest → Elements elem l (f :: fs) rest

/-- What follows the header of a frame, by its type byte and payload. -/
inductive Body (limits : Limits) (elem : Bytes → RespFrame → Bytes → Prop) :
    UInt8 → String → Bytes → RespFrame → Bytes → Prop
  | simple (payload : String) (l : Bytes) :
    Body limits elem '+'.toUInt8 payload l (parseSimple payload) l
  | error (payload : String) (l : Bytes) :
    Body limits elem '-'.toUInt8 payload l (.error payload) l
  | integer {payload : String} {n : Int64} (l : Bytes) : Digits.parseI64 payload = some n →
    Body limits elem ':'.toUInt8 payload l (.integer n) l
  | nullBulk {payload : String} {n : Int64} (l : Bytes) : Digits.parseI64 payload = some n →
    n < 0 → Body limits elem '$'.toUInt8 payload l (.bulk none) l
  | bulk {payload : String} {n : Int64} {data : Bytes} (l : Bytes) :
    Digits.parseI64 payload = some n → ¬ n < 0 → data.length = n.toInt.toNat →
    data.length ≤ limits.maxBulk.toNat →
    Body limits elem '$'.toUInt8 payload (data ++ crlf ++ l) (.bulk (some data)) l
  | nullArray {payload : String} {n : Int64} (l : Bytes) : Digits.parseI64 payload = some n →
    n < 0 → Body limits elem '*'.toUInt8 payload l (.array none) l
  | array {payload : String} {n : Int64} {fs : List RespFrame} {l rest : Bytes} :
    Digits.parseI64 payload = some n → ¬ n < 0 → fs.length = n.toInt.toNat →
    Elements elem l fs rest → Body limits elem '*'.toUInt8 payload l (.array (some fs)) rest

/-- `l` starts with the frame `f`, which has at most that many levels. -/
def Frame (p : Platform) (limits : Limits) : (levels : Nat) → Bytes → RespFrame → Bytes → Prop
  | 0, _, _, _ => False
  | levels + 1, l, f, rest => ∃ header body typeByte payload, Line p limits.maxLine l header body ∧
    splitHeader header = .ok (typeByte, payload) ∧
    Body limits (Frame p limits levels) typeByte payload body f rest

theorem accepts_parseNumber (what payload : String) :
    (liftM (parseNumber p what payload) : ParseM _).Accepts
      (fun l n rest => Digits.parseI64 payload = some n ∧ l = rest) := by
  refine ReadM.Accepts.congr (ReadM.accepts_lift _) ?_
  intro l n rest
  unfold parseNumber
  cases h : Digits.parseI64 payload <;> simp

theorem accepts_parseBulk (elem : Bytes → RespFrame → Bytes → Prop) :
    (parseBulk p limits payload).Accepts (Body limits elem '$'.toUInt8 payload) := by
  refine ReadM.Accepts.congr (ReadM.Accepts.bind (accepts_parseNumber _ _) fun n =>
    ReadM.Accepts.ite (ReadM.accepts_pure _) (ReadM.Accepts.ite (ReadM.accepts_throw _)
      (ReadM.Accepts.bind (ReadM.accepts_exactly _ _) fun data =>
        ReadM.Accepts.bind (ReadM.accepts_exactly _ _) fun ending =>
          ReadM.Accepts.ite (ReadM.accepts_throw _) (ReadM.accepts_pure _)))) ?_
  intro l f rest
  constructor
  · rintro ⟨n, _, ⟨hn, rfl⟩, ⟨hneg, rfl, rfl⟩ | ⟨hneg, ⟨-, ⟨⟩⟩ | ⟨hmax, data, _, ⟨hlen, rfl⟩,
      ending, _, ⟨-, rfl⟩, ⟨-, ⟨⟩⟩ | ⟨hcrlf, rfl, rfl⟩⟩⟩⟩
    · exact .nullBulk _ hn hneg
    · rw [ne_eq, not_not] at hcrlf
      rw [hcrlf, ← List.append_assoc]
      exact .bulk _ hn hneg hlen (by omega)
  · rintro (_ | _ | _ | ⟨_, hn, hneg⟩ | ⟨_, hn, hneg, hlen, hmax⟩)
    · exact ⟨_, _, ⟨hn, rfl⟩, Or.inl ⟨hneg, rfl, rfl⟩⟩
    · exact ⟨_, _, ⟨hn, rfl⟩, Or.inr ⟨hneg, Or.inr ⟨by omega, _, _, ⟨hlen, List.append_assoc _ _ _⟩,
        crlf, _, ⟨rfl, rfl⟩, Or.inr ⟨not_not.mpr rfl, rfl, rfl⟩⟩⟩⟩

/-- Where `parse` returns a frame, `elem` says so. -/
def Parses (elem : Bytes → RespFrame → Bytes → Prop) (parse : ParseM (Option RespFrame)) : Prop :=
  ∃ R, parse.Accepts R ∧ ∀ l f rest, R l (some f) rest ↔ elem l f rest

theorem accepts_parseElements (hparse : Parses elem parse) (count : Nat) :
    (parseElements parse count).Accepts
      (fun l fs rest => fs.length = count ∧ Elements elem l fs rest) := by
  obtain ⟨R, hparse, helem⟩ := hparse
  induction count with
  | zero =>
    refine ReadM.Accepts.congr (ReadM.accepts_pure []) ?_
    intro l fs rest
    constructor
    · rintro ⟨rfl, rfl⟩
      exact ⟨rfl, .nil l⟩
    · rintro ⟨hlen, hfs⟩
      cases hfs with
      | nil => exact ⟨rfl, rfl⟩
      | cons => cases hlen
  | succ count ih =>
    refine ReadM.Accepts.congr (ReadM.Accepts.bindOption hparse (ReadM.accepts_throw _) fun f =>
      ReadM.Accepts.bind ih fun fs => ReadM.accepts_pure (f :: fs)) ?_
    intro l fs rest
    constructor
    · rintro (⟨_, -, ⟨⟩⟩ | ⟨f, mid, hf, fs, _, ⟨hlen, hfs⟩, rfl, rfl⟩)
      exact ⟨congrArg (· + 1) hlen, .cons ((helem _ _ _).mp hf) hfs⟩
    · rintro ⟨hlen, hfs⟩
      cases hfs with
      | nil => cases hlen
      | cons hf hfs =>
        exact Or.inr ⟨_, _, (helem _ _ _).mpr hf, _, _, ⟨Nat.succ.inj hlen, hfs⟩, rfl, rfl⟩

theorem accepts_parseArray (limits : Limits) (hparse : Parses elem parse) :
    (parseArray p parse payload).Accepts (Body limits elem '*'.toUInt8 payload) := by
  refine ReadM.Accepts.congr (ReadM.Accepts.bind (accepts_parseNumber _ _) fun n =>
    ReadM.Accepts.ite (ReadM.accepts_pure _)
      (ReadM.Accepts.bind (accepts_parseElements hparse _) fun fs => ReadM.accepts_pure _)) ?_
  intro l f rest
  constructor
  · rintro ⟨n, _, ⟨hn, rfl⟩, ⟨hneg, rfl, rfl⟩ | ⟨hneg, fs, _, ⟨hlen, hfs⟩, rfl, rfl⟩⟩
    · exact .nullArray _ hn hneg
    · exact .array hn hneg hlen hfs
  · rintro (_ | _ | _ | _ | _ | ⟨_, hn, hneg⟩ | ⟨hn, hneg, hlen, hfs⟩)
    · exact ⟨_, _, ⟨hn, rfl⟩, Or.inl ⟨hneg, rfl, rfl⟩⟩
    · exact ⟨_, _, ⟨hn, rfl⟩, Or.inr ⟨hneg, _, _, ⟨hlen, hfs⟩, rfl, rfl⟩⟩

theorem accepts_parseBody (hparse : Parses elem parse) :
    (parseBody p limits parse header).Accepts (fun l f rest => ∃ typeByte payload,
      splitHeader header = .ok (typeByte, payload) ∧
        Body limits elem typeByte payload l f rest) := by
  refine ReadM.Accepts.congr (ReadM.Accepts.bind (ReadM.accepts_lift _) fun split =>
    ReadM.Accepts.ite (ReadM.accepts_pure _) <| ReadM.Accepts.ite (ReadM.accepts_pure _) <|
    ReadM.Accepts.ite
      (ReadM.Accepts.bind (accepts_parseNumber _ _) fun n => ReadM.accepts_pure _) <|
    ReadM.Accepts.ite (accepts_parseBulk elem) <|
    ReadM.Accepts.ite (accepts_parseArray limits hparse) <| ReadM.accepts_throw _) ?_
  intro l f rest
  constructor
  · rintro ⟨⟨typeByte, payload⟩, _, ⟨hsplit, rfl⟩, hbody⟩
    refine ⟨typeByte, payload, hsplit, ?_⟩
    dsimp only at hbody
    rcases hbody with ⟨rfl, rfl, rfl⟩ | ⟨-, ⟨rfl, rfl, rfl⟩ | ⟨-, ⟨rfl, n, _, ⟨hn, rfl⟩, rfl, rfl⟩ |
      ⟨-, ⟨rfl, hbulk⟩ | ⟨-, ⟨rfl, harray⟩ | ⟨-, ⟨⟩⟩⟩⟩⟩⟩
    · exact .simple _ _
    · exact .error _ _
    · exact .integer _ hn
    · exact hbulk
    · exact harray
  · rintro ⟨typeByte, payload, hsplit, hbody⟩
    refine ⟨(typeByte, payload), l, ⟨hsplit, rfl⟩, ?_⟩
    by_cases hbulk : typeByte = '$'.toUInt8
    · subst hbulk
      simp +decide [hbody]
    · by_cases harray : typeByte = '*'.toUInt8
      · subst harray
        simp +decide [hbody]
      · cases hbody <;> simp_all +decide

theorem accepts_parseFrameInner (levels : Nat) : (parseFrameInner p limits levels).Accepts
    (fun l f rest => 0 < levels ∧ OrEnd (Frame p limits levels) l f rest) := by
  have hsome (levels : Nat) (l : Bytes) (f : RespFrame) (rest : Bytes) :
      0 < levels ∧ OrEnd (Frame p limits levels) l (some f) rest ↔
        Frame p limits levels l f rest := by
    cases levels <;> simp [OrEnd, Frame]
  induction levels with
  | zero => exact ReadM.Accepts.congr (ReadM.accepts_throw _) (by simp)
  | succ levels ih =>
    refine ReadM.Accepts.congr (ReadM.Accepts.bindOption accepts_readLineLimited
      (ReadM.accepts_pure none) fun header =>
        ReadM.Accepts.bind (accepts_parseBody ⟨_, ih, hsome levels⟩)
          fun frame => ReadM.accepts_pure (some frame)) ?_
    intro l f rest
    cases f <;> simp [OrEnd, Frame]

theorem parses_parseFrameInner (levels : Nat) :
    Parses (Frame p limits levels) (parseFrameInner p limits levels) := by
  refine ⟨_, accepts_parseFrameInner levels, ?_⟩
  cases levels <;> simp [OrEnd, Frame]

end BashfulDB.Protocol

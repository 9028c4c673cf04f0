import BashfulDB.Protocol.Format
import BashfulDB.Protocol.Serializer

/-! What the serialiser writes, the parser reads back. -/
namespace BashfulDB.Protocol

/-- The line a response starts with, without its end. -/
def Response.header : Response → String
  | .simple s => "+" ++ s
  | .error s => "-" ++ s
  | .integer n => ":" ++ toString n.toInt
  | .bulk none => "$-1"
  | .bulk (some data) => "$" ++ toString data.length
  | .array items => "*" ++ toString items.length
  | .warning s => "+_warning " ++ s

/-- What follows the first line. -/
def Response.body : Response → Bytes
  | .bulk (some data) => data ++ crlf
  | .array items => writeItems items []
  | _ => []

/-- The text of a `Simple`, `Error` or `Warning`. -/
def Response.text : Response → String
  | .simple s | .error s | .warning s => s
  | _ => ""

mutual

/-- A response and all that is nested in it. -/
def Response.nodes : Response → List Response
  | .array items => .array items :: nodesOf items
  | r => [r]

def nodesOf : List Response → List Response
  | [] => []
  | item :: items => item.nodes ++ nodesOf items

end

mutual

/-- How many arrays are nested in each other. -/
def Response.depth : Response → Nat
  | .array items => depthOf items + 1
  | _ => 0

def depthOf : List Response → Nat
  | [] => 0
  | item :: items => max item.depth (depthOf items)

end

mutual

/-- The frame that corresponds to a response, constructor by constructor. -/
def Response.frame : Response → RespFrame
  | .simple s => .simpleString s
  | .error s => .error s
  | .integer n => .integer n
  | .bulk data => .bulk data
  | .array items => .array (some (framesOf items))
  | .warning s => .warning s

def framesOf : List Response → List RespFrame
  | [] => []
  | item :: items => item.frame :: framesOf items

end

mutual

/-- The frame that a response is read as: one with a text that starts with the sentinel is read as
a warning. -/
def Response.reading : Response → RespFrame
  | .simple s => parseSimple s
  | .error s => .error s
  | .integer n => .integer n
  | .bulk data => .bulk data
  | .array items => .array (some (readingsOf items))
  | .warning s => .warning s

def readingsOf : List Response → List RespFrame
  | [] => []
  | item :: items => item.reading :: readingsOf items

end

/-- The number of bytes or of items in a response. -/
def Response.size : Response → Nat
  | .bulk (some data) => data.length
  | .array items => items.length
  | _ => 0

/-- No vector in memory is longer than `isize::MAX`. -/
def Response.Allocated (r : Response) : Prop := ∀ n ∈ r.nodes, n.size < 2 ^ 63

variable {p : Platform} {limits : Limits} {levels : Nat} {rest : Bytes} {r : Response}

/-- One node of a response that the parser is to read at all. -/
structure Response.Framed (limits : Limits) (r : Response) : Prop where
  line : '\n' ∉ r.text.toList
  header : r.header.asBytes.length ≤ limits.maxLine.toNat
  bulk : ∀ data, r = .bulk (some data) → data.length ≤ limits.maxBulk.toNat
  size : r.size < 2 ^ 63

/-- The limits on a response, all its nodes included. -/
structure Response.Within (limits : Limits) (r : Response) : Prop where
  header : ∀ n ∈ r.nodes, n.header.asBytes.length ≤ limits.maxLine.toNat
  bulk : ∀ data, .bulk (some data) ∈ r.nodes → data.length ≤ limits.maxBulk.toNat
  nesting : r.depth ≤ maxNestingDepth

/-- What the limits and the format ask of a response, all its nodes included. -/
structure Response.Sendable (limits : Limits) (r : Response) : Prop extends r.Within limits where
  line : ∀ n ∈ r.nodes, '\n' ∉ n.text.toList
  sentinel : ∀ s, .simple s ∈ r.nodes → ¬ warningSentinel.toList <+: s.toList

theorem Response.Within.framed (h : r.Within limits) (hr : r.Allocated)
    (hline : ∀ n ∈ r.nodes, '\n' ∉ n.text.toList) : ∀ n ∈ r.nodes, n.Framed limits := by
  intro n hn
  exact {
    line := hline n hn
    header := h.header n hn
    bulk := fun data hdata => h.bulk data (hdata ▸ hn)
    size := hr n hn }

theorem serializeResponse_eq (r : Response) :
    serializeResponse r = r.header.asBytes ++ crlf ++ r.body := by
  unfold serializeResponse
  cases r with
  | simple s => simp [writeToBuf, Response.header, Response.body, String.asBytes_append]; rfl
  | error s => simp [writeToBuf, Response.header, Response.body, String.asBytes_append]; rfl
  | integer n => simp [writeToBuf, Response.header, Response.body, String.asBytes_append]; rfl
  | bulk data =>
    cases data with
    | none => simp [writeToBuf, Response.header, Response.body]; rfl
    | some data => simp [writeToBuf, Response.header, Response.body, String.asBytes_append]; rfl
  | array items =>
    rw [writeToBuf, writeItems_append]
    simp [Response.header, Response.body, String.asBytes_append]; rfl
  | warning s => simp [writeToBuf, Response.header, Response.body, String.asBytes_append]

theorem newline_not_mem_numeral (i : Int) : '\n' ∉ (toString i).toList := by
  intro h
  rcases Digits.mem_toString_int h with heq | ⟨d, hd, heq⟩
  · exact absurd heq (by decide)
  · exact absurd (heq ▸ (Digits.digitChar_decimal hd).1) (by decide)

theorem newline_not_mem_header (hline : '\n' ∉ r.text.toList) : newline ∉ r.header.asBytes := by
  intro hmem
  have hchar : '\n' ∈ r.header.toList := Text.mem_of_mem_asBytes (by decide) hmem
  cases r with
  | simple s | error s | warning s =>
    simp [Response.header, Response.text] at hchar hline
    exact hline hchar
  | integer n =>
    rw [Response.header, String.toList_append, List.mem_append] at hchar
    exact hchar.elim (by decide) (newline_not_mem_numeral n.toInt)
  | bulk data =>
    cases data with
    | none => exact absurd hchar (by decide)
    | some data =>
      rw [Response.header, String.toList_append, List.mem_append] at hchar
      exact hchar.elim (by decide) (newline_not_mem_numeral data.length)
  | array items =>
    rw [Response.header, String.toList_append, List.mem_append] at hchar
    exact hchar.elim (by decide) (newline_not_mem_numeral items.length)

theorem splitHeader_ascii {header : String} (c : Char) (payload : String)
    (h : header.toList = c :: payload.toList) (hc : c.toNat < 0x80) :
    splitHeader header = .ok (c.toUInt8, payload) := by
  have hheader : header = String.ofList (c :: payload.toList) := by
    rw [← h, String.ofList_toList]
  have hbyte : UInt8.ofNat c.toNat = c.toUInt8 := rfl
  rcases Text.utf8EncodeChar_cases c with ⟨hsize, -, hbytes⟩ | ⟨-, hge, -⟩
  · rw [splitHeader, hheader, Text.sliceFrom_one, if_pos hsize, String.ofList_toList,
      String.asBytes_eq_flatMap, String.toList_ofList, List.flatMap_cons, hbytes, hbyte]
    rfl
  · omega

/-- A header that fits is read as a line. -/
theorem line_header {maxLen : UInt64} {text : String} (rest : Bytes)
    (hlimit : lineLimit p maxLen = some (maxLen.toNat + 2))
    (hline : newline ∉ text.asBytes) (hlen : text.asBytes.length ≤ maxLen.toNat) :
    Line p maxLen (text.asBytes ++ crlf ++ rest) text rest := by
  have hlength : lineLength (text.asBytes ++ crlf ++ rest) = (text.asBytes ++ crlf).length := by
    rw [List.append_assoc, lineLength_append hline, List.length_append]
    rfl
  have hstrip : stripLineEnd (text.asBytes ++ crlf) = text.asBytes := by
    have hsize : (text.asBytes ++ crlf).length - 2 = text.asBytes.length :=
      congrArg (· - 2) List.length_append
    rw [stripLineEnd, if_pos (by simp), hsize, List.take_left]
  refine ⟨text.asBytes ++ crlf, ⟨?_, ⟨_, hlimit, ?_⟩, ?_, ?_⟩, ?_⟩
  · simp [crlf]
  · rw [hlength, List.length_append]
    exact Nat.add_le_add_right hlen 2
  · rw [hlength, List.take_left]
  · rw [hlength, List.drop_left]
  · rw [hstrip, fromUtf8, String.fromUTF8_asBytes]

theorem frame_of_body {typeByte : UInt8} {payload : String} (h : r.Framed limits)
    (hlimit : lineLimit p limits.maxLine = some (limits.maxLine.toNat + 2))
    (hsplit : splitHeader r.header = .ok (typeByte, payload))
    (hbody : Body limits (Frame p limits levels) typeByte payload (r.body ++ rest) r.reading rest) :
    Frame p limits (levels + 1) (serializeResponse r ++ rest) r.reading rest := by
  refine ⟨r.header, r.body ++ rest, typeByte, payload, ?_, hsplit, hbody⟩
  rw [serializeResponse_eq, List.append_assoc]
  exact line_header _ hlimit (newline_not_mem_header h.line) h.header

theorem length_readingsOf (items : List Response) : (readingsOf items).length = items.length := by
  induction items with
  | nil => rfl
  | cons item items ih => rw [readingsOf, List.length_cons, List.length_cons, ih]

theorem parseSimple_sentinel (s : String) : parseSimple (warningSentinel ++ s) = .warning s := by
  rw [parseSimple, String.toList_append, if_pos (by simp), List.drop_left, String.ofList_toList]

/-- A count is read back from its numeral. -/
theorem parseI64_length {n : Nat} (h : n < 2 ^ 63) : ∃ k, Digits.parseI64 (toString n) = some k ∧
    ¬ k < 0 ∧ k.toInt.toNat = n := by
  have hint : (Int64.ofInt n).toInt = n := Int64.toInt_ofInt_of_le (by omega) (by omega)
  refine ⟨_, Digits.parseI64_toString_nat h, ?_, ?_⟩
  · rw [Int64.lt_iff_toInt_lt, hint]
    exact Int.not_lt.mpr (Int.natCast_nonneg n)
  · rw [hint, Int.toNat_natCast]

mutual

theorem reading_serializeResponse
    (hlimit : lineLimit p limits.maxLine = some (limits.maxLine.toNat + 2)) :
    ∀ (r : Response) (levels : Nat) (rest : Bytes), r.depth ≤ levels →
      (∀ n ∈ r.nodes, n.Framed limits) →
      Frame p limits (levels + 1) (serializeResponse r ++ rest) r.reading rest
  | .simple s, levels, rest, _, h => by
    have hr := h (.simple s) (by simp [Response.nodes])
    refine frame_of_body hr hlimit (splitHeader_ascii '+' s ?_ (by decide)) ?_
    · exact String.toList_append
    · exact .simple s rest
  | .error s, levels, rest, _, h => by
    have hr := h (.error s) (by simp [Response.nodes])
    refine frame_of_body hr hlimit (splitHeader_ascii '-' s ?_ (by decide)) ?_
    · exact String.toList_append
    · exact .error s rest
  | .integer n, levels, rest, _, h => by
    have hr := h (.integer n) (by simp [Response.nodes])
    refine frame_of_body hr hlimit (splitHeader_ascii ':' (toString n.toInt) ?_ (by decide)) ?_
    · exact String.toList_append
    · exact .integer rest (Digits.parseI64_toString n)
  | .bulk none, levels, rest, _, h => by
    have hr := h (.bulk none) (by simp [Response.nodes])
    refine frame_of_body hr hlimit (splitHeader_ascii '$' "-1" rfl (by decide)) ?_
    have hn : Digits.parseI64 "-1" = some (-1) := by decide
    exact .nullBulk rest hn (by decide)
  | .bulk (some data), levels, rest, _, h => by
    have hr := h (.bulk (some data)) (by simp [Response.nodes])
    obtain ⟨n, hn, hneg, hlen⟩ := parseI64_length hr.size
    refine frame_of_body hr hlimit (splitHeader_ascii '$' (toString data.length) ?_ (by decide)) ?_
    · exact String.toList_append
    · exact .bulk rest hn hneg hlen.symm (hr.bulk data rfl)
  | .array items, levels, rest, hdepth, h => by
    have hr := h (.array items) (by simp [Response.nodes])
    obtain ⟨n, hn, hneg, hlen⟩ := parseI64_length hr.size
    refine frame_of_body hr hlimit (splitHeader_ascii '*' (toString items.length) ?_ (by decide)) ?_
    · exact String.toList_append
    · have hitems : ∀ n ∈ nodesOf items, n.Framed limits := by
        intro n hn
        exact h n (by simp [Response.nodes, hn])
      rw [Response.depth] at hdepth
      obtain ⟨below, rfl⟩ : ∃ below, levels = below + 1 := ⟨levels - 1, by omega⟩
      exact .array hn hneg ((length_readingsOf items).trans hlen.symm)
        (elements_writeItems hlimit items below rest (by omega) hitems)
  | .warning s, levels, rest, _, h => by
    have hr := h (.warning s) (by simp [Response.nodes])
    refine frame_of_body hr hlimit (splitHeader_ascii '+' (warningSentinel ++ s) ?_ (by decide)) ?_
    · rw [Response.header, String.toList_append, String.toList_append]
      rfl
    · rw [Response.reading, ← parseSimple_sentinel s]
      exact .simple _ rest

theorem elements_writeItems
    (hlimit : lineLimit p limits.maxLine = some (limits.maxLine.toNat + 2)) :
    ∀ (items : List Response) (levels : Nat) (rest : Bytes), depthOf items ≤ levels →
      (∀ n ∈ nodesOf items, n.Framed limits) →
      Elements (Frame p limits (levels + 1)) (writeItems items [] ++ rest) (readingsOf items) rest
  | [], levels, rest, _, _ => .nil rest
  | item :: items, levels, rest, hdepth, h => by
    rw [depthOf] at hdepth
    have hitem : ∀ n ∈ item.nodes, n.Framed limits := by
      intro n hn
      exact h n (by simp [nodesOf, hn])
    have hitems : ∀ n ∈ nodesOf items, n.Framed limits := by
      intro n hn
      exact h n (by simp [nodesOf, hn])
    rw [writeItems, writeItems_append, List.append_assoc]
    exact .cons (reading_serializeResponse hlimit item levels _ (by omega) hitem)
      (elements_writeItems hlimit items levels rest (by omega) hitems)

end

mutual

/-- Without a sentinel in a simple text, a response is read as the frame it corresponds to. -/
theorem reading_eq_frame : ∀ r : Response,
    (∀ s, .simple s ∈ r.nodes → ¬ warningSentinel.toList <+: s.toList) → r.reading = r.frame
  | .simple s, h => by
    have hs := h s (by simp [Response.nodes])
    rw [← List.isPrefixOf_iff_prefix] at hs
    rw [Response.reading, parseSimple, if_neg hs, Response.frame]
  | .error _, _ | .integer _, _ | .bulk _, _ | .warning _, _ => rfl
  | .array items, h => by
    have hitems := readingsOf_eq_framesOf items fun s hs => h s (by simp [Response.nodes, hs])
    rw [Response.reading, hitems, Response.frame]

theorem readingsOf_eq_framesOf : ∀ items : List Response,
    (∀ s, .simple s ∈ nodesOf items → ¬ warningSentinel.toList <+: s.toList) →
      readingsOf items = framesOf items
  | [], _ => rfl
  | item :: items, h => by
    rw [readingsOf, framesOf, reading_eq_frame item fun s hs => h s (by simp [nodesOf, hs]),
      readingsOf_eq_framesOf items fun s hs => h s (by simp [nodesOf, hs])]

end

theorem frame_serializeResponse
    (hlimit : lineLimit p limits.maxLine = some (limits.maxLine.toNat + 2)) (r : Response)
    (rest : Bytes) (hr : r.Allocated) (h : r.Sendable limits) :
    Frame p limits (maxNestingDepth + 1) (serializeResponse r ++ rest) r.frame rest := by
  rw [← reading_eq_frame r h.sentinel]
  exact reading_serializeResponse hlimit r maxNestingDepth rest h.nesting (h.framed hr h.line)

theorem Response.mem_nodes (r : Response) : r ∈ r.nodes := by
  cases r <;> simp [nodes]

theorem lineLimit_of_lt (p : Platform) {maxLen : UInt64} (h : maxLen.toNat + 2 < UInt64.size) :
    lineLimit p maxLen = some (maxLen.toNat + 2) := if_pos h

/-- A limit that overflows leaves room for one byte at most. -/
theorem lineLimit_le_one {maxLen : UInt64} {limit : Nat} (h : ¬ maxLen.toNat + 2 < UInt64.size)
    (hlimit : lineLimit p maxLen = some limit) : limit ≤ 1 := by
  have hlt := maxLen.toNat_lt
  have hsize : UInt64.size = 2 ^ 64 := rfl
  rw [lineLimit, if_neg h] at hlimit
  split at hlimit
  · cases hlimit
  · cases hlimit
    have htwo : (2 : UInt64).toNat = 2 := rfl
    rw [UInt64.toNat_add, htwo]
    omega

theorem lt_length_header (r : Response) : 0 < r.header.asBytes.length := by
  cases r with
  | simple | error | integer | array | warning =>
    rw [Response.header, String.asBytes_append, List.length_append]
    exact Nat.add_pos_left (by decide) _
  | bulk data =>
    cases data with
    | none => decide
    | some data =>
      rw [Response.header, String.asBytes_append, List.length_append]
      exact Nat.add_pos_left (by decide) _

/-- A response is read back as the frame it corresponds to, with the bytes behind it left unread,
however they are cut: just if two more than the limit of a line is still a `usize`. -/
theorem parse_serialize_iff (p : Platform) (limits : Limits) (r : { r : Response // r.Allocated })
    (hr : r.val.Sendable limits) (s : Bytes) (cs : Chunks UInt8)
    (hcs : cs.flat = serializeResponse r.val ++ s) :
    ((parseFrame p limits).call cs).1 = .ok (some r.val.frame) ∧
        ((parseFrame p limits).call cs).2.flat = s ↔
      limits.maxLine.toNat + 2 < UInt64.size := by
  rw [parseFrame, accepts_parseFrameInner, hcs]
  constructor
  · rintro ⟨-, header, body, -, -, ⟨line, ⟨-, ⟨limit, hlimit, hlen⟩, -⟩, -⟩, -⟩
    by_contra hover
    have hline := newline_not_mem_header (hr.line _ r.val.mem_nodes)
    have hone := lineLimit_le_one hover hlimit
    have hpos := lt_length_header r.val
    have hend : lineLength (crlf ++ (r.val.body ++ s)) = 2 := rfl
    rw [serializeResponse_eq, List.append_assoc, List.append_assoc, lineLength_append hline] at hlen
    omega
  · intro hsize
    exact ⟨Nat.succ_pos _,
      frame_serializeResponse (lineLimit_of_lt p hsize) r.val s r.property hr⟩

/-- A nested response at the default limits, cut inside a line, with the next one behind it. -/
theorem parse_serialize_nested :
    ((parseFrame ⟨true, id, id⟩ .default).call [⟨"*2\r\n+O".asBytes, by decide⟩,
        ⟨"K\r\n*1\r\n$2\r\nhi\r\n:7\r\n".asBytes, by decide⟩]).1 =
      .ok (some (.array (some [.simpleString "OK", .array (some [.bulk (some [0x68, 0x69])])]))) ∧
    ((parseFrame ⟨true, id, id⟩ .default).call [⟨"*2\r\n+O".asBytes, by decide⟩,
        ⟨"K\r\n*1\r\n$2\r\nhi\r\n:7\r\n".asBytes, by decide⟩]).2.flat = ":7\r\n".asBytes := by
  let r : Response := .array [.simple "OK", .array [.bulk (some [0x68, 0x69])]]
  have hnodes : r.nodes = [r, .simple "OK", .array [.bulk (some [0x68, 0x69])],
    .bulk (some [0x68, 0x69])] := rfl
  have hallocated : r.Allocated := by
    rw [Response.Allocated, hnodes]
    decide
  have hr : r.Sendable .default := by
    refine ⟨⟨by rw [hnodes]; decide, fun data hdata => ?_, by decide⟩, by rw [hnodes]; decide,
      fun s hs => ?_⟩
    · rw [hnodes] at hdata
      obtain rfl : data = [0x68, 0x69] := by simpa [r] using hdata
      decide
    · rw [hnodes] at hs
      obtain rfl : s = "OK" := by simpa [r] using hs
      decide
  have hflat : Chunks.flat [⟨"*2\r\n+O".asBytes, by decide⟩,
      ⟨"K\r\n*1\r\n$2\r\nhi\r\n:7\r\n".asBytes, by decide⟩] =
        serializeResponse r ++ ":7\r\n".asBytes := by decide +kernel
  exact (parse_serialize_iff ⟨true, id, id⟩ .default ⟨r, hallocated⟩ hr ":7\r\n".asBytes _
    hflat).mpr (by decide)

/-- With a limit of `usize::MAX`, every line is too long, or the limit panics. -/
theorem parse_serialize_unlimited :
    ((parseFrame ⟨false, id, id⟩ ⟨0xFFFFFFFFFFFFFFFF, 16777216⟩).call
        [⟨serializeResponse (.simple "OK"), by decide⟩]).1 =
      .error (.error (.lineTooLong 5 0xFFFFFFFFFFFFFFFF)) ∧
    ((parseFrame ⟨true, id, id⟩ ⟨0xFFFFFFFFFFFFFFFF, 16777216⟩).call
        [⟨serializeResponse (.simple "OK"), by decide⟩]).1 = .error .panic := by
  exact ⟨rfl, rfl⟩

end BashfulDB.Protocol

import BashfulDB.Protocol.Lines

/-! Whether the bytes of a response are one frame, or bring others with them. -/
namespace BashfulDB.Protocol

/-- A text in a frame, or in one of its elements. -/
inductive RespFrame.Has (text : String) : RespFrame → Prop
  | simpleString : Has text (.simpleString text)
  | error : Has text (.error text)
  | warning : Has text (.warning text)
  | element {elements : List RespFrame} {f : RespFrame} : f ∈ elements → Has text f →
      Has text (.array (some elements))

/-- The input is one frame from its beginning to its end. -/
def OneFrame (p : Platform) (limits : Limits) (cs : Chunks UInt8) : Prop :=
  ∃ f, ((parseFrame p limits).call cs).1 = .ok (some f) ∧
    ((parseFrame p limits).call cs).2.flat = []

variable {p : Platform} {limits : Limits} {levels : Nat} {l rest : Bytes} {f : RespFrame}
  {r n : Response} {text header payload : String} {typeByte : UInt8}

theorem mem_asBytes_newline (h : '\n' ∈ text.toList) : newline ∈ text.asBytes := by
  rw [String.asBytes_eq_flatMap, List.mem_flatMap]
  exact ⟨'\n', h, by decide⟩

theorem newline_not_mem_of_line (h : Line p limits.maxLine l header rest) :
    '\n' ∉ header.toList := fun hmem => (line_cases h).1 (mem_asBytes_newline hmem)

/-- The type byte is the first one, and the payload is part of the header. -/
theorem splitHeader_eq_ok (h : splitHeader header = .ok (typeByte, payload)) :
    header.asBytes.head? = some typeByte ∧ payload.toList ⊆ header.toList := by
  unfold splitHeader at h
  cases hbytes : header.asBytes with
  | nil => simp [hbytes] at h
  | cons b bytes =>
    simp only [hbytes] at h
    cases hlist : header.toList with
    | nil =>
      rw [String.asBytes_eq_flatMap, hlist] at hbytes
      cases hbytes
    | cons c cs =>
      have hheader : header = String.ofList (c :: cs) := by rw [← hlist, String.ofList_toList]
      rw [hheader, Text.sliceFrom_one] at h
      split at h
      · cases h
      · rename_i payload' hslice
        cases h
        split at hslice
        · cases hslice
          simp
        · cases hslice

theorem newline_not_mem_payload (hline : Line p limits.maxLine l header rest)
    (hsplit : splitHeader header = .ok (typeByte, payload)) : '\n' ∉ payload.toList :=
  fun hmem => newline_not_mem_of_line hline ((splitHeader_eq_ok hsplit).2 hmem)

theorem has_parseSimple (h : (parseSimple payload).Has text) : text.toList ⊆ payload.toList := by
  unfold parseSimple at h
  split at h
  · cases h
    rw [String.toList_ofList]
    exact List.drop_subset _ _
  · cases h
    exact List.Subset.refl _

theorem Elements.forall_mem {elem : Bytes → RespFrame → Bytes → Prop} {P : RespFrame → Prop}
    {fs : List RespFrame} (h : Elements elem l fs rest)
    (helem : ∀ l f rest, elem l f rest → P f) : ∀ f ∈ fs, P f := by
  induction h with
  | nil => simp
  | cons hf _ ih => exact List.forall_mem_cons.mpr ⟨helem _ _ _ hf, ih⟩

/-- No text that is read has a newline in it, as each is part of a line. -/
theorem newline_not_mem_of_frame (h : Frame p limits levels l f rest) (htext : f.Has text) :
    '\n' ∉ text.toList := by
  induction levels generalizing l f rest text with
  | zero => exact h.elim
  | succ levels ih =>
    obtain ⟨header, body, typeByte, payload, hline, hsplit, hbody⟩ := h
    have hpayload := newline_not_mem_payload hline hsplit
    cases hbody with
    | simple => exact fun hmem => hpayload (has_parseSimple htext hmem)
    | error =>
      cases htext
      exact hpayload
    | integer | nullBulk | bulk | nullArray => cases htext
    | array _ _ _ helements =>
      cases htext with
      | element hmem htext =>
        have hclean := helements.forall_mem (P := fun f => f.Has text → '\n' ∉ text.toList)
          fun _ _ _ hf htext => ih hf htext
        exact hclean _ hmem htext

mutual

/-- A newline in a text of a response is in a text of the frame that it should be read as. -/
theorem exists_has_reading : ∀ (r : Response), n ∈ r.nodes → '\n' ∈ n.text.toList →
    ∃ text, r.reading.Has text ∧ '\n' ∈ text.toList
  | .simple s, hn, hmem => by
    obtain rfl : n = .simple s := by simpa [Response.nodes] using hn
    rw [Response.reading, parseSimple]
    split
    · rename_i hsentinel
      refine ⟨_, .warning, ?_⟩
      obtain ⟨tail, htail⟩ := List.isPrefixOf_iff_prefix.mp hsentinel
      rw [Response.text, ← htail, List.mem_append] at hmem
      rw [String.toList_ofList, ← htail, List.drop_left]
      exact hmem.resolve_left (by decide)
    · exact ⟨s, .simpleString, hmem⟩
  | .error s, hn, hmem => by
    obtain rfl : n = .error s := by simpa [Response.nodes] using hn
    exact ⟨s, .error, hmem⟩
  | .warning s, hn, hmem => by
    obtain rfl : n = .warning s := by simpa [Response.nodes] using hn
    exact ⟨s, .warning, hmem⟩
  | .integer k, hn, hmem => by
    obtain rfl : n = .integer k := by simpa [Response.nodes] using hn
    cases hmem
  | .bulk data, hn, hmem => by
    obtain rfl : n = .bulk data := by simpa [Response.nodes] using hn
    cases hmem
  | .array items, hn, hmem => by
    rw [Response.nodes, List.mem_cons] at hn
    rcases hn with rfl | hn
    · cases hmem
    · obtain ⟨f, hf, text, htext, hnl⟩ := exists_has_readingsOf items hn hmem
      exact ⟨text, .element hf htext, hnl⟩

theorem exists_has_readingsOf : ∀ (items : List Response), n ∈ nodesOf items →
    '\n' ∈ n.text.toList → ∃ f ∈ readingsOf items, ∃ text, f.Has text ∧ '\n' ∈ text.toList
  | [], hn, _ => by cases hn
  | item :: items, hn, hmem => by
    rw [nodesOf, List.mem_append] at hn
    rcases hn with hn | hn
    · exact ⟨item.reading, List.mem_cons_self, exists_has_reading item hn hmem⟩
    · obtain ⟨f, hf, htext⟩ := exists_has_readingsOf items hn hmem
      exact ⟨f, List.mem_cons_of_mem _ hf, htext⟩

end

/-- What the parser accepts from the beginning of a response has a whole line within the limit. -/
theorem lt_size_of_frame (hline : '\n' ∉ r.text.toList)
    (h : Frame p limits levels (serializeResponse r) f rest) :
    limits.maxLine.toNat + 2 < UInt64.size := by
  cases levels with
  | zero => exact h.elim
  | succ levels =>
    obtain ⟨header, body, -, -, ⟨raw, ⟨-, ⟨limit, hlimit, hlen⟩, -⟩, -⟩, -⟩ := h
    have hclean := newline_not_mem_header hline
    have hpos := lt_length_header r
    have hend : lineLength (crlf ++ r.body) = 2 := rfl
    rw [serializeResponse_eq, List.append_assoc, lineLength_append hclean] at hlen
    exact (lt_size_of_le hlimit (by omega)).2

/-- A frame of type `+` or `-` ends with its line. -/
theorem rest_of_text (htype : typeByte = '+'.toUInt8 ∨ typeByte = '-'.toUInt8)
    {elem : Bytes → RespFrame → Bytes → Prop}
    (h : Body limits elem typeByte payload l f rest) : l = rest := by
  cases h with
  | simple | error => rfl
  | integer | nullBulk | bulk | nullArray | array => exact absurd htype (by decide)

/-- A newline in the text of a response that has a text leaves bytes behind its first frame. -/
theorem not_frame_of_newline (lead : String) (hheader : r.header = lead ++ text)
    (hlead : lead.asBytes.head? = some '+'.toUInt8 ∨ lead.asBytes.head? = some '-'.toUInt8)
    (hbody : r.body = []) (hnl : '\n' ∈ text.toList) :
    ¬ Frame p limits levels (serializeResponse r) f [] := by
  intro h
  have hmem : newline ∈ r.header.asBytes := by
    rw [hheader, String.asBytes_append]
    exact List.mem_append_right _ (mem_asBytes_newline hnl)
  have hfirst : r.header.asBytes.head? = some '+'.toUInt8 ∨
      r.header.asBytes.head? = some '-'.toUInt8 := by
    rw [hheader, String.asBytes_append, List.head?_append]
    rcases hlead with hlead | hlead <;> simp [hlead]
  cases levels with
  | zero => exact h.elim
  | succ levels =>
    obtain ⟨header, body, typeByte, payload, hline, hsplit, hframe⟩ := h
    obtain ⟨hhead, -⟩ := splitHeader_eq_ok hsplit
    rw [serializeResponse_eq, hbody, List.append_nil] at hline
    have hcount : 2 ≤ (r.header.asBytes ++ crlf).count newline := by
      have hone := List.one_le_count_iff.mpr hmem
      have hend : crlf.count newline = 1 := by decide
      rw [List.count_append]
      omega
    obtain ⟨hclean, hwhole⟩ := line_cases hline
    have hzero := List.count_eq_zero.mpr hclean
    -- the line that is read starts as the response does
    have hstart : r.header.asBytes.head? = some typeByte := by
      have hwhole' : (r.header.asBytes ++ crlf).head? = some typeByte := by
        rcases hwhole with ⟨-, hwhole, -⟩ | ⟨-, hwhole⟩
        · rw [hwhole, List.append_assoc, List.head?_append, hhead]
          rfl
        · rw [hwhole, List.head?_append, hhead]
          rfl
      rw [List.head?_append] at hwhole'
      rcases hfirst with hfirst | hfirst <;> rw [hfirst] at hwhole' ⊢ <;> exact hwhole'
    have htype : typeByte = '+'.toUInt8 ∨ typeByte = '-'.toUInt8 := by
      rw [hstart, Option.some.injEq, Option.some.injEq] at hfirst
      exact hfirst
    obtain rfl := rest_of_text htype hframe
    have hend : crlf.count newline = 1 := by decide
    rcases hwhole with ⟨-, hwhole, -⟩ | ⟨-, hwhole⟩
    · rw [hwhole, List.append_nil, List.count_append, hzero, hend] at hcount
      omega
    · rw [hwhole, List.count_append, hzero, List.count_singleton_self] at hcount
      omega

/-- Of responses other than arrays, those with a newline in their text are more than a frame. -/
theorem newline_not_mem_of_oneFrame (harray : ∀ items, r ≠ .array items)
    (h : Frame p limits levels (serializeResponse r) f []) :
    ∀ n ∈ r.nodes, '\n' ∉ n.text.toList := by
  intro n hn hmem
  cases r with
  | array items => exact harray items rfl
  | integer k =>
    obtain rfl : n = .integer k := by simpa [Response.nodes] using hn
    cases hmem
  | bulk data =>
    obtain rfl : n = .bulk data := by simpa [Response.nodes] using hn
    cases hmem
  | simple s =>
    obtain rfl : n = .simple s := by simpa [Response.nodes] using hn
    exact not_frame_of_newline "+" rfl (Or.inl (by decide)) rfl hmem h
  | error s =>
    obtain rfl : n = .error s := by simpa [Response.nodes] using hn
    exact not_frame_of_newline "-" rfl (Or.inr (by decide)) rfl hmem h
  | warning s =>
    obtain rfl : n = .warning s := by simpa [Response.nodes] using hn
    exact not_frame_of_newline "+_warning " rfl (Or.inl (by decide)) rfl hmem h

/-- A response within the limits is one frame, and the one it should be read as, exactly when no
text in it has a newline and two more than the limit of a line is still a `usize`. If it is not an
array, then otherwise it is not one frame at all. -/
theorem one_frame_iff (p : Platform) (limits : Limits) (r : { r : Response // r.Allocated })
    (hr : r.val.Within limits) (cs : Chunks UInt8) (hcs : cs.flat = serializeResponse r.val) :
    (((parseFrame p limits).call cs).1 = .ok (some r.val.reading) ∧
        ((parseFrame p limits).call cs).2.flat = [] ↔
      limits.maxLine.toNat + 2 < UInt64.size ∧ ∀ n ∈ r.val.nodes, '\n' ∉ n.text.toList) ∧
    ((∀ items, r.val ≠ .array items) → (OneFrame p limits cs ↔
      limits.maxLine.toNat + 2 < UInt64.size ∧ ∀ n ∈ r.val.nodes, '\n' ∉ n.text.toList)) := by
  have hframe (f : RespFrame) : (((parseFrame p limits).call cs).1 = .ok (some f) ∧
      ((parseFrame p limits).call cs).2.flat = []) ↔
        Frame p limits (maxNestingDepth + 1) (serializeResponse r.val) f [] := by
    rw [parseFrame, accepts_parseFrameInner, hcs]
    exact and_iff_right (Nat.succ_pos _)
  have hread (hsize : limits.maxLine.toNat + 2 < UInt64.size)
      (hline : ∀ n ∈ r.val.nodes, '\n' ∉ n.text.toList) :
      Frame p limits (maxNestingDepth + 1) (serializeResponse r.val) r.val.reading [] := by
    have hwhole := reading_serializeResponse (lineLimit_of_lt p hsize) r.val maxNestingDepth []
      hr.nesting (hr.framed r.property hline)
    rwa [List.append_nil] at hwhole
  constructor
  · rw [hframe]
    constructor
    · intro h
      have hline : ∀ n ∈ r.val.nodes, '\n' ∉ n.text.toList := by
        intro n hn hmem
        obtain ⟨text, htext, hnl⟩ := exists_has_reading r.val hn hmem
        exact newline_not_mem_of_frame h htext hnl
      exact ⟨lt_size_of_frame (hline _ r.val.mem_nodes) h, hline⟩
    · rintro ⟨hsize, hline⟩
      exact hread hsize hline
  · intro harray
    constructor
    · rintro ⟨f, hf⟩
      have h := (hframe f).mp hf
      have hline := newline_not_mem_of_oneFrame harray h
      exact ⟨lt_size_of_frame (hline _ r.val.mem_nodes) h, hline⟩
    · rintro ⟨hsize, hline⟩
      exact ⟨_, (hframe _).mpr (hread hsize hline)⟩

/-- An array with a text of its own and an empty one, at the default limits. -/
theorem one_frame_nested :
    ((parseFrame ⟨true, id, id⟩ .default).call [⟨"*2\r\n+OK\r\n-\r\n".asBytes, by decide⟩]).1 =
      .ok (some (.array (some [.simpleString "OK", .error ""]))) ∧
    ((parseFrame ⟨true, id, id⟩ .default).call
      [⟨"*2\r\n+OK\r\n-\r\n".asBytes, by decide⟩]).2.flat = [] := by
  let r : Response := .array [.simple "OK", .error ""]
  have hnodes : r.nodes = [r, .simple "OK", .error ""] := rfl
  have hallocated : r.Allocated := by
    rw [Response.Allocated, hnodes]
    decide
  have hr : r.Within .default := by
    constructor
    · rw [hnodes]
      decide
    · intro data hdata
      simp [hnodes, r] at hdata
    · decide
  exact (one_frame_iff ⟨true, id, id⟩ .default ⟨r, hallocated⟩ hr _ rfl).1.mpr
    ⟨by decide, by rw [hnodes]; decide⟩

/-- A line end in the text of an error starts a frame of its own. -/
theorem error_injects_frame :
    serializeResponse (.error "ERR a\r\n+OK") = "-ERR a\r\n+OK\r\n".asBytes ∧
    ((parseFrame ⟨true, id, id⟩ .default).call
        [⟨"-ERR a\r\n+OK\r\n".asBytes, by decide⟩]).1 = .ok (some (.error "ERR a")) ∧
    ((parseFrame ⟨true, id, id⟩ .default).call
        [⟨"-ERR a\r\n+OK\r\n".asBytes, by decide⟩]).2.flat = "+OK\r\n".asBytes ∧
    ((parseFrame ⟨true, id, id⟩ .default).call [⟨"+OK\r\n".asBytes, by decide⟩]).1 =
      .ok (some (.simpleString "OK")) := by
  exact ⟨rfl, rfl, rfl, rfl⟩

end BashfulDB.Protocol

import BashfulDB.Data.RoundTrip

/-! Which limits the decoder leaves to the encoder, and which byte strings it reads as one value. -/
namespace BashfulDB.Data

namespace Wire

variable {levels d : Nat} {w : Wire} {v u : RawValue}

/-- Each boolean is a zero or a one, and each object lists its keys in ascending order, none of
them twice. -/
inductive Canonical : Wire → Prop
  | null : Canonical .null
  | bool {byte : UInt8} : byte = 0x00 ∨ byte = 0x01 → Canonical (.bool byte)
  | int (i : Int64) : Canonical (.int i)
  | float (f : F64) : Canonical (.float f)
  | string (s : String) : Canonical (.string s)
  | blob (b : Bytes) : Canonical (.blob b)
  | array {items : List Wire} : (∀ w ∈ items, Canonical w) → Canonical (.array items)
  | object {entries : List (String × Wire)} : Entries.Ascending entries →
      (∀ e ∈ entries, Canonical e.2) → Canonical (.object entries)

/-- The value of a canonical tree tells the whole tree. -/
theorem Canonical.ofValue_value (h : w.Canonical) : ofValue (value w) = w := by
  induction w using Wire.induct with
  | null | int | float | string | blob => rfl
  | bool byte =>
    cases h with
    | bool hbyte =>
      rcases hbyte with rfl | rfl
      · rfl
      · rfl
  | array items ih =>
    cases h with
    | array hitems =>
      have hback : (items.map value).map ofValue = items :=
        map_map_self fun w hw => ih w hw (hitems w hw)
      rw [value, ofValue, valueItems_eq_map, ofItems_eq_map, hback]
  | object entries ih =>
    cases h with
    | object hasc hentries =>
      have hmap := valueEntries_of_ascending (Entries.ascending_map.mpr hasc)
      have hback : (entries.map fun e => (e.1, value e.2)).map (fun e => (e.1, ofValue e.2)) =
          entries :=
        map_map_self fun e he => Prod.ext rfl (ih e he (hentries e he))
      rw [value, ofValue, hmap, ofEntries_eq_map, hback]

theorem canonical_ofValue (h : v.Ordered) : (ofValue v).Canonical := by
  induction v using RawValue.induct with
  | null => exact .null
  | int i => exact .int i
  | float f => exact .float f
  | string s => exact .string s
  | blob b => exact .blob b
  | bool b =>
    cases b with
    | false => exact .bool (Or.inl rfl)
    | true => exact .bool (Or.inr rfl)
  | array items ih =>
    rw [ofValue, ofItems_eq_map]
    exact .array (List.forall_mem_map.mpr fun v hv => ih v hv (h.items v hv))
  | object entries ih =>
    obtain ⟨hasc, hvals⟩ := h.entries
    rw [ofValue, ofEntries_eq_map]
    exact .object (Entries.ascending_map.mpr hasc)
      (List.forall_mem_map.mpr fun e he => ih e he (hvals e he))

theorem value_ordered (h : Accepted levels w) : (value w).Ordered := by
  have hspan : Bytes.Span (print w) 0 (print w) (print w).length :=
    ⟨(Nat.zero_add _).symm, le_rfl, List.take_length⟩
  exact decodeBelow_ordered ((readBy_decodeBelow (print w) levels 0 _ _).mpr ⟨w, h, hspan, rfl⟩)

/-- Each entry of the map comes from one of the list. -/
theorem mem_valueEntries {entries : List (String × Wire)} {e : String × RawValue}
    (h : e ∈ value.valueEntries entries []) : ∃ e' ∈ entries, (e'.1, value e'.2) = e := by
  rw [valueEntries_eq_insertAll] at h
  rcases Entries.mem_insertAll h with hnil | hmem
  · cases hnil
  · exact List.mem_map.mp hmem

theorem length_valueEntries_le (entries : List (String × Wire)) :
    (value.valueEntries entries []).length ≤ entries.length := by
  rw [valueEntries_eq_insertAll]
  refine (Entries.length_insertAll_le _ _).trans ?_
  rw [List.length_nil, Nat.zero_add, List.length_map]

/-- What the decoder accepts, it also accepts as the encoder would write it. -/
theorem Accepted.ofValue_value (h : Accepted levels w) : Accepted levels (ofValue (value w)) := by
  induction w using Wire.induct generalizing levels with
  | null | int | float | string | blob => exact h
  | bool byte =>
    cases h
    exact .bool _
  | array items ih =>
    cases h with
    | array hcount hitems =>
      rw [value, ofValue, valueItems_eq_map, ofItems_eq_map]
      refine .array (by rw [List.length_map, List.length_map]; exact hcount) ?_
      rw [List.map_map]
      exact List.forall_mem_map.mpr fun w hw => ih w hw (hitems w hw)
  | object entries ih =>
    cases h with
    | object hcount hkeys hentries =>
      rw [value, ofValue, ofEntries_eq_map]
      refine .object ?_ (List.forall_mem_map.mpr fun e he => ?_)
        (List.forall_mem_map.mpr fun e he => ?_)
      · rw [List.length_map]
        exact (length_valueEntries_le entries).trans hcount
      · obtain ⟨e', he', rfl⟩ := mem_valueEntries he
        exact hkeys e' he'
      · obtain ⟨e', he', rfl⟩ := mem_valueEntries he
        exact ih e' he' (hentries e' he')

end Wire

/-- The byte string is written as documented: booleans as zero or one, and the entries of objects
sorted, with distinct keys. -/
def Canonical (b : Bytes) : Prop :=
  ∃ w : Wire, w.Canonical ∧ w.Accepted (maxNestingDepth + 1) ∧ b = w.printAll

variable {b b' : Bytes} {v : Value}

theorem Canonical.eq_of_decode (hb : Canonical b) (h : decode b = .ok v) :
    b = Wire.printAll (.ofValue v.val) := by
  obtain ⟨w, hcanonical, haccepted, rfl⟩ := hb
  have hdecode : decode w.printAll = .ok ⟨w.value, Wire.value_ordered haccepted⟩ :=
    Wire.decode_eq_ok.mpr ⟨w, haccepted, rfl, rfl⟩
  cases hdecode.symm.trans h
  rw [hcanonical.ofValue_value]

theorem accepted_of_decode (h : decode b = .ok v) :
    Wire.Accepted (maxNestingDepth + 1) (.ofValue v.val) := by
  obtain ⟨w, haccepted, -, hval⟩ := Wire.decode_eq_ok.mp h
  rw [← hval]
  exact haccepted.ofValue_value

/-- Of the byte strings that decode to one value exactly one is canonical. -/
theorem decode_canonical_unique (b : Bytes) :
    (∀ b', b ≠ b' → Canonical b → Canonical b' →
        ¬ ∃ v, decode b = .ok v ∧ decode b' = .ok v) ∧
      ∀ v, decode b = .ok v → ¬ Canonical b →
        ∃ b', b ≠ b' ∧ Canonical b' ∧ decode b' = .ok v := by
  constructor
  · rintro b' hne hb hb' ⟨v, h, h'⟩
    exact hne ((hb.eq_of_decode h).trans (hb'.eq_of_decode h').symm)
  · intro v h hnot
    have haccepted := accepted_of_decode h
    have hcanonical : Canonical (Wire.printAll (.ofValue v.val)) :=
      ⟨_, Wire.canonical_ofValue v.property, haccepted, rfl⟩
    refine ⟨_, fun heq => hnot (heq.symm ▸ hcanonical), hcanonical, Wire.decode_eq_ok.mpr ?_⟩
    exact ⟨_, haccepted, rfl, Wire.value_ofValue v.property⟩

theorem decode_canonical_unique_bools :
    Canonical (Wire.printAll (.bool 0x00)) ∧ Canonical (Wire.printAll (.bool 0x01)) ∧
      ¬ ∃ v, decode (Wire.printAll (.bool 0x00)) = .ok v ∧
        decode (Wire.printAll (.bool 0x01)) = .ok v := by
  have hzero : Canonical (Wire.printAll (.bool 0x00)) := ⟨_, .bool (Or.inl rfl), .bool _, rfl⟩
  have hone : Canonical (Wire.printAll (.bool 0x01)) := ⟨_, .bool (Or.inr rfl), .bool _, rfl⟩
  exact ⟨hzero, hone, (decode_canonical_unique _).1 _ (by decide) hzero hone⟩

/-- Two bytes for true, and the entries of an object in either order. -/
theorem decode_not_injective :
    (∃ v, decode (Wire.printAll (.bool 0x01)) = .ok v ∧
        decode (Wire.printAll (.bool 0x02)) = .ok v) ∧
      ∃ v, decode (Wire.printAll (.object [("a", .null), ("b", .null)])) = .ok v ∧
        decode (Wire.printAll (.object [("b", .null), ("a", .null)])) = .ok v := by
  have hordered : (RawValue.object [("a", .null), ("b", .null)]).Ordered :=
    .object (by decide) (by simp [RawValue.Ordered.null])
  have hnull : Wire.Accepted maxNestingDepth .null := .null
  have hsorted : Wire.Accepted (maxNestingDepth + 1) (.object [("a", .null), ("b", .null)]) :=
    .object (by decide) (by decide) (by simp [hnull])
  have hswapped : Wire.Accepted (maxNestingDepth + 1) (.object [("b", .null), ("a", .null)]) :=
    .object (by decide) (by decide) (by simp [hnull])
  exact ⟨⟨⟨.bool true, .bool true⟩, rfl, rfl⟩, ⟨_, hordered⟩,
    Wire.decode_eq_ok.mpr ⟨_, hsorted, rfl, rfl⟩, Wire.decode_eq_ok.mpr ⟨_, hswapped, rfl, rfl⟩⟩

namespace Wire

/-- `u` stands in the tree, and no entry with the same key comes after it. -/
inductive Kept : Wire → Wire → Prop
  | self (w : Wire) : Kept w w
  | item {items : List Wire} {w u : Wire} : w ∈ items → Kept w u → Kept (.array items) u
  | entry {entries : List (String × Wire)} {key : String} {w u : Wire} :
      Entries.get key entries.reverse = some w → Kept w u → Kept (.object entries) u

/-- The limits that the decoder does not check: on floats, and on the keys of objects. -/
def EncoderOnly : Wire → Prop
  | .float f => f.isFinite
  | .object entries => ∀ e ∈ entries, e.1.utf8ByteSize ≤ maxKeySize
  | _ => True

theorem get_reverse_map {entries : List (String × Wire)} (key : String) :
    Entries.get key (entries.map fun e => (e.1, value e.2)).reverse =
      (Entries.get key entries.reverse).map value := by
  rw [← List.map_reverse]
  induction entries.reverse with
  | nil => rfl
  | cons e entries ih =>
    rw [List.map_cons, Entries.get, Entries.get, ih]
    split <;> rfl

/-- What occurs in the value of a tree is the value of what is kept of the tree. -/
theorem occursAt_value {v : RawValue} (h : OccursAt (value w) d v) :
    ∃ u, w.Kept u ∧ value u = v := by
  induction w using Wire.induct generalizing d with
  | null | bool | int | float | string | blob =>
    cases h
    exact ⟨_, .self _, rfl⟩
  | array items ih =>
    rw [value, valueItems_eq_map] at h
    cases h with
    | self => exact ⟨.array items, .self _, by rw [value, valueItems_eq_map]⟩
    | item hmem hocc =>
      obtain ⟨w, hw, rfl⟩ := List.mem_map.mp hmem
      obtain ⟨u, hkept, hu⟩ := ih w hw hocc
      exact ⟨u, .item hw hkept, hu⟩
  | object entries ih =>
    rw [value, valueEntries_eq_insertAll] at h
    cases h with
    | self => exact ⟨.object entries, .self _, by rw [value, valueEntries_eq_insertAll]⟩
    | @entry _ e _ _ hmem hocc =>
      rw [Entries.mem_insertAll_nil, get_reverse_map, Option.map_eq_some_iff] at hmem
      obtain ⟨w, hget, hw⟩ := hmem
      have hentry : (e.1, w) ∈ entries := List.mem_reverse.mp (Entries.mem_of_get hget)
      rw [← hw] at hocc
      obtain ⟨u, hkept, hu⟩ := ih (e.1, w) hentry hocc
      exact ⟨u, .entry hget hkept, hu⟩

theorem Kept.occursAt {u : Wire} (h : w.Kept u) : ∃ d, OccursAt (value w) d (value u) := by
  induction h with
  | self w => exact ⟨0, .self _⟩
  | @item items w u hmem _ ih =>
    obtain ⟨d, hocc⟩ := ih
    rw [value, valueItems_eq_map]
    exact ⟨d + 1, .item (List.mem_map_of_mem hmem) hocc⟩
  | @entry entries key w u hget _ ih =>
    obtain ⟨d, hocc⟩ := ih
    rw [value, valueEntries_eq_insertAll]
    have hmem : (key, value w) ∈
        Entries.insertAll [] (entries.map fun e => (e.1, value e.2)) := by
      rw [Entries.mem_insertAll_nil, get_reverse_map, hget]
      rfl
    exact ⟨d + 1, .entry hmem hocc⟩

/-- An object has the keys that its entries have. -/
theorem keys_valueEntries {entries : List (String × Wire)} (key : String) :
    key ∈ (value.valueEntries entries []).map Prod.fst ↔ key ∈ entries.map Prod.fst := by
  rw [valueEntries_eq_insertAll, Entries.keys_insertAll_nil, List.map_map]
  rfl

end Wire

/-- The same limits on a value. -/
def EncoderOnly : RawValue → Prop
  | .float f => f.isFinite
  | .object entries => ∀ e ∈ entries, e.1.utf8ByteSize ≤ maxKeySize
  | _ => True

theorem encoderOnly_value (w : Wire) : EncoderOnly w.value ↔ w.EncoderOnly := by
  cases w with
  | object entries =>
    have hforall {α : Type} (l : List (String × α)) :
        (∀ e ∈ l, e.1.utf8ByteSize ≤ maxKeySize) ↔
          ∀ key ∈ l.map Prod.fst, key.utf8ByteSize ≤ maxKeySize :=
      (List.forall_mem_map (P := fun key : String => key.utf8ByteSize ≤ maxKeySize)).symm
    rw [Wire.value, EncoderOnly, Wire.EncoderOnly, hforall, hforall]
    simp only [Wire.keys_valueEntries]
  | _ => exact Iff.rfl

/-- The limits that it does check. -/
def DecoderToo : RawValue → Prop
  | .string s => s.utf8ByteSize ≤ maxStringBlobSize
  | .blob b => b.length ≤ maxStringBlobSize
  | .array items => items.length ≤ maxArrayElements
  | .object entries => entries.length ≤ maxObjectKeys
  | _ => True

theorem sizeOk_iff (u : RawValue) : SizeOk u ↔ DecoderToo u ∧ EncoderOnly u := by
  cases u <;> simp [SizeOk, DecoderToo, EncoderOnly]

theorem decoderToo_of_accepted {levels : Nat} {u : RawValue}
    (h : Wire.Accepted levels (.ofValue u)) : 0 < levels ∧ DecoderToo u := by
  cases u with
  | null | bool | int | float =>
    cases h
    exact ⟨Nat.succ_pos _, trivial⟩
  | string s =>
    cases h with
    | string hsize => exact ⟨Nat.succ_pos _, hsize⟩
  | blob b =>
    cases h with
    | blob hsize => exact ⟨Nat.succ_pos _, hsize⟩
  | array items =>
    rw [Wire.ofValue, Wire.ofItems_eq_map] at h
    cases h with
    | array hcount _ => exact ⟨Nat.succ_pos _, by simpa [DecoderToo] using hcount⟩
  | object entries =>
    rw [Wire.ofValue, Wire.ofEntries_eq_map] at h
    cases h with
    | object hcount _ _ => exact ⟨Nat.succ_pos _, by simpa [DecoderToo] using hcount⟩

/-- The decoder's limits hold at every level of an accepted value. -/
theorem decoderToo_of_occursAt {levels d : Nat} {u w : RawValue} (hocc : OccursAt u d w)
    (h : Wire.Accepted levels (.ofValue u)) : d < levels ∧ DecoderToo w := by
  induction hocc generalizing levels with
  | self u => exact decoderToo_of_accepted h
  | @item items u w d hmem _ ih =>
    rw [Wire.ofValue, Wire.ofItems_eq_map] at h
    cases h with
    | array _ hitems =>
      obtain ⟨hd, hw⟩ := ih (hitems _ (List.mem_map_of_mem hmem))
      exact ⟨Nat.succ_lt_succ hd, hw⟩
  | @entry entries e w d hmem _ ih =>
    rw [Wire.ofValue, Wire.ofEntries_eq_map] at h
    cases h with
    | object _ _ hentries =>
      obtain ⟨hd, hw⟩ := ih (hentries (e.1, .ofValue e.2) (List.mem_map_of_mem hmem))
      exact ⟨Nat.succ_lt_succ hd, hw⟩

/-- What is decoded can be encoded again exactly when the bytes are those of a tree whose floats,
but for those that a later entry replaces, are finite and whose keys are short enough: every other
limit has been checked. -/
theorem encode_of_decode_iff (b : Bytes) (v : Value) (h : decode b = .ok v) :
    (∃ b', encode v = .ok b') ↔
      ∃ w : Wire, w.Accepted (maxNestingDepth + 1) ∧ b = w.printAll ∧
        ∀ u, w.Kept u → u.EncoderOnly := by
  have hencode : (∃ b', encode v = .ok b') ↔ RespectsLimits v :=
    ⟨fun ⟨_, hb⟩ => (encode_eq_ok.mp hb).1, fun hlim => ⟨_, encode_eq_ok.mpr ⟨hlim, rfl⟩⟩⟩
  rw [hencode]
  constructor
  · intro hlimits
    obtain ⟨w, haccepted, hb, hval⟩ := Wire.decode_eq_ok.mp h
    refine ⟨w, haccepted, hb, fun u hkept => ?_⟩
    obtain ⟨d, hocc⟩ := hkept.occursAt
    rw [hval] at hocc
    exact (encoderOnly_value u).mp ((sizeOk_iff _).mp (hlimits d _ hocc).2).2
  · rintro ⟨w, haccepted, rfl, hstrict⟩ d x hocc
    obtain ⟨hd, hx⟩ := decoderToo_of_occursAt hocc (accepted_of_decode h)
    have hdecode : decode w.printAll = .ok ⟨w.value, Wire.value_ordered haccepted⟩ :=
      Wire.decode_eq_ok.mpr ⟨w, haccepted, rfl, rfl⟩
    cases hdecode.symm.trans h
    obtain ⟨u, hkept, rfl⟩ := Wire.occursAt_value hocc
    exact ⟨by omega, (sizeOk_iff _).mpr ⟨hx, (encoderOnly_value u).mpr (hstrict u hkept)⟩⟩

/-- Two entries with one key: not-a-number, and a one after it. -/
def replacedFloat : Wire :=
  .object [("a", .float ⟨0x7FF8000000000000⟩), ("a", .float ⟨0x3FF0000000000000⟩)]

theorem encode_of_decode_replaced :
    let v : Value := ⟨.object [("a", .float ⟨0x3FF0000000000000⟩)],
      .object (List.pairwise_singleton _ _) (by simpa using RawValue.Ordered.float _)⟩
    decode replacedFloat.printAll = .ok v ∧ ∃ b', encode v = .ok b' := by
  intro v
  have haccepted : replacedFloat.Accepted (maxNestingDepth + 1) := by
    have hfloat (f : F64) : Wire.Accepted maxNestingDepth (.float f) := .float f
    exact .object (by decide) (by decide) (by simp [hfloat])
  have hdecode : decode replacedFloat.printAll = .ok v :=
    Wire.decode_eq_ok.mpr ⟨replacedFloat, haccepted, rfl, rfl⟩
  refine ⟨hdecode, (encode_of_decode_iff _ _ hdecode).mpr ⟨replacedFloat, haccepted, rfl, ?_⟩⟩
  intro u hkept
  cases hkept with
  | self =>
    have hkey : "a".utf8ByteSize ≤ maxKeySize := by decide +kernel
    exact List.forall_mem_cons.mpr ⟨hkey, List.forall_mem_singleton.mpr hkey⟩
  | @entry _ key w _ hget hkept =>
    -- the entry that counts is the second one
    have hlast : w = .float ⟨0x3FF0000000000000⟩ := by
      by_cases hkey : key = "a"
      · simpa [Entries.get, hkey] using hget.symm
      · simp [Entries.get, hkey] at hget
    subst hlast
    cases hkept
    exact (by decide : F64.isFinite ⟨0x3FF0000000000000⟩ = true)

/-- A key that is too long passes the decoder, and stops the encoder. -/
theorem decode_long_key {key : String} (hlong : maxKeySize < key.utf8ByteSize)
    (hlt : key.utf8ByteSize < 2 ^ 32) :
    ∃ b v, decode b = .ok v ∧ encode v = .error (.keyTooLarge key.utf8ByteSize maxKeySize) := by
  have haccepted : Wire.Accepted (maxNestingDepth + 1) (.object [(key, .null)]) :=
    .object (Nat.succ_le_of_lt (by decide)) (List.forall_mem_singleton.mpr hlt)
      (List.forall_mem_singleton.mpr .null)
  refine ⟨_, ⟨_, Wire.value_ordered haccepted⟩,
    Wire.decode_eq_ok.mpr ⟨_, haccepted, rfl, rfl⟩, ?_⟩
  change encodeValue.encodeEntries [(key, .null)] _ 1 = _
  rw [encodeValue.encodeEntries, if_pos hlong]

/-- Not-a-number is decoded, and so is a key of one byte more than allowed. -/
theorem decode_exceeds_limits :
    (∃ b v, decode b = .ok v ∧ encode v = .error (.nonFiniteFloat ⟨0x7FF8000000000000⟩)) ∧
      ∃ b v, decode b = .ok v ∧ encode v = .error (.keyTooLarge 257 256) := by
  constructor
  · exact ⟨Wire.printAll (.float ⟨0x7FF8000000000000⟩), ⟨.float _, .float _⟩,
      Wire.decode_eq_ok.mpr ⟨_, .float _, rfl, rfl⟩, rfl⟩
  · have hsize : (String.ofList (List.replicate 257 'a')).utf8ByteSize = 257 := by decide +kernel
    rw [← hsize]
    exact decode_long_key (by rw [hsize]; decide) (by rw [hsize]; decide)

end BashfulDB.Data

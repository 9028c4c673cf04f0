import BashfulDB.Data.Wire

/-! What the codec accepts, and that it reads back exactly what it wrote. -/
namespace BashfulDB.Data

/-- `w` occurs in a value, `d` levels below its top. -/
inductive OccursAt : RawValue → (d : Nat) → (w : RawValue) → Prop
  | self (v : RawValue) : OccursAt v 0 v
  | item {items : List RawValue} {v w : RawValue} {d : Nat} : v ∈ items → OccursAt v d w →
      OccursAt (.array items) (d + 1) w
  | entry {entries : List (String × RawValue)} {e : String × RawValue} {w : RawValue} {d : Nat} :
      e ∈ entries → OccursAt e.2 d w → OccursAt (.object entries) (d + 1) w

/-- The limits on one value, apart from those on the values inside it. -/
def SizeOk : RawValue → Prop
  | .float f => f.isFinite
  | .string s => s.utf8ByteSize ≤ maxStringBlobSize
  | .blob b => b.length ≤ maxStringBlobSize
  | .array items => items.length ≤ maxArrayElements
  | .object entries =>
    entries.length ≤ maxObjectKeys ∧ ∀ e ∈ entries, e.1.utf8ByteSize ≤ maxKeySize
  | _ => True

/-- The limits on a value that stands `depth` levels deep, at every level inside it. -/
def FitsAt (depth : Nat) (v : RawValue) : Prop :=
  ∀ d w, OccursAt v d w → depth + d ≤ maxNestingDepth ∧ SizeOk w

def RespectsLimits (v : Value) : Prop := FitsAt 0 v.val

variable {v : RawValue} {depth : Nat}

theorem FitsAt.self (h : FitsAt depth v) : depth ≤ maxNestingDepth ∧ SizeOk v := h 0 v (.self v)

theorem fitsAt_array {items : List RawValue} : FitsAt depth (.array items) ↔
    (depth ≤ maxNestingDepth ∧ SizeOk (.array items)) ∧ ∀ v ∈ items, FitsAt (depth + 1) v := by
  constructor
  · intro h
    refine ⟨h.self, fun v hv d w hw => ?_⟩
    obtain ⟨hd, hs⟩ := h (d + 1) w (.item hv hw)
    exact ⟨by omega, hs⟩
  · rintro ⟨hself, hitems⟩ d w hw
    cases hw with
    | self => exact hself
    | @item _ v _ d hv hw =>
      obtain ⟨hd, hs⟩ := hitems v hv d w hw
      exact ⟨by omega, hs⟩

theorem fitsAt_object {entries : List (String × RawValue)} : FitsAt depth (.object entries) ↔
    (depth ≤ maxNestingDepth ∧ SizeOk (.object entries)) ∧
      ∀ e ∈ entries, FitsAt (depth + 1) e.2 := by
  constructor
  · intro h
    refine ⟨h.self, fun e he d w hw => ?_⟩
    obtain ⟨hd, hs⟩ := h (d + 1) w (.entry he hw)
    exact ⟨by omega, hs⟩
  · rintro ⟨hself, hentries⟩ d w hw
    cases hw with
    | self => exact hself
    | @entry _ e _ d he hw =>
      obtain ⟨hd, hs⟩ := hentries e he d w hw
      exact ⟨by omega, hs⟩

/-- A value with no value inside it is only under its own limits. -/
theorem fitsAt_leaf (hleaf : ∀ d w, OccursAt v d w → d = 0 ∧ w = v) :
    FitsAt depth v ↔ depth ≤ maxNestingDepth ∧ SizeOk v := by
  refine ⟨FitsAt.self, fun h d w hw => ?_⟩
  obtain ⟨rfl, rfl⟩ := hleaf d w hw
  exact h

/-- The bytes of a value: what `encodeValue` appends when no limit stops it. -/
def payload (v : RawValue) : Bytes := Wire.print (.ofValue v)

def payloads (items : List RawValue) : Bytes := Wire.print.printItems (Wire.ofValue.ofItems items)

def entryPayloads (entries : List (String × RawValue)) : Bytes :=
  Wire.print.printEntries (Wire.ofValue.ofEntries entries)

theorem payloads_cons (item : RawValue) (items : List RawValue) :
    payloads (item :: items) = payload item ++ payloads items := rfl

theorem entryPayloads_cons (e : String × RawValue) (entries : List (String × RawValue)) :
    entryPayloads (e :: entries) =
      lengthPrefix e.1.utf8ByteSize ++
        (e.1.asBytes ++ (payload e.2 ++ entryPayloads entries)) := rfl

theorem payload_array (items : List RawValue) :
    payload (.array items) = 0x06 :: (lengthPrefix items.length ++ payloads items) := by
  rw [payload, Wire.ofValue, Wire.print, ← payloads, Wire.ofItems_eq_map, List.length_map]

theorem payload_object (entries : List (String × RawValue)) :
    payload (.object entries) =
      0x07 :: (lengthPrefix entries.length ++ entryPayloads entries) := by
  rw [payload, Wire.ofValue, Wire.print, ← entryPayloads, Wire.ofEntries_eq_map, List.length_map]

theorem length_payloads {items : List RawValue}
    (ih : ∀ v ∈ items, (payload v).length = computeSize v) :
    (payloads items).length = computeSize.sizeItems items := by
  induction items with
  | nil => rfl
  | cons item items hind =>
    obtain ⟨hitem, hitems⟩ := List.forall_mem_cons.mp ih
    simp [payloads_cons, computeSize.sizeItems, hitem, hind hitems]

theorem length_entryPayloads {entries : List (String × RawValue)}
    (ih : ∀ e ∈ entries, (payload e.2).length = computeSize e.2) :
    (entryPayloads entries).length = computeSize.sizeEntries entries := by
  induction entries with
  | nil => rfl
  | cons e entries hind =>
    obtain ⟨he, hentries⟩ := List.forall_mem_cons.mp ih
    simp [entryPayloads_cons, computeSize.sizeEntries, he, hind hentries]
    omega

theorem length_payload (v : RawValue) : (payload v).length = computeSize v := by
  induction v using RawValue.induct with
  | null => rfl
  | bool b => rfl
  | int i => simp [payload, Wire.ofValue, Wire.print, computeSize, intToBeBytes]
  | float f => simp [payload, Wire.ofValue, Wire.print, computeSize, floatToBeBytes]
  | string s => simp [payload, Wire.ofValue, Wire.print, computeSize]; omega
  | blob b => simp [payload, Wire.ofValue, Wire.print, computeSize]; omega
  | array items ih => simp [payload_array, computeSize, length_payloads ih]; omega
  | object entries ih => simp [payload_object, computeSize, length_entryPayloads ih]; omega

variable {buf out : Bytes}

theorem encodeItems_eq_ok {items : List RawValue}
    (ih : ∀ v ∈ items, ∀ buf out depth,
      encodeValue v buf depth = .ok out ↔ FitsAt depth v ∧ buf ++ payload v = out) :
    encodeValue.encodeItems items buf depth = .ok out ↔
      (∀ v ∈ items, FitsAt depth v) ∧ buf ++ payloads items = out := by
  induction items generalizing buf with
  | nil => simp [encodeValue.encodeItems, payloads, Wire.ofValue.ofItems, Wire.print.printItems]
  | cons item items hind =>
    obtain ⟨hitem, hitems⟩ := List.forall_mem_cons.mp ih
    simp only [encodeValue.encodeItems, payloads_cons, Except.bind_eq_ok, hitem, hind hitems,
      List.forall_mem_cons]
    constructor
    · rintro ⟨_, ⟨hfit, rfl⟩, hall, rfl⟩
      exact ⟨⟨hfit, hall⟩, by simp⟩
    · rintro ⟨⟨hfit, hall⟩, rfl⟩
      exact ⟨_, ⟨hfit, rfl⟩, hall, by simp⟩

theorem encodeEntries_eq_ok {entries : List (String × RawValue)}
    (ih : ∀ e ∈ entries, ∀ buf out depth,
      encodeValue e.2 buf depth = .ok out ↔ FitsAt depth e.2 ∧ buf ++ payload e.2 = out) :
    encodeValue.encodeEntries entries buf depth = .ok out ↔
      (∀ e ∈ entries, e.1.utf8ByteSize ≤ maxKeySize ∧ FitsAt depth e.2) ∧
        buf ++ entryPayloads entries = out := by
  induction entries generalizing buf with
  | nil => simp [encodeValue.encodeEntries, entryPayloads, Wire.ofValue.ofEntries,
      Wire.print.printEntries]
  | cons e entries hind =>
    obtain ⟨key, val⟩ := e
    obtain ⟨hval, hentries⟩ := List.forall_mem_cons.mp ih
    by_cases hkey : key.utf8ByteSize ≤ maxKeySize
    · simp only [encodeValue.encodeEntries, entryPayloads_cons, if_neg (not_lt_of_ge hkey),
        Except.bind_eq_ok, hval, hind hentries, List.forall_mem_cons]
      constructor
      · rintro ⟨_, ⟨hfit, rfl⟩, hall, rfl⟩
        exact ⟨⟨⟨hkey, hfit⟩, hall⟩, by simp⟩
      · rintro ⟨⟨⟨-, hfit⟩, hall⟩, rfl⟩
        exact ⟨_, ⟨hfit, rfl⟩, hall, by simp⟩
    · simp [encodeValue.encodeEntries, if_pos (lt_of_not_ge hkey), hkey]

theorem encodeValue_leaf (hleaf : ∀ d w, OccursAt v d w → d = 0 ∧ w = v)
    (henc : encodeValue v buf depth = .ok out ↔
      depth ≤ maxNestingDepth ∧ SizeOk v ∧ buf ++ payload v = out) :
    encodeValue v buf depth = .ok out ↔ FitsAt depth v ∧ buf ++ payload v = out := by
  rw [henc, fitsAt_leaf hleaf, and_assoc]

/-- Encoding succeeds exactly within the limits, and then appends the payload. -/
theorem encodeValue_eq_ok (v : RawValue) (buf out : Bytes) (depth : Nat) :
    encodeValue v buf depth = .ok out ↔ FitsAt depth v ∧ buf ++ payload v = out := by
  induction v using RawValue.induct generalizing buf out depth with
  | null =>
    refine encodeValue_leaf (by rintro _ _ ⟨⟩; simp) ?_
    simp [encodeValue, Except.guard_eq_ok, payload, Wire.ofValue, Wire.print, SizeOk,
      RawValue.typeTag]
  | bool b =>
    refine encodeValue_leaf (by rintro _ _ ⟨⟩; simp) ?_
    simp [encodeValue, Except.guard_eq_ok, payload, Wire.ofValue, Wire.print, SizeOk,
      RawValue.typeTag]
  | int i =>
    refine encodeValue_leaf (by rintro _ _ ⟨⟩; simp) ?_
    simp [encodeValue, Except.guard_eq_ok, payload, Wire.ofValue, Wire.print, SizeOk,
      RawValue.typeTag]
  | float f =>
    refine encodeValue_leaf (by rintro _ _ ⟨⟩; simp) ?_
    simp [encodeValue, Except.guard_eq_ok, payload, Wire.ofValue, Wire.print, SizeOk,
      RawValue.typeTag]
  | string s =>
    refine encodeValue_leaf (by rintro _ _ ⟨⟩; simp) ?_
    simp [encodeValue, Except.guard_eq_ok, payload, Wire.ofValue, Wire.print, SizeOk,
      RawValue.typeTag]
  | blob b =>
    refine encodeValue_leaf (by rintro _ _ ⟨⟩; simp) ?_
    simp [encodeValue, Except.guard_eq_ok, payload, Wire.ofValue, Wire.print, SizeOk,
      RawValue.typeTag]
  | array items ih =>
    rw [fitsAt_array]
    simp [encodeValue, Except.guard_eq_ok, payload_array, SizeOk, RawValue.typeTag,
      encodeItems_eq_ok ih, and_assoc]
  | object entries ih =>
    rw [fitsAt_object]
    simp [encodeValue, Except.guard_eq_ok, payload_object, SizeOk, RawValue.typeTag,
      encodeEntries_eq_ok ih, and_assoc, forall_and]

variable {bytes : Bytes}

theorem FitsAt.levels_pos {levels : Nat} (hfit : FitsAt depth v)
    (hlevels : depth + levels = maxNestingDepth + 1) : ∃ l, levels = l + 1 :=
  ⟨levels - 1, by have := hfit.self.1; omega⟩

/-- Within the limits of the encoder, the decoder accepts what it writes. -/
theorem FitsAt.accepted {levels : Nat} (hfit : FitsAt depth v)
    (hlevels : depth + levels = maxNestingDepth + 1) : Wire.Accepted levels (.ofValue v) := by
  induction v using RawValue.induct generalizing depth levels with
  | null | bool | int | float =>
    obtain ⟨l, rfl⟩ := hfit.levels_pos hlevels
    constructor
  | string s =>
    obtain ⟨l, rfl⟩ := hfit.levels_pos hlevels
    exact .string hfit.self.2
  | blob b =>
    obtain ⟨l, rfl⟩ := hfit.levels_pos hlevels
    exact .blob hfit.self.2
  | array items ih =>
    obtain ⟨l, rfl⟩ := hfit.levels_pos hlevels
    obtain ⟨⟨-, hs⟩, hitems⟩ := fitsAt_array.mp hfit
    rw [Wire.ofValue, Wire.ofItems_eq_map]
    refine .array (by rw [List.length_map]; exact hs) (List.forall_mem_map.mpr fun v hv => ?_)
    exact ih v hv (hitems v hv) (by omega)
  | object entries ih =>
    obtain ⟨l, rfl⟩ := hfit.levels_pos hlevels
    obtain ⟨⟨-, hs, hkeys⟩, hvals⟩ := fitsAt_object.mp hfit
    rw [Wire.ofValue, Wire.ofEntries_eq_map]
    refine .object (by rw [List.length_map]; exact hs) (List.forall_mem_map.mpr fun e he => ?_)
      (List.forall_mem_map.mpr fun e he => ?_)
    · exact (hkeys e he).trans_lt (by decide)
    · exact ih e he (hvals e he) (by omega)

/-- The decoder reads a value back wherever its payload stands. -/
theorem decodeBelow_payload {levels o o' : Nat} (hfit : FitsAt depth v) (hord : v.Ordered)
    (hlevels : depth + levels = maxNestingDepth + 1) (h : Bytes.Span bytes o (payload v) o') :
    decodeBelow bytes levels o = .ok (v, o') :=
  (Wire.readBy_decodeBelow bytes levels _ _ _).mpr
    ⟨.ofValue v, hfit.accepted hlevels, h, Wire.value_ofValue hord⟩

variable {v : Value}

theorem encode_eq_ok : encode v = .ok out ↔
    RespectsLimits v ∧ codecMagic ++ [codecVersion] ++ payload v.val = out :=
  encodeValue_eq_ok v.val _ out 0

theorem decodeValue_payload (h : RespectsLimits v) (pre rest : Bytes) :
    decodeValue (pre ++ payload v.val ++ rest) pre.length 0 =
      .ok (v.val, pre.length + (payload v.val).length) := by
  unfold decodeValue
  rw [if_neg (Nat.not_lt_zero _)]
  exact decodeBelow_payload h v.property (Nat.zero_add _) (Bytes.span_middle pre _ rest)

theorem decode_payload (h : RespectsLimits v) :
    decode (codecMagic ++ [codecVersion] ++ payload v.val) = .ok v :=
  Wire.decode_eq_ok.mpr
    ⟨.ofValue v.val, h.accepted (Nat.zero_add _), rfl, Wire.value_ofValue v.property⟩

/-- Encoding succeeds exactly on the values that respect every limit. Its output then has
the computed size, decodes to the same value, and its payload reads back from any position,
stopping at its own end. -/
theorem codec_round_trip (v : Value) :
    ((∃ b, encode v = .ok b) ↔ RespectsLimits v) ∧
      ∀ b, encode v = .ok b →
        b.length = headerSize + encodedSize v ∧ decode b = .ok v ∧
          ∀ pre rest, decodeValue (pre ++ b.drop headerSize ++ rest) pre.length 0 =
            .ok (v.val, pre.length + (b.drop headerSize).length) := by
  refine ⟨⟨fun ⟨_, h⟩ => (encode_eq_ok.mp h).1, fun h => ⟨_, encode_eq_ok.mpr ⟨h, rfl⟩⟩⟩, ?_⟩
  intro b hb
  obtain ⟨hlim, rfl⟩ := encode_eq_ok.mp hb
  refine ⟨?_, decode_payload hlim, fun pre rest => ?_⟩
  · rw [List.length_append, length_payload]
    rfl
  · exact decodeValue_payload hlim pre rest

theorem codec_round_trip_nested :
    let v : Value := ⟨.object [("a", .array [.bool true, .null]), ("b", .string "x")],
      .object (by decide) (by simp [RawValue.Ordered.string, RawValue.Ordered.array,
        RawValue.Ordered.bool, RawValue.Ordered.null])⟩
    ∃ b, encode v = .ok b ∧ b.length = 33 ∧ decode b = .ok v := by
  intro v
  have hb : ∃ b, encode v = .ok b ∧ b.length = 33 := ⟨_, rfl, by decide⟩
  obtain ⟨b, hb, hlen⟩ := hb
  exact ⟨b, hb, hlen, ((codec_round_trip v).2 b hb).2.1⟩

end BashfulDB.Data

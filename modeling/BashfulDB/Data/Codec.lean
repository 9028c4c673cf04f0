import BashfulDB.Data.Value
import BashfulDB.Library.Bytes
import BashfulDB.Library.Except

/-! The tagged, length-prefixed binary codec. -/
namespace BashfulDB.Data

def codecMagic : Bytes := [0x42, 0x44, 0x42]
def codecVersion : UInt8 := 1
def headerSize : Nat := 4

/-- `(n as u32).to_be_bytes()`. -/
def lengthPrefix (n : Nat) : Bytes := Bytes.ofNat 4 (UInt32.ofNat n).toNat

def intToBeBytes (i : Int64) : Bytes := Bytes.ofNat 8 i.toUInt64.toNat

def floatToBeBytes (f : F64) : Bytes := Bytes.ofNat 8 f.bits.toNat

def encodeValue : RawValue → Bytes → Nat → Except DocumentError Bytes
  | value, buf, depth =>
    if depth > maxNestingDepth then
      .error (.nestingDepthExceeded depth maxNestingDepth)
    else
      let buf := buf ++ [value.typeTag]
      match value with
      | .null => .ok buf
      | .bool b => .ok (buf ++ [if b then 0x01 else 0x00])
      | .int i => .ok (buf ++ intToBeBytes i)
      | .float f =>
        if !f.isFinite then .error (.nonFiniteFloat f)
        else .ok (buf ++ floatToBeBytes f)
      | .string s =>
        if s.utf8ByteSize > maxStringBlobSize then
          .error (.valueTooLarge "String" s.utf8ByteSize maxStringBlobSize)
        else .ok (buf ++ lengthPrefix s.utf8ByteSize ++ s.asBytes)
      | .blob b =>
        if b.length > maxStringBlobSize then
          .error (.valueTooLarge "Blob" b.length maxStringBlobSize)
        else .ok (buf ++ lengthPrefix b.length ++ b)
      | .array items =>
        if items.length > maxArrayElements then
          .error (.arrayTooLarge items.length maxArrayElements)
        else encodeItems items (buf ++ lengthPrefix items.length) (depth + 1)
      | .object entries =>
        if entries.length > maxObjectKeys then
          .error (.objectTooManyKeys entries.length maxObjectKeys)
        else encodeEntries entries (buf ++ lengthPrefix entries.length) (depth + 1)
where
  encodeItems : List RawValue → Bytes → Nat → Except DocumentError Bytes
    | [], buf, _ => .ok buf
    | item :: items, buf, depth => do
      let buf ← encodeValue item buf depth
      encodeItems items buf depth
  encodeEntries : List (String × RawValue) → Bytes → Nat → Except DocumentError Bytes
    | [], buf, _ => .ok buf
    | (key, val) :: entries, buf, depth =>
      if key.utf8ByteSize > maxKeySize then
        .error (.keyTooLarge key.utf8ByteSize maxKeySize)
      else do
        let buf ← encodeValue val (buf ++ lengthPrefix key.utf8ByteSize ++ key.asBytes) depth
        encodeEntries entries buf depth

def computeSize : RawValue → Nat
  | .null => 1 + 0
  | .bool _ => 1 + 1
  | .int _ | .float _ => 1 + 8
  | .string s => 1 + (4 + s.utf8ByteSize)
  | .blob b => 1 + (4 + b.length)
  | .array items => 1 + (4 + sizeItems items)
  | .object entries => 1 + (4 + sizeEntries entries)
where
  sizeItems : List RawValue → Nat
    | [] => 0
    | item :: items => computeSize item + sizeItems items
  sizeEntries : List (String × RawValue) → Nat
    | [] => 0
    | (k, v) :: entries => 4 + k.utf8ByteSize + computeSize v + sizeEntries entries

/-- Each reader returns what it read and the offset after it. -/
def readU8 (bytes : Bytes) (offset : Nat) : Except DocumentError (UInt8 × Nat) :=
  match bytes[offset]? with
  | none => .error (.unexpectedEof offset)
  | some b => .ok (b, offset + 1)

/-- `read_slice`, and `read_bytes::<N>` at `len = N`. -/
def readSlice (bytes : Bytes) (offset len : Nat) : Except DocumentError (Bytes × Nat) :=
  if offset + len > bytes.length then .error (.unexpectedEof offset)
  else .ok ((bytes.drop offset).take len, offset + len)

def readLength (bytes : Bytes) (offset : Nat) : Except DocumentError (Nat × Nat) := do
  let (b, offset) ← readSlice bytes offset 4
  return ((UInt32.ofNat (Bytes.toNat b)).toNat, offset)

def fromUtf8 (data : Bytes) (offset : Nat) : Except DocumentError String :=
  match String.fromUTF8? ⟨data.toArray⟩ with
  | some s => .ok s
  | none => .error (.invalidUtf8 offset)

/-- The array loop, around the decoder for one element. -/
def readItems (decode : Nat → Except DocumentError (RawValue × Nat)) :
    (count offset : Nat) → Except DocumentError (List RawValue × Nat)
  | 0, offset => .ok ([], offset)
  | count + 1, offset => do
    let (item, offset) ← decode offset
    let (items, offset) ← readItems decode count offset
    return (item :: items, offset)

/-- The object loop: each pair is inserted into the map read so far. -/
def readEntries (bytes : Bytes) (decode : Nat → Except DocumentError (RawValue × Nat)) :
    (count offset : Nat) → List (String × RawValue) →
      Except DocumentError (List (String × RawValue) × Nat)
  | 0, offset, map => .ok (map, offset)
  | count + 1, offset, map => do
    let (keyLen, offset) ← readLength bytes offset
    let (keyData, offset) ← readSlice bytes offset keyLen
    let key ← fromUtf8 keyData (offset - keyLen)
    let (val, offset) ← decode offset
    readEntries bytes decode count offset (Entries.insert key val map)

/-- The body of `decode_value` after its depth check, by the levels still allowed. -/
def decodeBelow (bytes : Bytes) : (levels offset : Nat) → Except DocumentError (RawValue × Nat)
  | 0, _ => .error (.nestingDepthExceeded (maxNestingDepth + 1) maxNestingDepth)
  | levels + 1, offset => do
    let (tag, offset) ← readU8 bytes offset
    match tag with
    | 0x00 => return (.null, offset)
    | 0x01 =>
      let (b, offset) ← readU8 bytes offset
      return (.bool (b != 0), offset)
    | 0x02 =>
      let (b, offset) ← readSlice bytes offset 8
      return (.int (UInt64.ofNat (Bytes.toNat b)).toInt64, offset)
    | 0x03 =>
      let (b, offset) ← readSlice bytes offset 8
      return (.float ⟨UInt64.ofNat (Bytes.toNat b)⟩, offset)
    | 0x04 =>
      let (len, offset) ← readLength bytes offset
      if len > maxStringBlobSize then
        .error (.valueTooLarge "String" len maxStringBlobSize)
      else
        let (data, offset) ← readSlice bytes offset len
        let s ← fromUtf8 data (offset - len)
        return (.string s, offset)
    | 0x05 =>
      let (len, offset) ← readLength bytes offset
      if len > maxStringBlobSize then
        .error (.valueTooLarge "Blob" len maxStringBlobSize)
      else
        let (data, offset) ← readSlice bytes offset len
        return (.blob data, offset)
    | 0x06 =>
      let (count, offset) ← readLength bytes offset
      if count > maxArrayElements then
        .error (.arrayTooLarge count maxArrayElements)
      else
        let (items, offset) ← readItems (decodeBelow bytes levels) count offset
        return (.array items, offset)
    | 0x07 =>
      let (count, offset) ← readLength bytes offset
      if count > maxObjectKeys then
        .error (.objectTooManyKeys count maxObjectKeys)
      else
        let (map, offset) ← readEntries bytes (decodeBelow bytes levels) count offset []
        return (.object map, offset)
    | tag => .error (.unknownTypeTag tag)

def decodeValue (bytes : Bytes) (offset depth : Nat) : Except DocumentError (RawValue × Nat) :=
  if depth > maxNestingDepth then
    .error (.nestingDepthExceeded depth maxNestingDepth)
  else decodeBelow bytes (maxNestingDepth + 1 - depth) offset

theorem readItems_forall {decode : Nat → Except DocumentError (RawValue × Nat)}
    {P : RawValue → Prop} (hdec : ∀ o v o', decode o = .ok (v, o') → P v) {count o o' : Nat}
    {items : List RawValue} (h : readItems decode count o = .ok (items, o')) :
    ∀ v ∈ items, P v := by
  induction count generalizing o items with
  | zero =>
    cases h
    simp
  | succ count ih =>
    simp only [readItems, Except.bind_eq_ok, pure, Except.pure] at h
    obtain ⟨⟨item, o₁⟩, hitem, ⟨items₁, o₂⟩, hitems, h⟩ := h
    cases h
    exact List.forall_mem_cons.mpr ⟨hdec _ _ _ hitem, ih hitems⟩

theorem readEntries_ordered {bytes : Bytes}
    {decode : Nat → Except DocumentError (RawValue × Nat)} {P : RawValue → Prop}
    (hdec : ∀ o v o', decode o = .ok (v, o') → P v) {count o o' : Nat}
    {map map' : List (String × RawValue)}
    (h : readEntries bytes decode count o map = .ok (map', o'))
    (hasc : Entries.Ascending map) (hmap : ∀ e ∈ map, P e.2) :
    Entries.Ascending map' ∧ ∀ e ∈ map', P e.2 := by
  induction count generalizing o map with
  | zero =>
    cases h
    exact ⟨hasc, hmap⟩
  | succ count ih =>
    simp only [readEntries, Except.bind_eq_ok] at h
    obtain ⟨⟨len, o₁⟩, -, ⟨data, o₂⟩, -, key, -, ⟨val, o₃⟩, hval, h⟩ := h
    refine ih h (Entries.ascending_insert hasc) ?_
    intro e he
    rcases Entries.mem_insert he with rfl | he
    · exact hdec _ _ _ hval
    · exact hmap e he

/-- Whatever bytes are decoded, the objects of the result are sorted maps. -/
theorem decodeBelow_ordered {bytes : Bytes} {levels o o' : Nat} {v : RawValue}
    (h : decodeBelow bytes levels o = .ok (v, o')) : v.Ordered := by
  induction levels generalizing o v o' with
  | zero => cases h
  | succ levels ih =>
    simp only [decodeBelow, Except.bind_eq_ok] at h
    obtain ⟨⟨tag, o₁⟩, -, h⟩ := h
    split at h
    · cases h
      exact .null
    · obtain ⟨_, -, h⟩ := Except.bind_eq_ok.mp h
      cases h
      exact .bool _
    · obtain ⟨_, -, h⟩ := Except.bind_eq_ok.mp h
      cases h
      exact .int _
    · obtain ⟨_, -, h⟩ := Except.bind_eq_ok.mp h
      cases h
      exact .float _
    · obtain ⟨⟨len, o₂⟩, -, h⟩ := Except.bind_eq_ok.mp h
      dsimp only at h
      split at h
      · cases h
      · simp only [Except.bind_eq_ok] at h
        obtain ⟨_, -, _, -, h⟩ := h
        cases h
        exact .string _
    · obtain ⟨⟨len, o₂⟩, -, h⟩ := Except.bind_eq_ok.mp h
      dsimp only at h
      split at h
      · cases h
      · obtain ⟨_, -, h⟩ := Except.bind_eq_ok.mp h
        cases h
        exact .blob _
    · obtain ⟨⟨count, o₂⟩, -, h⟩ := Except.bind_eq_ok.mp h
      dsimp only at h
      split at h
      · cases h
      · obtain ⟨⟨items, o₃⟩, hitems, h⟩ := Except.bind_eq_ok.mp h
        cases h
        exact .array (readItems_forall (fun _ _ _ => ih) hitems)
    · obtain ⟨⟨count, o₂⟩, -, h⟩ := Except.bind_eq_ok.mp h
      dsimp only at h
      split at h
      · cases h
      · obtain ⟨⟨map, o₃⟩, hmap, h⟩ := Except.bind_eq_ok.mp h
        cases h
        have hord := readEntries_ordered (fun _ _ _ => ih) hmap List.Pairwise.nil (by simp)
        exact .object hord.1 hord.2
    · cases h

theorem decodeValue_ordered {bytes : Bytes} {o depth o' : Nat} {v : RawValue}
    (h : decodeValue bytes o depth = .ok (v, o')) : v.Ordered := by
  unfold decodeValue at h
  split at h
  · cases h
  · exact decodeBelow_ordered h

def encode (value : Value) : Except DocumentError Bytes :=
  encodeValue value.val (codecMagic ++ [codecVersion]) 0

def decode (bytes : Bytes) : Except DocumentError Value :=
  if bytes.length < headerSize then .error (.unexpectedEof 0)
  else if bytes.take 3 ≠ codecMagic then .error (.unknownTypeTag (bytes.getD 0 0))
  else if bytes.getD 3 0 ≠ codecVersion then
    .error (.unsupportedCodecVersion (bytes.getD 3 0))
  else
    match h : decodeValue bytes headerSize 0 with
    | .error e => .error e
    | .ok (value, offset) =>
      if offset < bytes.length then
        .error (.trailingBytes offset (bytes.length - offset))
      else .ok ⟨value, decodeValue_ordered h⟩

def encodedSize (value : Value) : Nat := computeSize value.val

end BashfulDB.Data

import BashfulDB.Data.Wire
import BashfulDB.Library.Traced

/-!
The decoder with the operations it is written in: sums and differences of offsets, subscripts and
slices panic out of their range, and each call of `decode_value` is recorded.
-/
namespace BashfulDB.Data.Machine

open Traced

/-- A `&[u8]`. -/
structure Slice where
  bytes : Bytes
  fits : bytes.length ≤ isizeMax

/-- A call of `decode_value`: where it began, its depth, and where it ended if it succeeded. -/
structure Call where
  offset : Nat
  depth : Nat
  after : Option Nat
  deriving DecidableEq

abbrev DecodeM := Traced DocumentError Call

def readU8 (bytes : Bytes) (offset : Nat) : DecodeM (UInt8 × Nat) := do
  if offset ≥ bytes.length then fail (.unexpectedEof offset)
  else
    let b ← index bytes offset
    let offset ← addUsize offset 1
    return (b, offset)

def readSlice (bytes : Bytes) (offset len : Nat) : DecodeM (Bytes × Nat) := do
  let stop ← addUsize offset len
  if stop > bytes.length then fail (.unexpectedEof offset)
  else
    let stop ← addUsize offset len
    let data ← slice bytes offset stop
    let offset ← addUsize offset len
    return (data, offset)

/-- `read_bytes::<N>`: `copy_from_slice` panics on a slice of another length. -/
def readBytes (n : Nat) (bytes : Bytes) (offset : Nat) : DecodeM (Bytes × Nat) := do
  let stop ← addUsize offset n
  if stop > bytes.length then fail (.unexpectedEof offset)
  else
    let stop ← addUsize offset n
    let data ← slice bytes offset stop
    ensure (data.length = n)
    let offset ← addUsize offset n
    return (data, offset)

def readLength (bytes : Bytes) (offset : Nat) : DecodeM (Nat × Nat) := do
  let (b, offset) ← readBytes 4 bytes offset
  return ((UInt32.ofNat (Bytes.toNat b)).toNat, offset)

/-- The error names the offset before the `len` bytes just read. -/
def fromUtf8 (data : Bytes) (offset len : Nat) : DecodeM String :=
  match String.fromUTF8? ⟨data.toArray⟩ with
  | some s => pure s
  | none => do
    let start ← subUsize offset len
    fail (.invalidUtf8 start)

def readItems (decode : Nat → DecodeM (RawValue × Nat)) :
    (count offset : Nat) → DecodeM (List RawValue × Nat)
  | 0, offset => pure ([], offset)
  | count + 1, offset => do
    let (item, offset) ← decode offset
    let (items, offset) ← readItems decode count offset
    return (item :: items, offset)

def readEntries (bytes : Bytes) (decode : Nat → DecodeM (RawValue × Nat)) :
    (count offset : Nat) → List (String × RawValue) → DecodeM (List (String × RawValue) × Nat)
  | 0, offset, map => pure (map, offset)
  | count + 1, offset, map => do
    let (keyLen, offset) ← readLength bytes offset
    let (keyData, offset) ← readSlice bytes offset keyLen
    let key ← fromUtf8 keyData offset keyLen
    let (val, offset) ← decode offset
    readEntries bytes decode count offset (Entries.insert key val map)

/-- `decode_value`, with fuel for the calls that may still be nested. -/
def decodeValue (bytes : Bytes) : (fuel offset depth : Nat) → DecodeM (RawValue × Nat)
  | 0, _, _ => throw .exhausted
  | fuel + 1, offset, depth => record (fun r => ⟨offset, depth, r.map Prod.snd⟩) do
    if depth > maxNestingDepth then fail (.nestingDepthExceeded depth maxNestingDepth)
    else
      let (tag, offset) ← readU8 bytes offset
      match tag with
      | 0x00 => return (.null, offset)
      | 0x01 =>
        let (b, offset) ← readU8 bytes offset
        return (.bool (b != 0), offset)
      | 0x02 =>
        let (b, offset) ← readBytes 8 bytes offset
        return (.int (UInt64.ofNat (Bytes.toNat b)).toInt64, offset)
      | 0x03 =>
        let (b, offset) ← readBytes 8 bytes offset
        return (.float ⟨UInt64.ofNat (Bytes.toNat b)⟩, offset)
      | 0x04 =>
        let (len, offset) ← readLength bytes offset
        if len > maxStringBlobSize then fail (.valueTooLarge "String" len maxStringBlobSize)
        else
          let (data, offset) ← readSlice bytes offset len
          let s ← fromUtf8 data offset len
          return (.string s, offset)
      | 0x05 =>
        let (len, offset) ← readLength bytes offset
        if len > maxStringBlobSize then fail (.valueTooLarge "Blob" len maxStringBlobSize)
        else
          let (data, offset) ← readSlice bytes offset len
          return (.blob data, offset)
      | 0x06 =>
        let (count, offset) ← readLength bytes offset
        if count > maxArrayElements then fail (.arrayTooLarge count maxArrayElements)
        else
          let (items, offset) ←
            readItems (addUsize depth 1 >>= decodeValue bytes fuel ·) count offset
          return (.array items, offset)
      | 0x07 =>
        let (count, offset) ← readLength bytes offset
        if count > maxObjectKeys then fail (.objectTooManyKeys count maxObjectKeys)
        else
          let (map, offset) ←
            readEntries bytes (addUsize depth 1 >>= decodeValue bytes fuel ·) count offset []
          return (.object map, offset)
      | tag => fail (.unknownTypeTag tag)

def decode (input : Slice) (fuel : Nat) : DecodeM RawValue := do
  let bytes := input.bytes
  if bytes.length < headerSize then fail (.unexpectedEof 0)
  else
    let magic ← slice bytes 0 3
    if magic ≠ codecMagic then
      let tag ← index bytes 0
      fail (.unknownTypeTag tag)
    else
      let version ← index bytes 3
      if version ≠ codecVersion then
        let version ← index bytes 3
        fail (.unsupportedCodecVersion version)
      else
        let (value, offset) ← decodeValue bytes fuel headerSize 0
        if offset < bytes.length then
          let count ← subUsize bytes.length offset
          fail (.trailingBytes offset count)
        else return value

/-- What holds of a call into these bytes: it is at most 65 deep and begins within them, and if it
succeeds it has moved on, but not beyond their end. -/
structure Call.Sound (bytes : Bytes) (call : Call) : Prop where
  depth_le : call.depth ≤ maxNestingDepth + 1
  offset_le : call.offset ≤ bytes.length
  lt_after : ∀ after ∈ call.after, call.offset < after
  after_le : ∀ after ∈ call.after, after ≤ bytes.length

section Readers

variable {G : Call → Prop} {bytes : Bytes} {o n : Nat}

theorem isizeMax_add_le {a b : Nat} (ha : a ≤ isizeMax) (hb : b < 2 ^ 32) : a + b ≤ usizeMax := by
  unfold isizeMax at ha
  unfold usizeMax
  omega

theorem readU8_refines (hfits : bytes.length ≤ isizeMax) (ho : o ≤ bytes.length) :
    Refines G (readU8 bytes o) (Data.readU8 bytes o) := by
  unfold readU8 Data.readU8
  by_cases hlt : o < bytes.length
  · rw [if_neg (by omega)]
    have hget := List.getElem?_eq_getElem hlt
    rw [hget]
    refine (Refines.index hget).step ?_
    refine (Refines.addUsize (isizeMax_add_le (ho.trans hfits) (by decide))).step ?_
    exact .pure _
  · rw [if_pos (by omega), List.getElem?_eq_none (by omega)]
    exact .fail _

theorem readSlice_refines (hfits : bytes.length ≤ isizeMax) (ho : o ≤ bytes.length)
    (hn : n < 2 ^ 32) : Refines G (readSlice bytes o n) (Data.readSlice bytes o n) := by
  have hsum := isizeMax_add_le (ho.trans hfits) hn
  refine (Refines.addUsize hsum).step (.ite (fun _ => .fail _) fun hle => ?_)
  refine (Refines.addUsize hsum).step ?_
  refine (Refines.slice (Nat.le_add_right _ _) (Nat.not_lt.mp hle)).step ?_
  rw [Nat.add_sub_cancel_left]
  exact (Refines.addUsize hsum).step (.pure _)

theorem readBytes_refines (hfits : bytes.length ≤ isizeMax) (ho : o ≤ bytes.length)
    (hn : n < 2 ^ 32) : Refines G (readBytes n bytes o) (Data.readSlice bytes o n) := by
  have hsum := isizeMax_add_le (ho.trans hfits) hn
  refine (Refines.addUsize hsum).step (.ite (fun _ => .fail _) fun hle => ?_)
  refine (Refines.addUsize hsum).step ?_
  refine (Refines.slice (Nat.le_add_right _ _) (Nat.not_lt.mp hle)).step ?_
  rw [Nat.add_sub_cancel_left]
  have hlength : ((bytes.drop o).take n).length = n := by
    rw [List.length_take, List.length_drop]
    omega
  exact (Refines.ensure hlength).step ((Refines.addUsize hsum).step (.pure _))

/-- The bytes just read end where the reader now stands. -/
theorem le_of_readSlice {data : Bytes} {o' : Nat} (h : Data.readSlice bytes o n = .ok (data, o')) :
    n ≤ o' ∧ o' ≤ bytes.length := by
  obtain ⟨rfl, hspan⟩ := readSlice_eq_ok.mp h
  refine ⟨?_, hspan.stop_le⟩
  rw [hspan.stop_eq]
  exact Nat.le_add_left _ _

theorem readLength_refines (hfits : bytes.length ≤ isizeMax) (ho : o ≤ bytes.length) :
    Refines G (readLength bytes o) (Data.readLength bytes o) :=
  (readBytes_refines hfits ho (by decide)).bind fun _ _ => .pure _

theorem fromUtf8_refines {data : Bytes} (h : n ≤ o) :
    Refines G (fromUtf8 data o n) (Data.fromUtf8 data (o - n)) := by
  unfold fromUtf8 Data.fromUtf8
  cases String.fromUTF8? ⟨data.toArray⟩ with
  | some s => exact .pure s
  | none => exact (Refines.subUsize h).step (.fail _)

end Readers

section Loops

variable {G : Call → Prop} {bytes : Bytes} {dec : Nat → DecodeM (RawValue × Nat)}
  {plain : Nat → Except DocumentError (RawValue × Nat)}

theorem readItems_refines (hdec : ∀ o ≤ bytes.length, Refines G (dec o) (plain o))
    (hplain : ∀ o v o', plain o = .ok (v, o') → o' ≤ bytes.length) {count o : Nat}
    (ho : o ≤ bytes.length) : Refines G (readItems dec count o) (Data.readItems plain count o) := by
  induction count generalizing o with
  | zero => exact .pure _
  | succ count ih =>
    refine (hdec o ho).bind ?_
    rintro ⟨item, o₁⟩ hitem
    exact (ih (hplain _ _ _ hitem)).bind fun _ _ => .pure _

theorem readEntries_refines (hfits : bytes.length ≤ isizeMax)
    (hdec : ∀ o ≤ bytes.length, Refines G (dec o) (plain o))
    (hplain : ∀ o v o', plain o = .ok (v, o') → o' ≤ bytes.length) {count o : Nat}
    {map : List (String × RawValue)} (ho : o ≤ bytes.length) :
    Refines G (readEntries bytes dec count o map) (Data.readEntries bytes plain count o map) := by
  induction count generalizing o map with
  | zero => exact .pure _
  | succ count ih =>
    refine (readLength_refines hfits ho).bind ?_
    rintro ⟨keyLen, o₁⟩ hlen
    obtain ⟨hlt, hspan⟩ := readLength_eq_ok.mp hlen
    refine (readSlice_refines hfits hspan.stop_le hlt).bind ?_
    rintro ⟨data, o₂⟩ hdata
    obtain ⟨hle, ho₂⟩ := le_of_readSlice hdata
    refine (fromUtf8_refines hle).bind ?_
    intro key _
    refine (hdec o₂ ho₂).bind ?_
    rintro ⟨val, o₃⟩ hval
    exact ih (hplain _ _ _ hval)

end Loops

theorem decodeBelow_moves {bytes : Bytes} {levels o o' : Nat} {v : RawValue}
    (h : decodeBelow bytes levels o = .ok (v, o')) : o < o' ∧ o' ≤ bytes.length := by
  obtain ⟨w, -, hspan, -⟩ := (Wire.readBy_decodeBelow bytes levels o v o').mp h
  have hpos := List.length_pos_iff.mpr (Wire.print_ne_nil w)
  refine ⟨?_, hspan.stop_le⟩
  rw [hspan.stop_eq]
  exact Nat.lt_add_of_pos_right hpos

theorem sound_of_depth {bytes : Bytes} {levels depth o : Nat}
    (hdepth : depth + levels = maxNestingDepth + 1) (ho : o ≤ bytes.length) :
    Call.Sound bytes ⟨o, depth, (decodeBelow bytes levels o).toOption.map Prod.snd⟩ := by
  have hmoves : ∀ after ∈ (decodeBelow bytes levels o).toOption.map Prod.snd,
      o < after ∧ after ≤ bytes.length := by
    intro after hafter
    obtain ⟨⟨v, o'⟩, hresult, rfl⟩ := Option.map_eq_some_iff.mp hafter
    exact decodeBelow_moves (Except.toOption_eq_some.mp hresult)
  exact ⟨hdepth ▸ Nat.le_add_right _ _, ho, fun _ h => (hmoves _ h).1, fun _ h => (hmoves _ h).2⟩

/-- With fuel for the levels below it, a call ends as the decoder does. The induction is on these
levels: a loop's calls share them, whatever its count is. -/
theorem decodeValue_refines {bytes : Bytes} (hfits : bytes.length ≤ isizeMax)
    {levels fuel depth o : Nat} (hfuel : levels < fuel)
    (hdepth : depth + levels = maxNestingDepth + 1) (ho : o ≤ bytes.length) :
    Refines (Call.Sound bytes) (decodeValue bytes fuel o depth) (decodeBelow bytes levels o) := by
  induction levels generalizing fuel depth o with
  | zero =>
    obtain ⟨fuel, rfl⟩ := Nat.exists_eq_add_one_of_ne_zero (Nat.ne_zero_of_lt hfuel)
    refine Refines.record ?_ (sound_of_depth hdepth ho)
    obtain rfl : depth = maxNestingDepth + 1 := hdepth
    rw [if_pos (Nat.lt_succ_self _)]
    exact .fail _
  | succ levels ih =>
    obtain ⟨fuel, rfl⟩ := Nat.exists_eq_add_one_of_ne_zero (Nat.ne_zero_of_lt hfuel)
    refine Refines.record ?_ (sound_of_depth hdepth ho)
    rw [if_neg (by omega)]
    have hnested : ∀ o ≤ bytes.length, Refines (Call.Sound bytes)
        (addUsize depth 1 >>= decodeValue bytes fuel o) (decodeBelow bytes levels o) := by
      intro o ho
      refine Refines.step (.addUsize ?_) (ih (by omega) (by omega) ho)
      unfold usizeMax
      have hmax : maxNestingDepth = 64 := rfl
      omega
    have hmoves : ∀ o v o', decodeBelow bytes levels o = .ok (v, o') → o' ≤ bytes.length :=
      fun o v o' h => (decodeBelow_moves h).2
    refine (readU8_refines hfits ho).bind ?_
    rintro ⟨tag, o₁⟩ htag
    have ho₁ := (readU8_eq_ok.mp htag).stop_le
    dsimp only
    split
    · exact .pure _
    · exact (readU8_refines hfits ho₁).bind fun _ _ => .pure _
    · exact (readBytes_refines hfits ho₁ (by decide)).bind fun _ _ => .pure _
    · exact (readBytes_refines hfits ho₁ (by decide)).bind fun _ _ => .pure _
    · refine (readLength_refines hfits ho₁).bind ?_
      rintro ⟨len, o₂⟩ hlen
      obtain ⟨hlt, hspan⟩ := readLength_eq_ok.mp hlen
      refine .ite (fun _ => .fail _) fun _ => ?_
      refine (readSlice_refines hfits hspan.stop_le hlt).bind ?_
      rintro ⟨data, o₃⟩ hdata
      exact (fromUtf8_refines (le_of_readSlice hdata).1).bind fun _ _ => .pure _
    · refine (readLength_refines hfits ho₁).bind ?_
      rintro ⟨len, o₂⟩ hlen
      obtain ⟨hlt, hspan⟩ := readLength_eq_ok.mp hlen
      refine .ite (fun _ => .fail _) fun _ => ?_
      exact (readSlice_refines hfits hspan.stop_le hlt).bind fun _ _ => .pure _
    · refine (readLength_refines hfits ho₁).bind ?_
      rintro ⟨count, o₂⟩ hcount
      have ho₂ := (readLength_eq_ok.mp hcount).2.stop_le
      refine .ite (fun _ => .fail _) fun _ => ?_
      exact (readItems_refines hnested hmoves ho₂).bind fun _ _ => .pure _
    · refine (readLength_refines hfits ho₁).bind ?_
      rintro ⟨count, o₂⟩ hcount
      have ho₂ := (readLength_eq_ok.mp hcount).2.stop_le
      refine .ite (fun _ => .fail _) fun _ => ?_
      exact (readEntries_refines hfits hnested hmoves ho₂).bind fun _ _ => .pure _
    · -- No tag: the cases of the functional decoder are ruled out as well.
      exact .fail_of (by grind)

theorem decode_refines (input : Slice) {fuel : Nat} (hfuel : maxNestingDepth + 1 < fuel) :
    Refines (Call.Sound input.bytes) (decode input fuel)
      ((Data.decode input.bytes).map Subtype.val) := by
  obtain ⟨bytes, hfits⟩ := input
  unfold decode Data.decode
  dsimp only
  by_cases hlength : bytes.length < headerSize
  · rw [if_pos hlength, if_pos hlength]
    exact .fail _
  have hsize : 4 ≤ bytes.length := Nat.not_lt.mp hlength
  have hget {i : Nat} (hi : i < 4) : bytes[i]? = some (bytes.getD i 0) := by
    rw [List.getD_eq_getElem?_getD, List.getElem?_eq_getElem (by omega)]
    rfl
  rw [if_neg hlength, if_neg hlength]
  refine (Refines.slice (Nat.zero_le 3) (by omega)).step ?_
  change Refines _ (if bytes.take 3 ≠ codecMagic then _ else _) _
  by_cases hmagic : bytes.take 3 ≠ codecMagic
  · rw [if_pos hmagic, if_pos hmagic]
    exact (Refines.index (hget (by decide))).step (.fail _)
  rw [if_neg hmagic, if_neg hmagic]
  refine (Refines.index (hget (by decide))).step ?_
  by_cases hversion : bytes.getD 3 0 ≠ codecVersion
  · rw [if_pos hversion, if_pos hversion]
    exact (Refines.index (hget (by decide))).step (.fail _)
  rw [if_neg hversion, if_neg hversion]
  have hread : Refines (Call.Sound bytes) (decodeValue bytes fuel headerSize 0)
      (Data.decodeValue bytes headerSize 0) :=
    decodeValue_refines hfits hfuel (Nat.zero_add _) hsize
  split
  · next e he =>
    rw [he] at hread
    exact hread.bind (g := fun _ => .error e) fun _ h => nomatch h
  · next value offset he =>
    rw [he] at hread
    refine hread.step ?_
    dsimp only
    split
    · next hlt => exact (Refines.subUsize hlt.le).step (.fail _)
    · exact .pure _

/-- Decoding ends, with a value or an error, and does so for want of nothing but fuel for the 65
levels below the first: no sum of offsets overflows, no difference underflows, and no subscript or
slice leaves the input. Every call on the way is sound. -/
theorem decode_total (input : Slice) (fuel : Nat) :
    ((∃ v, Data.decode input.bytes = .ok v ∧
        ((decode input (maxNestingDepth + 2 + fuel)).exec []).1 = .ok v.val) ∨
      ∃ e, Data.decode input.bytes = .error e ∧
        ((decode input (maxNestingDepth + 2 + fuel)).exec []).1 = .error (.error e)) ∧
      ∀ call ∈ ((decode input (maxNestingDepth + 2 + fuel)).exec []).2,
        call.depth ≤ 65 ∧ call.offset ≤ input.bytes.length ∧
          ∀ after ∈ call.after, call.offset < after ∧ after ≤ input.bytes.length := by
  have hfuel : maxNestingDepth + 1 < maxNestingDepth + 2 + fuel := by omega
  obtain ⟨hresult, added, hlog, hadded⟩ := decode_refines input hfuel []
  rw [hresult, hlog]
  constructor
  · cases Data.decode input.bytes with
    | ok v => exact .inl ⟨v, rfl, rfl⟩
    | error e => exact .inr ⟨e, rfl, rfl⟩
  · intro call hcall
    have hsound := hadded call hcall
    exact ⟨hsound.depth_le, hsound.offset_le,
      fun after h => ⟨hsound.lt_after after h, hsound.after_le after h⟩⟩

-- An array of one null: the inner call ends first.
example : ((decode ⟨[0x42, 0x44, 0x42, 1, 0x06, 0, 0, 0, 1, 0x00], by decide⟩ 66).exec []).2 =
    [⟨9, 1, some 10⟩, ⟨4, 0, some 10⟩] := by decide +kernel

end BashfulDB.Data.Machine

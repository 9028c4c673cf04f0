import BashfulDB.Data.Codec

/-!
The format that the decoder reads, as trees that keep all that the bytes say: the byte of each
boolean, and the entries of each object in the order in which they come, repeated keys included.
-/
namespace BashfulDB.Data

inductive Wire
  | null
  | bool (byte : UInt8)
  | int (i : Int64)
  | float (f : F64)
  | string (s : String)
  | blob (b : Bytes)
  | array (items : List Wire)
  | object (entries : List (String × Wire))

namespace Wire

/-- Structural induction, with the hypothesis for every item and every entry of a container. -/
@[elab_as_elim]
theorem induct {P : Wire → Prop} (null : P .null) (bool : ∀ byte, P (.bool byte))
    (int : ∀ i, P (.int i)) (float : ∀ f, P (.float f)) (string : ∀ s, P (.string s))
    (blob : ∀ b, P (.blob b)) (array : ∀ items, (∀ w ∈ items, P w) → P (.array items))
    (object : ∀ entries, (∀ e ∈ entries, P e.2) → P (.object entries)) (w : Wire) : P w :=
  @Wire.rec P (fun items => ∀ w ∈ items, P w) (fun entries => ∀ e ∈ entries, P e.2)
    (fun e => P e.2) null bool int float string blob array object
    (by simp) (fun _ _ hw hl => List.forall_mem_cons.mpr ⟨hw, hl⟩)
    (by simp) (fun _ _ he hl => List.forall_mem_cons.mpr ⟨he, hl⟩) (fun _ _ hw => hw) w

/-- The bytes of a tree. -/
def print : Wire → Bytes
  | .null => [0x00]
  | .bool byte => [0x01, byte]
  | .int i => 0x02 :: intToBeBytes i
  | .float f => 0x03 :: floatToBeBytes f
  | .string s => 0x04 :: (lengthPrefix s.utf8ByteSize ++ s.asBytes)
  | .blob b => 0x05 :: (lengthPrefix b.length ++ b)
  | .array items => 0x06 :: (lengthPrefix items.length ++ printItems items)
  | .object entries => 0x07 :: (lengthPrefix entries.length ++ printEntries entries)
where
  printItems : List Wire → Bytes
    | [] => []
    | item :: items => print item ++ printItems items
  printEntries : List (String × Wire) → Bytes
    | [] => []
    | (key, val) :: entries =>
      lengthPrefix key.utf8ByteSize ++ (key.asBytes ++ (print val ++ printEntries entries))

/-- The value that a tree stands for: any byte but zero is true, and of the entries with one key
the last counts. -/
def value : Wire → RawValue
  | .null => .null
  | .bool byte => .bool (byte != 0)
  | .int i => .int i
  | .float f => .float f
  | .string s => .string s
  | .blob b => .blob b
  | .array items => .array (valueItems items)
  | .object entries => .object (valueEntries entries [])
where
  valueItems : List Wire → List RawValue
    | [] => []
    | item :: items => value item :: valueItems items
  valueEntries : List (String × Wire) → List (String × RawValue) → List (String × RawValue)
    | [], map => map
    | (key, val) :: entries, map => valueEntries entries (Entries.insert key (value val) map)

/-- What the decoder lets pass, with so many levels still allowed. -/
inductive Accepted : Nat → Wire → Prop
  | null {levels : Nat} : Accepted (levels + 1) .null
  | bool {levels : Nat} (byte : UInt8) : Accepted (levels + 1) (.bool byte)
  | int {levels : Nat} (i : Int64) : Accepted (levels + 1) (.int i)
  | float {levels : Nat} (f : F64) : Accepted (levels + 1) (.float f)
  | string {levels : Nat} {s : String} : s.utf8ByteSize ≤ maxStringBlobSize →
      Accepted (levels + 1) (.string s)
  | blob {levels : Nat} {b : Bytes} : b.length ≤ maxStringBlobSize →
      Accepted (levels + 1) (.blob b)
  | array {levels : Nat} {items : List Wire} : items.length ≤ maxArrayElements →
      (∀ w ∈ items, Accepted levels w) → Accepted (levels + 1) (.array items)
  | object {levels : Nat} {entries : List (String × Wire)} : entries.length ≤ maxObjectKeys →
      (∀ e ∈ entries, e.1.utf8ByteSize < 2 ^ 32) → (∀ e ∈ entries, Accepted levels e.2) →
      Accepted (levels + 1) (.object entries)

end Wire

@[simp] theorem length_lengthPrefix (n : Nat) : (lengthPrefix n).length = 4 := by
  simp [lengthPrefix]

@[simp] theorem length_asBytes (s : String) : s.asBytes.length = s.utf8ByteSize := rfl

section Readers

variable {bytes data : Bytes} {o o' n : Nat} {x : UInt8} {s : String}

theorem readU8_eq_ok : readU8 bytes o = .ok (x, o') ↔ Bytes.Span bytes o [x] o' := by
  unfold readU8
  constructor
  · intro h
    cases hget : bytes[o]? with
    | none =>
      rw [hget] at h
      cases h
    | some y =>
      rw [hget] at h
      cases h
      obtain ⟨hlt, heq⟩ := List.getElem?_eq_some_iff.mp hget
      refine ⟨rfl, hlt, ?_⟩
      rw [List.drop_eq_getElem_cons hlt, heq]
      rfl
  · intro h
    have hget : bytes[o]? = some x := by
      rw [← Nat.add_zero o, ← List.getElem?_drop, h.drop]
      rfl
    rw [hget, h.stop_eq]
    rfl

theorem readSlice_eq_ok : readSlice bytes o n = .ok (data, o') ↔
    data.length = n ∧ Bytes.Span bytes o data o' := by
  rw [readSlice, Except.guard_eq_ok]
  constructor
  · rintro ⟨hle, h⟩
    cases h
    have hlength : ((bytes.drop o).take n).length = n := by
      rw [List.length_take, List.length_drop]
      omega
    refine ⟨hlength, ?_, by omega, ?_⟩
    · rw [hlength]
    · rw [hlength]
  · rintro ⟨rfl, h⟩
    have hle := h.stop_le
    rw [h.stop_eq] at hle
    refine ⟨by omega, ?_⟩
    rw [h.take, h.stop_eq]

theorem readLength_eq_ok : readLength bytes o = .ok (n, o') ↔
    n < 2 ^ 32 ∧ Bytes.Span bytes o (lengthPrefix n) o' := by
  rw [readLength, Except.bind_eq_ok]
  constructor
  · rintro ⟨⟨data, stop⟩, hread, h⟩
    cases h
    obtain ⟨hlength, hspan⟩ := readSlice_eq_ok.mp hread
    have hlt : Bytes.toNat data < 2 ^ 32 := by
      have := Bytes.toNat_lt data
      rw [hlength] at this
      exact this
    have hsize : (UInt32.ofNat (Bytes.toNat data)).toNat = Bytes.toNat data :=
      UInt32.toNat_ofNat_of_lt hlt
    have hfront : lengthPrefix (UInt32.ofNat (Bytes.toNat data)).toNat = data := by
      rw [lengthPrefix, hsize, hsize, Bytes.ofNat_toNat hlength]
    refine ⟨by rw [hsize]; exact hlt, ?_⟩
    rw [hfront]
    exact hspan
  · rintro ⟨hn, hspan⟩
    have hsize : (UInt32.ofNat n).toNat = n := UInt32.toNat_ofNat_of_lt hn
    have hval : Bytes.toNat (lengthPrefix n) = n := by
      rw [lengthPrefix, hsize]
      exact Bytes.toNat_ofNat hn
    refine ⟨_, readSlice_eq_ok.mpr ⟨length_lengthPrefix n, hspan⟩, ?_⟩
    dsimp only
    rw [hval, hsize]
    rfl

theorem fromUtf8_eq_ok : fromUtf8 data o = .ok s ↔ data = s.asBytes := by
  rw [← String.fromUTF8_eq_some, fromUtf8]
  cases String.fromUTF8? ⟨data.toArray⟩ <;> simp

theorem int_ofBeBytes (i : Int64) : (UInt64.ofNat (Bytes.toNat (intToBeBytes i))).toInt64 = i := by
  rw [intToBeBytes, Bytes.toNat_ofNat i.toUInt64.toNat_lt, UInt64.ofNat_toNat,
    Int64.toInt64_toUInt64]

theorem int_toBeBytes (h : data.length = 8) :
    intToBeBytes (UInt64.ofNat (Bytes.toNat data)).toInt64 = data := by
  have hlt : Bytes.toNat data < 2 ^ 64 := by
    have := Bytes.toNat_lt data
    rw [h] at this
    exact this
  rw [intToBeBytes, UInt64.toUInt64_toInt64, UInt64.toNat_ofNat_of_lt' hlt, Bytes.ofNat_toNat h]

theorem float_ofBeBytes (f : F64) : UInt64.ofNat (Bytes.toNat (floatToBeBytes f)) = f.bits := by
  rw [floatToBeBytes, Bytes.toNat_ofNat f.bits.toNat_lt, UInt64.ofNat_toNat]

theorem float_toBeBytes (h : data.length = 8) :
    floatToBeBytes ⟨UInt64.ofNat (Bytes.toNat data)⟩ = data := by
  have hlt : Bytes.toNat data < 2 ^ 64 := by
    have := Bytes.toNat_lt data
    rw [h] at this
    exact this
  rw [floatToBeBytes, UInt64.toNat_ofNat_of_lt' hlt, Bytes.ofNat_toNat h]

end Readers

namespace Wire

variable {bytes : Bytes} {o o' levels : Nat} {w : Wire} {v : RawValue}

theorem print_ne_nil (w : Wire) : w.print ≠ [] := by
  cases w <;> simp [print]

/-- `dec` reads exactly the trees of so many levels. -/
def ReadBy (dec : Nat → Except DocumentError (RawValue × Nat)) (bytes : Bytes)
    (levels : Nat) : Prop :=
  ∀ o v o', dec o = .ok (v, o') ↔
    ∃ w, Accepted levels w ∧ Bytes.Span bytes o (print w) o' ∧ value w = v

variable {dec : Nat → Except DocumentError (RawValue × Nat)}

theorem span_nil (h : o ≤ bytes.length) : Bytes.Span bytes o [] o' ↔ o' = o := by
  constructor
  · intro hspan
    exact hspan.stop_eq
  · rintro rfl
    exact ⟨rfl, h, rfl⟩

theorem readItems_eq_ok (hdec : ReadBy dec bytes levels) (ho : o ≤ bytes.length)
    {count : Nat} {values : List RawValue} :
    readItems dec count o = .ok (values, o') ↔
      ∃ items : List Wire, items.length = count ∧ (∀ w ∈ items, Accepted levels w) ∧
        Bytes.Span bytes o (print.printItems items) o' ∧ value.valueItems items = values := by
  induction count generalizing o values with
  | zero =>
    constructor
    · intro h
      cases h
      exact ⟨[], rfl, by simp, (span_nil ho).mpr rfl, rfl⟩
    · rintro ⟨items, hlength, -, hspan, rfl⟩
      obtain rfl := List.eq_nil_of_length_eq_zero hlength
      rw [(span_nil ho).mp hspan]
      rfl
  | succ count ih =>
    simp only [readItems, Except.bind_eq_ok]
    constructor
    · rintro ⟨⟨item, m⟩, hitem, ⟨rest, m'⟩, hrest, h⟩
      cases h
      obtain ⟨w, hw, hspan, rfl⟩ := (hdec o item m).mp hitem
      obtain ⟨items, hlength, hitems, hspans, rfl⟩ := (ih hspan.stop_le).mp hrest
      refine ⟨w :: items, by rw [List.length_cons, hlength],
        List.forall_mem_cons.mpr ⟨hw, hitems⟩, Bytes.span_append.mpr ⟨m, hspan, hspans⟩, rfl⟩
    · rintro ⟨items, hlength, hitems, hspan, rfl⟩
      cases items with
      | nil => cases hlength
      | cons w items =>
        obtain ⟨hw, hitems⟩ := List.forall_mem_cons.mp hitems
        obtain ⟨m, hspan, hspans⟩ := Bytes.span_append.mp hspan
        have hitem := (hdec o _ m).mpr ⟨w, hw, hspan, rfl⟩
        have hrest := (ih hspan.stop_le).mpr
          ⟨items, Nat.succ.inj hlength, hitems, hspans, rfl⟩
        exact ⟨_, hitem, _, hrest, rfl⟩

theorem readEntries_eq_ok (hdec : ReadBy dec bytes levels) (ho : o ≤ bytes.length)
    {count : Nat} {map map' : List (String × RawValue)} :
    readEntries bytes dec count o map = .ok (map', o') ↔
      ∃ entries : List (String × Wire), entries.length = count ∧
        (∀ e ∈ entries, e.1.utf8ByteSize < 2 ^ 32) ∧ (∀ e ∈ entries, Accepted levels e.2) ∧
        Bytes.Span bytes o (print.printEntries entries) o' ∧
        value.valueEntries entries map = map' := by
  induction count generalizing o map with
  | zero =>
    constructor
    · intro h
      cases h
      exact ⟨[], rfl, by simp, by simp, (span_nil ho).mpr rfl, rfl⟩
    · rintro ⟨entries, hlength, -, -, hspan, rfl⟩
      obtain rfl := List.eq_nil_of_length_eq_zero hlength
      rw [(span_nil ho).mp hspan]
      rfl
  | succ count ih =>
    simp only [readEntries, Except.bind_eq_ok]
    constructor
    · rintro ⟨⟨len, m⟩, hlen, ⟨data, m'⟩, hdata, key, hkey, ⟨val, m''⟩, hval, h⟩
      obtain ⟨hlt, hfront⟩ := readLength_eq_ok.mp hlen
      obtain ⟨hsize, hslice⟩ := readSlice_eq_ok.mp hdata
      obtain rfl := fromUtf8_eq_ok.mp hkey
      obtain ⟨w, hw, hspan, rfl⟩ := (hdec _ _ _).mp hval
      obtain ⟨entries, hlength, hkeys, hentries, hspans, rfl⟩ := (ih hspan.stop_le).mp h
      rw [length_asBytes] at hsize
      subst hsize
      refine ⟨(key, w) :: entries, by rw [List.length_cons, hlength],
        List.forall_mem_cons.mpr ⟨hlt, hkeys⟩, List.forall_mem_cons.mpr ⟨hw, hentries⟩, ?_, rfl⟩
      exact Bytes.span_append.mpr ⟨m, hfront, Bytes.span_append.mpr ⟨m', hslice,
        Bytes.span_append.mpr ⟨m'', hspan, hspans⟩⟩⟩
    · rintro ⟨entries, hlength, hkeys, hentries, hspan, rfl⟩
      cases entries with
      | nil => cases hlength
      | cons e entries =>
        obtain ⟨key, w⟩ := e
        obtain ⟨hlt, hkeys⟩ := List.forall_mem_cons.mp hkeys
        obtain ⟨hw, hentries⟩ := List.forall_mem_cons.mp hentries
        obtain ⟨m, hfront, hspan⟩ := Bytes.span_append.mp hspan
        obtain ⟨m', hslice, hspan⟩ := Bytes.span_append.mp hspan
        obtain ⟨m'', hspan, hspans⟩ := Bytes.span_append.mp hspan
        have hlen := readLength_eq_ok.mpr ⟨hlt, hfront⟩
        have hdata := readSlice_eq_ok.mpr ⟨length_asBytes key, hslice⟩
        have hval := (hdec _ _ _).mpr ⟨w, hw, hspan, rfl⟩
        have hrest := (ih hspan.stop_le).mpr
          ⟨entries, Nat.succ.inj hlength, hkeys, hentries, hspans, rfl⟩
        exact ⟨_, hlen, _, hdata, key, fromUtf8_eq_ok.mpr rfl, _, hval, hrest⟩

/-- A step of the decoder on accepted bytes: the tree that it has read. -/
theorem exists_of_decodeBelow (ih : ReadBy (decodeBelow bytes levels) bytes levels)
    (h : decodeBelow bytes (levels + 1) o = .ok (v, o')) :
    ∃ w, Accepted (levels + 1) w ∧ Bytes.Span bytes o (print w) o' ∧ value w = v := by
  simp only [decodeBelow, Except.bind_eq_ok] at h
  obtain ⟨⟨tag, m⟩, htag, h⟩ := h
  replace htag := readU8_eq_ok.mp htag
  dsimp only at h
  split at h
  · cases h
    exact ⟨.null, .null, htag, rfl⟩
  · obtain ⟨⟨byte, m'⟩, hbyte, h⟩ := Except.bind_eq_ok.mp h
    cases h
    exact ⟨.bool byte, .bool byte,
      Bytes.span_cons.mpr ⟨m, htag, readU8_eq_ok.mp hbyte⟩, rfl⟩
  · obtain ⟨⟨data, m'⟩, hdata, h⟩ := Except.bind_eq_ok.mp h
    cases h
    obtain ⟨hlength, hspan⟩ := readSlice_eq_ok.mp hdata
    refine ⟨.int _, .int _, Bytes.span_cons.mpr ⟨m, htag, ?_⟩, rfl⟩
    rw [int_toBeBytes hlength]
    exact hspan
  · obtain ⟨⟨data, m'⟩, hdata, h⟩ := Except.bind_eq_ok.mp h
    cases h
    obtain ⟨hlength, hspan⟩ := readSlice_eq_ok.mp hdata
    refine ⟨.float _, .float _, Bytes.span_cons.mpr ⟨m, htag, ?_⟩, rfl⟩
    rw [float_toBeBytes hlength]
    exact hspan
  · obtain ⟨⟨len, m'⟩, hlen, h⟩ := Except.bind_eq_ok.mp h
    obtain ⟨hlimit, h⟩ := Except.guard_eq_ok.mp h
    obtain ⟨⟨data, m''⟩, hdata, h⟩ := Except.bind_eq_ok.mp h
    obtain ⟨s, hs, h⟩ := Except.bind_eq_ok.mp h
    cases h
    obtain rfl := fromUtf8_eq_ok.mp hs
    obtain ⟨hsize, hslice⟩ := readSlice_eq_ok.mp hdata
    rw [length_asBytes] at hsize
    subst hsize
    exact ⟨.string s, .string (Nat.not_lt.mp hlimit), Bytes.span_cons.mpr ⟨m, htag,
      Bytes.span_append.mpr ⟨m', (readLength_eq_ok.mp hlen).2, hslice⟩⟩, rfl⟩
  · obtain ⟨⟨len, m'⟩, hlen, h⟩ := Except.bind_eq_ok.mp h
    obtain ⟨hlimit, h⟩ := Except.guard_eq_ok.mp h
    obtain ⟨⟨data, m''⟩, hdata, h⟩ := Except.bind_eq_ok.mp h
    cases h
    obtain ⟨rfl, hslice⟩ := readSlice_eq_ok.mp hdata
    exact ⟨.blob data, .blob (Nat.not_lt.mp hlimit), Bytes.span_cons.mpr ⟨m, htag,
      Bytes.span_append.mpr ⟨m', (readLength_eq_ok.mp hlen).2, hslice⟩⟩, rfl⟩
  · obtain ⟨⟨count, m'⟩, hcount, h⟩ := Except.bind_eq_ok.mp h
    obtain ⟨hlimit, h⟩ := Except.guard_eq_ok.mp h
    obtain ⟨⟨values, m''⟩, hvalues, h⟩ := Except.bind_eq_ok.mp h
    cases h
    have hfront := (readLength_eq_ok.mp hcount).2
    obtain ⟨items, rfl, hitems, hspans, rfl⟩ := (readItems_eq_ok ih hfront.stop_le).mp hvalues
    exact ⟨.array items, .array (Nat.not_lt.mp hlimit) hitems, Bytes.span_cons.mpr ⟨m, htag,
      Bytes.span_append.mpr ⟨m', hfront, hspans⟩⟩, rfl⟩
  · obtain ⟨⟨count, m'⟩, hcount, h⟩ := Except.bind_eq_ok.mp h
    obtain ⟨hlimit, h⟩ := Except.guard_eq_ok.mp h
    obtain ⟨⟨map, m''⟩, hmap, h⟩ := Except.bind_eq_ok.mp h
    cases h
    have hfront := (readLength_eq_ok.mp hcount).2
    obtain ⟨entries, rfl, hkeys, hentries, hspans, rfl⟩ :=
      (readEntries_eq_ok ih hfront.stop_le).mp hmap
    exact ⟨.object entries, .object (Nat.not_lt.mp hlimit) hkeys hentries,
      Bytes.span_cons.mpr ⟨m, htag, Bytes.span_append.mpr ⟨m', hfront, hspans⟩⟩, rfl⟩
  · cases h

/-- A step of the decoder on the bytes of a tree. -/
theorem decodeBelow_of_accepted (ih : ReadBy (decodeBelow bytes levels) bytes levels)
    (hw : Accepted (levels + 1) w) (h : Bytes.Span bytes o (print w) o') :
    decodeBelow bytes (levels + 1) o = .ok (value w, o') := by
  cases hw with
  | null =>
    simp only [decodeBelow, readU8_eq_ok.mpr h, Except.ok_bind]
    rfl
  | bool byte =>
    obtain ⟨m, htag, hbyte⟩ := Bytes.span_cons.mp h
    simp only [decodeBelow, readU8_eq_ok.mpr htag, readU8_eq_ok.mpr hbyte, Except.ok_bind]
    rfl
  | int i =>
    obtain ⟨m, htag, hdata⟩ := Bytes.span_cons.mp h
    have hlength : (intToBeBytes i).length = 8 := Bytes.length_ofNat 8 _
    have hread := readSlice_eq_ok.mpr ⟨hlength, hdata⟩
    simp only [decodeBelow, readU8_eq_ok.mpr htag, hread, Except.ok_bind, int_ofBeBytes]
    rfl
  | float f =>
    obtain ⟨m, htag, hdata⟩ := Bytes.span_cons.mp h
    have hlength : (floatToBeBytes f).length = 8 := Bytes.length_ofNat 8 _
    have hread := readSlice_eq_ok.mpr ⟨hlength, hdata⟩
    simp only [decodeBelow, readU8_eq_ok.mpr htag, hread, Except.ok_bind, float_ofBeBytes]
    rfl
  | @string _ s hsize =>
    obtain ⟨m, htag, h⟩ := Bytes.span_cons.mp h
    obtain ⟨m', hfront, hdata⟩ := Bytes.span_append.mp h
    have hlen := readLength_eq_ok.mpr ⟨hsize.trans_lt (by decide), hfront⟩
    have hread := readSlice_eq_ok.mpr ⟨length_asBytes s, hdata⟩
    simp only [decodeBelow, readU8_eq_ok.mpr htag, hlen, hread, Except.ok_bind,
      if_neg (Nat.not_lt.mpr hsize), fromUtf8_eq_ok.mpr rfl]
    rfl
  | @blob _ b hsize =>
    obtain ⟨m, htag, h⟩ := Bytes.span_cons.mp h
    obtain ⟨m', hfront, hdata⟩ := Bytes.span_append.mp h
    have hlen := readLength_eq_ok.mpr ⟨hsize.trans_lt (by decide), hfront⟩
    have hread := readSlice_eq_ok.mpr ⟨rfl, hdata⟩
    simp only [decodeBelow, readU8_eq_ok.mpr htag, hlen, hread, Except.ok_bind,
      if_neg (Nat.not_lt.mpr hsize)]
    rfl
  | @array _ items hcount hitems =>
    obtain ⟨m, htag, h⟩ := Bytes.span_cons.mp h
    obtain ⟨m', hfront, hspans⟩ := Bytes.span_append.mp h
    have hlen := readLength_eq_ok.mpr ⟨hcount.trans_lt (by decide), hfront⟩
    have hread := (readItems_eq_ok ih hfront.stop_le).mpr ⟨items, rfl, hitems, hspans, rfl⟩
    simp only [decodeBelow, readU8_eq_ok.mpr htag, hlen, hread, Except.ok_bind,
      if_neg (Nat.not_lt.mpr hcount)]
    rfl
  | @object _ entries hcount hkeys hentries =>
    obtain ⟨m, htag, h⟩ := Bytes.span_cons.mp h
    obtain ⟨m', hfront, hspans⟩ := Bytes.span_append.mp h
    have hlen := readLength_eq_ok.mpr ⟨hcount.trans_lt (by decide), hfront⟩
    have hread : readEntries bytes (decodeBelow bytes levels) entries.length m' [] =
        .ok (value.valueEntries entries [], o') :=
      (readEntries_eq_ok ih hfront.stop_le).mpr ⟨entries, rfl, hkeys, hentries, hspans, rfl⟩
    simp only [decodeBelow, readU8_eq_ok.mpr htag, hlen, hread, Except.ok_bind,
      if_neg (Nat.not_lt.mpr hcount)]
    rfl

/-- The decoder reads exactly the bytes of the trees that it accepts. -/
theorem readBy_decodeBelow (bytes : Bytes) (levels : Nat) :
    ReadBy (decodeBelow bytes levels) bytes levels := by
  induction levels with
  | zero =>
    intro o v o'
    constructor
    · intro h
      cases h
    · rintro ⟨w, hw, -⟩
      cases hw
  | succ levels ih =>
    intro o v o'
    constructor
    · exact exists_of_decodeBelow ih
    · rintro ⟨w, hw, hspan, rfl⟩
      exact decodeBelow_of_accepted ih hw hspan

/-- The header and a tree. -/
def printAll (w : Wire) : Bytes := codecMagic ++ [codecVersion] ++ print w

theorem length_printAll (w : Wire) : (printAll w).length = headerSize + (print w).length := by
  rw [printAll, List.length_append]
  rfl

/-- A byte string with the header is the header and what stands behind it. -/
theorem eq_printAll {b : Bytes} (hlength : headerSize ≤ b.length) (hmagic : b.take 3 = codecMagic)
    (hversion : b.getD 3 0 = codecVersion) {o : Nat} (ho : b.length ≤ o)
    (h : Bytes.Span b headerSize (print w) o) : b = printAll w := by
  have hget : b.drop 3 = codecVersion :: b.drop 4 := by
    have hlt : 3 < b.length := hlength
    have hbyte : b[3] = codecVersion := by
      rw [← hversion, List.getD_eq_getElem?_getD, List.getElem?_eq_getElem hlt]
      rfl
    rw [List.drop_eq_getElem_cons hlt, hbyte]
  have hdrop : b.drop 4 = print w := by
    have hspan : b.drop 4 = print w ++ b.drop o := h.drop
    rw [hspan, List.drop_eq_nil_of_le ho, List.append_nil]
  rw [← List.take_append_drop 3 b, hmagic, hget, hdrop]
  rfl

/-- What `decode` accepts, and which value it makes of it. -/
theorem decode_eq_ok {b : Bytes} {v : Value} : decode b = .ok v ↔
    ∃ w, Accepted (maxNestingDepth + 1) w ∧ b = printAll w ∧ value w = v.val := by
  unfold decode
  simp only [Except.guard_eq_ok, not_lt, not_not]
  constructor
  · rintro ⟨hlength, hmagic, hversion, h⟩
    split at h
    · cases h
    · next value o hvalue =>
      obtain ⟨ho, h⟩ := Except.guard_eq_ok.mp h
      cases h
      obtain ⟨w, hw, hspan, hval⟩ := (readBy_decodeBelow b (maxNestingDepth + 1) _ _ _).mp hvalue
      exact ⟨w, hw, eq_printAll hlength hmagic hversion (Nat.not_lt.mp ho) hspan, hval⟩
  · rintro ⟨w, hw, rfl, hval⟩
    have hlength := length_printAll w
    have hspan : Bytes.Span (printAll w) headerSize (print w) (printAll w).length := by
      refine ⟨hlength, le_rfl, ?_⟩
      have hdrop : (printAll w).drop headerSize = print w := rfl
      rw [hdrop, List.take_length]
    have hread : decodeValue (printAll w) headerSize 0 = .ok (v.val, (printAll w).length) :=
      (readBy_decodeBelow _ (maxNestingDepth + 1) _ _ _).mpr ⟨w, hw, hspan, hval⟩
    refine ⟨by omega, rfl, rfl, ?_⟩
    split
    · next e he => cases hread.symm.trans he
    · next value o he =>
      cases hread.symm.trans he
      exact if_neg (lt_irrefl _)

/-- The tree that the encoder writes for a value. -/
def ofValue : RawValue → Wire
  | .null => .null
  | .bool b => .bool (if b then 0x01 else 0x00)
  | .int i => .int i
  | .float f => .float f
  | .string s => .string s
  | .blob b => .blob b
  | .array items => .array (ofItems items)
  | .object entries => .object (ofEntries entries)
where
  ofItems : List RawValue → List Wire
    | [] => []
    | item :: items => ofValue item :: ofItems items
  ofEntries : List (String × RawValue) → List (String × Wire)
    | [] => []
    | (key, val) :: entries => (key, ofValue val) :: ofEntries entries

theorem ofItems_eq_map (items : List RawValue) : ofValue.ofItems items = items.map ofValue := by
  induction items with
  | nil => rfl
  | cons item items ih => rw [ofValue.ofItems, ih, List.map_cons]

theorem ofEntries_eq_map (entries : List (String × RawValue)) :
    ofValue.ofEntries entries = entries.map fun e => (e.1, ofValue e.2) := by
  induction entries with
  | nil => rfl
  | cons e entries ih => rw [ofValue.ofEntries, ih, List.map_cons]

theorem valueItems_eq_map (items : List Wire) : value.valueItems items = items.map value := by
  induction items with
  | nil => rfl
  | cons item items ih => rw [value.valueItems, ih, List.map_cons]

theorem valueEntries_eq_insertAll (entries : List (String × Wire))
    (map : List (String × RawValue)) :
    value.valueEntries entries map =
      Entries.insertAll map (entries.map fun e => (e.1, value e.2)) := by
  induction entries generalizing map with
  | nil => rfl
  | cons e entries ih => exact ih _

theorem valueEntries_of_ascending {entries : List (String × Wire)}
    (h : Entries.Ascending (entries.map fun e => (e.1, value e.2))) :
    value.valueEntries entries [] = entries.map fun e => (e.1, value e.2) := by
  rw [valueEntries_eq_insertAll, Entries.insertAll_nil h]

theorem value_ofValue (h : v.Ordered) : value (ofValue v) = v := by
  induction v using RawValue.induct with
  | null | int | float | string | blob => rfl
  | bool b => cases b <;> rfl
  | array items ih =>
    have hitems : (items.map ofValue).map value = items :=
      map_map_self fun v hv => ih v hv (h.items v hv)
    rw [ofValue, value, ofItems_eq_map, valueItems_eq_map, hitems]
  | object entries ih =>
    obtain ⟨hasc, hvals⟩ := h.entries
    have hentries : (entries.map fun e => (e.1, ofValue e.2)).map (fun e => (e.1, value e.2)) =
        entries :=
      map_map_self fun e he => Prod.ext rfl (ih e he (hvals e he))
    have hmap := valueEntries_of_ascending (hentries.symm ▸ hasc)
    rw [ofValue, value, ofEntries_eq_map, hmap, hentries]

end Wire

end BashfulDB.Data

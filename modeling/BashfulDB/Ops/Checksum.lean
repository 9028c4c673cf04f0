import BashfulDB.Ops.Backup

/-! What the checksums of a snapshot say about its rows. -/
namespace BashfulDB.Ops

/-- What one row adds to the bytes that are hashed. -/
def SerializedRow.bytes (row : SerializedRow) : Bytes := row.keyB64.asBytes ++ row.valueB64.asBytes

/-- Where the key and the value of a row end. -/
def SerializedRow.cuts (row : SerializedRow) : Nat × Nat :=
  (row.keyB64.asBytes.length, row.valueB64.asBytes.length)

def fnv1a (bytes : Bytes) : UInt64 :=
  bytes.foldl (fun h byte => (h ^^^ byte.toUInt64) * fnv1aPrime64) fnv1aOffsetBasis64

namespace SnapshotDump

/-- The bytes that `encode_dump` feeds to the hash of a column family. -/
def hashed (dump : SnapshotDump) (cf : String) : Option Bytes :=
  (dump.rows.get cf).map (·.flatMap SerializedRow.bytes)

def cuts (dump : SnapshotDump) (cf : String) : Option (List (Nat × Nat)) :=
  (dump.rows.get cf).map (·.map SerializedRow.cuts)

end SnapshotDump

theorem foldl_rowChecksum (rows : List SerializedRow) (acc : UInt64) :
    rows.foldl rowChecksum acc = (rows.flatMap SerializedRow.bytes).foldl
      (fun h byte => (h ^^^ byte.toUInt64) * fnv1aPrime64) acc := by
  induction rows generalizing acc with
  | nil => rfl
  | cons row rows ih =>
    rw [List.foldl_cons, List.flatMap_cons, List.foldl_append, ih]
    rfl

/-- The checksum of a column family is the hash of its bytes. -/
theorem get_encodeDump (dump : SnapshotDump) (cf : String) :
    (encodeDump dump).get cf = (dump.hashed cf).map fnv1a := by
  have hfold (l : List (String × List SerializedRow)) (sums : OrdMap String UInt64) :
      l.foldl (fun sums e => sums.insert e.1 (e.2.foldl rowChecksum fnv1aOffsetBasis64)) sums =
        sums.insertAll (l.map fun e => (e.1, fnv1a (e.2.flatMap SerializedRow.bytes))) := by
    induction l generalizing sums with
    | nil => rfl
    | cons e l ih =>
      rw [List.foldl_cons, ih, foldl_rowChecksum]
      rfl
  -- no two entries of the dump have one key
  have hcoherent : OrdMap.Coherent
      (dump.rows.entries.map fun e => (e.1, fnv1a (e.2.flatMap SerializedRow.bytes))) := by
    intro p hp q hq heq
    obtain ⟨⟨k, rows⟩, hrows, rfl⟩ := List.mem_map.mp hp
    obtain ⟨⟨k', rows'⟩, hrows', rfl⟩ := List.mem_map.mp hq
    obtain rfl : k = k' := heq
    rw [← OrdMap.get_eq_some_iff] at hrows hrows'
    cases hrows.symm.trans hrows'
    rfl
  refine Option.ext fun sum => ?_
  rw [encodeDump, hfold, OrdMap.get_insertAll hcoherent]
  simp [SnapshotDump.hashed, OrdMap.get_eq_some_iff]

theorem encodeDump_congr {dump dump' : SnapshotDump} (h : ∀ cf, dump.hashed cf = dump'.hashed cf) :
    encodeDump dump = encodeDump dump' := by
  refine OrdMap.ext_get fun cf => ?_
  rw [get_encodeDump, get_encodeDump, h]

/-- Rows with the same ends are told apart by their bytes. -/
theorem eq_of_bytes {rows rows' : List SerializedRow}
    (hcuts : rows.map SerializedRow.cuts = rows'.map SerializedRow.cuts)
    (hbytes : rows.flatMap SerializedRow.bytes = rows'.flatMap SerializedRow.bytes) :
    rows = rows' := by
  induction rows generalizing rows' with
  | nil => exact (List.map_eq_nil_iff.mp hcuts.symm).symm
  | cons row rows ih =>
    obtain ⟨row', rest, rfl, hrow, hrest⟩ := List.map_eq_cons_iff.mp hcuts.symm
    obtain ⟨hkey, hvalue⟩ := Prod.mk.inj hrow
    rw [List.flatMap_cons, List.flatMap_cons, SerializedRow.bytes, SerializedRow.bytes,
      List.append_assoc, List.append_assoc] at hbytes
    obtain ⟨hk, hbytes⟩ := List.append_inj hbytes hkey.symm
    obtain ⟨hv, hbytes⟩ := List.append_inj hbytes hvalue.symm
    have hsame : row = row' := by
      cases row
      cases row'
      exact congrArg₂ SerializedRow.mk (String.asBytes_inj hk) (String.asBytes_inj hv)
    rw [hsame, ih hrest.symm hbytes]

theorem eq_of_hashed {dump dump' : SnapshotDump} (hcuts : ∀ cf, dump.cuts cf = dump'.cuts cf)
    (hhashed : ∀ cf, dump.hashed cf = dump'.hashed cf) : dump = dump' := by
  have hrows : dump.rows = dump'.rows := by
    refine OrdMap.ext_get fun cf => ?_
    have hc := hcuts cf
    have hh := hhashed cf
    unfold SnapshotDump.cuts at hc
    unfold SnapshotDump.hashed at hh
    cases hget : dump.rows.get cf with
    | none =>
      rw [hget] at hc
      exact (Option.map_eq_none_iff.mp hc.symm).symm
    | some rows =>
      rw [hget] at hc hh
      obtain ⟨rows', hget', hlen⟩ := Option.map_eq_some_iff.mp hc.symm
      rw [hget'] at hh ⊢
      rw [eq_of_bytes hlen.symm (Option.some.inj hh)]
  cases dump
  cases dump'
  exact congrArg SnapshotDump.mk hrows

/-- A row with an empty key and an empty value adds nothing to the bytes that are hashed. -/
def SnapshotDump.twin (dump : SnapshotDump) (cf : String) (rows : List SerializedRow) :
    SnapshotDump :=
  ⟨dump.rows.insert cf (rows ++ [⟨"", ""⟩])⟩

section Twin

variable {dump : SnapshotDump} {cf : String} {rows : List SerializedRow}

theorem hashed_twin (h : dump.rows.get cf = some rows) (c : String) :
    (dump.twin cf rows).hashed c = dump.hashed c := by
  have hempty : SerializedRow.bytes ⟨"", ""⟩ = [] := by decide
  rw [SnapshotDump.hashed, SnapshotDump.twin, OrdMap.get_insert]
  split
  · rename_i hc
    simp [hc, SnapshotDump.hashed, h, hempty]
  · rfl

theorem contains_twin (h : dump.rows.get cf = some rows) (c : String) :
    (dump.twin cf rows).rows.contains c = dump.rows.contains c := by
  rw [OrdMap.contains, SnapshotDump.twin, OrdMap.get_insert]
  split
  · rename_i hc
    simp [hc, OrdMap.contains, h]
  · rfl

theorem twin_ne (h : dump.rows.get cf = some rows) : dump.twin cf rows ≠ dump := by
  intro heq
  have hget : (dump.twin cf rows).rows.get cf = dump.rows.get cf := by rw [heq]
  rw [SnapshotDump.twin, OrdMap.get_insert_self, h] at hget
  simp at hget

end Twin

/-- The bytes that are hashed tell two dumps apart exactly when dumps with the same bytes would cut
them at the same places: no byte says where a key or a value ends. A dump with a column family is
never the only one with its checksums. -/
theorem checksums_bind_iff (dump : SnapshotDump) :
    (∀ dump' : SnapshotDump, (dump ≠ dump' → ∃ cf, dump.hashed cf ≠ dump'.hashed cf) ↔
      ((∀ cf, dump.hashed cf = dump'.hashed cf) → ∀ cf, dump.cuts cf = dump'.cuts cf)) ∧
    (∀ cf, dump.rows.contains cf = true → ∃ dump' : SnapshotDump, dump' ≠ dump ∧
      (∀ c, dump'.rows.contains c = dump.rows.contains c) ∧
      (∀ c, dump'.hashed c = dump.hashed c) ∧ encodeDump dump' = encodeDump dump) := by
  constructor
  · intro dump'
    constructor
    · intro hbind hhashed cf
      by_cases heq : dump = dump'
      · rw [heq]
      · obtain ⟨c, hne⟩ := hbind heq
        exact absurd (hhashed c) hne
    · intro hcuts hne
      by_contra hsame
      have hhashed : ∀ cf, dump.hashed cf = dump'.hashed cf := by simpa using hsame
      exact hne (eq_of_hashed (hcuts hhashed) hhashed)
  · intro cf hcf
    obtain ⟨rows, hrows⟩ := Option.isSome_iff_exists.mp hcf
    exact ⟨dump.twin cf rows, twin_ne hrows, contains_twin hrows, hashed_twin hrows,
      encodeDump_congr (hashed_twin hrows)⟩

/-- The dump of the row `abc`, `def`, and the one of `abcdef` with an empty value. -/
def shifted (key value : String) : SnapshotDump := ⟨OrdMap.empty.insert "default" [⟨key, value⟩]⟩

/-- The end of the key is not in the checksum. -/
theorem shifted_same_checksums :
    shifted "YWJj" "ZGVm" ≠ shifted "YWJjZGVm" "" ∧
      (∀ cf, (shifted "YWJj" "ZGVm").hashed cf = (shifted "YWJjZGVm" "").hashed cf) ∧
      encodeDump (shifted "YWJj" "ZGVm") = encodeDump (shifted "YWJjZGVm" "") := by
  have hbytes : SerializedRow.bytes ⟨"YWJj", "ZGVm"⟩ = SerializedRow.bytes ⟨"YWJjZGVm", ""⟩ := by
    decide
  have hhashed (cf : String) :
      (shifted "YWJj" "ZGVm").hashed cf = (shifted "YWJjZGVm" "").hashed cf := by
    simp [SnapshotDump.hashed, shifted, OrdMap.get_insert, hbytes]
  exact ⟨by decide, hhashed, encodeDump_congr hhashed⟩

end BashfulDB.Ops

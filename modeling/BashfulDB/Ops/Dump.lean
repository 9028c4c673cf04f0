import BashfulDB.Library.Codec
import BashfulDB.Ops.Backup

/-! The dump that a snapshot writes, as a function of the rows it has seen. -/
namespace BashfulDB.Ops

open Storage

/-- What the file formats must satisfy. -/
structure Codecs.RoundTrips (c : Codecs) : Prop where
  base64 : ∀ b, c.decode (c.encode b) = .ok b
  dump : ∀ d, c.dumpFromSlice (c.dumpToVec d) = .ok d
  manifest : ∀ x, c.manifestFromSlice (c.manifestToVec x) = .ok x

theorem commits_append (e : MemEngine) (a b : List WriteBatch) :
    commits e (a ++ b) = commits (commits e a) b :=
  List.foldl_append

namespace FsBackupManager

variable {m : FsBackupManager} {e : MemEngine}

/-- The dump of the rows `view`, one list for each column family. -/
def dumpOf (m : FsBackupManager) (view : ColumnFamily → KvMap) : SnapshotDump :=
  ⟨ColumnFamily.all.foldl
    (fun rows cf => rows.insert cf.name ((view cf).entries.map m.serialize)) OrdMap.empty⟩

/-- The batches committed before the scan of `cf`, in a loop over the listed column families. -/
def committedBefore (others : ColumnFamily → List WriteBatch) :
    List ColumnFamily → ColumnFamily → List WriteBatch
  | [], _ => []
  | c :: cfs, cf => others c ++ if cf = c then [] else committedBefore others cfs cf

/-- Each column family is seen as it was at its own scan. -/
theorem dumpFromEngine_eq (others : ColumnFamily → List WriteBatch) {cfs : List ColumnFamily}
    (hnodup : cfs.Nodup) (rows : OrdMap String (List SerializedRow)) (e : MemEngine) :
    m.dumpFromEngine others cfs rows e =
      (.ok ⟨cfs.foldl (fun rows cf => rows.insert cf.name
        (((commits e (committedBefore others cfs cf)).cfs cf).entries.map m.serialize)) rows⟩,
        commits e (cfs.flatMap others)) := by
  induction cfs generalizing rows e with
  | nil => rfl
  | cons c cfs ih =>
    obtain ⟨hc, hcfs⟩ := List.nodup_cons.mp hnodup
    rw [dumpFromEngine, MemEngine.scan_all]
    dsimp only
    rw [ih hcfs, List.flatMap_cons, commits_append, List.foldl_cons, committedBefore, if_pos rfl,
      List.append_nil]
    congr 3
    refine List.foldl_ext _ _ _ fun rows cf hcf => ?_
    have hne : cf ≠ c := fun heq => hc (heq ▸ hcf)
    rw [committedBefore, if_neg hne, commits_append]

/-- The rows of each column family at its own scan. -/
def seen (e : MemEngine) (others : ColumnFamily → List WriteBatch) (cf : ColumnFamily) : KvMap :=
  (commits e (committedBefore others ColumnFamily.all cf)).cfs cf

theorem dumpFromEngine_all (m : FsBackupManager) (others : ColumnFamily → List WriteBatch)
    (e : MemEngine) : m.dumpFromEngine others ColumnFamily.all OrdMap.empty e =
      (.ok (m.dumpOf (seen e others)), commits e (ColumnFamily.all.flatMap others)) :=
  dumpFromEngine_eq others (by decide) OrdMap.empty e

/-- Without other tasks every column family is seen as it was at the start. -/
theorem seen_quiet (e : MemEngine) : seen e (fun _ => []) = e.cfs := by
  funext cf
  have hnone (cfs : List ColumnFamily) : committedBefore (fun _ => []) cfs cf = [] := by
    induction cfs with
    | nil => rfl
    | cons c cfs ih => rw [committedBefore, ih, ite_self, List.append_nil]
  rw [seen, hnone]
  rfl

/-- The order in which a dump lists the column families: that of their names. -/
def nameOrder : List ColumnFamily :=
  [.default, .hints, .indexes, .metadata, .system, .tombstones]

theorem mem_nameOrder (cf : ColumnFamily) : cf ∈ nameOrder := by cases cf <;> decide

theorem dumpOf_entries (m : FsBackupManager) (view : ColumnFamily → KvMap) :
    (m.dumpOf view).rows.entries =
      nameOrder.map fun cf => (cf.name, (view cf).entries.map m.serialize) := by
  rfl

theorem serialize_injective (h : m.codecs.RoundTrips) : Function.Injective m.serialize := by
  have hencode : Function.Injective m.codecs.encode := by
    intro a b hab
    have hok := congrArg m.codecs.decode hab
    rw [h.base64, h.base64] at hok
    injection hok
  rintro ⟨k, v⟩ ⟨k', v'⟩ heq
  injection heq with hk hv
  exact Prod.ext (hencode hk) (hencode hv)

/-- A dump determines the rows it was made of. -/
theorem dumpOf_injective (h : m.codecs.RoundTrips) : Function.Injective m.dumpOf := by
  intro v w heq
  have hentries := congrArg (fun d => d.rows.entries) heq
  simp only [dumpOf_entries, List.map_inj_left, Prod.mk.injEq, true_and] at hentries
  funext cf
  have hrows := List.map_injective_iff.mpr (serialize_injective h)
    (hentries cf (mem_nameOrder cf))
  cases hv : v cf
  cases hw : w cf
  simpa [hv, hw] using hrows

/-- The operations that put the rows `view`, in the order of a dump. -/
def putBatch (view : ColumnFamily → KvMap) : WriteBatch :=
  nameOrder.flatMap fun cf => (view cf).entries.map fun row => .put cf.name row.1 row.2

theorem mem_putBatch {view : ColumnFamily → KvMap} {op : BatchOp} : op ∈ putBatch view ↔
    ∃ cf k v, (view cf).get k = some v ∧ op = .put cf.name k v := by
  simp only [putBatch, List.mem_flatMap, List.mem_map, OrdMap.get_eq_some_iff]
  constructor
  · rintro ⟨cf, -, ⟨k, v⟩, hkv, rfl⟩
    exact ⟨cf, k, v, hkv, rfl⟩
  · rintro ⟨cf, k, v, hkv, rfl⟩
    exact ⟨cf, mem_nameOrder cf, (k, v), hkv, rfl⟩

theorem known_putBatch (view : ColumnFamily → KvMap) : MemEngine.Known (putBatch view) := by
  intro op hop
  obtain ⟨cf, k, v, -, rfl⟩ := mem_putBatch.mp hop
  exact ⟨cf, rfl⟩

theorem after_putBatch (view : ColumnFamily → KvMap) :
    MemEngine.new.after (putBatch view) = ⟨view⟩ := by
  ext1
  funext cf
  apply OrdMap.ext_get
  intro k
  apply MemEngine.get_after_eq
  · intro op hop hcf
    obtain ⟨c, k, v, hkv, rfl⟩ := mem_putBatch.mp hop
    cases ColumnFamily.name_inj hcf
    exact hkv.symm
  · cases hk : (view cf).get k with
    | none => exact Or.inl rfl
    | some v => exact Or.inr ⟨_, mem_putBatch.mpr ⟨cf, k, v, hk, rfl⟩, rfl, rfl⟩

theorem decodes_dumpOf (h : m.codecs.RoundTrips) (view : ColumnFamily → KvMap) :
    Decodes m (m.dumpOf view) (putBatch view) := by
  have hrows (cf : ColumnFamily) (l : List (Bytes × Bytes)) :
      List.Forall₂ (Puts m) ((l.map m.serialize).map fun row => (cf.name, row))
        (l.map fun row => .put cf.name row.1 row.2) := by
    rw [List.map_map, List.forall₂_map_left_iff, List.forall₂_map_right_iff, List.forall₂_same]
    intro row _
    exact ⟨row.1, row.2, h.base64 _, h.base64 _, rfl⟩
  rw [Decodes, SnapshotDump.flat, dumpOf_entries, List.flatMap_map, putBatch]
  induction nameOrder with
  | nil => exact .nil
  | cons cf cfs ih =>
    rw [List.flatMap_cons, List.flatMap_cons]
    exact List.rel_append (hrows cf (view cf).entries) ih

/-- A dump passes the validation against the manifest written with it. -/
theorem passes_dumpOf (hquorum : m.quorumOk = true) (view : ColumnFamily → KvMap)
    (createdAt : UInt64) :
    Passes m ⟨createdAt, encodeDump (m.dumpOf view)⟩ (m.dumpOf view) (putBatch view) where
  checksum := rfl
  schema := rfl
  quorum := hquorum
  smoke op hop := by
    obtain ⟨cf, k, v, hkv, rfl⟩ := mem_putBatch.mp (List.mem_of_mem_take hop)
    rw [after_putBatch]
    exact (MemEngine.get_name ⟨view⟩ cf k).trans (congrArg Except.ok hkv)

/-- The number of rows in all column families together. -/
def rowCount (e : MemEngine) : Nat := ColumnFamily.all.foldl (fun n cf => n + (e.cfs cf).length) 0

theorem length_putBatch (e : MemEngine) : (putBatch e.cfs).length = rowCount e := by
  simp only [putBatch, rowCount, nameOrder, ColumnFamily.all, OrdMap.length, List.length_flatMap,
    List.length_map, List.map_cons, List.map_nil, List.sum_cons, List.sum_nil, List.foldl_cons,
    List.foldl_nil]
  omega

/-- A stand-in for base64: every byte as the character with its code. -/
def latinEncode (b : Bytes) : String := String.ofList (b.map fun x => Char.ofNat x.toNat)

def latinDecode (s : String) : Except String Bytes :=
  if s.toList.all (·.toNat < 256) then .ok (s.toList.map fun c => UInt8.ofNat c.toNat)
  else .error "Invalid symbol"

theorem latinDecode_latinEncode (b : Bytes) : latinDecode (latinEncode b) = .ok b := by
  have hchar (x : UInt8) : (Char.ofNat x.toNat).toNat = x.toNat := by
    have hall : ∀ n : Fin 256, (Char.ofNat n.val).toNat = n.val := by decide +kernel
    exact hall ⟨x.toNat, x.toNat_lt⟩
  have hall : (b.map fun x => Char.ofNat x.toNat).all (·.toNat < 256) = true := by
    simp only [List.all_map, List.all_eq_true, Function.comp, hchar, decide_eq_true_eq]
    exact fun x _ => x.toNat_lt
  rw [latinDecode, latinEncode, String.toList_ofList, if_pos hall, List.map_map]
  simp [Function.comp_def, hchar]

/-- A manager with that stand-in, for which every directory holds the given dump. -/
def latinManager (dump : SnapshotDump) : FsBackupManager where
  codecs :=
    { encode := latinEncode
      decode := latinDecode
      dumpToVec := fun _ => []
      dumpFromSlice := fun _ => .ok dump
      manifestToVec := fun _ => []
      manifestFromSlice := fun _ => .ok ⟨0, OrdMap.empty⟩ }
  allNodes := [⟨⟨0⟩⟩]
  nodeState _ := some .healthy
  config := ⟨86400, 1, 16⟩

theorem exists_roundTrips : ∃ c : Codecs, c.RoundTrips := by
  have hrow : Countable SerializedRow :=
    Function.Injective.countable (f := fun r => (r.keyB64, r.valueB64)) (by
      rintro ⟨k, v⟩ ⟨k', v'⟩ h
      cases h
      rfl)
  have hdump : Countable SnapshotDump :=
    Function.Injective.countable (f := fun d => d.rows.entries) (by
      rintro ⟨⟨l, _⟩⟩ ⟨⟨l', _⟩⟩ h
      cases h
      rfl)
  have hmanifest : Countable SnapshotManifest :=
    Function.Injective.countable (f := fun x => (x.createdAt, x.checksums.entries)) (by
      rintro ⟨t, ⟨l, _⟩⟩ ⟨t', ⟨l', _⟩⟩ h
      cases h
      rfl)
  have : Nonempty SnapshotDump := ⟨⟨OrdMap.empty⟩⟩
  have : Nonempty SnapshotManifest := ⟨⟨0, OrdMap.empty⟩⟩
  obtain ⟨dumpToVec, dumpFromSlice, hd⟩ := Codec.exists_codec SnapshotDump Bytes
  obtain ⟨manifestToVec, manifestFromSlice, hm⟩ := Codec.exists_codec SnapshotManifest Bytes
  exact ⟨⟨latinEncode, latinDecode, dumpToVec, dumpFromSlice, manifestToVec, manifestFromSlice⟩,
    latinDecode_latinEncode, hd, hm⟩

end FsBackupManager

end BashfulDB.Ops

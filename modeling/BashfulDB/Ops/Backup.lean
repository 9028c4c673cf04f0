import BashfulDB.Cluster.Membership
import BashfulDB.Library.Digits
import BashfulDB.Storage.Engine
import Mathlib.Data.String.Basic

/-! Snapshots of the storage engine on the file system, and their restoration. -/
namespace BashfulDB.Ops

open Clock Cluster Storage

structure SerializedRow where
  keyB64 : String
  valueB64 : String
  deriving DecidableEq

structure SnapshotDump where
  rows : OrdMap String (List SerializedRow)
  deriving DecidableEq

/-- The rows in the order of the loops over a dump, each with its column family. -/
def SnapshotDump.flat (dump : SnapshotDump) : List (String × SerializedRow) :=
  dump.rows.entries.flatMap fun e => e.2.map fun row => (e.1, row)

structure SnapshotManifest where
  createdAt : UInt64
  checksums : OrdMap String UInt64
  deriving DecidableEq

/-- The functions of other libraries that the manager calls. -/
structure Codecs where
  /-- `BASE64_STANDARD.encode`. -/
  encode : Bytes → String
  /-- `BASE64_STANDARD.decode`. -/
  decode : String → Except String Bytes
  /-- `serde_json::to_vec_pretty` and `from_slice`, for each of the two files. -/
  dumpToVec : SnapshotDump → Bytes
  dumpFromSlice : Bytes → Except String SnapshotDump
  manifestToVec : SnapshotManifest → Bytes
  manifestFromSlice : Bytes → Except String SnapshotManifest

inductive OpsError
  /-- The file that could not be read. -/
  | io (file : String)
  | storage (e : StorageError)
  | json (message : String)
  | snapshotNotFound (id : String)
  | validationFailed (message : String)
  deriving DecidableEq, Repr

/-- Retention is in whole seconds. -/
structure BackupConfig where
  retention : Nat
  quorumNodes : Nat
  smokeKeys : Nat

structure FsBackupManager where
  codecs : Codecs
  allNodes : List NodeId
  nodeState : NodeId → Option NodeState
  config : BackupConfig

structure ValidationReport where
  checksumOk : Bool
  schemaOk : Bool
  quorumOk : Bool
  smokeOk : Bool
  deriving DecidableEq, Repr

structure RestoreReport where
  restoredRows : Nat
  validation : ValidationReport
  deriving DecidableEq, Repr

/-- The two artifacts in a snapshot's directory. -/
structure SnapshotDir where
  manifest : Option Bytes
  data : Option Bytes
  deriving DecidableEq

/-- The directories under the snapshot root, by name. -/
abbrev Disk := OrdMap String SnapshotDir

structure SnapshotInfo where
  id : String
  createdAt : Nat

def fnv1aOffsetBasis64 : UInt64 := 1469598103934665603

def fnv1aPrime64 : UInt64 := 1099511628211

def rowChecksum (acc : UInt64) (row : SerializedRow) : UInt64 :=
  (row.keyB64.asBytes ++ row.valueB64.asBytes).foldl
    (fun h byte => (h ^^^ byte.toUInt64) * fnv1aPrime64) acc

def encodeDump (dump : SnapshotDump) : OrdMap String UInt64 :=
  dump.rows.entries.foldl
    (fun sums e => sums.insert e.1 (e.2.foldl rowChecksum fnv1aOffsetBasis64)) OrdMap.empty

def listSnapshots (disk : Disk) : List SnapshotInfo :=
  (disk.keys.filterMap fun id => (Digits.parseU64 id).map (SnapshotInfo.mk id)).mergeSort
    fun a b => a.createdAt ≤ b.createdAt

def deleteSnapshot (disk : Disk) (id : String) : Except OpsError Disk :=
  if disk.contains id then .ok (disk.erase id) else .error (.snapshotNotFound id)

def schemaConsistencyOk (dump : SnapshotDump) : Bool :=
  dump.rows.contains ColumnFamily.metadata.name && dump.rows.contains ColumnFamily.indexes.name

/-- Batches of other tasks; one that is refused changes nothing. -/
def commits (e : MemEngine) (batches : List WriteBatch) : MemEngine :=
  batches.foldl (fun e batch => (e.writeBatch batch).2) e

/-- What the outside decides during one `create_snapshot`: the readings of the clock, the batches
that other tasks commit right before the scan of each column family, and those after the last. -/
structure SnapshotEnv where
  idAt : UInt64
  createdAt : UInt64
  prunedAt : UInt64
  others : ColumnFamily → List WriteBatch
  late : List WriteBatch

namespace FsBackupManager

variable (m : FsBackupManager)

def serialize (row : Bytes × Bytes) : SerializedRow :=
  ⟨m.codecs.encode row.1, m.codecs.encode row.2⟩

def dumpFromEngine (others : ColumnFamily → List WriteBatch) :
    List ColumnFamily → OrdMap String (List SerializedRow) → MemEngine →
      Except OpsError SnapshotDump × MemEngine
  | [], rows, e => (.ok ⟨rows⟩, e)
  | cf :: cfs, rows, e =>
    let e := commits e (others cf)
    match e.scan cf.name [] [] with
    | .error err => (.error (.storage err), e)
    | .ok items => dumpFromEngine others cfs (rows.insert cf.name (items.map m.serialize)) e

def writeSnapshotArtifacts (disk : Disk) (id : String) (dump : SnapshotDump)
    (createdAt : UInt64) : Disk :=
  let manifest : SnapshotManifest := ⟨createdAt, encodeDump dump⟩
  disk.insert id ⟨some (m.codecs.manifestToVec manifest), some (m.codecs.dumpToVec dump)⟩

def pruneRetention (disk : Disk) (now : UInt64) : Except OpsError Disk :=
  let cutoff := now.toNat - m.config.retention
  (listSnapshots disk).foldlM
    (fun disk snapshot =>
      if snapshot.createdAt < cutoff then deleteSnapshot disk snapshot.id else .ok disk) disk

/-- A checkpoint of the in-memory engine only makes the directory. -/
def checkpoint (disk : Disk) (id : String) : Disk :=
  if disk.contains id then disk else disk.insert id ⟨none, none⟩

def createSnapshot (e : MemEngine) (disk : Disk) (env : SnapshotEnv) :
    Except OpsError String × MemEngine × Disk :=
  let id := toString env.idAt.toNat
  let disk := checkpoint disk id
  match m.dumpFromEngine env.others ColumnFamily.all OrdMap.empty e with
  | (.error err, e) => (.error err, e, disk)
  | (.ok dump, e) =>
    let disk := m.writeSnapshotArtifacts disk id dump env.createdAt
    let e := commits e env.late
    match m.pruneRetention disk env.prunedAt with
    | .error err => (.error err, e, disk)
    | .ok disk => (.ok id, e, disk)

def readFile (file : String) (content : Option Bytes) : Except OpsError Bytes :=
  match content with
  | some raw => .ok raw
  | none => .error (.io file)

def readSnapshotArtifacts (disk : Disk) (id : String) :
    Except OpsError (SnapshotManifest × SnapshotDump) :=
  match disk.get id with
  | none => .error (.snapshotNotFound id)
  | some dir => do
    let manifestRaw ← readFile "manifest.json" dir.manifest
    let dumpRaw ← readFile "data.json" dir.data
    let manifest ← (m.codecs.manifestFromSlice manifestRaw).mapError .json
    let dump ← (m.codecs.dumpFromSlice dumpRaw).mapError .json
    .ok (manifest, dump)

def decodeRow (row : SerializedRow) : Except OpsError (Bytes × Bytes) := do
  let key ← (m.codecs.decode row.keyB64).mapError .validationFailed
  let value ← (m.codecs.decode row.valueB64).mapError .validationFailed
  .ok (key, value)

def restoreBatch (dump : SnapshotDump) : Except OpsError WriteBatch :=
  dump.flat.mapM fun (cf, row) =>
    (m.decodeRow row).map fun (key, value) => BatchOp.put cf key value

/-- All rows are deleted in one batch, and those of the dump put in another. -/
def applyDump (e : MemEngine) (dump : SnapshotDump) : Except OpsError Nat × MemEngine :=
  match ColumnFamily.all.mapM fun cf => (e.scan cf.name [] []).map (cf, ·) with
  | .error err => (.error (.storage err), e)
  | .ok scans =>
    let clearBatch := scans.flatMap fun (cf, rows) => rows.map (BatchOp.delete cf.name ·.1)
    match if clearBatch.isEmpty then (.ok (), e) else e.writeBatch clearBatch with
    | (.error err, e) => (.error (.storage err), e)
    | (.ok (), e) =>
      match m.restoreBatch dump with
      | .error err => (.error err, e)
      | .ok restoreBatch =>
        match if restoreBatch.isEmpty then (.ok (), e) else e.writeBatch restoreBatch with
        | (.error err, e) => (.error (.storage err), e)
        | (.ok (), e) => (.ok restoreBatch.length, e)

def quorumOk : Bool :=
  let healthy := m.allNodes.countP fun node => (m.nodeState node).any (·.canServeWrites)
  healthy ≥ m.config.quorumNodes

def smokeTestOk (e : MemEngine) (sampled : Nat) :
    List (String × SerializedRow) → Except OpsError Bool
  | [] => .ok true
  | (cf, row) :: rows =>
    if sampled ≥ m.config.smokeKeys then .ok true
    else do
      let (key, expected) ← m.decodeRow row
      let actual ← (e.get cf key).mapError .storage
      if actual ≠ some expected then .ok false else smokeTestOk e (sampled + 1) rows

def validate (e : MemEngine) (disk : Disk) (id : String) : Except OpsError ValidationReport := do
  let (manifest, dump) ← m.readSnapshotArtifacts disk id
  let smokeOk ← m.smokeTestOk e 0 dump.flat
  .ok ⟨manifest.checksums = encodeDump dump, schemaConsistencyOk dump, m.quorumOk, smokeOk⟩

def restore (e : MemEngine) (disk : Disk) (id : String) :
    Except OpsError RestoreReport × MemEngine :=
  match m.readSnapshotArtifacts disk id with
  | .error err => (.error err, e)
  | .ok (_, dump) =>
    match m.applyDump e dump with
    | (.error err, e) => (.error err, e)
    | (.ok restoredRows, e) =>
      match m.validate e disk id with
      | .error err => (.error err, e)
      | .ok v =>
        if !(v.checksumOk && v.schemaOk && v.quorumOk && v.smokeOk) then
          (.error (.validationFailed "post-restore validation pipeline failed"), e)
        else (.ok ⟨restoredRows, v⟩, e)

variable {m} {e : MemEngine} {disk : Disk} {id : String}

theorem writeBatch_guarded (e : MemEngine) (batch : WriteBatch) :
    (if batch.isEmpty then (.ok (), e) else e.writeBatch batch) = e.writeBatch batch := by
  cases batch <;> rfl

/-- The batch that empties the engine. -/
def clearBatch (e : MemEngine) : WriteBatch :=
  ColumnFamily.all.flatMap fun cf => (e.cfs cf).entries.map (BatchOp.delete cf.name ·.1)

theorem mem_clearBatch {op : BatchOp} : op ∈ clearBatch e ↔
    ∃ cf k v, ((e.cfs cf).get k = some v) ∧ op = .delete cf.name k := by
  simp only [clearBatch, List.mem_flatMap, List.mem_map, OrdMap.get_eq_some_iff]
  constructor
  · rintro ⟨cf, -, ⟨k, v⟩, hkv, rfl⟩
    exact ⟨cf, k, v, hkv, rfl⟩
  · rintro ⟨cf, k, v, hkv, rfl⟩
    exact ⟨cf, cf.mem_all, (k, v), hkv, rfl⟩

theorem writeBatch_clearBatch (e : MemEngine) :
    e.writeBatch (clearBatch e) = (.ok (), MemEngine.new) := by
  have hknown : MemEngine.Known (clearBatch e) := by
    intro op hop
    obtain ⟨cf, k, v, -, rfl⟩ := mem_clearBatch.mp hop
    exact ⟨cf, rfl⟩
  have hempty : e.after (clearBatch e) = MemEngine.new := by
    ext1
    funext cf
    apply OrdMap.ext_get
    intro k
    refine MemEngine.get_after_eq (T := fun _ => none) ?_ ?_
    · intro op hop _
      obtain ⟨cf, k, v, -, rfl⟩ := mem_clearBatch.mp hop
      rfl
    · cases hk : (e.cfs cf).get k with
      | none => exact Or.inl rfl
      | some v => exact Or.inr ⟨_, mem_clearBatch.mpr ⟨cf, k, v, hk, rfl⟩, rfl, rfl⟩
  rcases e.writeBatch_cases (clearBatch e) with ⟨-, hok⟩ | ⟨hunknown, -⟩
  · rw [hok, hempty]
  · exact absurd hknown hunknown

/-- Whatever the engine held is gone before the first row of the dump is decoded. -/
theorem applyDump_eq (m : FsBackupManager) (e : MemEngine) (dump : SnapshotDump) :
    m.applyDump e dump = match m.restoreBatch dump with
      | .error err => (.error err, MemEngine.new)
      | .ok batch =>
        match MemEngine.new.writeBatch batch with
        | (.error err, e) => (.error (.storage err), e)
        | (.ok (), e) => (.ok batch.length, e) := by
  have hscan : (ColumnFamily.all.mapM fun cf => (e.scan cf.name [] []).map (cf, ·)) =
      .ok (ColumnFamily.all.map fun cf => (cf, (e.cfs cf).entries)) := by
    simp only [MemEngine.scan_all, Except.map]
    exact List.mapM_pure
  have hclear : (ColumnFamily.all.map fun cf => (cf, (e.cfs cf).entries)).flatMap
      (fun (cf, rows) => rows.map (BatchOp.delete cf.name ·.1)) = clearBatch e := by
    rw [List.flatMap_map]
    rfl
  simp only [applyDump, hscan, hclear, writeBatch_guarded]
  rw [writeBatch_clearBatch]

/-- The artifacts of the snapshot are there and can be parsed. -/
def Readable (m : FsBackupManager) (disk : Disk) (id : String) (manifest : SnapshotManifest)
    (dump : SnapshotDump) : Prop :=
  ∃ manifestRaw dumpRaw, disk.get id = some ⟨some manifestRaw, some dumpRaw⟩ ∧
    m.codecs.manifestFromSlice manifestRaw = .ok manifest ∧
    m.codecs.dumpFromSlice dumpRaw = .ok dump

theorem readFile_eq_ok {file : String} {content : Option Bytes} {raw : Bytes} :
    readFile file content = .ok raw ↔ content = some raw := by
  cases content <;> simp [readFile]

theorem readSnapshotArtifacts_eq_ok {manifest : SnapshotManifest} {dump : SnapshotDump} :
    m.readSnapshotArtifacts disk id = .ok (manifest, dump) ↔ Readable m disk id manifest dump := by
  unfold readSnapshotArtifacts
  constructor
  · intro h
    split at h
    · cases h
    · rename_i dir hdir
      obtain ⟨manifestRaw, hmanifestRaw, h⟩ := Except.bind_eq_ok.mp h
      obtain ⟨dumpRaw, hdumpRaw, h⟩ := Except.bind_eq_ok.mp h
      obtain ⟨_, hmanifest, h⟩ := Except.bind_eq_ok.mp h
      obtain ⟨_, hdump, h⟩ := Except.bind_eq_ok.mp h
      cases h
      refine ⟨manifestRaw, dumpRaw, ?_, Except.mapError_eq_ok.mp hmanifest,
        Except.mapError_eq_ok.mp hdump⟩
      rw [hdir, ← readFile_eq_ok.mp hmanifestRaw, ← readFile_eq_ok.mp hdumpRaw]
  · rintro ⟨manifestRaw, dumpRaw, hdir, hmanifest, hdump⟩
    simp only [hdir, readFile, hmanifest, hdump, Except.mapError, Except.ok_bind]

/-- The operation puts the row, which can be decoded. -/
def Puts (m : FsBackupManager) (row : String × SerializedRow) (op : BatchOp) : Prop :=
  ∃ key value, m.codecs.decode row.2.keyB64 = .ok key ∧
    m.codecs.decode row.2.valueB64 = .ok value ∧ op = .put row.1 key value

/-- The batch puts the rows of the dump, in their order. -/
def Decodes (m : FsBackupManager) (dump : SnapshotDump) (batch : WriteBatch) : Prop :=
  List.Forall₂ (Puts m) dump.flat batch

theorem decodeRow_eq_ok {row : SerializedRow} {key value : Bytes} :
    m.decodeRow row = .ok (key, value) ↔
      m.codecs.decode row.keyB64 = .ok key ∧ m.codecs.decode row.valueB64 = .ok value := by
  simp only [decodeRow, Except.bind_eq_ok, Except.mapError_eq_ok, Except.ok.injEq, Prod.mk.injEq]
  constructor
  · rintro ⟨k, hk, v, hv, rfl, rfl⟩
    exact ⟨hk, hv⟩
  · rintro ⟨hk, hv⟩
    exact ⟨key, hk, value, hv, rfl, rfl⟩

theorem restoreBatch_eq_ok {dump : SnapshotDump} {batch : WriteBatch} :
    m.restoreBatch dump = .ok batch ↔ Decodes m dump batch := by
  have hrow (r : String × SerializedRow) (op : BatchOp) :
      ((m.decodeRow r.2).map fun (key, value) => BatchOp.put r.1 key value) = .ok op ↔
        Puts m r op := by
    rw [Except.map_eq_ok, Puts]
    constructor
    · rintro ⟨⟨key, value⟩, hrow, rfl⟩
      exact ⟨key, value, (decodeRow_eq_ok.mp hrow).1, (decodeRow_eq_ok.mp hrow).2, rfl⟩
    · rintro ⟨key, value, hk, hv, rfl⟩
      exact ⟨(key, value), decodeRow_eq_ok.mpr ⟨hk, hv⟩, rfl⟩
  rw [restoreBatch, Except.mapM_eq_ok, Decodes]
  simp only [hrow]

/-- The engine answers with what the operation has put. -/
def Holds (e : MemEngine) (op : BatchOp) : Prop := e.get op.cf op.key = .ok op.outcome

instance (e : MemEngine) (op : BatchOp) : Decidable (Holds e op) :=
  inferInstanceAs (Decidable (e.get op.cf op.key = .ok op.outcome))

/-- The smoke test looks at the first rows of the dump, as many as configured. -/
theorem smokeTestOk_eq {rows : List (String × SerializedRow)} {batch : WriteBatch}
    (hputs : List.Forall₂ (Puts m) rows batch) (hknown : MemEngine.Known batch) (sampled : Nat) :
    m.smokeTestOk e sampled rows =
      .ok (decide (∀ op ∈ batch.take (m.config.smokeKeys - sampled), Holds e op)) := by
  induction hputs generalizing sampled with
  | nil => simp [smokeTestOk]
  | @cons row op rows batch hput _ ih =>
    obtain ⟨cf, row⟩ := row
    obtain ⟨key, value, hkey, hvalue, rfl⟩ := hput
    rw [smokeTestOk]
    split
    · rename_i hdone
      simp [Nat.sub_eq_zero_of_le hdone]
    · rename_i hmore
      obtain ⟨n, hn⟩ : ∃ n, m.config.smokeKeys - sampled = n + 1 :=
        ⟨m.config.smokeKeys - sampled - 1, by omega⟩
      have hnext : m.config.smokeKeys - (sampled + 1) = n := by omega
      obtain ⟨c, hc⟩ := hknown (.put cf key value) (by simp)
      have hcf : cf = c.name := hc
      subst hcf
      have hrest := ih (fun o ho => hknown o (by simp [ho])) (sampled + 1)
      rw [decodeRow_eq_ok.mpr ⟨hkey, hvalue⟩, Except.ok_bind]
      simp only [MemEngine.get_name, Except.mapError, Except.ok_bind, hrest, hnext, hn,
        List.take_succ_cons, List.forall_mem_cons]
      have hholds : Holds e (.put c.name key value) ↔ (e.cfs c).get key = some value := by
        simp [Holds, MemEngine.get_name, BatchOp.cf, BatchOp.key, BatchOp.outcome]
      by_cases hrow : (e.cfs c).get key = some value <;> simp [hrow, hholds]

/-- The dump passes the validation that follows its restoration. -/
structure Passes (m : FsBackupManager) (manifest : SnapshotManifest) (dump : SnapshotDump)
    (batch : WriteBatch) : Prop where
  checksum : manifest.checksums = encodeDump dump
  schema : schemaConsistencyOk dump = true
  quorum : m.quorumOk = true
  smoke : ∀ op ∈ batch.take m.config.smokeKeys, Holds (MemEngine.new.after batch) op

/-- What a restoration can come to. -/
inductive Outcome (m : FsBackupManager) (e : MemEngine) (disk : Disk) (id : String) :
    Except OpsError RestoreReport × MemEngine → Prop
  | unreadable {err : OpsError} : (¬ ∃ manifest dump, Readable m disk id manifest dump) →
      Outcome m e disk id (.error err, e)
  | unusable {err : OpsError} {manifest : SnapshotManifest} {dump : SnapshotDump} :
      Readable m disk id manifest dump →
      (¬ ∃ batch, Decodes m dump batch ∧ MemEngine.Known batch) →
      Outcome m e disk id (.error err, MemEngine.new)
  | invalid {err : OpsError} {manifest : SnapshotManifest} {dump : SnapshotDump}
      {batch : WriteBatch} : Readable m disk id manifest dump → Decodes m dump batch →
      MemEngine.Known batch → ¬ Passes m manifest dump batch →
      Outcome m e disk id (.error err, MemEngine.new.after batch)
  | restored {manifest : SnapshotManifest} {dump : SnapshotDump} {batch : WriteBatch} :
      Readable m disk id manifest dump → Decodes m dump batch → MemEngine.Known batch →
      Passes m manifest dump batch →
      Outcome m e disk id
        (.ok ⟨batch.length, ⟨true, true, true, true⟩⟩, MemEngine.new.after batch)

theorem decodes_unique {dump : SnapshotDump} {a b : WriteBatch} (ha : Decodes m dump a)
    (hb : Decodes m dump b) : a = b := by
  rw [← restoreBatch_eq_ok] at ha hb
  cases ha.symm.trans hb
  rfl

theorem restore_outcome (m : FsBackupManager) (e : MemEngine) (disk : Disk) (id : String) :
    Outcome m e disk id (m.restore e disk id) := by
  unfold restore
  cases hread : m.readSnapshotArtifacts disk id with
  | error err =>
    refine .unreadable ?_
    rintro ⟨manifest, dump, hok⟩
    rw [readSnapshotArtifacts_eq_ok.mpr hok] at hread
    cases hread
  | ok artifacts =>
    obtain ⟨manifest, dump⟩ := artifacts
    have hreadable := readSnapshotArtifacts_eq_ok.mp hread
    dsimp only
    rw [applyDump_eq]
    cases hbatch : m.restoreBatch dump with
    | error err =>
      refine .unusable hreadable ?_
      rintro ⟨batch, hdecodes, -⟩
      rw [restoreBatch_eq_ok.mpr hdecodes] at hbatch
      cases hbatch
    | ok batch =>
      have hdecodes := restoreBatch_eq_ok.mp hbatch
      dsimp only
      rcases MemEngine.new.writeBatch_cases batch with ⟨hknown, hwrite⟩ | ⟨hunknown, err, hwrite⟩
      · rw [hwrite]
        have hvalidate : m.validate (MemEngine.new.after batch) disk id =
            .ok ⟨manifest.checksums = encodeDump dump, schemaConsistencyOk dump, m.quorumOk,
              decide (∀ op ∈ batch.take m.config.smokeKeys,
                Holds (MemEngine.new.after batch) op)⟩ := by
          rw [validate, hread, Except.ok_bind]
          simp only [smokeTestOk_eq hdecodes hknown, Except.ok_bind, Nat.sub_zero]
        simp only [hvalidate]
        by_cases hpass : Passes m manifest dump batch
        · simp only [hpass.checksum, hpass.schema, hpass.quorum, decide_eq_true hpass.smoke]
          exact .restored hreadable hdecodes hknown hpass
        · split
          · exact .invalid hreadable hdecodes hknown hpass
          · rename_i hflags
            simp only [Bool.not_eq_true, Bool.not_eq_false', Bool.and_eq_true,
              decide_eq_true_eq] at hflags
            exact absurd ⟨hflags.1.1.1, hflags.1.1.2, hflags.1.2, hflags.2⟩ hpass
      · rw [hwrite]
        refine .unusable hreadable ?_
        rintro ⟨other, hother, hknown⟩
        exact hunknown (decodes_unique hdecodes hother ▸ hknown)

end FsBackupManager

end BashfulDB.Ops

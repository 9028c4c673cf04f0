import BashfulDB.Ops.Dump
import Mathlib.Data.List.Nodup

/-! What a restoration leaves of the engine, after success and after failure. -/
namespace BashfulDB.Ops.FsBackupManager

open Clock Cluster Storage

variable {m : FsBackupManager} {e : MemEngine} {disk : Disk} {id : String}

/-- A restoration that fails leaves every column family as it was. -/
def AllOrNothing (m : FsBackupManager) (e : MemEngine) (disk : Disk) (id : String) : Prop :=
  ∀ err, (m.restore e disk id).1 = .error err →
    ∀ cf, (m.restore e disk id).2.cfs cf = e.cfs cf

/-- The stored files do no harm to an engine that holds `e`: they cannot be read, or they decode,
name known column families and pass the validation, or the engine already held what they leave. -/
def Harmless (m : FsBackupManager) (e : MemEngine) (disk : Disk) (id : String) : Prop :=
  ∀ manifest dump, Readable m disk id manifest dump →
    (∃ batch, Decodes m dump batch ∧ MemEngine.Known batch ∧
      (Passes m manifest dump batch ∨ e = MemEngine.new.after batch)) ∨
    ((¬ ∃ batch, Decodes m dump batch ∧ MemEngine.Known batch) ∧ e = MemEngine.new)

theorem readable_unique {manifest manifest' : SnapshotManifest} {dump dump' : SnapshotDump}
    (h : Readable m disk id manifest dump) (h' : Readable m disk id manifest' dump') :
    manifest = manifest' ∧ dump = dump' := by
  rw [← readSnapshotArtifacts_eq_ok] at h h'
  cases h.symm.trans h'
  exact ⟨rfl, rfl⟩

theorem restore_allOrNothing_iff (m : FsBackupManager) (e : MemEngine) (disk : Disk)
    (id : String) : AllOrNothing m e disk id ↔ Harmless m e disk id := by
  have houtcome := restore_outcome m e disk id
  unfold AllOrNothing Harmless
  generalize m.restore e disk id = r at houtcome
  cases houtcome with
  | unreadable hunreadable =>
    refine iff_of_true (fun _ _ _ => rfl) ?_
    intro manifest dump hreadable
    exact absurd ⟨manifest, dump, hreadable⟩ hunreadable
  | @unusable err manifest dump hreadable hunusable =>
    constructor
    · intro h manifest' dump' hreadable'
      obtain ⟨rfl, rfl⟩ := readable_unique hreadable hreadable'
      exact Or.inr ⟨hunusable, MemEngine.ext (funext fun cf => (h err rfl cf).symm)⟩
    · intro h _ _ cf
      rcases h _ _ hreadable with ⟨batch, hdecodes, hknown, -⟩ | ⟨-, he⟩
      · exact absurd ⟨batch, hdecodes, hknown⟩ hunusable
      · rw [he]
  | @invalid err manifest dump batch hreadable hdecodes hknown hfails =>
    constructor
    · intro h manifest' dump' hreadable'
      obtain ⟨rfl, rfl⟩ := readable_unique hreadable hreadable'
      exact Or.inl ⟨batch, hdecodes, hknown,
        Or.inr (MemEngine.ext (funext fun cf => (h err rfl cf).symm))⟩
    · intro h _ _ cf
      rcases h _ _ hreadable with ⟨other, hother, -, hpass | he⟩ | ⟨hnone, -⟩
      · exact absurd (decodes_unique hdecodes hother ▸ hpass) hfails
      · rw [he, decodes_unique hdecodes hother]
      · exact absurd ⟨batch, hdecodes, hknown⟩ hnone
  | @restored manifest dump batch hreadable hdecodes hknown hpass =>
    refine iff_of_true (fun err herr => ?_) ?_
    · cases herr
    · intro manifest' dump' hreadable'
      obtain ⟨rfl, rfl⟩ := readable_unique hreadable hreadable'
      exact Or.inl ⟨batch, hdecodes, hknown, Or.inl hpass⟩

/-- Every directory holds the same, undecodable row. -/
def garbledManager : FsBackupManager :=
  latinManager ⟨OrdMap.empty.insert "default" [⟨"→", "a"⟩]⟩

def oneRow : MemEngine := MemEngine.new.update .default (·.insert [1] [2])

/-- A dump that cannot be decoded is noticed when the rows it was to replace are gone. -/
theorem garbled_dump_loses_rows :
    (garbledManager.restore oneRow (OrdMap.empty.insert "7" ⟨some [], some []⟩) "7").1 =
      .error (.validationFailed "Invalid symbol") ∧
    (oneRow.cfs .default).get [1] = some [2] ∧
    ((garbledManager.restore oneRow (OrdMap.empty.insert "7" ⟨some [], some []⟩) "7").2.cfs
      .default).get [1] = none ∧
    ¬ AllOrNothing garbledManager oneRow (OrdMap.empty.insert "7" ⟨some [], some []⟩) "7" := by
  have hrun : (garbledManager.restore oneRow (OrdMap.empty.insert "7" ⟨some [], some []⟩) "7").1 =
        .error (.validationFailed "Invalid symbol") ∧
      (oneRow.cfs .default).get [1] = some [2] ∧
      ((garbledManager.restore oneRow (OrdMap.empty.insert "7" ⟨some [], some []⟩) "7").2.cfs
        .default).get [1] = none := by
    decide +kernel
  refine ⟨hrun.1, hrun.2.1, hrun.2.2, ?_⟩
  intro hall
  have hsame := hrun.2.2
  rw [hall _ hrun.1, hrun.2.1] at hsame
  cases hsame

/-- The directory that `create_snapshot` writes for an engine that holds `e` throughout. -/
def written (m : FsBackupManager) (e : MemEngine) (createdAt : UInt64) : SnapshotDir :=
  let manifest : SnapshotManifest := ⟨createdAt, encodeDump (m.dumpOf e.cfs)⟩
  ⟨some (m.codecs.manifestToVec manifest), some (m.codecs.dumpToVec (m.dumpOf e.cfs))⟩

theorem readable_written (h : m.codecs.RoundTrips) {createdAt : UInt64}
    (hdisk : disk.get id = some (m.written e createdAt)) :
    Readable m disk id ⟨createdAt, encodeDump (m.dumpOf e.cfs)⟩ (m.dumpOf e.cfs) :=
  ⟨_, _, hdisk, h.manifest _, h.dump _⟩

theorem mem_listSnapshots {s : SnapshotInfo} : s ∈ listSnapshots disk ↔
    disk.contains s.id ∧ Digits.parseU64 s.id = some s.createdAt := by
  rw [listSnapshots, List.mem_mergeSort, List.mem_filterMap]
  simp only [OrdMap.mem_keys, Option.map_eq_some_iff]
  constructor
  · rintro ⟨id, hid, t, ht, rfl⟩
    exact ⟨hid, ht⟩
  · rintro ⟨hid, ht⟩
    exact ⟨s.id, hid, s.createdAt, ht, rfl⟩

theorem nodup_listSnapshots (disk : Disk) : ((listSnapshots disk).map SnapshotInfo.id).Nodup := by
  have hperm : (listSnapshots disk).Perm
      (disk.keys.filterMap fun id => (Digits.parseU64 id).map (SnapshotInfo.mk id)) :=
    List.mergeSort_perm _ _
  rw [(hperm.map SnapshotInfo.id).nodup_iff, List.map_filterMap]
  refine List.Nodup.filterMap ?_ disk.nodup_keys
  intro a b id ha hb
  simp only [Option.map_map, Option.mem_def, Option.map_eq_some_iff] at ha hb
  obtain ⟨_, -, rfl⟩ := ha
  obtain ⟨_, -, hb⟩ := hb
  exact hb.symm

/-- The loop of `prune_retention`: every listed snapshot is still there when its turn comes. -/
theorem prune_loop (cutoff : Nat) (snapshots : List SnapshotInfo) (disk : Disk)
    (hnodup : (snapshots.map SnapshotInfo.id).Nodup)
    (hthere : ∀ s ∈ snapshots, disk.contains s.id) :
    ∃ pruned, (snapshots.foldlM (fun disk s =>
        if s.createdAt < cutoff then deleteSnapshot disk s.id else .ok disk) disk) = .ok pruned ∧
      ∀ id, pruned.get id =
        if snapshots.any fun s => s.id = id ∧ s.createdAt < cutoff then none else disk.get id := by
  induction snapshots generalizing disk with
  | nil => exact ⟨disk, rfl, fun id => rfl⟩
  | cons s snapshots ih =>
    rw [List.map_cons, List.nodup_cons] at hnodup
    obtain ⟨hout, hnodup⟩ := hnodup
    obtain ⟨hs, hthere⟩ := List.forall_mem_cons.mp hthere
    rw [List.foldlM_cons]
    by_cases hold : s.createdAt < cutoff
    · have hrest : ∀ t ∈ snapshots, (disk.erase s.id).contains t.id := by
        intro t ht
        have hne : t.id ≠ s.id := fun heq => hout (heq ▸ List.mem_map_of_mem ht)
        rw [OrdMap.contains, OrdMap.get_erase, if_neg hne]
        exact hthere t ht
      obtain ⟨pruned, hok, hget⟩ := ih (disk.erase s.id) hnodup hrest
      refine ⟨pruned, ?_, ?_⟩
      · rw [if_pos hold, deleteSnapshot, if_pos hs, Except.ok_bind, hok]
      · intro id
        rw [hget, OrdMap.get_erase]
        by_cases hid : id = s.id
        · simp [hid, hold]
        · simp [hid, Ne.symm hid]
    · obtain ⟨pruned, hok, hget⟩ := ih disk hnodup hthere
      refine ⟨pruned, ?_, ?_⟩
      · rw [if_neg hold, Except.ok_bind, hok]
      · intro id
        rw [hget]
        simp [hold]

/-- Pruning removes the directories whose names are numbers below the cutoff. -/
theorem pruneRetention_spec (m : FsBackupManager) (disk : Disk) (now : UInt64) :
    ∃ pruned, m.pruneRetention disk now = .ok pruned ∧ ∀ id t, Digits.parseU64 id = some t →
      pruned.get id = if t < now.toNat - m.config.retention then none else disk.get id := by
  obtain ⟨pruned, hok, hget⟩ := prune_loop (now.toNat - m.config.retention) (listSnapshots disk)
    disk (nodup_listSnapshots disk) fun s hs => (mem_listSnapshots.mp hs).1
  refine ⟨pruned, hok, fun id t ht => ?_⟩
  rw [hget]
  by_cases hthere : disk.contains id
  · have hany : ((listSnapshots disk).any fun s =>
        s.id = id ∧ s.createdAt < now.toNat - m.config.retention) = true ↔
        t < now.toNat - m.config.retention := by
      simp only [List.any_eq_true, mem_listSnapshots, decide_eq_true_eq]
      constructor
      · rintro ⟨s, ⟨-, hs⟩, rfl, hold⟩
        cases hs.symm.trans ht
        exact hold
      · intro hold
        exact ⟨⟨id, t⟩, ⟨hthere, ht⟩, rfl, hold⟩
    simp only [hany]
  · have hnone : disk.get id = none := by simpa [OrdMap.contains] using hthere
    simp [hnone]

/-- A snapshot taken while nothing else writes is restored exactly, whatever the engine held in
between, as long as its directory is there. Only retention takes it away. -/
theorem restore_createSnapshot (m : FsBackupManager) (hcodecs : m.codecs.RoundTrips)
    (hquorum : m.quorumOk = true) (e e' : MemEngine) (disk disk' : Disk)
    (idAt createdAt prunedAt : UInt64)
    (hdisk' : disk'.get (toString idAt.toNat) = some (m.written e createdAt)) :
    (∃ after, m.createSnapshot e disk ⟨idAt, createdAt, prunedAt, fun _ => [], []⟩ =
        (.ok (toString idAt.toNat), e, after) ∧
      after.get (toString idAt.toNat) =
        if idAt.toNat < prunedAt.toNat - m.config.retention then none
        else some (m.written e createdAt)) ∧
    m.restore e' disk' (toString idAt.toNat) =
      (.ok ⟨rowCount e, ⟨true, true, true, true⟩⟩, e) := by
  constructor
  · have hdump := m.dumpFromEngine_all (fun _ => []) e
    rw [seen_quiet] at hdump
    have hquiet : ColumnFamily.all.flatMap (fun _ => ([] : List WriteBatch)) = [] := by simp
    rw [hquiet] at hdump
    obtain ⟨pruned, hok, hget⟩ := m.pruneRetention_spec
      (m.writeSnapshotArtifacts (checkpoint disk (toString idAt.toNat)) (toString idAt.toNat)
        (m.dumpOf e.cfs) createdAt) prunedAt
    refine ⟨pruned, ?_, ?_⟩
    · simp only [createSnapshot, hdump, hok]
      rfl
    · rw [hget _ _ (Digits.parseU64_toString idAt.toNat_lt), writeSnapshotArtifacts,
        OrdMap.get_insert_self]
      rfl
  · have houtcome := restore_outcome m e' disk' (toString idAt.toNat)
    have hreadable := readable_written hcodecs hdisk'
    have hdecodes := decodes_dumpOf hcodecs e.cfs
    have hpass := passes_dumpOf hquorum e.cfs createdAt
    generalize m.restore e' disk' (toString idAt.toNat) = r at houtcome ⊢
    cases houtcome with
    | unreadable hunreadable => exact absurd ⟨_, _, hreadable⟩ hunreadable
    | unusable hother hunusable =>
      obtain ⟨rfl, rfl⟩ := readable_unique hreadable hother
      exact absurd ⟨_, hdecodes, known_putBatch _⟩ hunusable
    | invalid hother hbatch _ hfails =>
      obtain ⟨rfl, rfl⟩ := readable_unique hreadable hother
      cases decodes_unique hdecodes hbatch
      exact absurd hpass hfails
    | restored hother hbatch =>
      obtain ⟨rfl, rfl⟩ := readable_unique hreadable hother
      cases decodes_unique hdecodes hbatch
      rw [length_putBatch, after_putBatch]

theorem oneRow_restored : ∃ m : FsBackupManager, m.codecs.RoundTrips ∧ m.quorumOk = true ∧
    m.restore .new (OrdMap.empty.insert "7" (m.written oneRow 7)) "7" =
      (.ok ⟨1, ⟨true, true, true, true⟩⟩, oneRow) := by
  obtain ⟨c, hc⟩ := exists_roundTrips
  let m : FsBackupManager := ⟨c, [⟨⟨0⟩⟩], fun _ => some .healthy, ⟨86400, 1, 16⟩⟩
  have hquorum : m.quorumOk = true := rfl
  exact ⟨m, hc, hquorum, (restore_createSnapshot m hc hquorum oneRow .new OrdMap.empty
    (OrdMap.empty.insert "7" (m.written oneRow 7)) 7 7 7 (OrdMap.get_insert_self _)).2⟩

end BashfulDB.Ops.FsBackupManager

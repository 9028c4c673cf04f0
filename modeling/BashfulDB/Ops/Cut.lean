import BashfulDB.Ops.Dump

/-! When the dump of a snapshot is the content of the engine at one moment. -/
namespace BashfulDB.Ops.FsBackupManager

open Storage

/-- The batches of other tasks during a `create_snapshot`, in the order of their commits. -/
def concurrent (env : SnapshotEnv) : List WriteBatch :=
  ColumnFamily.all.flatMap env.others ++ env.late

/-- The dump is the one that an undisturbed `dump_from_engine` would have made at some moment,
after some of the concurrent batches and before the rest. -/
def ConsistentCut (m : FsBackupManager) (e : MemEngine) (env : SnapshotEnv) : Prop :=
  ∃ front back, concurrent env = front ++ back ∧
    (m.dumpFromEngine env.others ColumnFamily.all OrdMap.empty e).1 =
      (m.dumpFromEngine (fun _ => []) ColumnFamily.all OrdMap.empty (commits e front)).1

/-- The batches, taken together, leave the rows of `cf` as they were. -/
def Leaves (e : MemEngine) (batches : List WriteBatch) (cf : ColumnFamily) : Prop :=
  (commits e batches).cfs cf = e.cfs cf

/-- There is a moment such that the batches between it and the scan of a column family, be the
scan before or after it, leave that column family as it was. -/
def Untorn (e : MemEngine) (env : SnapshotEnv) : Prop :=
  ∃ front back, concurrent env = front ++ back ∧ ∀ cf,
    (∃ between, committedBefore env.others ColumnFamily.all cf = front ++ between ∧
      Leaves (commits e front) between cf) ∨
    (∃ between, front = committedBefore env.others ColumnFamily.all cf ++ between ∧
      Leaves (commits e (committedBefore env.others ColumnFamily.all cf)) between cf)

/-- No batch has an operation on `cf`. -/
def Spares (batches : List WriteBatch) (cf : ColumnFamily) : Prop :=
  ∀ batch ∈ batches, ∀ op ∈ batch, op.cf ≠ cf.name

/-- There is a moment such that no batch between it and the scan of a column family, be the scan
before or after it, has an operation on that column family. -/
def Separate (env : SnapshotEnv) : Prop :=
  ∃ front back, concurrent env = front ++ back ∧ ∀ cf,
    (∃ between, committedBefore env.others ColumnFamily.all cf = front ++ between ∧
      Spares between cf) ∨
    (∃ between, front = committedBefore env.others ColumnFamily.all cf ++ between ∧
      Spares between cf)

variable {m : FsBackupManager} {e : MemEngine} {env : SnapshotEnv} {cf : ColumnFamily}

theorem committedBefore_initial {others : ColumnFamily → List WriteBatch}
    {cfs : List ColumnFamily} (h : cf ∈ cfs) :
    committedBefore others cfs cf <+: cfs.flatMap others := by
  induction cfs with
  | nil => cases h
  | cons c cfs ih =>
    rw [committedBefore, List.flatMap_cons, List.prefix_append_right_inj]
    split
    · exact List.nil_prefix
    · rename_i hne
      exact ih ((List.mem_cons.mp h).resolve_left hne)

/-- The rows seen of `cf` are those of a moment when the batches in between leave them. -/
theorem seen_eq_iff {front back : List WriteBatch} (h : concurrent env = front ++ back)
    (cf : ColumnFamily) : seen e env.others cf = (commits e front).cfs cf ↔
      (∃ between, committedBefore env.others ColumnFamily.all cf = front ++ between ∧
        Leaves (commits e front) between cf) ∨
      (∃ between, front = committedBefore env.others ColumnFamily.all cf ++ between ∧
        Leaves (commits e (committedBefore env.others ColumnFamily.all cf)) between cf) := by
  have hscan : committedBefore env.others ColumnFamily.all cf <+: concurrent env :=
    (committedBefore_initial cf.mem_all).trans (List.prefix_append _ _)
  have hfront : front <+: concurrent env := h ▸ List.prefix_append front back
  unfold seen Leaves
  constructor
  · intro heq
    rcases List.prefix_or_prefix_of_prefix hfront hscan with ⟨between, hb⟩ | ⟨between, hb⟩
    · refine Or.inl ⟨between, hb.symm, ?_⟩
      rw [← commits_append, hb, heq]
    · refine Or.inr ⟨between, hb.symm, ?_⟩
      rw [← commits_append, hb, heq]
  · rintro (⟨between, hb, hleaves⟩ | ⟨between, hb, hleaves⟩)
    · rw [hb, commits_append, hleaves]
    · rw [hb, commits_append, hleaves]

theorem leaves_of_spares {batches : List WriteBatch} (h : Spares batches cf) :
    Leaves e batches cf := by
  induction batches generalizing e with
  | nil => rfl
  | cons batch batches ih =>
    obtain ⟨hbatch, hbatches⟩ := List.forall_mem_cons.mp h
    have hone : (e.writeBatch batch).2.cfs cf = e.cfs cf := by
      rcases e.writeBatch_cases batch with ⟨-, heq⟩ | ⟨-, err, heq⟩
      · rw [heq]
        exact MemEngine.cfs_after_of_ne hbatch
      · rw [heq]
    exact (ih hbatches).trans hone

theorem untorn_of_separate (e : MemEngine) (h : Separate env) : Untorn e env := by
  obtain ⟨front, back, hbatches, hcfs⟩ := h
  refine ⟨front, back, hbatches, fun cf => ?_⟩
  rcases hcfs cf with ⟨between, hb, hspares⟩ | ⟨between, hb, hspares⟩
  · exact Or.inl ⟨between, hb, leaves_of_spares hspares⟩
  · exact Or.inr ⟨between, hb, leaves_of_spares hspares⟩

theorem consistentCut_iff_untorn (hcodecs : m.codecs.RoundTrips) (e : MemEngine)
    (env : SnapshotEnv) : ConsistentCut m e env ↔ Untorn e env := by
  refine exists₂_congr fun front back => and_congr_right fun hbatches => ?_
  rw [dumpFromEngine_all, dumpFromEngine_all, seen_quiet, Except.ok.injEq,
    (dumpOf_injective hcodecs).eq_iff, funext_iff]
  exact forall_congr' (seen_eq_iff hbatches)

/-- Batches before the first scan and after the last one do no harm. -/
theorem separate_of_quiet (h : ∀ cf, cf ≠ .default → env.others cf = []) : Separate env := by
  have hbefore (cf : ColumnFamily) :
      committedBefore env.others ColumnFamily.all cf = env.others .default := by
    have hnone (cfs : List ColumnFamily) (hcfs : .default ∉ cfs) :
        committedBefore env.others cfs cf = [] := by
      induction cfs with
      | nil => rfl
      | cons c cfs ih =>
        obtain ⟨hc, hcfs⟩ := not_or.mp (List.mem_cons.not.mp hcfs)
        rw [committedBefore, h c (Ne.symm hc), ih hcfs, ite_self, List.append_nil]
    rw [ColumnFamily.all, committedBefore, hnone _ (by decide), ite_self, List.append_nil]
  refine ⟨env.others .default, env.late, ?_, fun cf => Or.inl ⟨[], ?_, by simp [Spares]⟩⟩
  · simp [concurrent, ColumnFamily.all, h]
  · rw [hbefore, List.append_nil]

/-- A dump is a consistent cut when the batches keep apart from the scans, as they do when none
commits between the first scan and the last. Whatever they do, it is one just where they leave what
was scanned as it was. -/
theorem consistentCut_of_separate (hcodecs : m.codecs.RoundTrips) (e : MemEngine)
    (env : SnapshotEnv) :
    ((∀ cf, cf ≠ .default → env.others cf = []) → Separate env) ∧
      (Separate env → ConsistentCut m e env) ∧ (ConsistentCut m e env ↔ Untorn e env) := by
  have hiff := consistentCut_iff_untorn hcodecs e env
  exact ⟨separate_of_quiet, fun h => hiff.mpr (untorn_of_separate e h), hiff⟩

/-- A batch before the first scan, one on a column family that is yet to be scanned, and one on a
column family that has been scanned, after the last scan. -/
def partedEnv : SnapshotEnv where
  idAt := 7
  createdAt := 7
  prunedAt := 7
  others
    | .default => [[.put "default" [1] [2], .put "metadata" [3] [4]]]
    | .metadata => [[.delete "metadata" [3]]]
    | _ => []
  late := [[.delete "default" [1]]]

/-- Three batches commit during the dump, which is of the moment after the second. -/
theorem consistentCut_of_separate_parted : ∃ m : FsBackupManager, m.codecs.RoundTrips ∧
    (concurrent partedEnv).length = 3 ∧ Separate partedEnv ∧ ConsistentCut m .new partedEnv := by
  obtain ⟨c, hc⟩ := exists_roundTrips
  have hseparate : Separate partedEnv := by
    refine ⟨ColumnFamily.all.flatMap partedEnv.others, partedEnv.late, rfl, fun cf => ?_⟩
    cases cf with
    | default => exact Or.inr ⟨[[.delete "metadata" [3]]], rfl, by simp [Spares]; decide⟩
    | _ => exact Or.inl ⟨[], rfl, by simp [Spares]⟩
  exact ⟨⟨c, [], fun _ => none, ⟨0, 0, 0⟩⟩, hc, rfl, hseparate,
    (consistentCut_of_separate hc .new partedEnv).2.1 hseparate⟩

/-- A batch over two column families that is committed between their scans. -/
def tornEnv : SnapshotEnv where
  idAt := 7
  createdAt := 7
  prunedAt := 7
  others
    | .metadata => [[.put "default" [1] [2], .put "metadata" [3] [4]]]
    | _ => []
  late := []

/-- The dump has the second row of the batch without the first. -/
theorem torn_batch_dumped :
    (((latinManager ⟨OrdMap.empty⟩).dumpFromEngine tornEnv.others ColumnFamily.all OrdMap.empty
        .new).1.toOption.map fun dump => (dump.rows.get "default", dump.rows.get "metadata")) =
      some (some [], some [(latinManager ⟨OrdMap.empty⟩).serialize ([3], [4])]) ∧
    ¬ ConsistentCut (latinManager ⟨OrdMap.empty⟩) .new tornEnv := by
  refine ⟨by decide +kernel, ?_⟩
  rintro ⟨front, back, hbatches, hdump⟩
  have hone : concurrent tornEnv = [[.put "default" [1] [2], .put "metadata" [3] [4]]] := rfl
  rw [hone, eq_comm, List.append_eq_singleton_iff] at hbatches
  rcases hbatches with ⟨rfl, -⟩ | ⟨rfl, -⟩
  · revert hdump
    decide +kernel
  · revert hdump
    decide +kernel

end BashfulDB.Ops.FsBackupManager

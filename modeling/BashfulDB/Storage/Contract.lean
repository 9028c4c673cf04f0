import BashfulDB.Storage.Engine
import Mathlib.Data.List.Induction

/-! What the memory engine promises of its batches and of its scans. -/
namespace BashfulDB.Storage

/-- The call of the engine that does what an operation of a batch does. -/
def BatchOp.call (e : MemEngine) : BatchOp → Except StorageError MemEngine
  | .put cf key value => e.put cf key value
  | .delete cf key => e.delete cf key

/-- The operations of a batch on one row. -/
def WriteBatch.on (batch : WriteBatch) (cf : ColumnFamily) (key : Bytes) : WriteBatch :=
  batch.filter fun op => op.cf = cf.name ∧ op.key = key

theorem validateCfName_eq_error {cf : String} {err : StorageError}
    (h : validateCfName cf = .error err) :
    err = .unknownColumnFamily cf ∧ ∀ c : ColumnFamily, cf ≠ c.name := by
  constructor
  · unfold validateCfName at h
    split at h
    · cases h
    · cases h
      rfl
  · rintro c rfl
    rw [validateCfName_name] at h
    cases h

namespace MemEngine

variable {e : MemEngine} {cf : ColumnFamily} {batch : WriteBatch} {op : BatchOp}

theorem call_known (h : op.cf = cf.name) : op.call e = .ok (e.after [op]) := by
  rw [← update_applyTo e h]
  cases op with
  | put c key value =>
    obtain rfl : c = cf.name := h
    rw [BatchOp.call, put, validateCfName_name]
    rfl
  | delete c key =>
    obtain rfl : c = cf.name := h
    rw [BatchOp.call, delete, validateCfName_name]
    rfl

theorem foldlM_call (h : Known batch) (e : MemEngine) :
    batch.foldlM BatchOp.call e = .ok (e.after batch) := by
  induction batch generalizing e with
  | nil => rfl
  | cons op batch ih =>
    obtain ⟨⟨cf, hcf⟩, hbatch⟩ := List.forall_mem_cons.mp h
    rw [List.foldlM_cons, call_known hcf, Except.ok_bind, ih hbatch, ← after_cons]

/-- Of the operations on one row the last one counts. -/
theorem get_after (e : MemEngine) (batch : WriteBatch) (cf : ColumnFamily) (key : Bytes) :
    ((e.after batch).cfs cf).get key =
      (batch.on cf key).getLast?.elim ((e.cfs cf).get key) BatchOp.outcome := by
  induction batch using List.reverseRecOn with
  | nil => rfl
  | append_singleton batch op ih =>
    rw [after_append, WriteBatch.on, List.filter_append]
    by_cases hop : op.cf = cf.name ∧ op.key = key
    · have hrow : key = op.key := hop.2.symm
      simp [after, effect, hop.1, BatchOp.get_applyTo, hrow]
    · have hlast : [op].filter (fun op => op.cf = cf.name ∧ op.key = key) = [] := by simp [hop]
      rw [hlast, List.append_nil]
      refine Eq.trans ?_ ih
      by_cases hcf : op.cf = cf.name
      · have hrow : key ≠ op.key := fun heq => hop ⟨hcf, heq.symm⟩
        simp [after, effect, hcf, BatchOp.get_applyTo, hrow]
      · simp [after, effect, hcf]

theorem writeBatch_unknown (e : MemEngine) (h : ¬ Known batch) :
    ∃ op ∈ batch, (∀ c : ColumnFamily, op.cf ≠ c.name) ∧
      e.writeBatch batch = (.error (.unknownColumnFamily op.cf), e) := by
  unfold writeBatch
  cases hvalid : forM batch fun op => discard (validateCfName op.cf) with
  | ok => exact absurd ((forM_validate batch).mp hvalid) h
  | error err =>
    obtain ⟨op, hop, hdiscard⟩ := Except.forM_eq_error hvalid
    have herr : validateCfName op.cf = .error err := by
      cases hcf : validateCfName op.cf with
      | ok cf => simp [hcf, discard, Functor.mapConst, Except.map] at hdiscard
      | error err' =>
        simpa [hcf, discard, Functor.mapConst, Except.map] using hdiscard
    obtain ⟨rfl, hunknown⟩ := validateCfName_eq_error herr
    exact ⟨op, hop, hunknown, rfl⟩

/-- A batch of known column families has the effect of its operations called one by one, so that
the last one on a row counts. Any other batch is refused and changes nothing. -/
theorem writeBatch_atomic (e : MemEngine) (batch : WriteBatch) :
    (Known batch → ∃ e', e.writeBatch batch = (.ok (), e') ∧
      batch.foldlM BatchOp.call e = .ok e' ∧
      ∀ cf key, (e'.cfs cf).get key =
        (batch.on cf key).getLast?.elim ((e.cfs cf).get key) BatchOp.outcome) ∧
    (¬ Known batch → ∃ op ∈ batch, (∀ c : ColumnFamily, op.cf ≠ c.name) ∧
      e.writeBatch batch = (.error (.unknownColumnFamily op.cf), e)) := by
  refine ⟨fun h => ?_, writeBatch_unknown e⟩
  exact ⟨e.after batch, writeBatch_known h, foldlM_call h e, get_after e batch⟩

end MemEngine

/-- `std::ops::Bound`. -/
inductive Bound
  | unbounded
  | included (key : Bytes)
  | excluded (key : Bytes)

namespace Bound

/-- The key is not before this bound, as the start of a range. -/
def startsAt : Bound → Bytes → Bool
  | unbounded, _ => true
  | included start, key => start ≤ key
  | excluded start, key => start < key

/-- The key is not behind this bound, as the end of a range. -/
def endsAt : Bound → Bytes → Bool
  | unbounded, _ => true
  | included stop, key => key ≤ stop
  | excluded stop, key => key < stop

/-- The bounds on which `BTreeMap::range` panics: its start exceeds its end, or excludes the key
that its end excludes. -/
def panics : Bound × Bound → Bool
  | (excluded start, excluded stop) => stop ≤ start
  | (included start, included stop) | (included start, excluded stop)
  | (excluded start, included stop) => stop < start
  | _ => false

end Bound

def rangeBounds (start stop : Bytes) : Bound × Bound :=
  (if start.isEmpty then .unbounded else .included start,
    if stop.isEmpty then .unbounded else .excluded stop)

/-- `BTreeMap<Vec<u8>, Vec<u8>>`, with whether its tree has a root node. The first insertion
allocates one, and it stays when all rows are gone. -/
structure BTree where
  rows : KvMap
  rooted : Bool
  rooted_of_row : rows.entries ≠ [] → rooted = true

namespace BTree

def new : BTree := ⟨OrdMap.empty, false, fun h => absurd rfl h⟩

def insert (t : BTree) (key value : Bytes) : BTree :=
  ⟨t.rows.insert key value, true, fun _ => rfl⟩

def remove (t : BTree) (key : Bytes) : BTree :=
  ⟨t.rows.erase key, t.rooted, fun h => t.rooted_of_row fun hnil => h (by
    simp [OrdMap.erase, OrdMap.retain, hnil])⟩

/-- `Clone` builds the tree anew: without rows there is no root node. -/
def clone (t : BTree) : BTree :=
  ⟨t.rows, !t.rows.entries.isEmpty, by cases t.rows.entries <;> simp⟩

/-- `BTreeMap::range`, where `none` is its panic. A tree without a root node is not searched. -/
def range (t : BTree) (bounds : Bound × Bound) : Option (List (Bytes × Bytes)) :=
  if t.rooted ∧ Bound.panics bounds then none
  else some (t.rows.entries.filter fun row => bounds.1.startsAt row.1 && bounds.2.endsAt row.1)

def apply (t : BTree) : BatchOp → BTree
  | .put _ key value => t.insert key value
  | .delete _ key => t.remove key

theorem rows_apply (t : BTree) (op : BatchOp) : (t.apply op).rows = op.applyTo t.rows := by
  cases op <;> rfl

end BTree

/-- The engine with the trees that hold its rows. -/
structure TreeEngine where
  cfs : ColumnFamily → BTree

namespace TreeEngine

def new : TreeEngine := ⟨fun _ => BTree.new⟩

/-- The rows, which is all that a panic-free call depends on. -/
def content (e : TreeEngine) : MemEngine := ⟨fun cf => (e.cfs cf).rows⟩

/-- The writes so far, of single calls and of batches. -/
def after (e : TreeEngine) (batch : WriteBatch) : TreeEngine :=
  ⟨fun cf => batch.foldl (fun t op => if op.cf = cf.name then t.apply op else t) (e.cfs cf)⟩

/-- `MemSnapshot`: a copy of the trees. -/
def snapshot (e : TreeEngine) : TreeEngine := ⟨fun cf => (e.cfs cf).clone⟩

/-- `scan` of the engine and of a snapshot, where `none` is a panic. -/
def scan (e : TreeEngine) (cf : String) (start stop : Bytes) :
    Option (Except StorageError (List (Bytes × Bytes))) :=
  match validateCfName cf with
  | .error err => some (.error err)
  | .ok cf => ((e.cfs cf).range (rangeBounds start stop)).map .ok

theorem content_after (e : TreeEngine) (batch : WriteBatch) :
    (e.after batch).content = e.content.after batch := by
  have hrows (cf : ColumnFamily) (t : BTree) :
      (batch.foldl (fun t op => if op.cf = cf.name then t.apply op else t) t).rows =
        batch.foldl (MemEngine.effect cf) t.rows := by
    induction batch generalizing t with
    | nil => rfl
    | cons op batch ih =>
      rw [List.foldl_cons, List.foldl_cons, ih, MemEngine.effect, apply_ite BTree.rows,
        BTree.rows_apply]
  exact MemEngine.ext (funext fun cf => hrows cf (e.cfs cf))

end TreeEngine

/-- Both bounds are there, and the start is above the end. -/
def Inverted (start stop : Bytes) : Prop := start ≠ [] ∧ stop ≠ [] ∧ stop < start

theorem panics_rangeBounds {start stop : Bytes} :
    Bound.panics (rangeBounds start stop) = true ↔ Inverted start stop := by
  cases start <;> cases stop <;> simp [rangeBounds, Bound.panics, Inverted]

theorem admits_rangeBounds (start stop key : Bytes) :
    ((rangeBounds start stop).1.startsAt key && (rangeBounds start stop).2.endsAt key) =
      MemEngine.inRange start stop key := by
  cases start <;> cases stop <;> simp [rangeBounds, Bound.startsAt, Bound.endsAt, MemEngine.inRange]

/-- The rows from `start` up to but without `stop`, ascending, where an empty bound is none. -/
structure Selects (rows : KvMap) (start stop : Bytes) (selected : List (Bytes × Bytes)) : Prop where
  ascending : Entries.Ascending selected
  mem_iff : ∀ key value, (key, value) ∈ selected ↔
    rows.get key = some value ∧ (start = [] ∨ start ≤ key) ∧ (stop = [] ∨ key < stop)

theorem selects_filter (rows : KvMap) (start stop : Bytes) :
    Selects rows start stop
      (rows.entries.filter fun row => MemEngine.inRange start stop row.1) where
  ascending := rows.ascending.filter _
  mem_iff key value := by
    simp [List.mem_filter, MemEngine.inRange, OrdMap.get_eq_some_iff]

/-- A range that ends where it starts, or before, has no rows. -/
theorem Selects.eq_nil {rows : KvMap} {start stop : Bytes} {selected : List (Bytes × Bytes)}
    (h : Selects rows start stop selected) (hstart : start ≠ []) (hstop : stop ≠ [])
    (hle : stop ≤ start) : selected = [] := by
  refine List.eq_nil_iff_forall_not_mem.mpr ?_
  rintro ⟨key, value⟩ hmem
  obtain ⟨-, hlow, hhigh⟩ := (h.mem_iff key value).mp hmem
  have hlt := lt_of_lt_of_le (hhigh.resolve_left hstop) hle
  exact absurd (hlow.resolve_left hstart) (not_le_of_gt hlt)

namespace TreeEngine

variable {e : TreeEngine} {cf : ColumnFamily} {start stop : Bytes}

theorem scan_name (e : TreeEngine) (cf : ColumnFamily) (start stop : Bytes) :
    e.scan cf.name start stop =
      if (e.cfs cf).rooted = true ∧ Bound.panics (rangeBounds start stop) = true then none
      else some (e.content.scan cf.name start stop) := by
  rw [scan, validateCfName_name, MemEngine.scan_name]
  simp only [BTree.range, admits_rangeBounds, content]
  split <;> rfl

/-- The scan answers with the rows of the range. -/
def Scans (e : TreeEngine) (cf : ColumnFamily) (start stop : Bytes) : Prop :=
  ∃ selected, e.scan cf.name start stop = some (.ok selected) ∧
    Selects (e.cfs cf).rows start stop selected

theorem scans_iff : e.Scans cf start stop ↔ ¬ ((e.cfs cf).rooted = true ∧ Inverted start stop) := by
  rw [Scans, scan_name, ← panics_rangeBounds]
  split
  · rename_i hpanic
    simp [hpanic]
  · rename_i hcalm
    refine iff_of_true ?_ hcalm
    rw [MemEngine.scan_name]
    exact ⟨_, rfl, selects_filter _ start stop⟩

theorem rooted_snapshot :
    (e.snapshot.cfs cf).rooted = true ↔ (e.cfs cf).rows.entries ≠ [] := by
  simp [snapshot, BTree.clone]

/-- A scan, of the engine or of a snapshot, answers with the rows of its range unless its bounds
are inverted and the tree has a root node. Where it answers, inverted or equal bounds give none. -/
theorem scan_exact_iff (e : TreeEngine) (cf : ColumnFamily) (start stop : Bytes) :
    (e.Scans cf start stop ↔ ¬ ((e.cfs cf).rooted = true ∧ Inverted start stop)) ∧
    (e.snapshot.Scans cf start stop ↔
      ¬ ((e.cfs cf).rows.entries ≠ [] ∧ Inverted start stop)) ∧
    (e.Scans cf start stop → start ≠ [] → stop ≠ [] → stop ≤ start →
      e.scan cf.name start stop = some (.ok [])) := by
  refine ⟨scans_iff, ?_, ?_⟩
  · rw [scans_iff, rooted_snapshot]
  · rintro ⟨selected, hscan, hselects⟩ hstart hstop hle
    rw [hscan, hselects.eq_nil hstart hstop hle]

def oneRow : TreeEngine := new.after [.put "default" [0x61] [1]]

/-- One row is enough: the bounds `b` and `a` stop the engine and its snapshot. -/
theorem inverted_scan_panics : oneRow.scan "default" [0x62] [0x61] = none ∧
    oneRow.snapshot.scan "default" [0x62] [0x61] = none := by
  decide

end TreeEngine

end BashfulDB.Storage

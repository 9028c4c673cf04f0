import BashfulDB.Library.Bytes
import BashfulDB.Library.Except
import BashfulDB.Library.OrdMap
import Mathlib.Data.List.Lex

/-! The in-memory storage engine: ordered rows in a fixed set of column families. -/
namespace BashfulDB.Storage

inductive ColumnFamily
  | default
  | metadata
  | indexes
  | tombstones
  | hints
  | system
  deriving DecidableEq, Repr

namespace ColumnFamily

def name : ColumnFamily → String
  | default => "default"
  | metadata => "metadata"
  | indexes => "indexes"
  | tombstones => "tombstones"
  | hints => "hints"
  | system => "system"

def all : List ColumnFamily := [default, metadata, indexes, tombstones, hints, system]

theorem mem_all (cf : ColumnFamily) : cf ∈ all := by cases cf <;> decide

theorem name_inj {a b : ColumnFamily} (h : a.name = b.name) : a = b := by
  cases a <;> cases b <;> first | rfl | exact absurd h (by decide)

end ColumnFamily

inductive StorageError
  | unknownColumnFamily (name : String)
  deriving DecidableEq, Repr

abbrev KvMap := OrdMap Bytes Bytes

inductive BatchOp
  | put (cf : String) (key value : Bytes)
  | delete (cf : String) (key : Bytes)
  deriving DecidableEq

/-- Mutations to apply atomically, in order. -/
abbrev WriteBatch := List BatchOp

def BatchOp.cf : BatchOp → String
  | put cf _ _ => cf
  | delete cf _ => cf

def BatchOp.applyTo : BatchOp → KvMap → KvMap
  | put _ key value, rows => rows.insert key value
  | delete _ key, rows => rows.erase key

def BatchOp.key : BatchOp → Bytes
  | put _ key _ => key
  | delete _ key => key

/-- What the operation leaves under its key. -/
def BatchOp.outcome : BatchOp → Option Bytes
  | put _ _ value => some value
  | delete _ _ => none

theorem BatchOp.get_applyTo (op : BatchOp) (rows : KvMap) (k : Bytes) :
    (op.applyTo rows).get k = if k = op.key then op.outcome else rows.get k := by
  cases op with
  | put cf key value =>
    by_cases h : k = key <;> simp [applyTo, BatchOp.key, outcome, OrdMap.get_insert, h]
  | delete cf key =>
    by_cases h : k = key <;> simp [applyTo, BatchOp.key, outcome, OrdMap.get_erase, h]

def validateCfName (cf : String) : Except StorageError ColumnFamily :=
  match ColumnFamily.all.find? (fun name => name.name = cf) with
  | some name => .ok name
  | none => .error (.unknownColumnFamily cf)

theorem validateCfName_name (cf : ColumnFamily) : validateCfName cf.name = .ok cf := by
  cases cf <;> decide

theorem validateCfName_eq_ok {s : String} {cf : ColumnFamily} :
    validateCfName s = .ok cf ↔ s = cf.name := by
  constructor
  · intro h
    unfold validateCfName at h
    split at h
    · rename_i name hfind
      cases h
      have hname := List.find?_some hfind
      exact (of_decide_eq_true hname).symm
    · cases h
  · rintro rfl
    exact validateCfName_name cf

/-- Every column family has its map from the start. -/
@[ext] structure MemEngine where
  cfs : ColumnFamily → KvMap

namespace MemEngine

def new : MemEngine := ⟨fun _ => OrdMap.empty⟩

/-- What the lock guard lets a writer do to one column family. -/
def update (e : MemEngine) (cf : ColumnFamily) (f : KvMap → KvMap) : MemEngine :=
  ⟨Function.update e.cfs cf (f (e.cfs cf))⟩

def put (e : MemEngine) (cf : String) (key value : Bytes) : Except StorageError MemEngine := do
  let cf ← validateCfName cf
  .ok (e.update cf (·.insert key value))

def get (e : MemEngine) (cf : String) (key : Bytes) : Except StorageError (Option Bytes) := do
  let cf ← validateCfName cf
  .ok ((e.cfs cf).get key)

def delete (e : MemEngine) (cf : String) (key : Bytes) : Except StorageError MemEngine := do
  let cf ← validateCfName cf
  .ok (e.update cf (·.erase key))

/-- An empty bound is no bound. -/
def inRange (start stop key : Bytes) : Bool :=
  (start.isEmpty || start ≤ key) && (stop.isEmpty || key < stop)

/-- The rows are collected while the lock is held. -/
def scan (e : MemEngine) (cf : String) (start stop : Bytes) :
    Except StorageError (List (Bytes × Bytes)) := do
  let cf ← validateCfName cf
  .ok ((e.cfs cf).entries.filter fun row => inRange start stop row.1)

/-- The second loop of `write_batch`: what was applied before an error stays. -/
def applyOps (e : MemEngine) : List BatchOp → Except StorageError Unit × MemEngine
  | [] => (.ok (), e)
  | op :: ops =>
    match validateCfName op.cf with
    | .error err => (.error err, e)
    | .ok cf => applyOps (e.update cf op.applyTo) ops

/-- All names are validated before the first mutation. -/
def writeBatch (e : MemEngine) (batch : WriteBatch) : Except StorageError Unit × MemEngine :=
  match forM batch fun op => discard (validateCfName op.cf) with
  | .error err => (.error err, e)
  | .ok () => e.applyOps batch

variable {e : MemEngine} {cf : ColumnFamily} {batch : WriteBatch}

/-- An empty start is below every key, and bounds nothing. -/
theorem inRange_iff {start stop key : Bytes} :
    inRange start stop key = true ↔ ¬ key < start ∧ (stop = [] ∨ key < stop) := by
  rw [inRange, Bool.and_eq_true, Bool.or_eq_true, Bool.or_eq_true, List.isEmpty_iff,
    List.isEmpty_iff, decide_eq_true_iff, decide_eq_true_iff, ← not_lt, or_iff_right_iff_imp.mpr]
  rintro rfl
  exact List.not_lt_nil _

theorem scan_name (e : MemEngine) (cf : ColumnFamily) (start stop : Bytes) :
    e.scan cf.name start stop =
      .ok ((e.cfs cf).entries.filter fun row => inRange start stop row.1) := by
  rw [scan, validateCfName_name]
  rfl

theorem scan_all (e : MemEngine) (cf : ColumnFamily) :
    e.scan cf.name [] [] = .ok (e.cfs cf).entries := by
  simp [scan_name, inRange]

theorem get_name (e : MemEngine) (cf : ColumnFamily) (key : Bytes) :
    e.get cf.name key = .ok ((e.cfs cf).get key) := by
  rw [get, validateCfName_name]
  rfl

/-- Every operation of the batch names a column family. -/
def Known (batch : WriteBatch) : Prop := ∀ op ∈ batch, ∃ cf : ColumnFamily, op.cf = cf.name

/-- The effect of an operation on the rows of `cf`. -/
def effect (cf : ColumnFamily) (rows : KvMap) (op : BatchOp) : KvMap :=
  if op.cf = cf.name then op.applyTo rows else rows

/-- The effect of a batch of known operations: each column family sees its own ones. -/
def after (e : MemEngine) (batch : WriteBatch) : MemEngine :=
  ⟨fun cf => batch.foldl (effect cf) (e.cfs cf)⟩

theorem update_applyTo (e : MemEngine) {op : BatchOp} (h : op.cf = cf.name) :
    e.update cf op.applyTo = e.after [op] := by
  ext1
  funext c
  by_cases hc : c = cf
  · subst hc
    simp [update, after, effect, h]
  · have hname : op.cf ≠ c.name := fun heq => hc (ColumnFamily.name_inj (heq.symm.trans h))
    simp [update, after, effect, hc, hname]

theorem after_cons (e : MemEngine) (op : BatchOp) (batch : WriteBatch) :
    e.after (op :: batch) = (e.after [op]).after batch := rfl

theorem after_append (e : MemEngine) (batch batch' : WriteBatch) :
    e.after (batch ++ batch') = (e.after batch).after batch' := by
  simp [after]

/-- A batch changes only the column families it has operations on. -/
theorem cfs_after_of_ne (h : ∀ op ∈ batch, op.cf ≠ cf.name) :
    (e.after batch).cfs cf = e.cfs cf := by
  induction batch generalizing e with
  | nil => rfl
  | cons op batch ih =>
    obtain ⟨hop, hbatch⟩ := List.forall_mem_cons.mp h
    rw [after_cons, ih hbatch]
    exact if_neg hop

theorem applyOps_known (h : Known batch) (e : MemEngine) :
    e.applyOps batch = (.ok (), e.after batch) := by
  induction batch generalizing e with
  | nil => rfl
  | cons op batch ih =>
    obtain ⟨cf, hcf⟩ := h op (by simp)
    rw [applyOps, hcf, validateCfName_name, after_cons, ← update_applyTo e hcf]
    exact ih (fun o ho => h o (by simp [ho])) _

theorem forM_validate (batch : WriteBatch) :
    (forM batch fun op => discard (validateCfName op.cf)) = .ok () ↔ Known batch := by
  rw [Except.forM_eq_ok]
  refine forall₂_congr fun op _ => ?_
  simp only [← validateCfName_eq_ok]
  cases validateCfName op.cf <;> simp [discard, Functor.mapConst, Except.map]

/-- Where all operations of a batch on `cf` agree with `T`, so do the rows they have touched. -/
theorem get_after_eq {T : Bytes → Option Bytes} {k : Bytes}
    (hagree : ∀ op ∈ batch, op.cf = cf.name → op.outcome = T op.key)
    (hk : (e.cfs cf).get k = T k ∨ ∃ op ∈ batch, op.cf = cf.name ∧ op.key = k) :
    ((e.after batch).cfs cf).get k = T k := by
  induction batch generalizing e with
  | nil => simpa [after] using hk
  | cons op batch ih =>
    rw [after_cons]
    apply ih fun o ho => hagree o (by simp [ho])
    by_cases hop : op.cf = cf.name ∧ op.key = k
    · refine Or.inl ?_
      simp [after, effect, hop.1, BatchOp.get_applyTo, ← hop.2, hagree op (by simp) hop.1]
    · refine hk.imp ?_ ?_
      · intro hrow
        by_cases hcf : op.cf = cf.name
        · have hkey : k ≠ op.key := fun heq => hop ⟨hcf, heq.symm⟩
          simp [after, effect, hcf, BatchOp.get_applyTo, hkey, hrow]
        · simp [after, effect, hcf, hrow]
      · rintro ⟨o, ho, hcf⟩
        rcases List.mem_cons.mp ho with rfl | ho
        · exact absurd hcf hop
        · exact ⟨o, ho, hcf⟩

theorem writeBatch_known (h : Known batch) : e.writeBatch batch = (.ok (), e.after batch) := by
  rw [writeBatch, (forM_validate batch).mpr h]
  exact applyOps_known h e

/-- A batch is applied as a whole, or refused and without effect. -/
theorem writeBatch_cases (e : MemEngine) (batch : WriteBatch) :
    (Known batch ∧ e.writeBatch batch = (.ok (), e.after batch)) ∨
      (¬ Known batch ∧ ∃ err, e.writeBatch batch = (.error err, e)) := by
  by_cases h : Known batch
  · exact Or.inl ⟨h, writeBatch_known h⟩
  · unfold writeBatch
    cases hv : forM batch fun op => discard (validateCfName op.cf) with
    | ok => exact absurd ((forM_validate batch).mp hv) h
    | error err => exact Or.inr ⟨h, err, rfl⟩

end MemEngine

end BashfulDB.Storage

import BashfulDB.Api.Json
import BashfulDB.Library.Base64
import BashfulDB.Library.Text
import BashfulDB.Replication.Replica
import BashfulDB.Schema.Replay
import BashfulDB.Storage.Engine

/-! The rows of an index, built from the records that a storage engine holds. -/
namespace BashfulDB.Schema

open Api Replication Storage

/-- What `serde_json` writes for a record and reads from its bytes. -/
structure Serde where
  toVec : VersionedDoc → Bytes
  fromSlice : Bytes → Option JsonValue
  displayNumber : JsonNumber → String

def splitObjectId (objectKey : Bytes) : Option String :=
  match Text.splitn '/' 2 (Text.fromUtf8Lossy objectKey) with
  | _ :: objectId :: _ => some (String.ofList objectId)
  | _ => none

def prefixEnd (start : Bytes) : Bytes := start ++ [0xFF]

def encodeFieldValueForKey (value : String) : String := Base64.encode value.asBytes

def idxKey (index value objectId : String) : Bytes :=
  (index ++ "/" ++ encodeFieldValueForKey value ++ "/" ++ objectId).asBytes

/-- The text under which a JSON value is indexed. Arrays and objects are not. -/
def indexText (displayNumber : JsonNumber → String) : JsonValue → Option String
  | .string s => some s
  | .number n => some (displayNumber n)
  | .bool b => some (toString b)
  | .null => some "null"
  | _ => none

/-- The text of a scalar that is not a string. -/
inductive Spells (displayNumber : JsonNumber → String) : JsonValue → String → Prop
  | number (n : JsonNumber) : Spells displayNumber (.number n) (displayNumber n)
  | true : Spells displayNumber (.bool true) "true"
  | false : Spells displayNumber (.bool false) "false"
  | null : Spells displayNumber .null "null"

theorem indexText_eq_some {displayNumber : JsonNumber → String} {v : JsonValue} {text : String} :
    indexText displayNumber v = some text ↔ v = .string text ∨ Spells displayNumber v text := by
  constructor
  · intro h
    cases v with
    | string s =>
      cases h
      exact Or.inl rfl
    | number n =>
      cases h
      exact Or.inr (.number n)
    | bool b =>
      cases h
      cases b with
      | true => exact Or.inr .true
      | false => exact Or.inr .false
    | null =>
      cases h
      exact Or.inr .null
    | array items => cases h
    | object entries => cases h
  · rintro (rfl | h)
    · rfl
    · cases h <;> rfl

def getField (field : String) : JsonValue → Option JsonValue
  | .object entries => Entries.get field entries
  | _ => none

/-- The engine, and the indexes that are ready. -/
structure IndexMaterializer where
  engine : MemEngine
  ready : OrdMap String Unit

/-- The rows of the index are deleted in one batch, also if there are none. -/
def IndexMaterializer.dropMaterialized (m : IndexMaterializer) (index : String) :
    Except SchemaError Unit × IndexMaterializer :=
  match validateIdentifier index "index" with
  | .error e => (.error e, m)
  | .ok () =>
    let start := (index ++ "/").asBytes
    match m.engine.scan ColumnFamily.indexes.name start (prefixEnd start) with
    | .error _ => (.error .storage, m)
    | .ok rows =>
      let batch := rows.map fun row => BatchOp.delete ColumnFamily.indexes.name row.1
      match m.engine.writeBatch batch with
      | (.error _, engine) => (.error .storage, { m with engine := engine })
      | (.ok (), engine) => (.ok (), ⟨engine, m.ready.erase index⟩)

namespace Serde

variable (serde : Serde)

def extractFieldValue (value : Bytes) (field : String) : Option String := do
  let json ← serde.fromSlice value
  let fieldVal ← getField field json
  indexText serde.displayNumber fieldVal

/-- What the loop adds to its batch for one row. -/
def indexRow (d : IndexDefinition) (row : Bytes × Bytes) : Option BatchOp := do
  let objectId ← splitObjectId row.1
  let fieldValue ← serde.extractFieldValue row.2 d.field
  some (.put ColumnFamily.indexes.name (idxKey d.id fieldValue objectId) [])

/-- The loop of `materialize`, which writes its batch at every 1024th row. -/
def materializeLoop (d : IndexDefinition) (engine : MemEngine) (batch : WriteBatch)
    (pending : Nat) : List (Bytes × Bytes) → Except SchemaError WriteBatch × MemEngine
  | [] => (.ok batch, engine)
  | row :: rows =>
    match serde.indexRow d row with
    | none => materializeLoop d engine batch pending rows
    | some op =>
      if pending + 1 ≥ 1024 then
        match engine.writeBatch (batch ++ [op]) with
        | (.error _, engine) => (.error .storage, engine)
        | (.ok (), engine) => materializeLoop d engine [] 0 rows
      else materializeLoop d engine (batch ++ [op]) (pending + 1) rows

def materialize (m : IndexMaterializer) (d : IndexDefinition) :
    Except SchemaError Unit × IndexMaterializer :=
  match (do
      validateIdentifier d.collection "collection"
      validateIdentifier d.id "index"
      validateIdentifier d.field "field") with
  | .error e => (.error e, m)
  | .ok () =>
    let start := (d.collection ++ "/").asBytes
    match m.engine.scan ColumnFamily.default.name start (prefixEnd start) with
    | .error _ => (.error .storage, m)
    | .ok rows =>
      match serde.materializeLoop d m.engine [] 0 rows with
      | (.error e, engine) => (.error e, { m with engine := engine })
      | (.ok batch, engine) =>
        if batch.isEmpty then (.ok (), ⟨engine, m.ready.insert d.id ()⟩)
        else
          match engine.writeBatch batch with
          | (.error _, engine) => (.error .storage, { m with engine := engine })
          | (.ok (), engine) => (.ok (), ⟨engine, m.ready.insert d.id ()⟩)

/-- What `materialize` writes, as one batch. -/
def indexRows (m : IndexMaterializer) (d : IndexDefinition) : WriteBatch :=
  let start := (d.collection ++ "/").asBytes
  ((m.engine.cfs .default).entries.filter fun row =>
    MemEngine.inRange start (prefixEnd start) row.1).filterMap (serde.indexRow d)

variable {serde} {d : IndexDefinition}

theorem indexRow_eq_some {row : Bytes × Bytes} {op : BatchOp} :
    serde.indexRow d row = some op ↔ ∃ objectId text, splitObjectId row.1 = some objectId ∧
      serde.extractFieldValue row.2 d.field = some text ∧
      op = .put ColumnFamily.indexes.name (idxKey d.id text objectId) [] := by
  simp only [indexRow, Option.bind_eq_bind, Option.bind_eq_some_iff, Option.some.injEq]
  constructor
  · rintro ⟨objectId, hid, text, htext, rfl⟩
    exact ⟨objectId, text, hid, htext, rfl⟩
  · rintro ⟨objectId, text, hid, htext, rfl⟩
    exact ⟨objectId, hid, text, htext, rfl⟩

/-- However the rows fall into batches, what is written and what is left to write is one batch. -/
theorem materializeLoop_eq (rows : List (Bytes × Bytes)) {engine : MemEngine} {batch : WriteBatch}
    {pending : Nat} (hknown : MemEngine.Known batch) :
    ∃ engine' batch', serde.materializeLoop d engine batch pending rows = (.ok batch', engine') ∧
      MemEngine.Known batch' ∧
      engine'.after batch' = engine.after (batch ++ rows.filterMap (serde.indexRow d)) := by
  induction rows generalizing engine batch pending with
  | nil => exact ⟨engine, batch, rfl, hknown, by simp⟩
  | cons row rows ih =>
    unfold materializeLoop
    cases hrow : serde.indexRow d row with
    | none =>
      rw [List.filterMap_cons_none hrow]
      exact ih hknown
    | some op =>
      have hop : MemEngine.Known (batch ++ [op]) := by
        refine List.forall_mem_append.mpr ⟨hknown, ?_⟩
        obtain ⟨objectId, text, -, -, rfl⟩ := indexRow_eq_some.mp hrow
        simpa using ⟨ColumnFamily.indexes, rfl⟩
      rw [List.filterMap_cons_some hrow, List.append_cons]
      dsimp only
      split
      · rw [MemEngine.writeBatch_known hop]
        obtain ⟨engine', batch', heq, hknown', hafter⟩ :=
          @ih (engine.after (batch ++ [op])) [] 0 fun _ h => nomatch h
        refine ⟨engine', batch', heq, hknown', ?_⟩
        rw [hafter, List.nil_append, MemEngine.after_append engine (batch ++ [op])]
      · exact ih hop

theorem materialize_ok (m : IndexMaterializer)
    (hcoll : validateIdentifier d.collection "collection" = .ok ())
    (hid : validateIdentifier d.id "index" = .ok ())
    (hfield : validateIdentifier d.field "field" = .ok ()) : serde.materialize m d =
      (.ok (), ⟨m.engine.after (serde.indexRows m d), m.ready.insert d.id ()⟩) := by
  obtain ⟨engine, batch, hloop, hknown, hafter⟩ := @materializeLoop_eq serde d
    ((m.engine.cfs .default).entries.filter fun row =>
      MemEngine.inRange (d.collection ++ "/").asBytes
        (prefixEnd (d.collection ++ "/").asBytes) row.1) m.engine [] 0 fun _ h => nomatch h
  rw [List.nil_append] at hafter
  rw [materialize, hcoll, hid, hfield, indexRows, ← hafter]
  simp only [bind, Except.bind, MemEngine.scan_name, hloop, MemEngine.writeBatch_known hknown]
  cases batch with
  | nil => rfl
  | cons op batch => rfl

/-- Whether `materialize` succeeds depends on the three names alone. -/
theorem materialize_cases (m : IndexMaterializer) :
    (∃ e, serde.materialize m d = (.error e, m)) ∨
      Identifier d.collection ∧ Identifier d.id ∧ Identifier d.field ∧ serde.materialize m d =
        (.ok (), ⟨m.engine.after (serde.indexRows m d), m.ready.insert d.id ()⟩) := by
  cases hcoll : validateIdentifier d.collection "collection" with
  | error e => exact Or.inl ⟨e, by rw [materialize, hcoll]; rfl⟩
  | ok u =>
    cases hid : validateIdentifier d.id "index" with
    | error e => exact Or.inl ⟨e, by rw [materialize, hcoll, hid]; rfl⟩
    | ok u =>
      cases hfield : validateIdentifier d.field "field" with
      | error e => exact Or.inl ⟨e, by rw [materialize, hcoll, hid, hfield]; rfl⟩
      | ok u =>
        exact Or.inr ⟨validateIdentifier_eq_ok.mp hcoll, validateIdentifier_eq_ok.mp hid,
          validateIdentifier_eq_ok.mp hfield, materialize_ok m hcoll hid hfield⟩

end Serde

end BashfulDB.Schema

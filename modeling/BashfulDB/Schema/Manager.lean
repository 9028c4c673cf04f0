import BashfulDB.Library.Except
import BashfulDB.Library.OrdMap
import BashfulDB.Library.Uuid
import Mathlib.Data.String.Basic

/-!
The schema manager: an operation log, the schema it builds, and the calls and background tasks that
work on them. A call is cut at every access to what it shares with others. Versions do not wrap.
-/
namespace BashfulDB.Schema

structure IndexDefinition where
  id : String
  collection : String
  field : String
  createdAt : Nat
  deriving DecidableEq

structure CollectionSchema where
  id : String
  indexes : List IndexDefinition
  version : Nat
  deriving DecidableEq

inductive SchemaOp
  | createIndex
  | dropIndex
  deriving DecidableEq

structure SchemaLogEntry where
  version : Nat
  op : SchemaOp
  collection : String
  field : String
  indexId : String
  timestamp : String
  deriving DecidableEq

inductive SchemaError
  | storage
  | serde
  | io
  | indexQuotaExceeded (collection : String) (limit : Nat)
  | indexNotFound (collection index : String)
  | invalidIdentifier (kind value : String)
  deriving DecidableEq

structure SchemaState where
  version : Nat
  collections : OrdMap String CollectionSchema
  activeByField : OrdMap String (OrdMap String String)
  deriving DecidableEq

def SchemaState.default : SchemaState := ⟨0, OrdMap.empty, OrdMap.empty⟩

def validateIdentifier (value kind : String) : Except SchemaError Unit :=
  if value.isEmpty || value.toList.contains '/' || value.toList.contains '\x00' then
    .error (.invalidIdentifier kind value)
  else .ok ()

def applyEntryMut (state : SchemaState) (entry : SchemaLogEntry) : SchemaState :=
  let schema := (state.collections.get entry.collection).getD ⟨entry.collection, [], 0⟩
  match entry.op with
  | .createIndex =>
    let definition := ⟨entry.indexId, entry.collection, entry.field, entry.version⟩
    let active := (state.activeByField.get entry.collection).getD OrdMap.empty
    { version := entry.version
      collections := state.collections.insert entry.collection
        { schema with indexes := schema.indexes ++ [definition], version := entry.version }
      activeByField := state.activeByField.insert entry.collection
        (active.insert entry.field entry.indexId) }
  | .dropIndex =>
    { version := entry.version
      collections := state.collections.insert entry.collection
        { schema with
          indexes := schema.indexes.filter fun idx => idx.id ≠ entry.indexId
          version := entry.version }
      activeByField := match state.activeByField.get entry.collection with
        | some active =>
          if active.get entry.field = some entry.indexId then
            state.activeByField.insert entry.collection (active.erase entry.field)
          else state.activeByField
        | none => state.activeByField }

/-- The definition of the active index on a field. -/
def SchemaState.replacement (state : SchemaState) (coll field : String) :
    Option IndexDefinition := do
  let active ← state.activeByField.get coll
  let currentId ← active.get field
  let schema ← state.collections.get coll
  schema.indexes.find? fun idx => idx.id = currentId

/-- How far an append to the log file gets: to its end, not at all, to a part of the line, or to the
line without the newline. -/
inductive LogWrite
  | done
  | failed
  | cut
  | torn
  deriving DecidableEq

/-- The log file, which may end in a line without newline. Part of a line, and two lines in one,
make the file unreadable. -/
structure SchemaLog where
  entries : List SchemaLogEntry
  torn : Bool
  corrupt : Bool
  deriving DecidableEq

namespace SchemaLog

def empty : SchemaLog := ⟨[], false, false⟩

/-- The first write of `append_log_entry`. -/
def appendLine (log : SchemaLog) (entry : SchemaLogEntry) (write : LogWrite) :
    Except SchemaError Unit × SchemaLog :=
  match write with
  | .done | .torn => (.ok (), ⟨log.entries ++ [entry], true, log.corrupt || log.torn⟩)
  | .failed => (.error .io, log)
  | .cut => (.error .io, { log with corrupt := true })

/-- The second write, which no lock ties to the first. -/
def appendNewline (log : SchemaLog) (write : LogWrite) : Except SchemaError Unit × SchemaLog :=
  match write with
  | .done => (.ok (), { log with torn := false })
  | .failed | .cut | .torn => (.error .io, log)

def readLogEntries (log : SchemaLog) : Except SchemaError (List SchemaLogEntry) :=
  if log.corrupt then .error .serde
  else .ok (log.entries.mergeSort fun a b => a.version ≤ b.version)

def logEntriesSince (log : SchemaLog) (version : Nat) :
    Except SchemaError (List SchemaLogEntry) := do
  let entries ← log.readLogEntries
  .ok (entries.filter fun entry => entry.version > version)

end SchemaLog

/-- A `create_index` or `drop_index`, once its checks are done. -/
inductive Ddl
  | create (coll field : String) (replacement : Option IndexDefinition)
  | drop (coll index field : String)

/-- A call in progress, by what it does next. -/
inductive Call
  | checkQuota (coll field : String) (replacement : Option IndexDefinition)
  | nextVersion (ddl : Ddl)
  | appendLine (ddl : Ddl) (entry : SchemaLogEntry)
  | appendNewline (ddl : Ddl) (entry : SchemaLogEntry)
  | applyEntry (ddl : Ddl) (entry : SchemaLogEntry)
  | persist (ddl : Ddl) (entry : SchemaLogEntry)
  | loadVersion (remoteVersion attempt : Nat)
  | fetchSince (remoteVersion attempt since : Nat)
  | applyMissing (remoteVersion attempt : Nat) (missing : List SchemaLogEntry)
  | recheck (remoteVersion attempt : Nat)

/-- A background task, by what it does next. -/
inductive Task
  | materialize (definition : IndexDefinition) (replacement : Option IndexDefinition)
  | swap (definition old : IndexDefinition)
  | dropMaterialized (index : String)

/-- What the outside decides during one step of a call or task. -/
structure Outcome where
  freshId : Uuid
  timestamp : String
  write : LogWrite
  fetched : Bool
  persisted : Bool
  materialized : Bool

structure SchemaManager where
  state : SchemaState
  /-- The source has a `u64`, which a new manager wraps after `2 ^ 64` calls. -/
  version : Nat
  log : SchemaLog
  maxSecondaryIndexesPerCollection : Nat
  calls : List Call
  tasks : List Task

/-- A call goes on, or returns. `converge_from_gossip` returns no version. -/
inductive Progress
  | running (call : Call)
  | done (answer : Except SchemaError (Option Nat))

namespace SchemaManager

def new (limit : Nat) : SchemaManager := ⟨.default, 0, .empty, limit, [], []⟩

variable (m : SchemaManager)

def createIndex (coll field : String) : Progress :=
  match (do validateIdentifier coll "collection"; validateIdentifier field "field") with
  | .error e => .done (.error e)
  | .ok () => .running (.checkQuota coll field (m.state.replacement coll field))

def dropIndex (coll index : String) : Progress :=
  match (do validateIdentifier coll "collection"; validateIdentifier index "index") with
  | .error e => .done (.error e)
  | .ok () =>
    let found := (m.state.collections.get coll).bind fun schema =>
      schema.indexes.find? fun idx => idx.id = index
    match found with
    | none => .done (.error (.indexNotFound coll index))
    | some idx => .running (.nextVersion (.drop coll index idx.field))

def convergeFromGossip (remoteVersion : Nat) : Progress :=
  if remoteVersion ≤ m.version then .done (.ok none) else .running (.loadVersion remoteVersion 0)

/-- The loop of `apply_entries`, under one lock. An invalid entry ends it. -/
def applyLoop (state : SchemaState) : List SchemaLogEntry → Except SchemaError Unit × SchemaState
  | [] => (.ok (), state)
  | entry :: entries =>
    if entry.version ≤ state.version then applyLoop state entries
    else
      match (do
          validateIdentifier entry.collection "collection"
          validateIdentifier entry.field "field"
          validateIdentifier entry.indexId "index") with
      | .error e => (.error e, state)
      | .ok () => applyLoop (applyEntryMut state entry) entries

def applyEntries (entries : List SchemaLogEntry) : Except SchemaError Unit × SchemaManager :=
  match applyLoop m.state entries with
  | (.error e, state) => (.error e, { m with state := state })
  | (.ok (), state) => (.ok (), { m with state := state, version := state.version })

/-- The next of the three attempts of `converge_from_gossip`, after a pause. -/
def retry (remoteVersion attempt : Nat) : Progress :=
  if attempt < 2 then .running (.loadVersion remoteVersion (attempt + 1)) else .done (.ok none)

/-- The log entry of an operation, with the index id that a creation draws. -/
def logEntry (ddl : Ddl) (version : Nat) (o : Outcome) : SchemaLogEntry :=
  match ddl with
  | .create coll field _ => ⟨version, .createIndex, coll, field, o.freshId.hyphenated, o.timestamp⟩
  | .drop coll index field => ⟨version, .dropIndex, coll, field, index, o.timestamp⟩

/-- A creation validates the id it has drawn. -/
def checkId (ddl : Ddl) (entry : SchemaLogEntry) : Except SchemaError Unit :=
  match ddl with
  | .create _ _ _ => validateIdentifier entry.indexId "index"
  | .drop _ _ _ => .ok ()

/-- What `create_index` adds, when it replaces nothing, to the entry it has applied. -/
def activate (ddl : Ddl) (entry : SchemaLogEntry) (state : SchemaState) : SchemaState :=
  match ddl with
  | .create coll field none =>
    let active := (state.activeByField.get coll).getD OrdMap.empty
    { state with
      activeByField := state.activeByField.insert coll (active.insert field entry.indexId) }
  | _ => state

/-- The background task that the call leaves. -/
def spawned (ddl : Ddl) (entry : SchemaLogEntry) : Task :=
  match ddl with
  | .create coll field replacement =>
    .materialize ⟨entry.indexId, coll, field, entry.version⟩ replacement
  | .drop _ index _ => .dropMaterialized index

/-- One step of a call. The provider of `converge_from_gossip` is the log of `other`. -/
def advance (other : SchemaManager) (o : Outcome) : Call → Progress × SchemaManager
  | .checkQuota coll field replacement =>
    let activeCount := (m.state.activeByField.get coll).elim 0 OrdMap.length
    if activeCount ≥ m.maxSecondaryIndexesPerCollection ∧ replacement.isNone then
      (.done (.error (.indexQuotaExceeded coll m.maxSecondaryIndexesPerCollection)), m)
    else (.running (.nextVersion (.create coll field replacement)), m)
  | .nextVersion ddl =>
    let version := m.version + 1
    let entry := logEntry ddl version o
    let m := { m with version := version }
    match checkId ddl entry with
    | .error e => (.done (.error e), m)
    | .ok () => (.running (.appendLine ddl entry), m)
  | .appendLine ddl entry =>
    match m.log.appendLine entry o.write with
    | (.error e, log) => (.done (.error e), { m with log := log })
    | (.ok (), log) => (.running (.appendNewline ddl entry), { m with log := log })
  | .appendNewline ddl entry =>
    match m.log.appendNewline o.write with
    | (.error e, log) => (.done (.error e), { m with log := log })
    | (.ok (), log) => (.running (.applyEntry ddl entry), { m with log := log })
  | .applyEntry ddl entry =>
    (.running (.persist ddl entry),
      { m with state := activate ddl entry (applyEntryMut m.state entry) })
  | .persist ddl entry =>
    if o.persisted then
      (.done (.ok (some entry.version)), { m with tasks := m.tasks ++ [spawned ddl entry] })
    else (.done (.error .storage), m)
  | .loadVersion remoteVersion attempt =>
    (.running (.fetchSince remoteVersion attempt m.version), m)
  | .fetchSince remoteVersion attempt since =>
    if !o.fetched then (.done (.error .io), m)
    else
      match other.log.logEntriesSince since with
      | .error e => (.done (.error e), m)
      | .ok [] => (retry remoteVersion attempt, m)
      | .ok missing => (.running (.applyMissing remoteVersion attempt missing), m)
  | .applyMissing remoteVersion attempt missing =>
    match m.applyEntries missing with
    | (.error e, m) => (.done (.error e), m)
    | (.ok (), m) => (.running (.recheck remoteVersion attempt), m)
  | .recheck remoteVersion attempt =>
    if !o.persisted then (.done (.error .storage), m)
    else if m.version ≥ remoteVersion then (.done (.ok none), m)
    else (retry remoteVersion attempt, m)

/-- The swap of a finished replacement. -/
def swapState (definition old : IndexDefinition) (state : SchemaState) : SchemaState :=
  { state with
    activeByField := match state.activeByField.get definition.collection with
      | some active => state.activeByField.insert definition.collection
          (active.insert definition.field definition.id)
      | none => state.activeByField
    collections := match state.collections.get definition.collection with
      | some schema => state.collections.insert definition.collection
          { schema with indexes := schema.indexes.filter fun idx => idx.id ≠ old.id }
      | none => state.collections }

/-- One step of a background task. -/
def work (o : Outcome) : Task → Option Task × SchemaManager
  | .materialize definition replacement =>
    if !o.materialized then (none, m)
    else (replacement.map (.swap definition), m)
  | .swap definition old =>
    (some (.dropMaterialized old.id), { m with state := swapState definition old m.state })
  | .dropMaterialized _ => (none, m)

end SchemaManager

/-- The two managers. -/
inductive Side
  | left
  | right
  deriving DecidableEq

def Side.other : Side → Side
  | left => right
  | right => left

abbrev System := Side → SchemaManager

inductive Action
  | createIndex (coll field : String)
  | dropIndex (coll index : String)
  | convergeFromGossip (remoteVersion : Nat)
  /-- The `i`-th call in progress takes its next step. -/
  | call (i : Nat) (o : Outcome)
  /-- The `i`-th background task takes its next step. -/
  | task (i : Nat) (o : Outcome)

namespace SchemaManager

variable (m : SchemaManager)

/-- A new call enters the list of the calls in progress, unless it has returned at once. -/
def start (progress : Progress) : SchemaManager :=
  match progress with
  | .running call => { m with calls := m.calls ++ [call] }
  | .done _ => m

def after (other : SchemaManager) : Action → SchemaManager
  | .createIndex coll field => m.start (m.createIndex coll field)
  | .dropIndex coll index => m.start (m.dropIndex coll index)
  | .convergeFromGossip remoteVersion => m.start (m.convergeFromGossip remoteVersion)
  | .call i o =>
    match m.calls[i]? with
    | none => m
    | some call =>
      match m.advance other o call with
      | (.running next, m') => { m' with calls := m.calls.set i next }
      | (.done _, m') => { m' with calls := m.calls.eraseIdx i }
  | .task i o =>
    match m.tasks[i]? with
    | none => m
    | some task =>
      match m.work o task with
      | (some next, m') => { m' with tasks := m.tasks.set i next }
      | (none, m') => { m' with tasks := m.tasks.eraseIdx i }

end SchemaManager

def System.after (s : System) (side : Side) (action : Action) : System :=
  Function.update s side ((s side).after (s side.other) action)

end BashfulDB.Schema

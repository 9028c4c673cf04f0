import BashfulDB.Library.Pool
import BashfulDB.Schema.Manager

/-!
The schema manager with what survives a crash: the log and the snapshot in the metadata. A snapshot
is taken under the lock and stored after it, so that here a call or task that persists the schema
does it in two steps.
-/
namespace BashfulDB.Schema

open SchemaManager

/-- A `create_index` or `drop_index` in progress, by what it does next. -/
inductive Stage
  | checkQuota (coll field : String) (replacement : Option IndexDefinition)
  | nextVersion (ddl : Ddl)
  | appendLine (ddl : Ddl) (entry : SchemaLogEntry)
  | appendNewline (ddl : Ddl) (entry : SchemaLogEntry)
  | applyEntry (ddl : Ddl) (entry : SchemaLogEntry)
  | snapshot (ddl : Ddl) (entry : SchemaLogEntry)
  | put (ddl : Ddl) (entry : SchemaLogEntry) (taken : SchemaState)

/-- A background task, by what it does next. The last three end the swap of a replaced index. -/
inductive Background
  | task (task : Task)
  | dropOld (old : String)
  | snapshot (old : String)
  | put (old : String) (taken : SchemaState)

structure Node where
  up : Bool
  state : SchemaState
  version : Nat
  /-- The indexes that the materializer has built. -/
  ready : OrdMap String Unit
  calls : List Stage
  tasks : List Background
  log : SchemaLog
  metadata : Option SchemaState
  maxSecondaryIndexesPerCollection : Nat
  /-- The versions that calls have returned. -/
  returned : List Nat
  /-- The definitions for which an id was drawn. -/
  drawn : List IndexDefinition

/-- The manager that does not tell a snapshot from the moment it is stored. -/
def Stage.call : Stage → Call
  | .checkQuota coll field replacement => .checkQuota coll field replacement
  | .nextVersion ddl => .nextVersion ddl
  | .appendLine ddl entry => .appendLine ddl entry
  | .appendNewline ddl entry => .appendNewline ddl entry
  | .applyEntry ddl entry => .applyEntry ddl entry
  | .snapshot ddl entry | .put ddl entry _ => .persist ddl entry

/-- The operation of a call with the entry that it has made. -/
def Stage.held : Stage → Option (Ddl × SchemaLogEntry)
  | .checkQuota _ _ _ | .nextVersion _ => none
  | .appendLine ddl entry | .appendNewline ddl entry | .applyEntry ddl entry | .snapshot ddl entry
  | .put ddl entry _ => some (ddl, entry)

def Background.base : Background → Task
  | .task t => t
  | .dropOld old | .snapshot old | .put old _ => .dropMaterialized old

def Progress.stage : Progress → Option Stage
  | .running (.checkQuota coll field replacement) => some (.checkQuota coll field replacement)
  | .running (.nextVersion ddl) => some (.nextVersion ddl)
  | .running (.appendLine ddl entry) => some (.appendLine ddl entry)
  | .running (.appendNewline ddl entry) => some (.appendNewline ddl entry)
  | .running (.applyEntry ddl entry) => some (.applyEntry ddl entry)
  | .running (.persist ddl entry) => some (.snapshot ddl entry)
  | _ => none

/-- A new manager on a log without snapshot, and the snapshot that it stores. -/
def replayFromLog (log : SchemaLog) (limit : Nat) (o : Outcome) :
    Except SchemaError (SchemaManager × Option SchemaState) := do
  let manager : SchemaManager := ⟨.default, 0, log, limit, [], []⟩
  let entries ← log.readLogEntries
  if entries.isEmpty then .ok (manager, none)
  else
    match manager.applyEntries entries with
    | (.error e, _) => .error e
    | (.ok (), manager) =>
      if o.persisted then .ok (manager, some manager.state) else .error .storage

/-- A new manager on a log and a snapshot, and the snapshot that is stored then. -/
def restoreState (log : SchemaLog) (metadata : Option SchemaState) (limit : Nat) (o : Outcome) :
    Except SchemaError (SchemaManager × Option SchemaState) :=
  match metadata with
  | some restored => .ok (⟨restored, restored.version, log, limit, [], []⟩, metadata)
  | none => replayFromLog log limit o

namespace Node

def new (limit : Nat) : Node :=
  ⟨true, .default, 0, .empty, [], [], .empty, none, limit, [], []⟩

variable (n : Node)

def manager : SchemaManager :=
  ⟨n.state, n.version, n.log, n.maxSecondaryIndexesPerCollection, n.calls.map Stage.call,
    n.tasks.map Background.base⟩

/-- The definition for which a stage draws an id. -/
def draws (o : Outcome) : Stage → List IndexDefinition
  | .nextVersion (.create coll field _) =>
    [⟨o.freshId.hyphenated, coll, field, n.version + 1⟩]
  | _ => []

/-- One step of a call. -/
def advance (o : Outcome) : Stage → Option Stage × Node
  | .snapshot ddl entry => (some (.put ddl entry n.state), n)
  | .put ddl entry taken =>
    if o.persisted then
      (none, { n with
        metadata := some taken
        tasks := n.tasks ++ [.task (spawned ddl entry)]
        returned := n.returned ++ [entry.version] })
    else (none, n)
  | stage =>
    let (progress, m) := n.manager.advance (.new 0) o stage.call
    (progress.stage, { n with
      state := m.state
      version := m.version
      log := m.log
      drawn := n.draws o stage ++ n.drawn })

def dropMaterialized (index : String) (o : Outcome) : Node :=
  if o.materialized then { n with ready := n.ready.erase index } else n

/-- One step of a background task. -/
def work (o : Outcome) : Background → Option Background × Node
  | .task (.materialize definition replacement) =>
    if o.materialized then
      (replacement.map fun old => .task (.swap definition old),
        { n with ready := n.ready.insert definition.id () })
    else (none, n)
  | .task (.swap definition old) =>
    (some (.dropOld old.id), { n with state := swapState definition old n.state })
  | .task (.dropMaterialized index) => (none, n.dropMaterialized index o)
  | .dropOld old => (some (.snapshot old), n.dropMaterialized old o)
  | .snapshot old => (some (.put old n.state), n)
  | .put _ taken => (none, if o.persisted then { n with metadata := some taken } else n)

/-- The active index of a field, when it is ready. A warning is all that the quorum decides. -/
def queryIndexForField (coll field : String) (_readConsistencyR : Nat) : Option String :=
  match n.state.activeByField.get coll >>= fun byField => byField.get field with
  | none => none
  | some index => if n.ready.contains index then some index else none

/-- What a crash leaves. -/
def crashed : Node :=
  { n with
    up := false, state := .default, version := 0, ready := .empty, calls := [], tasks := [] }

/-- `with_materializer` on the log and metadata of a node that is down. -/
def withMaterializer (o : Outcome) : Node :=
  match restoreState n.log n.metadata n.maxSecondaryIndexesPerCollection o with
  | .ok (m, metadata) => { n.crashed with
      up := true, state := m.state, version := m.version, metadata := metadata }
  | .error _ => n.crashed

def start (progress : Progress) : Node :=
  if n.up then { n with calls := n.calls ++ progress.stage.toList } else n

end Node

inductive Event
  | createIndex (coll field : String)
  | dropIndex (coll index : String)
  /-- The `i`-th call in progress takes its next step. -/
  | call (i : Nat) (o : Outcome)
  /-- The `i`-th background task takes its next step. -/
  | task (i : Nat) (o : Outcome)
  | crash
  | restart (o : Outcome)

def Node.next (n : Node) : Event → Node
  | .createIndex coll field => n.start (n.manager.createIndex coll field)
  | .dropIndex coll index => n.start (n.manager.dropIndex coll index)
  | .call i o =>
    match n.calls[i]? with
    | none => n
    | some stage =>
      let (next, n') := n.advance o stage
      { n' with calls := Pool.resume n.calls i next }
  | .task i o =>
    match n.tasks[i]? with
    | none => n
    | some task =>
      let (next, n') := n.work o task
      { n' with tasks := Pool.resume n.tasks i next }
  | .crash => n.crashed
  | .restart o => if n.up then n else n.withMaterializer o

end BashfulDB.Schema

import BashfulDB.Api.Objects
import BashfulDB.Schema.Effects
import BashfulDB.Schema.Faithful

/-! The check of a filter against the schema, and the names that the schema manager accepts. -/
namespace BashfulDB.Api

open Schema

def collectionSchema (m : SchemaManager) (coll : String) : Option CollectionSchema :=
  m.state.collections.get coll

/-- Without a filter all documents are listed; with one, its field must have an index. -/
def guardQuery (schema : SchemaManager) (collKey : String) (filterField : Option String) :
    Except ApiError Unit :=
  match filterField with
  | none => .ok ()
  | some field =>
    let indexed := (collectionSchema schema collKey).any fun s =>
      s.indexes.any fun idx => idx.field = field
    if !indexed then
      .error (.badRequest ("field '" ++ field ++ "' is not indexed on collection '" ++ collKey ++
        "'; create an index before filtering on it"))
    else .ok ()

/-- The collection of a creation is a valid identifier. -/
def IdentifiedDdl : Ddl → Prop
  | .create coll _ _ => Identifier coll
  | .drop _ _ _ => True

def IdentifiedEntry (entry : SchemaLogEntry) : Prop :=
  entry.op = .createIndex → Identifier entry.collection

def IdentifiedCall : Call → Prop
  | .checkQuota coll _ _ => Identifier coll
  | .nextVersion ddl => IdentifiedDdl ddl
  | .appendLine _ entry | .appendNewline _ entry | .applyEntry _ entry => IdentifiedEntry entry
  | _ => True

def IdentifiedState (state : SchemaState) : Prop :=
  ∀ coll, ∀ d ∈ state.indexes coll, Identifier coll

/-- Every collection with an index is a valid identifier, as are those of the calls that create
one. -/
structure Identified (m : SchemaManager) : Prop where
  state : IdentifiedState m.state
  calls : ∀ c ∈ m.calls, IdentifiedCall c

theorem IdentifiedState.apply {state : SchemaState} {entry : SchemaLogEntry}
    (h : IdentifiedState state) (hentry : IdentifiedEntry entry) :
    IdentifiedState (applyEntryMut state entry) := by
  intro coll d hd
  cases hop : entry.op with
  | createIndex =>
    rw [indexes_create hop] at hd
    split at hd
    · rename_i hcoll
      exact hcoll ▸ hentry hop
    · exact h coll d hd
  | dropIndex =>
    rw [indexes_drop hop] at hd
    split at hd
    · exact h coll d (List.mem_of_mem_filter hd)
    · exact h coll d hd

theorem IdentifiedState.activate {state : SchemaState} (h : IdentifiedState state) (ddl : Ddl)
    (entry : SchemaLogEntry) : IdentifiedState (SchemaManager.activate ddl entry state) := by
  have hindexes (coll : String) :
      (SchemaManager.activate ddl entry state).indexes coll = state.indexes coll := by
    unfold SchemaManager.activate
    split <;> rfl
  intro coll d hd
  exact h coll d (hindexes coll ▸ hd)

theorem IdentifiedState.swap {state : SchemaState} (h : IdentifiedState state)
    (definition old : IndexDefinition) :
    IdentifiedState (SchemaManager.swapState definition old state) := by
  intro coll d hd
  rw [indexes_swap] at hd
  split at hd
  · exact h coll d (List.mem_of_mem_filter hd)
  · exact h coll d hd

theorem identifiedEntry_logEntry {ddl : Ddl} {version : Nat} {o : Schema.Outcome}
    (h : IdentifiedDdl ddl) :
    IdentifiedEntry (SchemaManager.logEntry ddl version o) := by
  intro hop
  cases ddl with
  | create coll field replacement => exact h
  | drop coll index field => cases hop

theorem identifiedCall_done {answer : Except SchemaError (Option Nat)} :
    ∀ next, Progress.done answer = .running next → IdentifiedCall next := by
  intro next hnext
  cases hnext

theorem identifiedCall_retry {remoteVersion attempt : Nat} {next : Call}
    (h : SchemaManager.retry remoteVersion attempt = .running next) : IdentifiedCall next := by
  rw [retry_eq_running h]
  trivial

/-- Entries from elsewhere are applied only where their names are valid. -/
theorem IdentifiedState.applyLoop {state : SchemaState} (h : IdentifiedState state)
    (entries : List SchemaLogEntry) :
    IdentifiedState (SchemaManager.applyLoop state entries).2 :=
  applyLoop_preserves (fun _ _ _ hvalid hs => hs.apply fun _ => hvalid.collection) h

/-- A step of `converge_from_gossip`: the schema that it leaves, and the call that goes on. -/
theorem Identified.advance_gossip {m : SchemaManager} {c : Call} (h : Identified m)
    (hc : c.isDdl = false) (other : SchemaManager) (o : Schema.Outcome) :
    IdentifiedState (m.advance other o c).2.state ∧
      ∀ next, (m.advance other o c).1 = .running next → IdentifiedCall next := by
  cases c with
  | loadVersion remoteVersion attempt =>
    refine ⟨h.state, ?_⟩
    rintro next ⟨⟩
    trivial
  | fetchSince remoteVersion attempt since =>
    unfold SchemaManager.advance
    dsimp only
    split
    · exact ⟨h.state, identifiedCall_done⟩
    · split
      · exact ⟨h.state, identifiedCall_done⟩
      · exact ⟨h.state, fun next hnext => identifiedCall_retry hnext⟩
      · refine ⟨h.state, ?_⟩
        rintro next ⟨⟩
        trivial
  | applyMissing remoteVersion attempt missing =>
    have hstate := h.state.applyLoop missing
    cases hloop : SchemaManager.applyLoop m.state missing with
    | mk result state =>
      rw [hloop] at hstate
      cases result with
      | error e =>
        simp only [SchemaManager.advance, SchemaManager.applyEntries, hloop]
        exact ⟨hstate, identifiedCall_done⟩
      | ok u =>
        simp only [SchemaManager.advance, SchemaManager.applyEntries, hloop]
        refine ⟨hstate, ?_⟩
        rintro next ⟨⟩
        trivial
  | recheck remoteVersion attempt =>
    unfold SchemaManager.advance
    dsimp only
    split
    · exact ⟨h.state, identifiedCall_done⟩
    · split
      · exact ⟨h.state, identifiedCall_done⟩
      · exact ⟨h.state, fun next hnext => identifiedCall_retry hnext⟩
  | _ => cases hc

/-- A step of any call. -/
theorem Identified.advance {m : SchemaManager} {c : Call} (h : Identified m)
    (hc : IdentifiedCall c) (other : SchemaManager) (o : Schema.Outcome) :
    IdentifiedState (m.advance other o c).2.state ∧
      ∀ next, (m.advance other o c).1 = .running next → IdentifiedCall next := by
  cases c with
  | checkQuota coll field replacement =>
    rcases advance_checkQuota m other o coll field replacement with ⟨-, e, heq⟩ | ⟨-, heq⟩
    · rw [heq]
      exact ⟨h.state, identifiedCall_done⟩
    · rw [heq]
      refine ⟨h.state, ?_⟩
      rintro next ⟨⟩
      exact hc
  | nextVersion ddl =>
    rw [advance_nextVersion]
    refine ⟨h.state, ?_⟩
    rintro next ⟨⟩
    exact identifiedEntry_logEntry hc
  | appendLine ddl entry =>
    have hnext : ∀ next, Progress.running (.appendNewline ddl entry) = .running next →
        IdentifiedCall next := by
      rintro next ⟨⟩
      exact hc
    unfold SchemaManager.advance SchemaLog.appendLine
    cases o.write with
    | done => exact ⟨h.state, hnext⟩
    | torn => exact ⟨h.state, hnext⟩
    | _ => exact ⟨h.state, identifiedCall_done⟩
  | appendNewline ddl entry =>
    unfold SchemaManager.advance SchemaLog.appendNewline
    cases o.write with
    | done =>
      refine ⟨h.state, ?_⟩
      rintro next ⟨⟩
      exact hc
    | _ => exact ⟨h.state, identifiedCall_done⟩
  | applyEntry ddl entry =>
    refine ⟨?_, ?_⟩
    · exact (h.state.apply hc).activate ddl entry
    · rintro next ⟨⟩
      trivial
  | persist ddl entry =>
    unfold SchemaManager.advance
    dsimp only
    split
    · exact ⟨h.state, identifiedCall_done⟩
    · exact ⟨h.state, identifiedCall_done⟩
  | loadVersion _ _ | fetchSince _ _ _ | applyMissing _ _ _ | recheck _ _ =>
    exact h.advance_gossip rfl other o

theorem Identified.work {m : SchemaManager} (h : Identified m) (task : Task) (o : Schema.Outcome) :
    IdentifiedState (m.work o task).2.state ∧ (m.work o task).2.calls = m.calls := by
  cases task with
  | materialize definition replacement =>
    unfold SchemaManager.work
    dsimp only
    split
    · exact ⟨h.state, rfl⟩
    · exact ⟨h.state, rfl⟩
  | swap definition old => exact ⟨h.state.swap definition old, rfl⟩
  | dropMaterialized index => exact ⟨h.state, rfl⟩

theorem Identified.start {m : SchemaManager} (h : Identified m) {progress : Progress}
    (hprogress : ∀ c, progress = .running c → IdentifiedCall c) :
    Identified (m.start progress) := by
  cases progress with
  | done answer => exact h
  | running c =>
    refine ⟨h.state, List.forall_mem_append.mpr ⟨h.calls, ?_⟩⟩
    simpa using hprogress c rfl

/-- What an action preserves. -/
theorem Identified.after {m : SchemaManager} (h : Identified m) (other : SchemaManager)
    (action : Action) : Identified (m.after other action) := by
  cases action with
  | createIndex coll field =>
    refine h.start ?_
    rcases createIndex_cases m coll field with ⟨-, e, hdone⟩ | ⟨hcoll, -, hrunning⟩
    · rw [hdone]
      rintro c ⟨⟩
    · rw [hrunning]
      rintro c ⟨⟩
      exact hcoll
  | dropIndex coll index =>
    refine h.start ?_
    rcases dropIndex_cases m coll index with ⟨-, e, hdone⟩ | ⟨-, -, idx, -, -, hrunning⟩
    · rw [hdone]
      rintro c ⟨⟩
    · rw [hrunning]
      rintro c ⟨⟩
      trivial
  | convergeFromGossip remoteVersion =>
    refine h.start ?_
    unfold SchemaManager.convergeFromGossip
    split
    · rintro c ⟨⟩
    · rintro c ⟨⟩
      trivial
  | call i o =>
    cases hi : m.calls[i]? with
    | none =>
      simp only [SchemaManager.after, hi]
      exact h
    | some c =>
      obtain ⟨hstate, hnext⟩ := h.advance (h.calls c (List.mem_of_getElem? hi)) other o
      cases hadvance : m.advance other o c with
      | mk progress m' =>
        rw [hadvance] at hstate hnext
        rw [after_call hi hadvance]
        refine ⟨hstate, ?_⟩
        intro b hb
        cases progress with
        | running next =>
          rcases List.mem_or_eq_of_mem_set hb with hb | rfl
          · exact h.calls b hb
          · exact hnext b rfl
        | done answer => exact h.calls b (List.mem_of_mem_eraseIdx hb)
  | task i o =>
    cases hi : m.tasks[i]? with
    | none =>
      simp only [SchemaManager.after, hi]
      exact h
    | some task =>
      obtain ⟨hstate, hcalls⟩ := h.work task o
      cases hwork : m.work o task with
      | mk next m' =>
        rw [hwork] at hstate hcalls
        simp only [SchemaManager.after, hi, hwork]
        have hcalls' : ∀ b ∈ m'.calls, IdentifiedCall b := fun b hb => h.calls b (hcalls ▸ hb)
        cases next with
        | none => exact ⟨hstate, hcalls'⟩
        | some next => exact ⟨hstate, hcalls'⟩

theorem identified_new (limit : Nat) : Identified (.new limit) where
  state _ _ hd := nomatch hd
  calls _ hc := nomatch hc

theorem Identified.run {m : SchemaManager} (h : Identified m)
    (actions : List (SchemaManager × Action)) :
    Identified (actions.foldl SchemaManager.next m) := by
  induction actions generalizing m with
  | nil => exact h
  | cons a actions ih => exact ih (h.after a.1 a.2)

theorem slash_mem_collectionKey (path : ObjectPath) : '/' ∈ (collectionKey path).toList := by
  simp [collectionKey]

theorem createIndex_collectionKey (m : SchemaManager) (path : ObjectPath) (field : String) :
    m.createIndex (collectionKey path) field =
      .done (.error (.invalidIdentifier "collection" (collectionKey path))) := by
  have hinvalid : validateIdentifier (collectionKey path) "collection" =
      .error (.invalidIdentifier "collection" (collectionKey path)) := by
    simp [validateIdentifier, slash_mem_collectionKey]
  simp [SchemaManager.createIndex, hinvalid, bind, Except.bind]

/-- A filter passes the check only on a collection that has an index on its field. -/
theorem guardQuery_of_indexes {m : SchemaManager} {collKey field : String}
    (h : ∀ d ∈ m.state.indexes collKey, d.field ≠ field) :
    guardQuery m collKey (some field) =
      .error (.badRequest ("field '" ++ field ++ "' is not indexed on collection '" ++ collKey ++
        "'; create an index before filtering on it")) := by
  have hindexed : ((collectionSchema m collKey).any fun s =>
      s.indexes.any fun idx => idx.field = field) = false := by
    unfold collectionSchema
    unfold SchemaState.indexes at h
    cases hschema : m.state.collections.get collKey with
    | none => rfl
    | some schema => simpa [hschema] using h
  simp [guardQuery, hindexed]

/-- No manager creates an index on the collection of a path, and in no run does a filter on it pass
the check. -/
theorem filter_refused (limit : Nat) (actions : List (SchemaManager × Action)) (path : ObjectPath)
    (field : String) :
    let m := actions.foldl SchemaManager.next (.new limit)
    m.createIndex (collectionKey path) field =
        .done (.error (.invalidIdentifier "collection" (collectionKey path))) ∧
      guardQuery m (collectionKey path) (some field) =
        .error (.badRequest ("field '" ++ field ++ "' is not indexed on collection '" ++
          collectionKey path ++ "'; create an index before filtering on it")) := by
  have hidentified := (identified_new limit).run actions
  refine ⟨createIndex_collectionKey _ path field, guardQuery_of_indexes ?_⟩
  intro d hd
  obtain ⟨-, hslash, -⟩ := hidentified.state _ d hd
  exact absurd (slash_mem_collectionKey path) hslash

/-- Names that the API accepts, and a field that the manager accepts. -/
theorem users_filter_refused :
    let path : ObjectPath := ⟨"acme", "main", "users"⟩
    (∀ name ∈ [path.tenant, path.db, path.coll], Data.validateName name = .ok ()) ∧
    validateIdentifier "email" "field" = .ok () ∧
    (SchemaManager.new 8).createIndex (collectionKey path) "email" =
      .done (.error (.invalidIdentifier "collection" "acme/main/users")) ∧
    guardQuery (.new 8) (collectionKey path) (some "email") =
      .error (.badRequest ("field 'email' is not indexed on collection 'acme/main/users'; " ++
        "create an index before filtering on it")) := by
  refine ⟨by decide, by decide, ?_, by decide⟩
  rw [createIndex_collectionKey]
  rfl

end BashfulDB.Api

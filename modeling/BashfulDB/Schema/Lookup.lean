import BashfulDB.Schema.Manager

/-! The indexes of a collection and the active index of a field, through every change of a state. -/
namespace BashfulDB.Schema

open SchemaManager

def SchemaState.indexes (state : SchemaState) (coll : String) : List IndexDefinition :=
  (state.collections.get coll).elim [] CollectionSchema.indexes

def SchemaState.active (state : SchemaState) (coll field : String) : Option String :=
  (state.activeByField.get coll).bind fun active => active.get field

/-- The definition that a creation adds. -/
def SchemaLogEntry.definition (entry : SchemaLogEntry) : IndexDefinition :=
  ⟨entry.indexId, entry.collection, entry.field, entry.version⟩

variable {state : SchemaState} {entry : SchemaLogEntry} {coll field : String}

theorem indexes_create (h : entry.op = .createIndex) :
    (applyEntryMut state entry).indexes coll =
      if coll = entry.collection then state.indexes coll ++ [entry.definition]
      else state.indexes coll := by
  simp only [applyEntryMut, h, SchemaState.indexes, SchemaLogEntry.definition]
  by_cases hcoll : coll = entry.collection
  · subst hcoll
    cases state.collections.get entry.collection <;> simp
  · simp [hcoll, OrdMap.get_insert_of_ne _ hcoll]

theorem active_create (h : entry.op = .createIndex) :
    (applyEntryMut state entry).active coll field =
      if coll = entry.collection ∧ field = entry.field then some entry.indexId
      else state.active coll field := by
  simp only [applyEntryMut, h, SchemaState.active]
  by_cases hcoll : coll = entry.collection
  · subst hcoll
    by_cases hfield : field = entry.field
    · subst hfield
      simp
    · cases state.activeByField.get entry.collection <;>
        simp [hfield, OrdMap.get_insert_of_ne _ hfield]
  · simp [hcoll, OrdMap.get_insert_of_ne _ hcoll]

theorem indexes_drop (h : entry.op = .dropIndex) :
    (applyEntryMut state entry).indexes coll =
      if coll = entry.collection then
        (state.indexes coll).filter fun idx => idx.id ≠ entry.indexId
      else state.indexes coll := by
  simp only [applyEntryMut, h, SchemaState.indexes]
  by_cases hcoll : coll = entry.collection
  · subst hcoll
    cases state.collections.get entry.collection <;> simp
  · simp [hcoll, OrdMap.get_insert_of_ne _ hcoll]

theorem active_drop (h : entry.op = .dropIndex) :
    (applyEntryMut state entry).active coll field =
      if coll = entry.collection ∧ field = entry.field ∧
        state.active coll field = some entry.indexId then none
      else state.active coll field := by
  simp only [applyEntryMut, h, SchemaState.active]
  cases hget : state.activeByField.get entry.collection with
  | none =>
    by_cases hcoll : coll = entry.collection
    · subst hcoll
      simp [hget]
    · simp [hcoll]
  | some active =>
    by_cases hid : active.get entry.field = some entry.indexId
    · by_cases hcoll : coll = entry.collection
      · subst hcoll
        by_cases hfield : field = entry.field
        · subst hfield
          simp [hget, hid, OrdMap.get_erase]
        · simp [hget, hid, hfield, OrdMap.get_erase]
      · simp [hid, hcoll, OrdMap.get_insert_of_ne _ hcoll]
    · by_cases hcoll : coll = entry.collection
      · subst hcoll
        by_cases hfield : field = entry.field
        · subst hfield
          simp [hget, hid]
        · simp [hid, hfield]
      · simp [hid, hcoll]

/-- What a creation adds to an entry that it has applied is there already. -/
theorem activate_create {replacement : Option IndexDefinition}
    (h : entry.op = .createIndex) (hcoll : entry.collection = coll) (hfield : entry.field = field) :
    activate (.create coll field replacement) entry (applyEntryMut state entry) =
      applyEntryMut state entry := by
  subst hcoll hfield
  cases replacement with
  | some old => rfl
  | none =>
    have hsame {active : OrdMap String String} :
        (active.insert entry.field entry.indexId).insert entry.field entry.indexId =
          active.insert entry.field entry.indexId := OrdMap.insert_of_get (OrdMap.get_insert_self _)
    simp only [activate, applyEntryMut, h, OrdMap.get_insert_self, Option.getD_some, hsame]
    rw [OrdMap.insert_of_get (OrdMap.get_insert_self _)]

variable {definition old : IndexDefinition}

theorem indexes_swap :
    (swapState definition old state).indexes coll =
      if coll = definition.collection then (state.indexes coll).filter fun idx => idx.id ≠ old.id
      else state.indexes coll := by
  simp only [swapState, SchemaState.indexes]
  by_cases hcoll : coll = definition.collection
  · subst hcoll
    cases hget : state.collections.get definition.collection <;> simp [hget]
  · cases state.collections.get definition.collection <;>
      simp [hcoll, OrdMap.get_insert_of_ne _ hcoll]

theorem active_swap :
    (swapState definition old state).active coll field =
      if coll = definition.collection ∧ field = definition.field ∧
        (state.activeByField.get coll).isSome then some definition.id
      else state.active coll field := by
  simp only [swapState, SchemaState.active]
  by_cases hcoll : coll = definition.collection
  · subst hcoll
    cases hget : state.activeByField.get definition.collection with
    | none => simp [hget]
    | some active =>
      by_cases hfield : field = definition.field
      · subst hfield
        simp
      · simp [hfield, OrdMap.get_insert_of_ne _ hfield]
  · cases state.activeByField.get definition.collection <;>
      simp [hcoll, OrdMap.get_insert_of_ne _ hcoll]

end BashfulDB.Schema

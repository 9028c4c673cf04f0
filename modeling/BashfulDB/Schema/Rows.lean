import BashfulDB.Schema.Coverage

/-! That the rows of an index are exactly those of the documents, and that dropping it takes away
exactly those. -/
namespace BashfulDB.Schema

open Api Storage

/-- The document with that object id is an object whose field is a scalar with that text. -/
def Serde.Indexed (serde : Serde) (engine : MemEngine) (d : IndexDefinition)
    (objectId text : String) : Prop :=
  ∃ value entries v,
    (engine.cfs .default).get (d.collection ++ "/" ++ objectId).asBytes = some value ∧
    serde.fromSlice value = some (.object entries) ∧ Entries.get d.field entries = some v ∧
    (v = .string text ∨ Spells serde.displayNumber v text)

variable {serde : Serde} {m : IndexMaterializer} {d : IndexDefinition} {index : String}

theorem indexed_iff {engine : MemEngine} {objectId text : String} :
    serde.Indexed engine d objectId text ↔ ∃ value,
      (engine.cfs .default).get (d.collection ++ "/" ++ objectId).asBytes = some value ∧
        serde.extractFieldValue value d.field = some text := by
  simp only [Serde.Indexed, Serde.extractFieldValue, Option.bind_eq_bind, Option.bind_eq_some_iff,
    indexText_eq_some]
  constructor
  · rintro ⟨value, entries, v, hget, hread, hfield, htext⟩
    exact ⟨value, hget, .object entries, hread, v, hfield, htext⟩
  · rintro ⟨value, hget, json, hread, v, hfield, htext⟩
    cases json with
    | object entries => exact ⟨value, entries, v, hget, hread, hfield, htext⟩
    | _ => cases hfield

theorem after_other {e : MemEngine} {cf : ColumnFamily} {batch : WriteBatch}
    (h : ∀ op ∈ batch, op.cf ≠ cf.name) : (e.after batch).cfs cf = e.cfs cf := by
  induction batch generalizing e with
  | nil => rfl
  | cons op batch ih =>
    obtain ⟨hop, hbatch⟩ := List.forall_mem_cons.mp h
    have hsame : (e.after [op]).cfs cf = e.cfs cf := if_neg hop
    rw [MemEngine.after_cons, ih hbatch, hsame]

theorem after_indexes {e : MemEngine} {cf : ColumnFamily} {batch : WriteBatch}
    (h : ∀ op ∈ batch, op.cf = ColumnFamily.indexes.name) (hcf : cf ≠ .indexes) :
    (e.after batch).cfs cf = e.cfs cf := by
  refine after_other fun op hop heq => hcf ?_
  exact (ColumnFamily.name_inj ((h op hop).symm.trans heq)).symm

/-- Bytes that complete a text to a text are one. -/
theorem exists_asBytes {s t : String} {rest : Bytes} (h : s.asBytes ++ rest = t.asBytes) :
    ∃ u : String, rest = u.asBytes := by
  have htext := congrArg Text.fromUtf8Lossy h
  rw [Text.fromUtf8Lossy_append, Text.fromUtf8Lossy_asBytes] at htext
  refine ⟨String.ofList (Text.fromUtf8Lossy rest), ?_⟩
  have hwhole : t = s ++ String.ofList (Text.fromUtf8Lossy rest) := by
    apply String.toList_inj.mp
    rw [String.toList_append, String.toList_ofList, ← htext]
  rw [hwhole, String.asBytes_append] at h
  exact List.append_cancel_left h

theorem idxKey_eq (index text objectId : String) : idxKey index text objectId =
    (index ++ "/").asBytes ++ (encodeFieldValueForKey text ++ "/" ++ objectId).asBytes := by
  rw [idxKey, ← String.asBytes_append]
  simp [String.append_assoc]

/-- Where keys are texts, the rows that are written are those of the documents. -/
theorem exists_op_iff (hkeys : ∀ k v, (m.engine.cfs .default).get k = some v →
      ∃ s : String, k = s.asBytes) (hcoll : Identifier d.collection) (k : Bytes) :
    (∃ op ∈ serde.indexRows m d, op.key = k) ↔
      ∃ objectId text, serde.Indexed m.engine d objectId text ∧ k = idxKey d.id text objectId := by
  simp only [mem_indexRows, splitObjectId_under hcoll.2.1, indexed_iff]
  constructor
  · rintro ⟨op, ⟨rest, value, objectId, text, hget, -, hid, htext, rfl⟩, rfl⟩
    obtain ⟨s, hs⟩ := hkeys _ _ hget
    obtain ⟨u, rfl⟩ := exists_asBytes hs
    rw [Text.fromUtf8Lossy_asBytes, String.ofList_toList, Option.some.injEq] at hid
    subst hid
    rw [← String.asBytes_append] at hget
    exact ⟨u, text, ⟨value, hget, htext⟩, rfl⟩
  · rintro ⟨objectId, text, ⟨value, hget, htext⟩, rfl⟩
    rw [String.asBytes_append] at hget
    refine ⟨_, ⟨objectId.asBytes, value, objectId, text, hget, asBytes_lt _, ?_, htext, rfl⟩, rfl⟩
    rw [Text.fromUtf8Lossy_asBytes, String.ofList_toList]

/-- What `dropMaterialized` deletes, as one batch. -/
def IndexMaterializer.deletions (m : IndexMaterializer) (index : String) : WriteBatch :=
  ((m.engine.cfs .indexes).entries.filter fun row =>
    MemEngine.inRange (index ++ "/").asBytes (prefixEnd (index ++ "/").asBytes) row.1).map
      fun row => BatchOp.delete ColumnFamily.indexes.name row.1

theorem mem_deletions {op : BatchOp} : op ∈ m.deletions index ↔
    ∃ k v, (m.engine.cfs .indexes).get k = some v ∧
      MemEngine.inRange (index ++ "/").asBytes (prefixEnd (index ++ "/").asBytes) k = true ∧
      op = .delete ColumnFamily.indexes.name k := by
  simp only [IndexMaterializer.deletions, List.mem_map, List.mem_filter, OrdMap.get_eq_some_iff]
  constructor
  · rintro ⟨⟨k, v⟩, ⟨hmem, hrange⟩, rfl⟩
    exact ⟨k, v, hmem, hrange, rfl⟩
  · rintro ⟨k, v, hmem, hrange, rfl⟩
    exact ⟨⟨k, v⟩, ⟨hmem, hrange⟩, rfl⟩

theorem dropMaterialized_eq (hindex : Identifier index) : m.dropMaterialized index =
    (.ok (), ⟨m.engine.after (m.deletions index), m.ready.erase index⟩) := by
  have hknown : MemEngine.Known (m.deletions index) := by
    intro op hop
    obtain ⟨k, v, -, -, rfl⟩ := mem_deletions.mp hop
    exact ⟨.indexes, rfl⟩
  have hwrite := MemEngine.writeBatch_known (e := m.engine) hknown
  unfold IndexMaterializer.deletions at hwrite ⊢
  rw [IndexMaterializer.dropMaterialized, validateIdentifier_eq_ok.mpr hindex]
  simp only [MemEngine.scan_name, hwrite]

/-- After the deletions no row in the range of the index is left, and all others are. -/
theorem get_deletions (m : IndexMaterializer) (index : String) (k : Bytes) :
    ((m.engine.after (m.deletions index)).cfs .indexes).get k =
      if MemEngine.inRange (index ++ "/").asBytes (prefixEnd (index ++ "/").asBytes) k = true then
        none else (m.engine.cfs .indexes).get k := by
  apply MemEngine.get_after_eq (T := fun k => if MemEngine.inRange (index ++ "/").asBytes
    (prefixEnd (index ++ "/").asBytes) k = true then none else (m.engine.cfs .indexes).get k)
  · intro op hop _
    obtain ⟨k, v, -, hrange, rfl⟩ := mem_deletions.mp hop
    exact (if_pos hrange).symm
  · by_cases hrange :
      MemEngine.inRange (index ++ "/").asBytes (prefixEnd (index ++ "/").asBytes) k = true
    · rw [if_pos hrange]
      cases hget : (m.engine.cfs .indexes).get k with
      | none => exact Or.inl rfl
      | some v => exact Or.inr ⟨_, mem_deletions.mpr ⟨k, v, hget, hrange, rfl⟩, rfl, rfl⟩
    · exact Or.inl (if_neg hrange).symm

theorem Serde.Indexed.text_unique {engine : MemEngine} {objectId text text' : String}
    (h : serde.Indexed engine d objectId text) (h' : serde.Indexed engine d objectId text') :
    text = text' := by
  obtain ⟨value, hget, htext⟩ := indexed_iff.mp h
  obtain ⟨value', hget', htext'⟩ := indexed_iff.mp h'
  obtain rfl := Option.some.inj (hget.symm.trans hget')
  exact Option.some.inj (htext.symm.trans htext')

theorem indexRows_other {cf : ColumnFamily} (hcf : cf ≠ .indexes) :
    (m.engine.after (serde.indexRows m d)).cfs cf = m.engine.cfs cf := by
  refine after_indexes (fun op hop => ?_) hcf
  obtain ⟨rest, value, objectId, text, -, -, -, -, rfl⟩ := mem_indexRows.mp hop
  rfl

theorem deletions_other {cf : ColumnFamily} (hcf : cf ≠ .indexes) :
    (m.engine.after (m.deletions index)).cfs cf = m.engine.cfs cf := by
  refine after_indexes (fun op hop => ?_) hcf
  obtain ⟨k, v, -, -, rfl⟩ := mem_deletions.mp hop
  rfl

/-- Every row of an index is in the range that is scanned to drop it. -/
theorem inRange_idxKey (index text objectId : String) :
    MemEngine.inRange (index ++ "/").asBytes (prefixEnd (index ++ "/").asBytes)
      (idxKey index text objectId) = true := by
  rw [idxKey_eq]
  exact inRange_prefixEnd.mpr ⟨_, rfl, asBytes_lt _⟩

theorem get_of_inRange {k : Bytes}
    (hnew : ∀ k v, (m.engine.cfs .indexes).get k = some v → ¬ (index ++ "/").asBytes <+: k)
    (h : MemEngine.inRange (index ++ "/").asBytes (prefixEnd (index ++ "/").asBytes) k = true) :
    (m.engine.cfs .indexes).get k = none := by
  obtain ⟨rest, rfl, -⟩ := inRange_prefixEnd.mp h
  cases hget : (m.engine.cfs .indexes).get ((index ++ "/").asBytes ++ rest) with
  | none => rfl
  | some v => exact absurd (List.prefix_append _ _) (hnew _ v hget)

/-- The rows of a new index are what dropping it deletes. -/
theorem after_deletions {ready : OrdMap String Unit}
    (hkeys : ∀ k v, (m.engine.cfs .default).get k = some v → ∃ s : String, k = s.asBytes)
    (hnew : ∀ k v, (m.engine.cfs .indexes).get k = some v → ¬ (d.id ++ "/").asBytes <+: k)
    (hcoll : Identifier d.collection) :
    let m' : IndexMaterializer := ⟨m.engine.after (serde.indexRows m d), ready⟩
    m'.engine.after (m'.deletions d.id) = m.engine := by
  intro m'
  ext1
  funext cf
  by_cases hcf : cf = .indexes
  · subst hcf
    refine OrdMap.ext_get fun k => ?_
    rw [get_deletions]
    split
    · rename_i hrange
      exact (get_of_inRange hnew hrange).symm
    · rename_i hrange
      refine (get_indexRows m k).trans (if_neg fun h => ?_)
      obtain ⟨objectId, text, -, rfl⟩ := (exists_op_iff hkeys hcoll k).mp h
      exact hrange (inRange_idxKey d.id text objectId)
  · rw [deletions_other hcf]
    exact indexRows_other hcf

/-- Exactly one row is added for each document of the collection that has a scalar at the field,
with the text of the scalar in URL-safe base64, and nothing else changes; dropping the index then
brings back the engine as it was. -/
theorem materialize_exact (serde : Serde) (m : IndexMaterializer) (d : IndexDefinition)
    (hkeys : ∀ k v, (m.engine.cfs .default).get k = some v → ∃ s : String, k = s.asBytes)
    (hnew : ∀ k v, (m.engine.cfs .indexes).get k = some v → ¬ (d.id ++ "/").asBytes <+: k)
    (hcoll : validateIdentifier d.collection "collection" = .ok ())
    (hid : validateIdentifier d.id "index" = .ok ())
    (hfield : validateIdentifier d.field "field" = .ok ()) :
    let row (objectId text : String) : Bytes :=
      (d.id ++ "/" ++ Base64.encode text.asBytes ++ "/" ++ objectId).asBytes
    (serde.materialize m d).1 = .ok () ∧
    (∀ cf, cf ≠ .indexes → (serde.materialize m d).2.engine.cfs cf = m.engine.cfs cf) ∧
    (∀ objectId text, serde.Indexed m.engine d objectId text →
      ((serde.materialize m d).2.engine.cfs .indexes).get (row objectId text) = some []) ∧
    (∀ k, (¬ ∃ objectId text, serde.Indexed m.engine d objectId text ∧ k = row objectId text) →
      ((serde.materialize m d).2.engine.cfs .indexes).get k = (m.engine.cfs .indexes).get k) ∧
    (∀ objectId objectId' text text', serde.Indexed m.engine d objectId text →
      serde.Indexed m.engine d objectId' text' →
        (row objectId text = row objectId' text' ↔ objectId = objectId')) ∧
    ((serde.materialize m d).2.dropMaterialized d.id).1 = .ok () ∧
    ((serde.materialize m d).2.dropMaterialized d.id).2.engine = m.engine := by
  intro row
  have hcoll' := validateIdentifier_eq_ok.mp hcoll
  have hop (k : Bytes) : (∃ op ∈ serde.indexRows m d, op.key = k) ↔ _ :=
    exists_op_iff hkeys hcoll' k
  rw [serde.materialize_ok m hcoll hid hfield]
  refine ⟨rfl, fun cf hcf => ?_, fun objectId text hrow => ?_, fun k hk => ?_, ?_, ?_, ?_⟩
  · exact indexRows_other hcf
  · exact (get_indexRows m _).trans (if_pos ((hop _).mpr ⟨objectId, text, hrow, rfl⟩))
  · exact (get_indexRows m k).trans (if_neg fun h => hk ((hop k).mp h))
  · intro objectId objectId' text text' hrow hrow'
    refine ⟨fun hkey => (idxKey_inj hkey).2, ?_⟩
    rintro rfl
    rw [hrow.text_unique hrow']
  · rw [dropMaterialized_eq (validateIdentifier_eq_ok.mp hid)]
  · rw [dropMaterialized_eq (validateIdentifier_eq_ok.mp hid)]
    exact after_deletions hkeys hnew hcoll'

/-- An engine with one record, of a tombstone. -/
def oneUser : IndexMaterializer :=
  ⟨MemEngine.new.update .default (·.insert "users/1".asBytes [0, 1]), .empty⟩

theorem oneUser_indexed_and_dropped :
    ((sampleSerde.materialize oneUser (userIndex "is_tombstone")).2.engine.cfs .indexes).get
        "i/dHJ1ZQ/1".asBytes = some [] ∧
      ((sampleSerde.materialize oneUser
        (userIndex "is_tombstone")).2.dropMaterialized "i").2.engine = oneUser.engine := by
  have hkeys : ∀ k v, (oneUser.engine.cfs .default).get k = some v →
      ∃ s : String, k = s.asBytes := by
    intro k v hget
    change (OrdMap.empty.insert "users/1".asBytes [0, 1]).get k = some v at hget
    rw [OrdMap.get_insert] at hget
    split at hget
    · exact ⟨"users/1", ‹_›⟩
    · cases hget
  have hnew : ∀ k v, (oneUser.engine.cfs .indexes).get k = some v →
      ¬ ("i" ++ "/").asBytes <+: k := by
    intro k v hget
    cases hget
  have hrow : sampleSerde.Indexed oneUser.engine (userIndex "is_tombstone") "1" "true" :=
    ⟨[0, 1], _, .bool true, by decide +kernel, rfl, rfl, Or.inr .true⟩
  obtain ⟨-, -, hadded, -, -, -, hdropped⟩ := materialize_exact sampleSerde oneUser
    (userIndex "is_tombstone") hkeys hnew (by decide +kernel) (by decide +kernel)
    (by decide +kernel)
  have hkey : ("i" ++ "/" ++ Base64.encode "true".asBytes ++ "/" ++ "1").asBytes =
      "i/dHJ1ZQ/1".asBytes := by decide +kernel
  exact ⟨hkey ▸ hadded "1" "true" hrow, hdropped⟩

end BashfulDB.Schema

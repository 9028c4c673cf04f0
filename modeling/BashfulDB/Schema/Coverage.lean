import BashfulDB.Schema.Materializer

/-! What the rows of an index say about the documents of its collection. -/
namespace BashfulDB.Schema

open Api Clock Data Replication Storage

/-- The text under which a scalar of a document is indexed. -/
def scalarText (displayNumber : JsonNumber → String) : RawValue → Option String
  | .null => some "null"
  | .bool b => some (toString b)
  | .int i => some (displayNumber (.ofI64 i))
  | .float f => if h : f.isFinite = true then some (displayNumber (.float f h)) else some "null"
  | .string s => some s
  | .blob _ | .array _ | .object _ => none

def fieldOf (field : String) : RawValue → Option RawValue
  | .object entries => Entries.get field entries
  | _ => none

/-- The text of the scalar that a live document has at the field. -/
def documentText (displayNumber : JsonNumber → String) (field : String) (v : VersionedDoc) :
    Option String :=
  if v.isTombstone then none
  else do
    let doc ← v.document
    let value ← fieldOf field doc.data.val
    scalarText displayNumber value

namespace Serde

variable (serde : Serde)

/-- A record is read as an object of its four fields, or not at all: the reader has a limit on how
deep values are nested, and the writer has none. -/
def Reads (v : VersionedDoc) : Prop :=
  serde.fromSlice (serde.toVec v) = none ∨
    ∃ document version, serde.fromSlice (serde.toVec v) = some (.object
      [("document", if v.document.isSome then .object document else .null),
        ("hlc", .number (.posInt v.hlc.raw)), ("is_tombstone", .bool v.isTombstone),
        ("version", .object version)])

/-- The text of the scalar that the record itself has at the field, if it can be read. -/
def recordText (field : String) (v : VersionedDoc) : Option String :=
  if (serde.fromSlice (serde.toVec v)).isNone then none
  else if field = "document" then if v.document.isSome then none else some "null"
  else if field = "hlc" then some (serde.displayNumber (.posInt v.hlc.raw))
  else if field = "is_tombstone" then some (toString v.isTombstone)
  else none

/-- The engine holds the records of the replica. -/
def Stores (engine : MemEngine) (store : ReplicaStore) : Prop :=
  ∀ key, (engine.cfs .default).get key = (store.default.get key).map serde.toVec

/-- What a request puts into the engine, unless it is a hint. -/
def deliver (engine : MemEngine) (d : Delivery) : MemEngine :=
  if d.request.isHint then engine
  else engine.update .default (·.insert d.request.key.toBytes (serde.toVec d.versioned))

/-- The rows of the index for the documents of its collection are those of the scalars that the
live ones have at its field. -/
def Covers (engine : MemEngine) (store : ReplicaStore) (d : IndexDefinition) : Prop :=
  ∀ key : ObjectKey, key.collection = d.collection → ∀ text,
    ((engine.cfs .indexes).get (idxKey d.id text (toString key.objectId))).isSome ↔
      ∃ v, store.held key = some v ∧
        documentText serde.displayNumber d.field v = some text

end Serde

variable {serde : Serde} {engine : MemEngine} {store : ReplicaStore} {d : IndexDefinition}

theorem deliver_hint {handler : Handler} {req : WriteRequest} (h : req.isHint = true) :
    (store.deliver ⟨handler, req⟩).default = store.default := by
  cases handler <;> cases htarget : req.hintTarget <;>
    simp [ReplicaStore.deliver, ReplicaStore.handleWrite, ReplicaStore.handleDelete,
      ReplicaStore.handle, ReplicaStore.storeHint, h, htarget]

theorem deliver_put {handler : Handler} {req : WriteRequest} (h : ¬ req.isHint = true) :
    (store.deliver ⟨handler, req⟩).default =
      store.default.insert req.key.toBytes (Delivery.versioned ⟨handler, req⟩) := by
  cases handler <;>
    simp [ReplicaStore.deliver, ReplicaStore.handleWrite, ReplicaStore.handleDelete,
      ReplicaStore.handle, Delivery.versioned, h]

/-- A request changes the engine as it changes the replica. -/
theorem Serde.Stores.deliver (h : serde.Stores engine store) (d : Delivery) :
    serde.Stores (serde.deliver engine d) (store.deliver d) := by
  intro key
  obtain ⟨handler, req⟩ := d
  unfold Serde.deliver
  by_cases hhint : req.isHint = true
  · rw [if_pos hhint, deliver_hint hhint]
    exact h key
  · rw [if_neg hhint, deliver_put hhint]
    simp only [MemEngine.update, Function.update_self, OrdMap.get_insert]
    split
    · rfl
    · exact h key

theorem Serde.stores_new (serde : Serde) (nodeId : NodeId) : serde.Stores .new (.new nodeId) :=
  fun _ => rfl

theorem Serde.Stores.deliverAll (h : serde.Stores engine store) (ds : List Delivery) :
    serde.Stores (ds.foldl serde.deliver engine) (store.deliverAll ds) := by
  induction ds generalizing engine store with
  | nil => exact h
  | cons d ds ih => exact ih (h.deliver d)

/-- Every key of the replica is that of an object. -/
def Keyed (store : ReplicaStore) : Prop :=
  ∀ k v, store.default.get k = some v → ∃ key : ObjectKey, k = key.toBytes

theorem Keyed.deliver (h : Keyed store) (d : Delivery) : Keyed (store.deliver d) := by
  intro k v hget
  obtain ⟨handler, req⟩ := d
  by_cases hhint : req.isHint = true
  · rw [deliver_hint hhint] at hget
    exact h k v hget
  · rw [deliver_put hhint, OrdMap.get_insert] at hget
    split at hget
    · exact ⟨req.key, ‹_›⟩
    · exact h k v hget

theorem keyed_deliverAll (nodeId : NodeId) (ds : List Delivery) :
    Keyed ((ReplicaStore.new nodeId).deliverAll ds) := by
  have hnew : Keyed (.new nodeId) := by
    intro k v hget
    cases hget
  induction ds using List.reverseRecOn with
  | nil => exact hnew
  | append_singleton ds d ih =>
    rw [ReplicaStore.deliverAll, List.foldl_append]
    exact ih.deliver d

theorem extractFieldValue_toVec {v : VersionedDoc} (h : serde.Reads v) (field : String) :
    serde.extractFieldValue (serde.toVec v) field = serde.recordText field v := by
  rcases h with hunread | ⟨document, version, hread⟩
  · simp [Serde.extractFieldValue, Serde.recordText, hunread]
  · simp only [Serde.extractFieldValue, hread, Option.bind_eq_bind, Option.bind_some, getField,
      Entries.get, Serde.recordText, Option.isNone_some, Bool.false_eq_true, if_false]
    split
    · cases v.document.isSome <;> rfl
    · split
      · rfl
      · split
        · rfl
        · split
          · rfl
          · rfl

/-- What stands after the name of the collection is the object id. -/
theorem splitObjectId_under {coll : String} (hcoll : '/' ∉ coll.toList) (rest : Bytes) :
    splitObjectId ((coll ++ "/").asBytes ++ rest) =
      some (String.ofList (Text.fromUtf8Lossy rest)) := by
  have htext : Text.fromUtf8Lossy ((coll ++ "/").asBytes ++ rest) =
      coll.toList ++ '/' :: Text.fromUtf8Lossy rest := by
    rw [Text.fromUtf8Lossy_append]
    simp
  rw [splitObjectId, htext, Text.splitn_cons hcoll]
  rfl

theorem idxKey_inj {index text text' objectId objectId' : String}
    (h : idxKey index text objectId = idxKey index text' objectId') :
    text = text' ∧ objectId = objectId' := by
  have hlist := congrArg String.toList (String.asBytes_inj h)
  simp only [String.toList_append, List.append_assoc, List.append_cancel_left_eq] at hlist
  -- The encoded value ends at the first slash.
  have hsplit := congrArg (Text.splitn '/' 2) hlist
  have hvalue (text objectId : String) : Text.splitn '/' 2
      ((encodeFieldValueForKey text).toList ++ ("/".toList ++ objectId.toList)) =
        [(encodeFieldValueForKey text).toList, objectId.toList] :=
    Text.splitn_cons (Base64.slash_not_mem_encode text.asBytes)
  simp only [hvalue, List.cons.injEq, String.toList_inj, and_true] at hsplit
  exact ⟨String.asBytes_inj (Base64.encode_inj hsplit.1), hsplit.2⟩

/-- The scan of a collection finds what stands under its name. -/
theorem inRange_prefixEnd {start key : Bytes} :
    MemEngine.inRange start (prefixEnd start) key = true ↔
      ∃ rest, key = start ++ rest ∧ rest < [0xFF] := by
  have hstop : prefixEnd start ≠ [] := List.append_ne_nil_of_right_ne_nil _ (by decide)
  rw [MemEngine.inRange_iff, or_iff_right hstop, prefixEnd, Bytes.between_iff]

theorem key_toBytes (key : ObjectKey) :
    key.toBytes = (key.collection ++ "/").asBytes ++ (toString key.objectId).asBytes := by
  rw [ObjectKey.toBytes, String.asBytes_append]

theorem asBytes_lt (s : String) : s.asBytes < [0xFF] := by
  rw [Bytes.lt_max_iff]
  exact (Text.utf8_asBytes s).not_max_after []

theorem mem_indexRows {m : IndexMaterializer} {op : BatchOp} :
    op ∈ serde.indexRows m d ↔ ∃ rest value objectId text,
      (m.engine.cfs .default).get ((d.collection ++ "/").asBytes ++ rest) = some value ∧
      rest < [0xFF] ∧ splitObjectId ((d.collection ++ "/").asBytes ++ rest) = some objectId ∧
      serde.extractFieldValue value d.field = some text ∧
      op = .put ColumnFamily.indexes.name (idxKey d.id text objectId) [] := by
  simp only [Serde.indexRows, List.mem_filterMap, List.mem_filter, Serde.indexRow_eq_some,
    inRange_prefixEnd, OrdMap.get_eq_some_iff]
  constructor
  · rintro ⟨⟨k, value⟩, ⟨hentry, rest, rfl, hrest⟩, objectId, text, hid, htext, rfl⟩
    exact ⟨rest, value, objectId, text, hentry, hrest, hid, htext, rfl⟩
  · rintro ⟨rest, value, objectId, text, hentry, hrest, hid, htext, rfl⟩
    exact ⟨⟨_, value⟩, ⟨hentry, rest, rfl, hrest⟩, objectId, text, hid, htext, rfl⟩

/-- A record of the collection gives the row of its own scalar, and no other record does. -/
theorem exists_indexRow {m : IndexMaterializer} {key : ObjectKey} {text : String}
    (hstores : serde.Stores m.engine store)
    (hkeyed : Keyed store) (hreads : ∀ v, store.held key = some v → serde.Reads v)
    (hcoll : Identifier d.collection) (hkey : key.collection = d.collection) :
    (∃ op ∈ serde.indexRows m d, op.key = idxKey d.id text (toString key.objectId)) ↔
      ∃ v, store.held key = some v ∧ serde.recordText d.field v = some text := by
  simp only [mem_indexRows, splitObjectId_under hcoll.2.1]
  constructor
  · rintro ⟨op, ⟨rest, value, objectId, text', hget, -, hid, htext, rfl⟩, hrow⟩
    obtain ⟨rfl, rfl⟩ := idxKey_inj hrow
    rw [hstores, Option.map_eq_some_iff] at hget
    obtain ⟨v, hv, rfl⟩ := hget
    obtain ⟨key', hkey'⟩ := hkeyed _ v hv
    -- The key is a text, and as one it is that of the document.
    have hbytes : (d.collection ++ "/").asBytes ++ rest = key.toBytes := by
      have htext' := congrArg Text.fromUtf8Lossy hkey'
      rw [Text.fromUtf8Lossy_append, ObjectKey.toBytes, Text.fromUtf8Lossy_asBytes] at htext'
      have hlist : (d.collection ++ "/" ++ toString key.objectId).toList =
          (d.collection ++ "/").toList ++ Text.fromUtf8Lossy rest := by
        rw [← Option.some.inj hid, String.toList_append, String.toList_ofList]
      rw [hkey', ObjectKey.toBytes, ObjectKey.toBytes, hkey]
      exact congrArg String.asBytes (String.toList_inj.mp (htext'.symm.trans hlist.symm))
    rw [hbytes] at hv
    rw [extractFieldValue_toVec (hreads v hv)] at htext
    exact ⟨v, hv, htext⟩
  · rintro ⟨v, hv, htext⟩
    refine ⟨_, ⟨(toString key.objectId).asBytes, serde.toVec v, toString key.objectId, text, ?_,
      asBytes_lt _, ?_, ?_, rfl⟩, rfl⟩
    · rw [← hkey, ← key_toBytes, hstores, Option.map_eq_some_iff]
      exact ⟨v, hv, rfl⟩
    · rw [Text.fromUtf8Lossy_asBytes, String.ofList_toList]
    · rw [extractFieldValue_toVec (hreads v hv), htext]

/-- The rows that are there after a batch of the materializer. -/
theorem get_indexRows (m : IndexMaterializer) (k : Bytes) :
    ((m.engine.after (serde.indexRows m d)).cfs .indexes).get k =
      if ∃ op ∈ serde.indexRows m d, op.key = k then some [] else
        (m.engine.cfs .indexes).get k := by
  have hput : ∀ op ∈ serde.indexRows m d,
      op.outcome = some [] ∧ op.cf = ColumnFamily.indexes.name := by
    intro op hop
    obtain ⟨rest, value, objectId, text, -, -, -, -, rfl⟩ := mem_indexRows.mp hop
    exact ⟨rfl, rfl⟩
  apply MemEngine.get_after_eq (T := fun k => if ∃ op ∈ serde.indexRows m d, op.key = k then
    some [] else (m.engine.cfs .indexes).get k)
  · intro op hop _
    rw [(hput op hop).1]
    exact (if_pos ⟨op, hop, rfl⟩).symm
  · by_cases hrow : ∃ op ∈ serde.indexRows m d, op.key = k
    · obtain ⟨op, hop, hk⟩ := hrow
      exact Or.inr ⟨op, hop, (hput op hop).2, hk⟩
    · exact Or.inl (if_neg hrow).symm

theorem isSome_get_indexRows (m : IndexMaterializer) {k : Bytes}
    (hnew : (m.engine.cfs .indexes).get k = none) :
    (((m.engine.after (serde.indexRows m d)).cfs .indexes).get k).isSome ↔
      ∃ op ∈ serde.indexRows m d, op.key = k := by
  rw [get_indexRows, hnew]
  split
  · rename_i hrow
    exact iff_of_true rfl hrow
  · rename_i hrow
    exact iff_of_false Bool.false_ne_true hrow

/-- After `materialize` has succeeded on the records of a replica, the rows of the index are those
of its live documents exactly when every document has at the field what the record that holds it
has there, or nothing where that record cannot be read. -/
theorem materialize_covers_iff (serde : Serde) (nodeId : NodeId) (ds : List Delivery)
    (m : IndexMaterializer) (d : IndexDefinition)
    (hstores : serde.Stores m.engine ((ReplicaStore.new nodeId).deliverAll ds))
    (hnew : ∀ text objectId, (m.engine.cfs .indexes).get (idxKey d.id text objectId) = none)
    (hreads : ∀ key v, key.collection = d.collection →
      ((ReplicaStore.new nodeId).deliverAll ds).held key = some v → serde.Reads v)
    (hok : (serde.materialize m d).1 = .ok ()) :
    serde.Covers (serde.materialize m d).2.engine ((ReplicaStore.new nodeId).deliverAll ds) d ↔
      ∀ key v, key.collection = d.collection →
        ((ReplicaStore.new nodeId).deliverAll ds).held key = some v →
          documentText serde.displayNumber d.field v = serde.recordText d.field v := by
  rcases serde.materialize_cases m with ⟨e, herror⟩ | ⟨hcoll, -, -, heq⟩
  · rw [herror] at hok
    cases hok
  · rw [heq]
    have hrow (key : ObjectKey) (hkey : key.collection = d.collection) (text : String) :=
      (isSome_get_indexRows m (hnew text (toString key.objectId))).trans
        (exists_indexRow hstores (keyed_deliverAll nodeId ds) (fun v => hreads key v hkey) hcoll
          hkey)
    constructor
    · intro hcovers key v hkey hv
      refine Option.ext fun text => ?_
      have hiff := (hcovers key hkey text).symm.trans (hrow key hkey text)
      simpa [hv] using hiff
    · intro hsame key hkey text
      rw [hrow key hkey text]
      refine exists_congr fun v => and_congr_right fun hv => ?_
      rw [hsame key v hkey hv]

/-- A form of records that keeps no more than the reader needs, and takes the place of JSON in the
runs below. -/
def sampleSerde : Serde where
  toVec v := (if v.document.isSome then 1 else 0) :: (if v.isTombstone then 1 else 0) ::
    Bytes.ofNat 8 v.hlc.raw.toNat
  fromSlice
    | document :: tombstone :: hlc => some (.object
        [("document", if document = 1 then .object [] else .null),
          ("hlc", .number (.posInt (UInt64.ofNat (Bytes.toNat hlc)))),
          ("is_tombstone", .bool (tombstone = 1)), ("version", .object [])])
    | _ => none
  displayNumber
    | .posInt n => toString n.toNat
    | .negInt i _ => toString i.toInt
    | .float f _ => toString f.bits.toNat

theorem sampleSerde_reads (v : VersionedDoc) : sampleSerde.Reads v := by
  refine Or.inr ⟨[], [], ?_⟩
  have hlc : Bytes.toNat (Bytes.ofNat 8 v.hlc.raw.toNat) = v.hlc.raw.toNat :=
    Bytes.toNat_ofNat v.hlc.raw.toNat_lt
  simp only [sampleSerde, hlc, UInt64.ofNat_toNat]
  cases v.document.isSome <;> cases v.isTombstone <;> rfl

/-- A user whose only field is a scalar. -/
def user (field : String) (value : RawValue) (h : value.Ordered) : Document :=
  ⟨⟨⟨1⟩⟩, ⟨.object [(field, value)], .object (List.pairwise_singleton _ _) (by simpa using h)⟩, rfl⟩

def userKey : ObjectKey := ⟨"users", ⟨⟨1⟩⟩⟩

def writeUser (doc : Document) : Delivery :=
  ⟨.write, userKey, some doc, .single ⟨⟨0⟩⟩ ⟨1⟩, ⟨1⟩, false, none⟩

def userIndex (field : String) : IndexDefinition := ⟨"i", "users", field, 1⟩

def usersAfter (ds : List Delivery) : IndexMaterializer :=
  ⟨ds.foldl sampleSerde.deliver .new, .empty⟩

/-- A document whose field has the name and the value of one of the record's own. -/
def flagged : List Delivery := [writeUser (user "is_tombstone" (.bool false) (.bool false))]

theorem flagged_covered :
    sampleSerde.Covers (sampleSerde.materialize (usersAfter flagged)
      (userIndex "is_tombstone")).2.engine ((ReplicaStore.new ⟨⟨0⟩⟩).deliverAll flagged)
      (userIndex "is_tombstone") ∧
    ((sampleSerde.materialize (usersAfter flagged) (userIndex "is_tombstone")).2.engine.cfs
      .indexes).get (idxKey "i" "false" (toString userKey.objectId)) = some [] := by
  refine ⟨?_, by decide +kernel⟩
  refine (materialize_covers_iff sampleSerde ⟨⟨0⟩⟩ flagged (usersAfter flagged) _
    ((sampleSerde.stores_new _).deliverAll flagged) (fun _ _ => rfl)
    (fun _ v _ _ => sampleSerde_reads v) (by decide +kernel)).mpr ?_
  intro key v _ hv
  have hget : (OrdMap.empty.insert userKey.toBytes
      (writeUser (user "is_tombstone" (.bool false) (.bool false))).versioned).get key.toBytes =
        some v := hv
  rw [OrdMap.get_insert] at hget
  split at hget
  · cases hget
    rfl
  · cases hget

def emailed : List Delivery := [writeUser (user "email" (.string "a@example.com") (.string _))]

/-- The deletion of the document. -/
def deleted : List Delivery := emailed ++ emailed.map fun d => ⟨.delete, d.request⟩

/-- The index on a field of the document has no row for it, and an index on the flag of the record
has one for the tombstone. -/
theorem emailed_not_covered :
    (sampleSerde.materialize (usersAfter emailed) (userIndex "email")).1 = .ok () ∧
    ¬ sampleSerde.Covers (sampleSerde.materialize (usersAfter emailed) (userIndex "email")).2.engine
      ((ReplicaStore.new ⟨⟨0⟩⟩).deliverAll emailed) (userIndex "email") ∧
    (sampleSerde.materialize (usersAfter deleted) (userIndex "is_tombstone")).1 = .ok () ∧
    ¬ sampleSerde.Covers
      (sampleSerde.materialize (usersAfter deleted) (userIndex "is_tombstone")).2.engine
      ((ReplicaStore.new ⟨⟨0⟩⟩).deliverAll deleted) (userIndex "is_tombstone") := by
  refine ⟨by decide +kernel, ?_, by decide +kernel, ?_⟩
  · intro hcovers
    have hwrites : ∀ d ∈ emailed, d.Writes userKey := by
      intro d hd
      rw [List.mem_singleton.mp hd]
      exact ⟨rfl, rfl⟩
    have hread := @ReplicaStore.held_deliverAll (.new ⟨⟨0⟩⟩) userKey emailed hwrites
    have hrow := (hcovers userKey rfl "a@example.com").mpr ⟨_, hread, rfl⟩
    exact absurd hrow (by decide +kernel)
  · intro hcovers
    have hwrites : ∀ d ∈ deleted, d.Writes userKey := by
      intro d hd
      rcases List.mem_cons.mp hd with rfl | hd
      · exact ⟨rfl, rfl⟩
      · rw [List.mem_singleton.mp hd]
        exact ⟨rfl, rfl⟩
    have hread := @ReplicaStore.held_deliverAll (.new ⟨⟨0⟩⟩) userKey deleted hwrites
    obtain ⟨v, hv, htext⟩ := (hcovers userKey rfl "true").mp (by decide +kernel)
    cases hread.symm.trans hv
    cases htext

end BashfulDB.Schema

import BashfulDB.Api.Objects

/-! What a client reads back of the JSON object it has sent. -/
namespace BashfulDB.Api

open Auth Clock Data Replication

/-- An object put under the tag that serialisation gives to objects, `n` times. -/
def tagged : Nat → JsonValue → JsonValue
  | 0, j => j
  | n + 1, j => .object [("Object", tagged n j)]

theorem tagged_add (m n : Nat) (j : JsonValue) : tagged m (tagged n j) = tagged (m + n) j := by
  induction m with
  | zero => rw [tagged, Nat.zero_add]
  | succ m ih => rw [tagged, ih, Nat.succ_add, tagged]

variable {display : JsonNumber → String}

theorem jsonToRaw_singleton {k : String} {j : JsonValue} {v : RawValue}
    (h : jsonToRaw display (.object [(k, j)]) = .ok v) :
    ∃ w, jsonToRaw display j = .ok w ∧ v = .object [(k, w)] := by
  rw [jsonToRaw, jsonToEntries, Except.bind_eq_ok] at h
  obtain ⟨btree, hbtree, hv⟩ := h
  obtain ⟨w, hw, hentries⟩ := Except.bind_eq_ok.mp hbtree
  cases hentries
  cases hv
  exact ⟨w, hw, rfl⟩

theorem toValue_singleton (k : String) (w : RawValue) :
    toValue (.object [(k, w)]) = .object [("Object", .object [(k, toValue w)])] := by
  rw [toValue, toEntries, toEntries]

/-- Serialising what was read adds tags that reading does not take off. -/
theorem ne_tagged_toValue {j : JsonValue} {v : RawValue} (n : Nat)
    (h : jsonToRaw display j = .ok v) : j ≠ tagged (n + 1) (toValue v) := by
  induction hsize : sizeOf j using Nat.strong_induction_on generalizing j v n with
  | _ size ih =>
    intro heq
    rw [tagged] at heq
    subst heq
    obtain ⟨w, hw, rfl⟩ := jsonToRaw_singleton h
    -- The inner object carries one tag more than the outer one, around a smaller value.
    have hinner : tagged n (toValue (.object [("Object", w)])) = tagged (n + 2) (toValue w) := by
      rw [toValue_singleton, ← tagged_add]
      rfl
    refine ih _ ?_ (n + 1) hw rfl hinner
    rw [← hsize]
    simp only [JsonValue.object.sizeOf_spec, List.cons.sizeOf_spec, Prod.mk.sizeOf_spec]
    omega

/-- No object is its own serialisation. -/
theorem toValue_ne {entries : List (String × JsonValue)} {btree : List (String × RawValue)}
    (h : jsonToRaw display (.object entries) = .ok (.object btree)) :
    toValue (.object btree) ≠ .object entries := by
  rw [toValue]
  intro heq
  injection heq with hentries
  subst hentries
  obtain ⟨w, hw, hbtree⟩ := jsonToRaw_singleton h
  injection hbtree with hbtree
  subst hbtree
  exact ne_tagged_toValue 0 hw rfl

variable {libs : Libs} {members : Membership} {s t : AppState}

theorem docToJson_object {doc : Document} {btree : List (String × RawValue)}
    (h : doc.data.val = .object btree) : docToJson doc =
      .object [("Object", .object (toEntries btree)), ("_id", .string (toString doc.id))] := by
  rw [docToJson, h, toValue]
  rfl

theorem buildDocument_eq_ok {id : ObjectId} {json : JsonValue} {doc : Document}
    (h : buildDocument libs id json = .ok doc) :
    doc.id = id ∧ jsonToRaw libs.displayNumber json = .ok doc.data.val := by
  obtain ⟨data, hdata, hdoc⟩ := Except.bind_eq_ok.mp h
  rw [Except.mapError_eq_ok, Document.new] at hdoc
  split at hdoc
  · cases hdoc
    refine ⟨rfl, ?_⟩
    unfold jsonToValue at hdata
    split at hdata
    · rename_i v hv
      cases hdata
      exact hv
    · cases hdata
  · cases hdoc

theorem buildDocument_of_submitted {path : ObjectPath} {id : String} {headers : HeaderMap}
    {claims : Claims} {body : Bytes} {env : RequestEnv} {key : ObjectKey} {doc : Document}
    {json : JsonValue} (hbody : parseBody libs body = .ok json)
    (h : s.submitted libs members (.upsert path id headers claims body) env =
      some (key, some doc)) :
    admissionOf libs path id claims .update = .ok key ∧
      buildDocument libs key.objectId json = .ok doc := by
  simp only [AppState.submitted, hbody] at h
  split at h
  · rename_i k _ hadmitted _ hjson
    cases hjson
    split at h
    · rename_i built hbuilt
      cases h
      exact ⟨hadmitted, (upsertDocument_eq_ok.mp hbuilt).2⟩
    · cases h
  · cases h

theorem admissionOf_inj {path : ObjectPath} {id : String} {claims claims' : Claims}
    {action action' : Action} {key key' : ObjectKey}
    (h : admissionOf libs path id claims action = .ok key)
    (h' : admissionOf libs path id claims' action' = .ok key') : key = key' := by
  obtain ⟨_, -, h⟩ := Except.bind_eq_ok.mp h
  obtain ⟨oid, hoid, h⟩ := Except.bind_eq_ok.mp h
  obtain ⟨_, -, h⟩ := Except.bind_eq_ok.mp h
  obtain ⟨_, -, h'⟩ := Except.bind_eq_ok.mp h'
  obtain ⟨oid', hoid', h'⟩ := Except.bind_eq_ok.mp h'
  obtain ⟨_, -, h'⟩ := Except.bind_eq_ok.mp h'
  cases hoid.symm.trans hoid'
  cases h
  cases h'
  rfl

/-- A successful read answers with the document that the coordinator returned. -/
theorem getObject_eq_ok {path : ObjectPath} {id : String} {claims : Claims} {env : RequestEnv}
    {response : Response} (h : (t.getObject libs members path id claims env).1 = .ok response) :
    ∃ key result doc, admissionOf libs path id claims .read = .ok key ∧
      (t.coordinator.quorumRead members libs.reread t.replicas key env.quorum).1 = .ok result ∧
      result.document = some doc ∧ response.body = some (docToJson doc) := by
  unfold AppState.getObject at h
  cases hkey : admissionOf libs path id claims .read with
  | error e =>
    rw [hkey] at h
    cases h
  | ok key =>
    simp only [hkey, AppState.quorumRead] at h
    cases hread : (t.coordinator.quorumRead members libs.reread t.replicas key env.quorum).1 with
    | error e =>
      rw [hread] at h
      cases h
    | ok result =>
      simp only [hread] at h
      cases hdoc : result.document with
      | none =>
        rw [hdoc] at h
        cases h
      | some doc =>
        rw [hdoc] at h
        cases h
        exact ⟨key, result, doc, rfl, hread, hdoc, rfl⟩

/-- The answer to `get_object` is the JSON object `j` extended with the object's id. -/
def Echoes (answer : Except ApiError Response) (id : ObjectId) (j : List (String × JsonValue)) :
    Prop :=
  ∃ response, answer = .ok response ∧
    response.body = some (.object (Entries.insert "_id" (.string (toString id)) j))

/-- Whatever object was sent, it does not come back: every value is answered under its tag. -/
theorem getObject_never_echoes {path : ObjectPath} {id : String} {headers : HeaderMap}
    {claims : Claims} (claims' : Claims) {body : Bytes} {env env' : RequestEnv} {key : ObjectKey}
    {doc : Document} {result : ReadResult} {j : List (String × JsonValue)}
    (hbody : parseBody libs body = .ok (.object j)) (hid : "_id" ∉ j.map Prod.fst)
    (hsubmitted : s.submitted libs members (.upsert path id headers claims body) env =
      some (key, some doc))
    (hread : (t.coordinator.quorumRead members libs.reread t.replicas key env'.quorum).1 =
      .ok result)
    (hdoc : result.document = some doc) :
    ¬ Echoes (t.getObject libs members path id claims' env').1 key.objectId j := by
  rintro ⟨response, hget, hecho⟩
  obtain ⟨hkey, hbuild⟩ := buildDocument_of_submitted hbody hsubmitted
  obtain ⟨key', result', doc', hkey', hread', hdoc', hbody'⟩ := getObject_eq_ok hget
  cases admissionOf_inj hkey hkey'
  cases hread.symm.trans hread'
  cases hdoc.symm.trans hdoc'
  obtain ⟨-, hraw⟩ := buildDocument_eq_ok hbuild
  obtain ⟨btree, hbtree⟩ : ∃ btree, doc.data.val = .object btree := by
    have hobject := doc.isObject
    cases hval : doc.data.val <;> simp_all [RawValue.isObject]
  rw [hbtree] at hraw
  refine toValue_ne hraw ?_
  have hanswer := hecho.symm.trans hbody'
  rw [docToJson_object hbtree] at hanswer
  injection hanswer with hanswer
  injection hanswer with hentries
  have hj := Entries.filter_insert "_id" (.string (toString key.objectId)) j
  have hself : j.filter (fun e => e.1 ≠ "_id") = j := by
    rw [List.filter_eq_self]
    intro e he
    exact decide_eq_true fun heq => hid (heq ▸ List.mem_map_of_mem he)
  rw [hentries, hself] at hj
  rw [← hj, toValue]
  rfl

/-- Every body is an object with a name in it. -/
def nameLibs : Libs :=
  { sampleLibs (fun _ => 0) with fromSlice := fun _ => .ok (.object [("name", .string "alice")]) }

def namePut : Request := .upsert ⟨"a", "d", "c"⟩ "0" [] ⟨some "a", [.readWrite]⟩ []

/-- The service after that object was sent. -/
def afterNamePut : AppState :=
  (AppState.initial ⟨⟨0⟩⟩ ⟨1, 1, 1⟩ .zero).after nameLibs oneOwner
    (.request namePut (sampleEnv 1 ⟨1⟩))

/-- The document made of it. -/
def nameDocument : Document :=
  ⟨⟨⟨0⟩⟩, ⟨.object [("name", .string "alice")],
    .object (List.pairwise_singleton _ _) (by simpa using RawValue.Ordered.string "alice")⟩, rfl⟩

def nameGet : Except ApiError Response :=
  (afterNamePut.getObject nameLibs oneOwner ⟨"a", "d", "c"⟩ "0" ⟨some "a", [.readWrite]⟩
    (sampleEnv 2 ⟨2⟩)).1

theorem namePut_submitted : (AppState.initial ⟨⟨0⟩⟩ ⟨1, 1, 1⟩ .zero).submitted nameLibs oneOwner
    namePut (sampleEnv 1 ⟨1⟩) = some (⟨"a/d/c", ⟨⟨0⟩⟩⟩, some nameDocument) :=
  rfl

set_option maxRecDepth 4000 in
theorem nameGet_read : ∃ result, (afterNamePut.coordinator.quorumRead oneOwner some
    afterNamePut.replicas ⟨"a/d/c", ⟨⟨0⟩⟩⟩ (sampleEnv 2 ⟨2⟩).quorum).1 = .ok result ∧
      result.document = some nameDocument :=
  ⟨_, rfl, rfl⟩

theorem name_not_echoed :
    parseBody nameLibs [] = .ok (.object [("name", .string "alice")]) ∧
    ¬ Echoes nameGet ⟨⟨0⟩⟩ [("name", .string "alice")] := by
  obtain ⟨result, hread, hdoc⟩ := nameGet_read
  have hbody : parseBody nameLibs [] = .ok (.object [("name", .string "alice")]) := rfl
  have hnever := getObject_never_echoes ⟨some "a", [.readWrite]⟩ hbody (by decide)
    namePut_submitted hread hdoc
  exact ⟨hbody, hnever⟩

set_option maxRecDepth 4000 in
/-- `{"name": "alice"}` comes back with a tag on the name and one on the whole. -/
theorem name_answered_under_tags :
    parseBody nameLibs [] = .ok (.object [("name", .string "alice")]) ∧
    ((AppState.initial ⟨⟨0⟩⟩ ⟨1, 1, 1⟩ .zero).respond nameLibs oneOwner namePut
      (sampleEnv 1 ⟨1⟩)).status = 201 ∧
    (∃ response, nameGet = .ok response ∧ response.status = 200 ∧
      response.body = some (.object
        [("Object", .object [("name", .object [("String", .string "alice")])]),
          ("_id", .string "00000000-0000-0000-0000-000000000000")])) ∧
    ¬ Echoes nameGet ⟨⟨0⟩⟩ [("name", .string "alice")] := by
  have hget : ∃ response, nameGet = .ok response ∧ response.status = 200 ∧
      response.body = some (.object
        [("Object", .object [("name", .object [("String", .string "alice")])]),
          ("_id", .string "00000000-0000-0000-0000-000000000000")]) := ⟨_, rfl, rfl, rfl⟩
  refine ⟨rfl, by decide +kernel, hget, ?_⟩
  obtain ⟨response, hok, -, hbody⟩ := hget
  rintro ⟨response', hok', hecho⟩
  cases hok.symm.trans hok'
  have hentries := JsonValue.object.inj (Option.some.inj (hbody.symm.trans hecho))
  have hkeys := congrArg (List.map Prod.fst) hentries
  revert hkeys
  decide

end BashfulDB.Api

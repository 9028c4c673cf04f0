import Mathlib.Data.List.TakeWhile
import BashfulDB.Api.Idempotency
import BashfulDB.Replication.Coordinator

/-! The document handlers of the HTTP layer, over the quorum coordinator. -/
namespace BashfulDB.Api

open Auth Clock Data Replication

/-- The functions of other libraries that the handlers call. -/
structure Libs extends Format where
  displayNumber : JsonNumber → String
  /-- `serde_json::from_slice`. -/
  fromSlice : Bytes → Except String JsonValue
  /-- `serde_json::to_vec`. -/
  toVec : Document → Bytes
  /-- What the replicas read back from the JSON that they wrote for a document. -/
  reread : Document → Option Document
  /-- `Uuid::parse_str`. -/
  parseUuid : String → Option Uuid
  /-- `IdempotencyCache::hash_payload`, or a hash that stands in for it. -/
  hashPayload : Bytes → Nat

structure ObjectPath where
  tenant : String
  db : String
  coll : String

/-- Values that are not visible ASCII, which `to_str` refuses, are `none`. -/
abbrev HeaderMap := List (String × Option String)

inductive Request
  | create (path : ObjectPath) (headers : HeaderMap) (claims : Claims) (body : Bytes)
  | get (path : ObjectPath) (id : String) (claims : Claims)
  | upsert (path : ObjectPath) (id : String) (headers : HeaderMap) (claims : Claims) (body : Bytes)
  | delete (path : ObjectPath) (id : String) (headers : HeaderMap) (claims : Claims)

def Request.path : Request → ObjectPath
  | .create path _ _ _ => path
  | .get path _ _ => path
  | .upsert path _ _ _ _ => path
  | .delete path _ _ _ => path

def Request.headers : Request → HeaderMap
  | .create _ headers _ _ => headers
  | .get _ _ _ => []
  | .upsert _ _ headers _ _ => headers
  | .delete _ _ headers _ => headers

structure Response where
  status : Nat
  location : Option String
  etag : Option String
  body : Option JsonValue

/-- The state behind the handlers. `pending` holds, for each object, the repair writes that its
reads have left to the background. -/
structure AppState where
  idempotency : IdempotencyCache
  coordinator : Coordinator
  replicas : Replicas
  pending : ObjectKey → List (NodeId × WriteRequest)

/-- What the outside decides during one request. -/
structure RequestEnv where
  /-- The instant of the cache lookup. -/
  lookupAt : Nat
  freshId : ObjectId
  quorum : Env
  /-- The instant at which a response enters the cache. -/
  cachedAt : Nat

def ApiError.intoResponse (e : ApiError) : Response :=
  let (status, code) := e.statusAndCode
  ⟨status, none, none, some (.object [("error", .string code), ("message", .string e.display),
    ("status", .number (.posInt (UInt64.ofNat status)))])⟩

def Response.ofResult : Except ApiError Response → Response
  | .ok response => response
  | .error e => e.intoResponse

def validatePathNames (fmt : Format) (path : ObjectPath) : Except ApiError Unit := do
  (validateName path.tenant).mapError (.ofDocument fmt)
  (validateName path.db).mapError (.ofDocument fmt)
  (validateName path.coll).mapError (.ofDocument fmt)

def collectionKey (path : ObjectPath) : String := path.tenant ++ "/" ++ path.db ++ "/" ++ path.coll

def optHeader (headers : HeaderMap) (name : String) : Option String := (headers.lookup name).join

/-- The idempotency key of a request; only creations and upserts have one. -/
def Request.idemKey : Request → Option String
  | .create _ headers _ _ => optHeader headers "idempotency-key"
  | .get _ _ _ => none
  | .upsert _ _ headers _ _ => optHeader headers "idempotency-key"
  | .delete _ _ _ _ => none

def debugVectorClock (v : VectorClock) : String := s!"VectorClock({v.len} entries)"

/-- `trim_matches('"')`. -/
def trimQuotes (s : String) : String :=
  String.ofList ((s.toList.dropWhile (· == '"')).reverse.dropWhile (· == '"')).reverse

def etagFromVersion (hash : Bytes → Nat) (version : VectorClock) : String :=
  "\"" ++ hexDigits (hash (debugVectorClock version).asBytes) ++ "\""

theorem etagFromVersion_congr {hash : Bytes → Nat} {v w : VectorClock} (h : v.len = w.len) :
    etagFromVersion hash v = etagFromVersion hash w := by
  rw [etagFromVersion, etagFromVersion, debugVectorClock, debugVectorClock, h]

def checkIfMatch (headers : HeaderMap) (currentEtag : String) : Except ApiError Unit :=
  match optHeader headers "if-match" with
  | none => .ok ()
  | some ifMatch =>
    let wanted := trimQuotes ifMatch
    if wanted ≠ "*" ∧ wanted ≠ trimQuotes currentEtag then
      .error (.preconditionFailed s!"ETag mismatch: got {ifMatch}, current is {currentEtag}")
    else .ok ()

section

variable (libs : Libs) (members : Membership)

def parseObjectId (s : String) : Except ApiError ObjectId :=
  match libs.parseUuid s with
  | some uuid => .ok ⟨uuid⟩
  | none => .error (.badRequest s!"invalid object id: {s}")

def authorize (claims : Claims) (action : Action) (path : ObjectPath) : Except ApiError Unit :=
  let resource := Resource.ofCollection path.tenant path.db path.coll
  (check claims action resource).mapError (.ofAuth libs.toFormat)

/-- What a handler checks before it touches the shared state, for a route without an id. -/
def admission (path : ObjectPath) (claims : Claims) (action : Action) : Except ApiError Unit := do
  validatePathNames libs.toFormat path
  authorize libs claims action path

/-- The same for a route with an id. -/
def admissionOf (path : ObjectPath) (id : String) (claims : Claims) (action : Action) :
    Except ApiError ObjectKey := do
  validatePathNames libs.toFormat path
  let id ← parseObjectId libs id
  authorize libs claims action path
  .ok ⟨collectionKey path, id⟩

def parseBody (body : Bytes) : Except ApiError JsonValue :=
  (libs.fromSlice body).mapError fun e => .badRequest s!"invalid JSON: {e}"

def buildDocument (id : ObjectId) (json : JsonValue) : Except ApiError Document := do
  let data ← jsonToValue libs.displayNumber json
  (Document.new id data).mapError (.ofDocument libs.toFormat)

/-- The document of an upsert, once its precondition on the current version, if there is one, has
been checked. The ETag of a version is a parameter. -/
def upsertDocumentBy (etag : VectorClock → String) (key : ObjectKey) (headers : HeaderMap)
    (json : JsonValue) (current : Option ReadResult) : Except ApiError Document := do
  match current with
  | none => .ok ()
  | some result => checkIfMatch headers (etag result.version)
  buildDocument libs key.objectId json

def upsertDocument (key : ObjectKey) (headers : HeaderMap) (json : JsonValue)
    (current : Option ReadResult) : Except ApiError Document :=
  upsertDocumentBy libs (etagFromVersion libs.hashPayload) key headers json current

def objectLocation (path : ObjectPath) (id : ObjectId) : String :=
  s!"/v1/tenants/{path.tenant}/databases/{path.db}/collections/{path.coll}" ++ "/objects/" ++
    toString id

namespace AppState

variable (s : AppState)

/-- The idempotency check of a write: the cached response to replay, if there is one. -/
def replay (idemKey : Option String) (payloadHash : Nat) (default : Nat) (now : Nat) :
    Except ApiError (Option Response) × AppState :=
  match idemKey with
  | none => (.ok none, s)
  | some key =>
    match s.idempotency.get key payloadHash now with
    | (.ok (some entry), cache) =>
      let status := if 100 ≤ entry.status ∧ entry.status < 1000 then entry.status else default
      (.ok (some ⟨status, none, none, some entry.body⟩), { s with idempotency := cache })
    | (.ok none, cache) => (.ok none, { s with idempotency := cache })
    | (.error (), cache) =>
      (.error (.conflict "idempotency key reused with different payload"),
        { s with idempotency := cache })

def quorumRead (key : ObjectKey) (env : Env) : Except ReplicationError ReadResult × AppState :=
  let (answer, repairs) := s.coordinator.quorumRead members libs.reread s.replicas key env
  (answer, { s with pending := Function.update s.pending key (s.pending key ++ repairs) })

def quorumWrite (key : ObjectKey) (doc : Document) (idemKey : Option String) (env : Env) :
    Except ReplicationError WriteResult × AppState :=
  let (answer, coordinator, replicas) :=
    s.coordinator.quorumWrite members libs.toVec s.replicas key doc idemKey env
  (answer, { s with coordinator := coordinator, replicas := replicas })

def quorumDelete (key : ObjectKey) (env : Env) :
    Except ReplicationError WriteResult × AppState :=
  let (answer, coordinator, replicas) := s.coordinator.quorumDelete members s.replicas key env
  (answer, { s with coordinator := coordinator, replicas := replicas })

/-- Writes the document, and caches the response under the idempotency key. -/
def writeAndCache (key : ObjectKey) (doc : Document) (idemKey : Option String) (payloadHash : Nat)
    (status : Nat) (location : Option String) (env : RequestEnv) :
    Except ApiError Response × AppState :=
  match s.quorumWrite libs members key doc idemKey env.quorum with
  | (.error e, s) => (.error (.ofReplication e), s)
  | (.ok _, s) =>
    let body := docToJson doc
    let s := match idemKey with
      | none => s
      | some ikey =>
        { s with idempotency := s.idempotency.store ikey payloadHash body status env.cachedAt }
    (.ok ⟨status, location, none, some body⟩, s)

def createObject (path : ObjectPath) (headers : HeaderMap) (claims : Claims) (body : Bytes)
    (env : RequestEnv) : Except ApiError Response × AppState :=
  match admission libs path claims .create with
  | .error e => (.error e, s)
  | .ok () =>
    let idemKey := optHeader headers "idempotency-key"
    let payloadHash := libs.hashPayload body
    match s.replay idemKey payloadHash 201 env.lookupAt with
    | (.error e, s) => (.error e, s)
    | (.ok (some response), s) => (.ok response, s)
    | (.ok none, s) =>
      match (parseBody libs body).bind (buildDocument libs env.freshId) with
      | .error e => (.error e, s)
      | .ok doc =>
        s.writeAndCache libs members ⟨collectionKey path, doc.id⟩ doc idemKey payloadHash 201
          (some (objectLocation path doc.id)) env

def getObject (path : ObjectPath) (id : String) (claims : Claims) (env : RequestEnv) :
    Except ApiError Response × AppState :=
  match admissionOf libs path id claims .read with
  | .error e => (.error e, s)
  | .ok key =>
    match s.quorumRead libs members key env.quorum with
    | (.error e, s) => (.error (.ofReplication e), s)
    | (.ok result, s) =>
      match result.document with
      | none =>
        (.error (.notFound s!"object {key.objectId} not found in {key.collection}"), s)
      | some doc =>
        (.ok ⟨200, none, some (etagFromVersion libs.hashPayload result.version),
          some (docToJson doc)⟩, s)

/-- The part of `upsert_object` after its read. A failed read counts as no document. -/
def upsertAfterRead (key : ObjectKey) (headers : HeaderMap) (json : JsonValue)
    (existing : Option ReadResult) (payloadHash : Nat) (env : RequestEnv) :
    Except ApiError Response × AppState :=
  let current := existing.filter (·.document.isSome)
  match upsertDocument libs key headers json current with
  | .error e => (.error e, s)
  | .ok doc =>
    let status := if current.isNone then 201 else 200
    s.writeAndCache libs members key doc (optHeader headers "idempotency-key") payloadHash status
      none env

def upsertObject (path : ObjectPath) (id : String) (headers : HeaderMap) (claims : Claims)
    (body : Bytes) (env : RequestEnv) : Except ApiError Response × AppState :=
  match admissionOf libs path id claims .update with
  | .error e => (.error e, s)
  | .ok key =>
    let payloadHash := libs.hashPayload body
    match s.replay (optHeader headers "idempotency-key") payloadHash 200 env.lookupAt with
    | (.error e, s) => (.error e, s)
    | (.ok (some response), s) => (.ok response, s)
    | (.ok none, s) =>
      match parseBody libs body with
      | .error e => (.error e, s)
      | .ok json =>
        let (existing, s) := s.quorumRead libs members key env.quorum
        s.upsertAfterRead libs members key headers json existing.toOption payloadHash env

def deleteObject (path : ObjectPath) (id : String) (headers : HeaderMap) (claims : Claims)
    (env : RequestEnv) : Except ApiError Response × AppState :=
  match admissionOf libs path id claims .delete with
  | .error e => (.error e, s)
  | .ok key =>
    match s.quorumRead libs members key env.quorum with
    | (.error e, s) => (.error (.ofReplication e), s)
    | (.ok existing, s) =>
      if existing.document.isNone then
        (.error (.notFound s!"object {key.objectId} not found in {key.collection}"), s)
      else
        match checkIfMatch headers (etagFromVersion libs.hashPayload existing.version) with
        | .error e => (.error e, s)
        | .ok () =>
          match s.quorumDelete members key env.quorum with
          | (.error e, s) => (.error (.ofReplication e), s)
          | (.ok _, s) => (.ok ⟨204, none, none, none⟩, s)

def handle (req : Request) (env : RequestEnv) : Except ApiError Response × AppState :=
  match req with
  | .create path headers claims body => s.createObject libs members path headers claims body env
  | .get path id claims => s.getObject libs members path id claims env
  | .upsert path id headers claims body =>
    s.upsertObject libs members path id headers claims body env
  | .delete path id headers claims => s.deleteObject libs members path id headers claims env

/-- The answer the client sees. -/
def respond (req : Request) (env : RequestEnv) : Response :=
  .ofResult (s.handle libs members req env).1

/-- What the request hands to the coordinator to write, if it gets that far: a document under its
key, or nothing for a deletion. -/
def submitted (req : Request) (env : RequestEnv) : Option (ObjectKey × Option Document) :=
  match req with
  | .create path headers claims body =>
    match admission libs path claims .create,
        (s.replay (optHeader headers "idempotency-key") (libs.hashPayload body) 201 env.lookupAt).1,
        (parseBody libs body).bind (buildDocument libs env.freshId) with
    | .ok (), .ok none, .ok doc => some (⟨collectionKey path, doc.id⟩, some doc)
    | _, _, _ => none
  | .get _ _ _ => none
  | .upsert path id headers claims body =>
    match admissionOf libs path id claims .update,
        (s.replay (optHeader headers "idempotency-key") (libs.hashPayload body) 200 env.lookupAt).1,
        parseBody libs body with
    | .ok key, .ok none, .ok json =>
      let existing :=
        (s.coordinator.quorumRead members libs.reread s.replicas key env.quorum).1.toOption
      match upsertDocument libs key headers json (existing.filter (·.document.isSome)) with
      | .ok doc => some (key, some doc)
      | .error _ => none
    | _, _, _ => none
  | .delete path id headers claims =>
    match admissionOf libs path id claims .delete with
    | .error _ => none
    | .ok key =>
      match (s.coordinator.quorumRead members libs.reread s.replicas key env.quorum).1 with
      | .error _ => none
      | .ok existing =>
        if existing.document.isNone then none
        else
          match checkIfMatch headers (etagFromVersion libs.hashPayload existing.version) with
          | .error _ => none
          | .ok () => some (key, none)

/-- A pending repair of `key` reaches its replica, or gets lost. -/
def repair (key : ObjectKey) (i : Nat) (fate : WriteFate) : AppState :=
  match (s.pending key)[i]? with
  | none => s
  | some (node, req) =>
    { s with
      replicas := remoteWrite s.replicas node req fate
      pending := Function.update s.pending key ((s.pending key).eraseIdx i) }

/-- Before the first request. -/
def initial (node : NodeId) (config : QuorumConfig) (clock : Hlc) : AppState :=
  ⟨.new, ⟨node, config, clock, .new⟩, fun n => .new n, fun _ => []⟩

end AppState

inductive Event
  | request (req : Request) (env : RequestEnv)
  | repair (key : ObjectKey) (i : Nat) (fate : WriteFate)

def AppState.after (s : AppState) : Event → AppState
  | .request req env => (s.handle libs members req env).2
  | .repair key i fate => s.repair key i fate

/-- What a repair does: it takes one pending write of the key and sends it out. -/
theorem repair_cases (s : AppState) (key : ObjectKey) (i : Nat) (fate : WriteFate) :
    ((s.pending key)[i]? = none ∧ s.repair key i fate = s) ∨
      ∃ p, (s.pending key)[i]? = some p ∧ s.repair key i fate =
        { s with
          replicas := remoteWrite s.replicas p.1 p.2 fate
          pending := Function.update s.pending key ((s.pending key).eraseIdx i) } := by
  unfold AppState.repair
  cases (s.pending key)[i]? with
  | none => exact Or.inl ⟨rfl, rfl⟩
  | some p => exact Or.inr ⟨p, rfl, rfl⟩

/-- What stands before the first slash of a collection: the tenant of the key. -/
def keyTenant (key : ObjectKey) : List Char := key.collection.toList.takeWhile (· ≠ '/')

theorem takeWhile_append_slash (l r : List Char) :
    (l ++ '/' :: r).takeWhile (· ≠ '/') = l.takeWhile (· ≠ '/') := by
  induction l with
  | nil => simp
  | cons c l ih =>
    by_cases hc : c = '/'
    · simp [hc]
    · simpa [hc] using ih

theorem keyTenant_of_validatePathNames {fmt : Format} {path : ObjectPath} {id : ObjectId}
    (h : validatePathNames fmt path = .ok ()) :
    keyTenant ⟨collectionKey path, id⟩ = path.tenant.toList := by
  obtain ⟨_, htenant, -⟩ := Except.bind_eq_ok.mp h
  have hslash := slash_notMem_of_validateName (Except.mapError_eq_ok.mp htenant)
  simp only [keyTenant, collectionKey, String.toList_append, List.append_assoc]
  refine (takeWhile_append_slash _ _).trans (List.takeWhile_eq_self_iff.mpr ?_)
  intro c hc
  exact decide_eq_true (ne_of_mem_of_not_mem hc hslash)

/-- Keys of different tenants are stored under different bytes. -/
theorem keyTenant_eq_of_toBytes {key k : ObjectKey} (h : k.toBytes = key.toBytes) :
    keyTenant k = keyTenant key := by
  have hstring := congrArg String.toList (String.asBytes_inj h)
  simp only [String.toList_append, List.append_assoc] at hstring
  have htake := congrArg (List.takeWhile (· ≠ '/')) hstring
  rwa [show ("/" : String).toList = ['/'] from rfl, List.singleton_append, List.singleton_append,
    takeWhile_append_slash, takeWhile_append_slash] at htake

variable {libs members}

/-- An upsert builds its document where the precondition passes against the current version. -/
theorem upsertDocument_eq_ok {key : ObjectKey} {headers : HeaderMap} {json : JsonValue}
    {current : Option ReadResult} {doc : Document} :
    upsertDocument libs key headers json current = .ok doc ↔
      (∀ result, current = some result →
        checkIfMatch headers (etagFromVersion libs.hashPayload result.version) = .ok ()) ∧
      buildDocument libs key.objectId json = .ok doc := by
  unfold upsertDocument upsertDocumentBy
  cases current with
  | none => simp
  | some result =>
    simp only [Except.bind_eq_ok, Option.some.injEq, forall_eq']
    constructor
    · rintro ⟨_, hcheck, hbuilt⟩
      exact ⟨hcheck, hbuilt⟩
    · rintro ⟨hcheck, hbuilt⟩
      exact ⟨(), hcheck, hbuilt⟩

theorem keyTenant_of_admission {path : ObjectPath} {claims : Claims} {action : Action}
    {id : ObjectId} (h : admission libs path claims action = .ok ()) :
    keyTenant ⟨collectionKey path, id⟩ = path.tenant.toList := by
  obtain ⟨_, hnames, -⟩ := Except.bind_eq_ok.mp h
  exact keyTenant_of_validatePathNames hnames

theorem keyTenant_of_admissionOf {path : ObjectPath} {id : String} {claims : Claims}
    {action : Action} {key : ObjectKey} (h : admissionOf libs path id claims action = .ok key) :
    keyTenant key = path.tenant.toList := by
  obtain ⟨_, hnames, h⟩ := Except.bind_eq_ok.mp h
  obtain ⟨_, -, h⟩ := Except.bind_eq_ok.mp h
  obtain ⟨_, -, h⟩ := Except.bind_eq_ok.mp h
  cases h
  exact keyTenant_of_validatePathNames hnames

namespace AppState

variable {s : AppState} {req : Request} {env : RequestEnv}

theorem replay_snd (idemKey : Option String) (payloadHash default now : Nat) :
    (s.replay idemKey payloadHash default now).2 =
      { s with idempotency := idemKey.elim s.idempotency fun _ => s.idempotency.prune now } := by
  cases idemKey with
  | none => rfl
  | some key =>
    simp only [replay, IdempotencyCache.get]
    cases (s.idempotency.prune now).entries.get key with
    | none => rfl
    | some entry => by_cases hhash : entry.payloadHash = payloadHash <;> simp [hhash]

theorem writeAndCache_snd (key : ObjectKey) (doc : Document) (idemKey : Option String)
    (payloadHash status : Nat) (location : Option String) :
    ∃ cache, (s.writeAndCache libs members key doc idemKey payloadHash status location env).2 =
        { (s.quorumWrite libs members key doc idemKey env.quorum).2 with idempotency := cache } ∧
      (cache = s.idempotency ∨ ∃ ikey body, idemKey = some ikey ∧
        cache = s.idempotency.store ikey payloadHash body status env.cachedAt) := by
  have hcache : (s.quorumWrite libs members key doc idemKey env.quorum).2.idempotency =
      s.idempotency := rfl
  unfold writeAndCache
  generalize s.quorumWrite libs members key doc idemKey env.quorum = r at hcache ⊢
  obtain ⟨answer, t⟩ := r
  cases answer with
  | error e => exact ⟨_, rfl, Or.inl hcache⟩
  | ok result =>
    cases idemKey with
    | none => exact ⟨_, rfl, Or.inl hcache⟩
    | some ikey =>
      exact ⟨_, rfl, Or.inr ⟨ikey, docToJson doc, rfl,
        congrArg (·.store ikey payloadHash (docToJson doc) status env.cachedAt) hcache⟩⟩

variable (libs members s req env) in
/-- The states of a request before it writes: it may have looked into the response cache and read
an object of its own tenant. -/
inductive Prepared : AppState → Prop
  | start : Prepared s
  | replay {t : AppState} (payloadHash default : Nat) : Prepared t →
      Prepared (t.replay req.idemKey payloadHash default env.lookupAt).2
  | read {t : AppState} {key : ObjectKey} : keyTenant key = req.path.tenant.toList → Prepared t →
      Prepared (t.quorumRead libs members key env.quorum).2

theorem Prepared.same {t : AppState} (h : Prepared libs members s req env t) :
    t.coordinator = s.coordinator ∧ t.replicas = s.replicas := by
  induction h with
  | start => exact ⟨rfl, rfl⟩
  | replay payloadHash default _ ih =>
    rw [replay_snd]
    exact ih
  | read _ _ ih => exact ih

variable (libs members s req env) in
/-- How a request ends that hands the coordinator what the first argument says. -/
inductive Reaches :
    Option (ObjectKey × Option Document) → Except ApiError Response × AppState → Prop
  | write {t : AppState} {key : ObjectKey} {doc : Document} {payloadHash status : Nat}
      {location : Option String} : Prepared libs members s req env t →
      keyTenant key = req.path.tenant.toList →
      Reaches (some (key, some doc))
        (t.writeAndCache libs members key doc req.idemKey payloadHash status location env)
  | delete {t : AppState} {key : ObjectKey} {res : Except ApiError Response × AppState} :
      Prepared libs members s req env t → keyTenant key = req.path.tenant.toList →
      res.2 = (t.quorumDelete members key env.quorum).2 → Reaches (some (key, none)) res
  | stay {res : Except ApiError Response × AppState} :
      Prepared libs members s req env res.2 → Reaches none res

section

variable (path : ObjectPath) (id : String) (headers : HeaderMap) (claims : Claims) (body : Bytes)

theorem createObject_reaches : Reaches libs members s (.create path headers claims body) env
    (s.submitted libs members (.create path headers claims body) env)
    (s.createObject libs members path headers claims body env) := by
  simp only [createObject, submitted]
  cases hadmitted : admission libs path claims .create with
  | error e => exact .stay .start
  | ok _ =>
    have hprepared : Prepared libs members s (.create path headers claims body) env
        (s.replay (optHeader headers "idempotency-key") (libs.hashPayload body) 201
          env.lookupAt).2 := .replay _ _ .start
    generalize s.replay _ _ _ _ = r at hprepared ⊢
    obtain ⟨answer, t⟩ := r
    rcases answer with e | _ | response
    · exact .stay hprepared
    · dsimp only
      cases (parseBody libs body).bind (buildDocument libs env.freshId) with
      | error e => exact .stay hprepared
      | ok doc => exact .write hprepared (keyTenant_of_admission hadmitted)
    · exact .stay hprepared

theorem getObject_reaches : Reaches libs members s (.get path id claims) env none
    (s.getObject libs members path id claims env) := by
  simp only [getObject]
  cases hadmitted : admissionOf libs path id claims .read with
  | error e => exact .stay .start
  | ok key =>
    have hprepared : Prepared libs members s (.get path id claims) env
        (s.quorumRead libs members key env.quorum).2 :=
      .read (keyTenant_of_admissionOf hadmitted) .start
    dsimp only
    generalize s.quorumRead libs members key env.quorum = r at hprepared ⊢
    obtain ⟨answer, t⟩ := r
    cases answer with
    | error e => exact .stay hprepared
    | ok result =>
      dsimp only
      cases result.document with
      | none => exact .stay hprepared
      | some doc => exact .stay hprepared

theorem upsertObject_reaches : Reaches libs members s (.upsert path id headers claims body) env
    (s.submitted libs members (.upsert path id headers claims body) env)
    (s.upsertObject libs members path id headers claims body env) := by
  simp only [upsertObject, submitted]
  cases hadmitted : admissionOf libs path id claims .update with
  | error e => exact .stay .start
  | ok key =>
    have hkey := keyTenant_of_admissionOf hadmitted
    have hprepared : Prepared libs members s (.upsert path id headers claims body) env
        (s.replay (optHeader headers "idempotency-key") (libs.hashPayload body) 200
          env.lookupAt).2 := .replay _ _ .start
    generalize s.replay _ _ _ _ = r at hprepared ⊢
    obtain ⟨answer, t⟩ := r
    rcases answer with e | _ | response
    · exact .stay hprepared
    · dsimp only
      cases parseBody libs body with
      | error e => exact .stay hprepared
      | ok json =>
        have hsame : t.coordinator = s.coordinator ∧ t.replicas = s.replicas := hprepared.same
        have hread := hprepared.read hkey
        simp only [quorumRead, upsertAfterRead, hsame.1, hsame.2] at hread ⊢
        generalize upsertDocument libs key headers json _ = built
        cases built with
        | error e => exact .stay hread
        | ok doc => exact .write hread hkey
    · exact .stay hprepared

theorem deleteObject_reaches : Reaches libs members s (.delete path id headers claims) env
    (s.submitted libs members (.delete path id headers claims) env)
    (s.deleteObject libs members path id headers claims env) := by
  simp only [deleteObject, submitted]
  cases hadmitted : admissionOf libs path id claims .delete with
  | error e => exact .stay .start
  | ok key =>
    have hkey := keyTenant_of_admissionOf hadmitted
    have hread : Prepared libs members s (.delete path id headers claims) env
        (s.quorumRead libs members key env.quorum).2 := .read hkey .start
    simp only [quorumRead] at hread ⊢
    cases (s.coordinator.quorumRead members libs.reread s.replicas key env.quorum).1 with
    | error e => exact .stay hread
    | ok existing =>
      by_cases hnone : existing.document.isNone = true
      · simp only [if_pos hnone]
        exact .stay hread
      · simp only [if_neg hnone]
        cases checkIfMatch headers (etagFromVersion libs.hashPayload existing.version) with
        | error e => exact .stay hread
        | ok _ =>
          dsimp only
          split <;> rename_i heq
          · exact .delete hread hkey (congrArg Prod.snd heq.symm)
          · exact .delete hread hkey (congrArg Prod.snd heq.symm)

end

variable (libs members s req env) in
/-- What any request can do to the service. -/
theorem handle_reaches :
    Reaches libs members s req env (s.submitted libs members req env)
      (s.handle libs members req env) := by
  cases req with
  | create path headers claims body => exact createObject_reaches path headers claims body
  | get path id claims => exact getObject_reaches path id claims
  | upsert path id headers claims body => exact upsertObject_reaches path id headers claims body
  | delete path id headers claims => exact deleteObject_reaches path id headers claims

variable (libs members) in
/-- A property of the state that no phase of handling `req` destroys. All the keys it touches
are keys of its own tenant. -/
structure Kept (req : Request) (env : RequestEnv) (I : AppState → Prop) : Prop where
  replay : ∀ s payloadHash default, I s →
    I (s.replay req.idemKey payloadHash default env.lookupAt).2
  read : ∀ s key, keyTenant key = req.path.tenant.toList → I s →
    I (s.quorumRead libs members key env.quorum).2
  write : ∀ s key doc payloadHash status location, keyTenant key = req.path.tenant.toList → I s →
    I (s.writeAndCache libs members key doc req.idemKey payloadHash status location env).2
  delete : ∀ s key, keyTenant key = req.path.tenant.toList → I s →
    I (s.quorumDelete members key env.quorum).2

variable {I : AppState → Prop}

theorem Kept.prepared (h : Kept libs members req env I) (hs : I s) {t : AppState}
    (ht : Prepared libs members s req env t) : I t := by
  induction ht with
  | start => exact hs
  | replay payloadHash default _ ih => exact h.replay _ payloadHash default ih
  | read hkey _ ih => exact h.read _ _ hkey ih

theorem Kept.handle (h : Kept libs members req env I) (hs : I s) :
    I (s.handle libs members req env).2 := by
  have hreaches := handle_reaches libs members s req env
  generalize s.submitted libs members req env = submitted at hreaches
  generalize s.handle libs members req env = res at hreaches ⊢
  cases hreaches with
  | write ht hkey => exact h.write _ _ _ _ _ _ hkey (h.prepared hs ht)
  | delete ht hkey hres =>
    rw [hres]
    exact h.delete _ _ hkey (h.prepared hs ht)
  | stay ht => exact h.prepared hs ht

end AppState

end

/-- Every body is the empty object, and every id the zero id. -/
def sampleLibs (hash : Bytes → Nat) : Libs where
  debugStr := id
  displayF64 _ := ""
  displayNumber _ := ""
  fromSlice _ := .ok (.object [])
  toVec _ := []
  reread := some
  parseUuid _ := some ⟨0⟩
  hashPayload := hash

/-- One node that owns every key. -/
def oneOwner : Membership := ⟨fun _ _ => [⟨⟨0⟩⟩], [⟨⟨0⟩⟩]⟩

/-- The quorum environment in which that node answers. -/
def sampleEnv (now : Nat) (hlc : Hlc) : RequestEnv :=
  ⟨now, ⟨⟨now⟩⟩, ⟨now, .ok hlc, [(⟨⟨0⟩⟩, .acked)], fun _ => .acked, now, [(⟨⟨0⟩⟩, true)]⟩, now⟩

end BashfulDB.Api

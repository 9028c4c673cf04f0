import BashfulDB.Api.Echo
import BashfulDB.Api.Service
import BashfulDB.Library.Text

/-! The keys that requests reach in the store, and whose requests they are. -/
namespace BashfulDB.Api

open Auth Clock Data Replication

def Request.claims : Request → Claims
  | .create _ _ claims _ => claims
  | .get _ _ claims => claims
  | .upsert _ _ _ claims _ => claims
  | .delete _ _ _ claims => claims

/-- What the handler of a request asks permission for. -/
def Request.action : Request → Auth.Action
  | .create _ _ _ _ => .create
  | .get _ _ _ => .read
  | .upsert _ _ _ _ _ => .update
  | .delete _ _ _ _ => .delete

namespace Route

def path : Route → ObjectPath
  | .object req => req.path
  | .list path _ _ => path

def claims : Route → Claims
  | .object req => req.claims
  | .list _ _ claims => claims

def action : Route → Auth.Action
  | .object req => req.action
  | .list _ _ _ => .read

end Route

/-- The key with which a handler is in the coordinator, or about to call it. -/
def Phase.key : Phase → Option ObjectKey
  | .read key _ | .erase key => some key
  | .dedupe job | .send job | .keep job _ => some job.key
  | .lookup _ _ _ | .cache _ | .done _ => none

section

variable (libs : Libs)

/-- The object that a request is about: a creation draws its id, a listing has none. -/
def Ongoing.objectId (o : Ongoing) : Option ObjectId :=
  match o.route with
  | .object (.create _ _ _ _) => some o.env.freshId
  | .object (.get _ id _) | .object (.upsert _ id _ _ _) | .object (.delete _ id _ _) =>
    (parseObjectId libs id).toOption
  | .list _ _ _ => none

/-- The names of the path and the claims have been checked. -/
structure Route.Admitted (route : Route) : Prop where
  names : validatePathNames libs.toFormat route.path = .ok ()
  check : check route.claims route.action
    (.ofCollection route.path.tenant route.path.db route.path.coll) = .ok ()

/-- The key belongs to the path and the id of the request. -/
def Ongoing.Owns (o : Ongoing) (key : ObjectKey) : Prop :=
  key.collection = collectionKey o.route.path ∧ o.objectId libs = some key.objectId

/-- What a phase of a request is about. -/
def Ongoing.About (o : Ongoing) : Phase → Prop
  | .lookup _ _ (.create path) => path = o.route.path ∧ o.objectId libs = some o.env.freshId
  | .lookup _ _ (.upsert key _) | .read key _ | .erase key => o.Owns libs key
  | .dedupe job | .send job | .keep job _ | .cache job => o.Owns libs job.key
  | .done _ => True

/-- A request that is not answered yet has been admitted, and is about its own object. -/
def Ongoing.Confined (o : Ongoing) : Prop :=
  (∀ answer, o.phase ≠ .done answer) → o.route.Admitted libs ∧ o.About libs o.phase

end

variable {libs : Libs} {etag : VectorClock → String} {members : Membership} {path : ObjectPath}
  {claims : Claims} {action : Auth.Action} {id : String} {key : ObjectKey} {o : Ongoing}

theorem authorize_eq_ok : authorize libs claims action path = .ok () ↔
    check claims action (.ofCollection path.tenant path.db path.coll) = .ok () :=
  Except.mapError_eq_ok

theorem admission_eq_ok (h : admission libs path claims action = .ok ()) :
    validatePathNames libs.toFormat path = .ok () ∧
      check claims action (.ofCollection path.tenant path.db path.coll) = .ok () := by
  obtain ⟨_, hnames, hauth⟩ := Except.bind_eq_ok.mp h
  exact ⟨hnames, authorize_eq_ok.mp hauth⟩

theorem admissionOf_eq_ok (h : admissionOf libs path id claims action = .ok key) :
    (validatePathNames libs.toFormat path = .ok () ∧
      check claims action (.ofCollection path.tenant path.db path.coll) = .ok ()) ∧
    key.collection = collectionKey path ∧ (parseObjectId libs id).toOption = some key.objectId := by
  obtain ⟨_, hnames, h⟩ := Except.bind_eq_ok.mp h
  obtain ⟨oid, hoid, h⟩ := Except.bind_eq_ok.mp h
  obtain ⟨_, hauth, h⟩ := Except.bind_eq_ok.mp h
  cases h
  rw [hoid]
  exact ⟨⟨hnames, authorize_eq_ok.mp hauth⟩, rfl, rfl⟩

theorem confined_of_admissionOf (next : ObjectKey → Phase)
    (hphase : o.phase =
      match admissionOf libs o.route.path id o.route.claims o.route.action with
      | .error e => .done (.error e)
      | .ok key => next key)
    (hid : o.objectId libs = (parseObjectId libs id).toOption)
    (hnext : ∀ key, o.Owns libs key → o.About libs (next key)) : o.Confined libs := by
  intro hrunning
  cases hadmitted : admissionOf libs o.route.path id o.route.claims o.route.action with
  | error e =>
    rw [hadmitted] at hphase
    exact absurd hphase (hrunning _)
  | ok key =>
    rw [hadmitted] at hphase
    obtain ⟨⟨hnames, hcheck⟩, hcoll, hoid⟩ := admissionOf_eq_ok hadmitted
    rw [hphase]
    exact ⟨⟨hnames, hcheck⟩, hnext key ⟨hcoll, hid.trans hoid⟩⟩

/-- The checks come before everything else. -/
theorem confined_start (route : Route) (env : RequestEnv) (schema : Schema.SchemaManager)
    (config : ApiConfig) (wrote : Bool) :
    Ongoing.Confined libs ⟨route, env, route.start libs schema config, wrote⟩ := by
  cases route with
  | list path query claims => exact fun hrunning => absurd rfl (hrunning _)
  | object req =>
    cases req with
    | create path headers claims body =>
      intro hrunning
      dsimp only [Route.start, Request.start] at hrunning ⊢
      cases hadmitted : admission libs path claims .create with
      | error e =>
        rw [hadmitted] at hrunning
        exact absurd rfl (hrunning _)
      | ok _ =>
        obtain ⟨hnames, hcheck⟩ := admission_eq_ok hadmitted
        exact ⟨⟨hnames, hcheck⟩, rfl, rfl⟩
    | get path id claims => exact confined_of_admissionOf _ rfl rfl fun _ howns => howns
    | upsert path id headers claims body =>
      exact confined_of_admissionOf _ rfl rfl fun _ howns => howns
    | delete path id headers claims => exact confined_of_admissionOf _ rfl rfl fun _ howns => howns

theorem about_proceed_target {target : Target} {idemKey : Option String} {body : Bytes}
    (h : o.About libs (.lookup idemKey body target)) :
    o.About libs (target.proceed libs o.env.freshId idemKey body) := by
  cases target with
  | create path =>
    dsimp only [Target.proceed]
    cases hdoc : (parseBody libs body).bind (buildDocument libs o.env.freshId) with
    | error e => trivial
    | ok doc =>
      obtain ⟨json, -, hdoc⟩ := Except.bind_eq_ok.mp hdoc
      refine ⟨congrArg collectionKey h.1, ?_⟩
      rw [(buildDocument_eq_ok hdoc).1]
      exact h.2
  | upsert key headers =>
    dsimp only [Target.proceed]
    cases parseBody libs body with
    | error e => trivial
    | ok json => exact h

theorem about_proceed_purpose {purpose : Purpose}
    (existing : Except ReplicationError ReadResult) (h : o.Owns libs key) :
    o.About libs (purpose.proceed libs etag key existing) := by
  cases purpose with
  | get =>
    dsimp only [Purpose.proceed]
    cases existing with
    | error e => trivial
    | ok result =>
      dsimp only
      cases result.document with
      | none => trivial
      | some doc => trivial
  | upsert headers json payloadHash =>
    dsimp only [Purpose.proceed]
    cases upsertDocumentBy libs etag key headers json _ with
    | error e => trivial
    | ok doc => exact h
  | delete headers =>
    dsimp only [Purpose.proceed]
    cases existing with
    | error e => trivial
    | ok existing =>
      dsimp only
      split
      · trivial
      · cases checkIfMatch headers (etag existing.version) with
        | error e => trivial
        | ok _ => exact h

/-- A step stays with the object of its request. -/
theorem about_step (s : AppState) (h : o.About libs o.phase) :
    o.About libs (o.phase.step libs etag members o.env s).1 := by
  cases hphase : o.phase with
  | lookup idemKey body target =>
    rw [hphase] at h
    dsimp only [Phase.step]
    rcases s.replay _ _ _ _ with ⟨e | _ | response, t⟩
    · trivial
    · exact about_proceed_target h
    · trivial
  | read key purpose =>
    rw [hphase] at h
    exact about_proceed_purpose _ h
  | dedupe job =>
    rw [hphase] at h
    dsimp only [Phase.step]
    split
    · exact h
    · split
      · trivial
      · exact h
      · exact h
  | send job =>
    rw [hphase] at h
    dsimp only [Phase.step]
    split
    · trivial
    · exact h
  | keep job result =>
    rw [hphase] at h
    dsimp only [Phase.step]
    split
    · exact h
    · exact h
  | cache job =>
    dsimp only [Phase.step]
    split
    · trivial
    · trivial
  | erase key =>
    dsimp only [Phase.step]
    split
    · trivial
    · trivial
  | done answer => trivial

theorem Ongoing.Confined.step (h : o.Confined libs) (s : AppState) :
    Ongoing.Confined libs (o.step libs etag members s).1 := by
  intro hphase
  have hrunning : ∀ answer, o.phase ≠ .done answer := by
    intro answer hdone
    refine hphase answer ?_
    simp only [Ongoing.step, hdone, Phase.step]
  obtain ⟨hadmitted, habout⟩ := h hrunning
  exact ⟨hadmitted, about_step s habout⟩

/-- In any run, every request is confined. -/
theorem confined_run (s : Service) (moves : List Turn) (hs : s.ongoing = []) :
    ∀ o ∈ (s.run libs etag members moves).ongoing, o.Confined libs := by
  have hall : ∀ o ∈ s.ongoing, o.Confined libs := by
    rw [hs]
    exact List.forall_mem_nil _
  clear hs
  unfold Service.run
  induction moves generalizing s with
  | nil => exact hall
  | cons m moves ih =>
    refine ih _ (Service.forall_next libs etag members m hall ?_ ?_)
    · exact fun route env _ => confined_start route env s.schema s.config false
    · exact fun i o _ _ ho => ho.step s.app

theorem Phase.running_of_key {p : Phase} (h : p.key = some key) (answer) : p ≠ .done answer := by
  rintro rfl
  cases h

theorem Ongoing.About.owns {p : Phase} (h : o.About libs p) (hkey : p.key = some key) :
    o.Owns libs key := by
  cases p with
  | read _ _ | dedupe _ | send _ | keep _ _ | erase _ =>
    cases hkey
    exact h
  | lookup _ _ _ | cache _ | done _ => cases hkey

/-- Checked names are read back from the key of their collection. -/
theorem collectionKey_inj {fmt : Format} {path path' : ObjectPath}
    (h : validatePathNames fmt path = .ok ()) (h' : validatePathNames fmt path' = .ok ())
    (heq : collectionKey path = collectionKey path') : path = path' := by
  have hparts {path : ObjectPath} (h : validatePathNames fmt path = .ok ()) :
      Text.splitn '/' 3 (collectionKey path).toList =
        [path.tenant.toList, path.db.toList, path.coll.toList] := by
    obtain ⟨_, htenant, h⟩ := Except.bind_eq_ok.mp h
    obtain ⟨_, hdb, -⟩ := Except.bind_eq_ok.mp h
    have htenant := slash_notMem_of_validateName (Except.mapError_eq_ok.mp htenant)
    have hdb := slash_notMem_of_validateName (Except.mapError_eq_ok.mp hdb)
    have hlist : (collectionKey path).toList =
        path.tenant.toList ++ '/' :: (path.db.toList ++ '/' :: path.coll.toList) := by
      simp [collectionKey]
    rw [hlist, Text.splitn_cons htenant, Text.splitn_cons hdb, Text.splitn]
  have hlists := congrArg (Text.splitn '/' 3 ·.toList) heq
  rw [hparts h, hparts h'] at hlists
  simp only [List.cons.injEq, String.toList_inj, and_true] at hlists
  obtain ⟨tenant, db, coll⟩ := path
  obtain ⟨tenant', db', coll'⟩ := path'
  obtain ⟨rfl, rfl, rfl⟩ := hlists
  rfl

/-- Requests under one stored key have the same path and are about the same object. -/
theorem eq_of_toBytes {o o' : Ongoing} {key' : ObjectKey} (ho : o.Confined libs)
    (ho' : o'.Confined libs) (hkey : o.phase.key = some key) (hkey' : o'.phase.key = some key')
    (heq : key.toBytes = key'.toBytes) :
    (o.route.path, o.objectId libs) = (o'.route.path, o'.objectId libs) := by
  obtain ⟨hadmitted, habout⟩ := ho (Phase.running_of_key hkey)
  obtain ⟨hadmitted', habout'⟩ := ho' (Phase.running_of_key hkey')
  obtain ⟨hcoll, hid⟩ := habout.owns hkey
  obtain ⟨hcoll', hid'⟩ := habout'.owns hkey'
  cases ObjectKey.toBytes_inj heq
  rw [collectionKey_inj hadmitted.names hadmitted'.names (hcoll.symm.trans hcoll'), hid, hid']

/-- A step leaves all other keys alone. -/
theorem held_step (s : AppState) (p : Phase) (env : RequestEnv) (n : NodeId) (k : ObjectKey)
    (h : ∀ key, p.key = some key → k.toBytes ≠ key.toBytes) :
    ((p.step libs etag members env s).2.replicas n).held k = (s.replicas n).held k := by
  have hreplicate (key : ObjectKey) (doc : Option Document) (hk : k.toBytes ≠ key.toBytes) :
      ((s.coordinator.replicate members s.replicas key doc env.quorum).2.2 n).held k =
        (s.replicas n).held k := by
    rcases s.coordinator.replicate_cases members s.replicas key doc env.quorum with
      ⟨hlc, hsends⟩ | ⟨hstops, -⟩
    · exact hsends.others n k fun hreached => hk hreached.2
    · rw [hstops.replicas]
  rw [Phase.step_snd]
  cases p with
  | send job => exact hreplicate job.key (some job.doc) (h job.key rfl)
  | erase key => exact hreplicate key none (h key rfl)
  | _ => rfl

/-- A request that reaches the coordinator has a role for its action, and is by a server admin or
within the tenant of its claims. Requests that differ in their path or object have different
keys, and so have those of two tenants; nothing under other keys changes. -/
theorem tenant_confinement (libs : Libs) (etag : VectorClock → String) (members : Membership)
    (s s' : Service) (moves moves' : List Turn) (hs : s.ongoing = []) (hs' : s'.ongoing = []) :
    let t := s.run libs etag members moves
    let t' := s'.run libs etag members moves'
    (∀ o ∈ t.ongoing, ∀ key, o.phase.key = some key →
      (∃ role ∈ o.route.claims.roles, role.permits o.route.action = true) ∧
        (.serverAdmin ∈ o.route.claims.roles ∨
          o.route.claims.tenant = some o.route.path.tenant)) ∧
    (∀ o ∈ t.ongoing, ∀ o' ∈ t'.ongoing, ∀ key key', o.phase.key = some key →
      o'.phase.key = some key' →
      ((o.route.path, o.objectId libs) ≠ (o'.route.path, o'.objectId libs) →
        key.toBytes ≠ key'.toBytes) ∧
      (.serverAdmin ∉ o.route.claims.roles → .serverAdmin ∉ o'.route.claims.roles →
        o.route.claims.tenant ≠ o'.route.claims.tenant → key.toBytes ≠ key'.toBytes)) ∧
    ∀ o ∈ t.ongoing, ∀ n k, (∀ key, o.phase.key = some key → k.toBytes ≠ key.toBytes) →
      ((o.step libs etag members t.app).2.replicas n).held k =
        (t.app.replicas n).held k := by
  intro t t'
  have hconfined : ∀ o ∈ t.ongoing, o.Confined libs := confined_run s moves hs
  have hconfined' : ∀ o ∈ t'.ongoing, o.Confined libs := confined_run s' moves' hs'
  have hrole : ∀ o : Ongoing, o.Confined libs → ∀ key, o.phase.key = some key →
      (∃ role ∈ o.route.claims.roles, role.permits o.route.action = true) ∧
        (.serverAdmin ∈ o.route.claims.roles ∨
          o.route.claims.tenant = some o.route.path.tenant) := by
    intro o ho key hkey
    obtain ⟨hadmitted, -⟩ := ho (Phase.running_of_key hkey)
    obtain ⟨hrole, hscope⟩ := check_eq_ok.mp hadmitted.check
    refine ⟨hrole, hscope.imp_right ?_⟩
    rintro ⟨tenant, hclaims, hpath⟩
    exact hclaims.trans hpath.symm
  refine ⟨fun o ho => hrole o (hconfined o ho), ?_, ?_⟩
  · intro o ho o' ho' key key' hkey hkey'
    have hsame := eq_of_toBytes (hconfined o ho) (hconfined' o' ho') hkey hkey'
    refine ⟨mt hsame, fun hadmin hadmin' htenants heq => htenants ?_⟩
    have hclaims := (hrole o (hconfined o ho) key hkey).2.resolve_left hadmin
    have hclaims' := (hrole o' (hconfined' o' ho') key' hkey').2.resolve_left hadmin'
    have hpath : o.route.path = o'.route.path := congrArg Prod.fst (hsame heq)
    rw [hclaims, hclaims', hpath]
  · exact fun o _ n k hk => held_step t.app o.phase o.env n k hk

def sampleService : Service := ⟨.initial ⟨⟨0⟩⟩ ⟨1, 1, 1⟩ Hlc.zero, .new 8, .default, []⟩

/-- Someone reads the same object in the collection of their own tenant. -/
def readBy (tenant : String) : Turn :=
  .arrive (.object (.get ⟨tenant, "main", "users"⟩ "0" ⟨some tenant, [.readOnly]⟩))
    (sampleEnv 0 ⟨1⟩)

/-- Two readers on their way into the coordinator. -/
theorem tenant_confinement_readers :
    let key (tenant : String) : ObjectKey := ⟨tenant ++ "/main/users", ⟨⟨0⟩⟩⟩
    (sampleService.run (sampleLibs fun _ => 0) (fun _ => "") oneOwner
      [readBy "acme", readBy "umbrella"]).ongoing.map (·.phase.key) =
        [some (key "acme"), some (key "umbrella")] ∧
      (key "acme").toBytes ≠ (key "umbrella").toBytes := by
  intro key
  let moves := [readBy "acme", readBy "umbrella"]
  let t := sampleService.run (sampleLibs fun _ => 0) (fun _ => "") oneOwner moves
  have hkeys : t.ongoing.map (·.phase.key) = [some (key "acme"), some (key "umbrella")] := by
    decide +kernel
  obtain ⟨-, hdiffer, -⟩ := tenant_confinement (sampleLibs fun _ => 0) (fun _ => "") oneOwner
    sampleService sampleService moves moves rfl rfl
  obtain ⟨o, o', hongoing⟩ : ∃ o o', t.ongoing = [o, o'] := ⟨_, _, rfl⟩
  have hpair := hkeys
  simp only [hongoing, List.map_cons, List.map_nil, List.cons.injEq, and_true] at hpair
  have hpaths : t.ongoing.map (·.route.path.tenant) = ["acme", "umbrella"] := rfl
  simp only [hongoing, List.map_cons, List.map_nil, List.cons.injEq, and_true] at hpaths
  have hmem : o ∈ t.ongoing ∧ o' ∈ t.ongoing := by simp [hongoing]
  refine ⟨hkeys, (hdiffer o hmem.1 o' hmem.2 _ _ hpair.1 hpair.2).1 fun heq => ?_⟩
  have htenant := congrArg (fun p => p.1.tenant) heq
  rw [hpaths.1, hpaths.2] at htenant
  exact absurd htenant (by decide)

end BashfulDB.Api

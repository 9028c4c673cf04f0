import BashfulDB.Api.Confinement
import BashfulDB.Auth.Sessions

/-!
The endpoints of the HTTP layer behind their middleware. What reaches the coordinator, or is told
about the cluster, goes back to a password and stays within what its user was granted.
-/
namespace BashfulDB.Api

open Auth Clock Data Replication Storage

def bearerScheme : String := "Bearer "

/-- `extract_bearer` of the middleware, and `extract_bearer_from_headers` of the logout. -/
def extractBearer (headers : HeaderMap) : Except ApiError String :=
  match headers.lookup "authorization" with
  | none => .error (.unauthorized "missing Authorization header")
  | some none => .error (.unauthorized "malformed Authorization header")
  | some (some value) =>
    if bearerScheme.toList.isPrefixOf value.toList then
      .ok (String.ofList (value.toList.drop bearerScheme.toList.length))
    else .error (.unauthorized "expected Bearer token")

inductive ObjectEndpoint
  | listObjects (path : ObjectPath) (query : ListQuery)
  | createObject (path : ObjectPath) (body : Bytes)
  | getObject (path : ObjectPath) (id : String)
  | upsertObject (path : ObjectPath) (id : String) (body : Bytes)
  | deleteObject (path : ObjectPath) (id : String)

/-- What a handler is called with, once the middleware has put the claims into the request. -/
def ObjectEndpoint.route (headers : HeaderMap) (claims : Claims) : ObjectEndpoint → Route
  | listObjects path query => .list path query claims
  | createObject path body => .object (.create path headers claims body)
  | getObject path id => .object (.get path id claims)
  | upsertObject path id body => .object (.upsert path id headers claims body)
  | deleteObject path id => .object (.delete path id headers claims)

inductive AdminEndpoint
  | listNodes
  | ringInfo

/-- The body of a response that knows of no nodes yet. -/
def AdminEndpoint.body : AdminEndpoint → JsonValue
  | listNodes => .object [("nodes", .array [])]
  | ringInfo => .object [("vnode_count", .number (.posInt 0)), ("node_count", .number (.posInt 0))]

/-- The endpoints of the router, with the bodies that their extractors have read. -/
inductive Endpoint
  | login (body : Credentials)
  | refresh (refreshToken : String)
  | logout
  | object (endpoint : ObjectEndpoint)
  | admin (endpoint : AdminEndpoint)

structure HttpRequest where
  headers : HeaderMap
  endpoint : Endpoint

/-- The authentication behind the endpoints, the requests that have passed the middleware and wait
for their handler, and the handlers at work. -/
structure Gate where
  auth : AuthState
  verified : List Route
  service : Service

inductive GateEvent
  | arrive (request : HttpRequest) (ticks : Nat → Tick)
  /-- The body of the `i`-th waiting request has been read, and its handler begins. -/
  | enter (i : Nat) (env : RequestEnv)
  | advance (i : Nat)
  | repair (key : ObjectKey) (i : Nat) (fate : WriteFate)
  | reschema (schema : Schema.SchemaManager)
  | createUser (draw : Draw) (request : UserCreateRequest)

def authResponse (pair : TokenPair) : Response :=
  ⟨200, none, none, some (.object [("access_token", .string pair.accessToken),
    ("refresh_token", .string pair.refreshToken),
    ("access_ttl_secs", .number (.posInt pair.accessTtl)),
    ("refresh_ttl_secs", .number (.posInt pair.refreshTtl))])⟩

section

variable (auth : AuthService) (libs : Libs) (etag : VectorClock → String) (members : Membership)

def authMiddleware (s : AuthState) (tick : Tick) (headers : HeaderMap) :
    Except ApiError TokenClaims := do
  let token ← extractBearer headers
  (auth.verify s tick token).mapError (.ofAuth libs.toFormat)

/-- `list_nodes` and `ring_info`. -/
def AdminEndpoint.handle (endpoint : AdminEndpoint) (claims : Claims) :
    Except ApiError Response := do
  (check claims .manageCluster ⟨none, none, none⟩).mapError (.ofAuth libs.toFormat)
  .ok ⟨200, none, none, some endpoint.body⟩

namespace Gate

/-- The answer to a request, unless its handler is yet to begin. -/
def arrive (g : Gate) (request : HttpRequest) (ticks : Nat → Tick) :
    Option (Except ApiError Response) × Gate :=
  match request.endpoint with
  | .login credentials =>
    let tokens := (auth.login g.auth ticks credentials).mapError (.ofAuth libs.toFormat)
    (some (tokens.map authResponse), g)
  | .refresh refreshToken =>
    let tokens := (auth.refresh g.auth ticks refreshToken).mapError (.ofAuth libs.toFormat)
    (some (tokens.map authResponse), g)
  | .logout =>
    match extractBearer request.headers with
    | .error err => (some (.error err), g)
    | .ok token =>
      let (revoked, s) := auth.logout g.auth token
      let revoked := revoked.mapError (.ofAuth libs.toFormat)
      (some (revoked.map fun _ => ⟨204, none, none, none⟩), { g with auth := s })
  | .object endpoint =>
    match authMiddleware auth libs g.auth (ticks 0) request.headers with
    | .error err => (some (.error err), g)
    | .ok claims =>
      let route := endpoint.route request.headers claims.toClaims
      (none, { g with verified := g.verified ++ [route] })
  | .admin endpoint =>
    match authMiddleware auth libs g.auth (ticks 0) request.headers with
    | .error err => (some (.error err), g)
    | .ok claims => (some (endpoint.handle libs claims.toClaims), g)

def next (g : Gate) : GateEvent → Gate
  | .arrive request ticks => (g.arrive auth libs request ticks).2
  | .enter i env =>
    match g.verified[i]? with
    | none => g
    | some route =>
      { g with
        verified := g.verified.eraseIdx i
        service := g.service.next libs etag members (.arrive route env) }
  | .advance i => { g with service := g.service.next libs etag members (.advance i) }
  | .repair key i fate =>
    { g with service := g.service.next libs etag members (.repair key i fate) }
  | .reschema schema => { g with service := g.service.next libs etag members (.reschema schema) }
  | .createUser draw request => { g with auth := auth.next g.auth (.createUser draw request) }

def run (g : Gate) (events : List GateEvent) : Gate :=
  events.foldl (Gate.next auth libs etag members) g

end Gate

end

/-- The call of the authentication service that an endpoint makes, or its middleware. -/
def HttpRequest.call (request : HttpRequest) (ticks : Nat → Tick) : Option AuthCall :=
  match request.endpoint with
  | .login credentials => some (.login ticks credentials)
  | .refresh refreshToken => some (.refresh ticks refreshToken)
  | .logout => (extractBearer request.headers).toOption.map .logout
  | .object _ | .admin _ =>
    (extractBearer request.headers).toOption.map (.verify (ticks 0))

/-- What happens to the authentication service. -/
def GateEvent.happenings : GateEvent → List Happening
  | .arrive request ticks => (request.call ticks).toList.map .call
  | .createUser draw request => [.call (.createUser draw request)]
  | .enter _ _ | .advance _ | .repair _ _ _ | .reschema _ => []

def happenings (events : List GateEvent) : List Happening :=
  events.flatMap GateEvent.happenings

section

variable {auth : AuthService} {libs : Libs} {etag : VectorClock → String} {members : Membership}
  {e : MemEngine} {started : List Happening} {g : Gate} {events : List GateEvent}

theorem Gate.run_concat (event : GateEvent) :
    g.run auth libs etag members (events ++ [event]) =
      (g.run auth libs etag members events).next auth libs etag members event := by
  simp [Gate.run]

theorem happenings_concat (event : GateEvent) :
    happenings (events ++ [event]) = happenings events ++ event.happenings := by
  simp [happenings]

theorem state_call {run : List Happening} {s : AuthState} {c : AuthCall}
    (h : (auth.deployment e run).state = some s) :
    (auth.deployment e (run ++ [.call c])).state = some (auth.next s c) := by
  rw [AuthService.deployment_concat, AuthService.follow_call h]
  rfl

theorem Gate.auth_arrive (request : HttpRequest) (ticks : Nat → Tick) :
    (g.arrive auth libs request ticks).2.auth =
      (request.call ticks).elim g.auth (auth.next g.auth) := by
  obtain ⟨headers, endpoint⟩ := request
  cases endpoint with
  | login credentials => rfl
  | refresh refreshToken => rfl
  | logout =>
    dsimp only [Gate.arrive, HttpRequest.call]
    cases extractBearer headers <;> rfl
  | object endpoint =>
    dsimp only [Gate.arrive, HttpRequest.call]
    cases authMiddleware auth libs g.auth (ticks 0) headers <;>
      cases extractBearer headers <;> rfl
  | admin endpoint =>
    dsimp only [Gate.arrive, HttpRequest.call]
    cases authMiddleware auth libs g.auth (ticks 0) headers <;>
      cases extractBearer headers <;> rfl

/-- The authentication service has seen what the events have brought to it. -/
theorem state_run (hstarted : (auth.deployment e started).state = some g.auth)
    (events : List GateEvent) :
    (auth.deployment e (started ++ happenings events)).state =
      some (g.run auth libs etag members events).auth := by
  induction events using List.reverseRecOn with
  | nil => simpa [happenings, Gate.run] using hstarted
  | append_singleton events event ih =>
    rw [Gate.run_concat, happenings_concat, ← List.append_assoc]
    cases event with
    | arrive request ticks =>
      rw [Gate.next, Gate.auth_arrive, GateEvent.happenings]
      cases request.call ticks with
      | none => simpa using ih
      | some c => exact state_call ih
    | createUser draw request => exact state_call ih
    | enter i env =>
      rw [Gate.next, GateEvent.happenings, List.append_nil, ih]
      cases (g.run auth libs etag members events).verified[i]? <;> rfl
    | advance i => simpa [GateEvent.happenings, Gate.next] using ih
    | repair key i fate => simpa [GateEvent.happenings, Gate.next] using ih
    | reschema schema => simpa [GateEvent.happenings, Gate.next] using ih

theorem authMiddleware_eq_ok {s : AuthState} {tick : Tick} {headers : HeaderMap}
    {claims : TokenClaims} (h : authMiddleware auth libs s tick headers = .ok claims) :
    ∃ token, extractBearer headers = .ok token ∧ auth.verify s tick token = .ok claims := by
  obtain ⟨token, htoken, hverify⟩ := Except.bind_eq_ok.mp h
  exact ⟨token, htoken, Except.mapError_eq_ok.mp hverify⟩

/-- Claims that the middleware has read from a request are backed. -/
theorem backed_of_authMiddleware {before after : List GateEvent} {request : HttpRequest}
    {ticks : Nat → Tick} {claims : TokenClaims}
    (he : ∃ accounts, auth.libs.Keeps e accounts)
    (hstarted : (auth.deployment e started).state = some g.auth)
    (hunforged : auth.Unforged e (started ++ happenings (before ++ .arrive request ticks :: after)))
    (hcall : request.call ticks =
      (extractBearer request.headers).toOption.map (.verify (ticks 0)))
    (h : authMiddleware auth libs (g.run auth libs etag members before).auth (ticks 0)
      request.headers = .ok claims) :
    ∃ token, extractBearer request.headers = .ok token ∧
      auth.Backed e (started ++ happenings before) (ticks 0) token claims := by
  obtain ⟨token, htoken, hverify⟩ := authMiddleware_eq_ok h
  refine ⟨token, htoken, AuthService.backed_of_verify he ?_ (state_run hstarted before) hverify⟩
  have hsplit : started ++ happenings (before ++ .arrive request ticks :: after) =
      started ++ happenings before ++ [.call (.verify (ticks 0) token)] ++ happenings after := by
    rw [htoken] at hcall
    simp [happenings, GateEvent.happenings, hcall, Except.toOption]
  rw [hsplit] at hunforged
  exact hunforged.of_append

section Passed

variable (auth libs etag members g)

/-- The route stems from a request that the middleware let pass. -/
def Passed (events : List GateEvent) (route : Route) : Prop :=
  ∃ before request ticks after endpoint claims,
    events = before ++ GateEvent.arrive request ticks :: after ∧
    request.endpoint = .object endpoint ∧
    route = endpoint.route request.headers claims.toClaims ∧
    authMiddleware auth libs (g.run auth libs etag members before).auth (ticks 0) request.headers =
      .ok claims

end Passed

variable {route : Route}

theorem Passed.concat (h : Passed auth libs etag members g events route) (event : GateEvent) :
    Passed auth libs etag members g (events ++ [event]) route := by
  obtain ⟨before, request, ticks, after, endpoint, claims, rfl, hrest⟩ := h
  exact ⟨before, request, ticks, after ++ [event], endpoint, claims, by simp, hrest⟩

/-- An arrival adds nothing to the waiting requests but one that it lets pass. -/
theorem Gate.mem_verified_arrive {request : HttpRequest} {ticks : Nat → Tick}
    (h : route ∈ (g.arrive auth libs request ticks).2.verified) :
    route ∈ g.verified ∨ ∃ endpoint claims, request.endpoint = .object endpoint ∧
      route = endpoint.route request.headers claims.toClaims ∧
      authMiddleware auth libs g.auth (ticks 0) request.headers = .ok claims := by
  obtain ⟨headers, endpoint⟩ := request
  cases endpoint with
  | login credentials => exact .inl h
  | refresh refreshToken => exact .inl h
  | logout =>
    dsimp only [Gate.arrive] at h
    cases hbearer : extractBearer headers <;> rw [hbearer] at h <;> exact .inl h
  | object endpoint =>
    dsimp only [Gate.arrive] at h ⊢
    cases hclaims : authMiddleware auth libs g.auth (ticks 0) headers with
    | error err =>
      rw [hclaims] at h
      exact .inl h
    | ok claims =>
      rw [hclaims] at h
      rcases List.mem_append.mp h with hold | hnew
      · exact .inl hold
      · exact .inr ⟨endpoint, claims, rfl, List.mem_singleton.mp hnew, rfl⟩
  | admin endpoint =>
    dsimp only [Gate.arrive] at h
    cases hclaims : authMiddleware auth libs g.auth (ticks 0) headers <;> rw [hclaims] at h <;>
      exact .inl h

theorem Gate.service_arrive (request : HttpRequest) (ticks : Nat → Tick) :
    (g.arrive auth libs request ticks).2.service = g.service := by
  obtain ⟨headers, endpoint⟩ := request
  cases endpoint with
  | login credentials => rfl
  | refresh refreshToken => rfl
  | logout =>
    dsimp only [Gate.arrive]
    cases extractBearer headers <;> rfl
  | object endpoint =>
    dsimp only [Gate.arrive]
    cases authMiddleware auth libs g.auth (ticks 0) headers <;> rfl
  | admin endpoint =>
    dsimp only [Gate.arrive]
    cases authMiddleware auth libs g.auth (ticks 0) headers <;> rfl

/-- A turn of the handlers, in which a request may begin that has passed the middleware. -/
theorem forall_turn {P : Route → Prop} {s : Service} (m : Turn)
    (h : ∀ o ∈ s.ongoing, P o.route ∧ o.Confined libs)
    (harrive : ∀ route env, m = .arrive route env → P route) :
    ∀ o ∈ (s.next libs etag members m).ongoing, P o.route ∧ o.Confined libs := by
  refine Service.forall_next libs etag members m h ?_ ?_
  · exact fun route env hm =>
      ⟨harrive route env hm, confined_start route env s.schema s.config false⟩
  · exact fun i o _ _ ho => ⟨ho.1, ho.2.step s.app⟩

/-- Every request that waits or is handled has passed the middleware. -/
theorem passed_run (hverified : g.verified = []) (hongoing : g.service.ongoing = [])
    (events : List GateEvent) :
    let t := g.run auth libs etag members events
    (∀ route ∈ t.verified, Passed auth libs etag members g events route) ∧
      ∀ o ∈ t.service.ongoing,
        Passed auth libs etag members g events o.route ∧ o.Confined libs := by
  induction events using List.reverseRecOn with
  | nil => simp [Gate.run, hverified, hongoing]
  | append_singleton events event ih =>
    rw [Gate.run_concat]
    obtain ⟨hwaiting, hhandled⟩ := ih
    have hwaiting' := fun route hroute => (hwaiting route hroute).concat event
    have hhandled' : ∀ o ∈ (g.run auth libs etag members events).service.ongoing,
        Passed auth libs etag members g (events ++ [event]) o.route ∧ o.Confined libs :=
      fun o ho => ⟨(hhandled o ho).1.concat event, (hhandled o ho).2⟩
    cases event with
    | arrive request ticks =>
      dsimp only [Gate.next]
      rw [Gate.service_arrive]
      refine ⟨fun route hroute => ?_, hhandled'⟩
      rcases Gate.mem_verified_arrive hroute with hold | ⟨endpoint, claims, hpassed⟩
      · exact hwaiting' route hold
      · exact ⟨events, request, ticks, [], endpoint, claims, rfl, hpassed⟩
    | enter i env =>
      cases hi : (g.run auth libs etag members events).verified[i]? with
      | none =>
        simp only [Gate.next, hi]
        exact ⟨hwaiting', hhandled'⟩
      | some route =>
        simp only [Gate.next, hi]
        refine ⟨fun r hr => hwaiting' r (List.mem_of_mem_eraseIdx hr), ?_⟩
        refine forall_turn _ hhandled' ?_
        rintro _ _ ⟨⟩
        exact hwaiting' route (List.mem_of_getElem? hi)
    | advance i => exact ⟨hwaiting', forall_turn _ hhandled' (by rintro _ _ ⟨⟩)⟩
    | repair key i fate => exact ⟨hwaiting', forall_turn _ hhandled' (by rintro _ _ ⟨⟩)⟩
    | reschema schema => exact ⟨hwaiting', forall_turn _ hhandled' (by rintro _ _ ⟨⟩)⟩
    | createUser draw request => exact ⟨hwaiting', hhandled'⟩

theorem ObjectEndpoint.claims_route (endpoint : ObjectEndpoint) (headers : HeaderMap)
    (claims : Claims) : (endpoint.route headers claims).claims = claims := by
  cases endpoint <;> rfl

/-- The grant that a request to the coordinator needs. -/
theorem granted_of_confined {o : Ongoing} {key : ObjectKey} (ho : o.Confined libs)
    (hkey : o.phase.key = some key) :
    (∃ role ∈ o.route.claims.roles, role.permits o.route.action = true) ∧
      (.serverAdmin ∈ o.route.claims.roles ∨ o.route.claims.tenant = some o.route.path.tenant) ∧
      keyTenant key = o.route.path.tenant.toList := by
  obtain ⟨hadmitted, habout⟩ := ho (Phase.running_of_key hkey)
  obtain ⟨hrole, hscope⟩ := check_eq_ok.mp hadmitted.check
  refine ⟨hrole, hscope.imp_right ?_, ?_⟩
  · rintro ⟨tenant, hclaims, hpath⟩
    exact hclaims.trans hpath.symm
  · obtain ⟨collection, id⟩ := key
    obtain ⟨rfl, -⟩ := habout.owns hkey
    exact keyTenant_of_validatePathNames hadmitted.names

/-- An administrative answer needs the role of a server admin. -/
theorem serverAdmin_of_handle {endpoint : AdminEndpoint} {claims : Claims} {response : Response}
    (h : endpoint.handle libs claims = .ok response) : .serverAdmin ∈ claims.roles := by
  obtain ⟨_, hcheck, -⟩ := Except.bind_eq_ok.mp h
  obtain ⟨-, hscope⟩ := check_eq_ok.mp (Except.mapError_eq_ok.mp hcheck)
  refine hscope.resolve_right ?_
  rintro ⟨tenant, -, hcluster⟩
  cases hcluster

end

/-- However requests interleave, while no token is forged: what reaches the coordinator came with
the token of a session that was neither expired nor logged out when the request arrived, and is
granted by the roles that the user of the session had when the token was issued, within their tenant
unless they were a server admin. What is told about the cluster is told to server admins alone. -/
theorem reached_by_session (auth : AuthService) (libs : Libs) (etag : VectorClock → String)
    (members : Membership) (e : MemEngine) (started : List Happening) (g : Gate)
    (events : List GateEvent) (he : ∃ accounts, auth.libs.Keeps e accounts)
    (hstarted : (auth.deployment e started).state = some g.auth) (hverified : g.verified = [])
    (hongoing : g.service.ongoing = [])
    (hunforged : auth.Unforged e (started ++ happenings events)) :
    (∀ o ∈ (g.run auth libs etag members events).service.ongoing, ∀ key, o.phase.key = some key →
      ∃ before request ticks after endpoint token claims,
        events = before ++ GateEvent.arrive request ticks :: after ∧
        request.endpoint = .object endpoint ∧
        o.route = endpoint.route request.headers claims.toClaims ∧
        extractBearer request.headers = .ok token ∧
        auth.Backed e (started ++ happenings before) (ticks 0) token claims ∧
        (∃ role ∈ claims.roles, role.permits o.route.action = true) ∧
        (.serverAdmin ∈ claims.roles ∨ claims.tenant = some o.route.path.tenant) ∧
        keyTenant key = o.route.path.tenant.toList) ∧
    ∀ before request ticks after endpoint response,
      events = before ++ GateEvent.arrive request ticks :: after →
      request.endpoint = .admin endpoint →
      ((g.run auth libs etag members before).arrive auth libs request ticks).1 =
        some (.ok response) →
      ∃ token claims, extractBearer request.headers = .ok token ∧
        auth.Backed e (started ++ happenings before) (ticks 0) token claims ∧
        .serverAdmin ∈ claims.roles := by
  constructor
  · intro o ho key hkey
    obtain ⟨hpassed, hconfined⟩ := (passed_run hverified hongoing events).2 o ho
    obtain ⟨before, request, ticks, after, endpoint, claims, rfl, hendpoint, hroute, hclaims⟩ :=
      hpassed
    have hcall : request.call ticks =
        (extractBearer request.headers).toOption.map (.verify (ticks 0)) := by
      rw [HttpRequest.call, hendpoint]
    obtain ⟨token, htoken, hbacked⟩ :=
      backed_of_authMiddleware he hstarted hunforged hcall hclaims
    have hgranted := granted_of_confined hconfined hkey
    rw [show o.route.claims = claims.toClaims by rw [hroute, endpoint.claims_route]] at hgranted
    exact ⟨before, request, ticks, after, endpoint, token, claims, rfl, hendpoint, hroute, htoken,
      hbacked, hgranted⟩
  · rintro before request ticks after endpoint response rfl hendpoint hanswer
    have hcall : request.call ticks =
        (extractBearer request.headers).toOption.map (.verify (ticks 0)) := by
      rw [HttpRequest.call, hendpoint]
    simp only [Gate.arrive, hendpoint] at hanswer
    cases hclaims : authMiddleware auth libs (g.run auth libs etag members before).auth (ticks 0)
        request.headers with
    | error err =>
      rw [hclaims] at hanswer
      cases hanswer
    | ok claims =>
      rw [hclaims] at hanswer
      obtain ⟨token, htoken, hbacked⟩ :=
        backed_of_authMiddleware he hstarted hunforged hcall hclaims
      exact ⟨token, claims, htoken, hbacked, serverAdmin_of_handle (Option.some.inj hanswer)⟩

def bearerHeaders (token : String) : HeaderMap := [("authorization", some (bearerScheme ++ token))]

theorem extractBearer_bearerHeaders (token : String) :
    extractBearer (bearerHeaders token) = .ok token := by
  have hstart : bearerScheme.toList.isPrefixOf (bearerScheme ++ token).toList = true := by
    rw [String.toList_append, List.isPrefixOf_iff_prefix]
    exact List.prefix_append _ _
  have hlookup : (bearerHeaders token).lookup "authorization" =
      some (some (bearerScheme ++ token)) := rfl
  simp only [extractBearer, hlookup, hstart, if_true]
  rw [String.toList_append, List.drop_left, String.ofList_toList]

/-- The user asks for an object of their tenant. -/
def getWith (token : String) : HttpRequest :=
  ⟨bearerHeaders token, .object (.getObject ⟨"acme", "main", "users"⟩ "0")⟩

/-- The request passes the middleware, and its handler begins. -/
def getEvents (token : String) : List GateEvent :=
  [.arrive (getWith token) atZero, .enter 0 (sampleEnv 0 ⟨1⟩)]

theorem happenings_getEvents (token : String) :
    happenings (getEvents token) = [.call (.verify (.ok .zero) token)] := by
  simp [happenings, getEvents, GateEvent.happenings, HttpRequest.call, getWith,
    extractBearer_bearerHeaders, Except.toOption, atZero]

def aliceRoute : Route := .object (.get ⟨"acme", "main", "users"⟩ "0" aliceClaims.toClaims)

theorem run_getEvents {auth : AuthService} {libs : Libs} {s : AuthState} {token : String}
    {service : Service} (hongoing : service.ongoing = [])
    (h : auth.verify s (.ok .zero) token = .ok aliceClaims) :
    (Gate.run auth libs (fun _ => "") oneOwner ⟨s, [], service⟩
      (getEvents token)).service.ongoing =
        [⟨aliceRoute, sampleEnv 0 ⟨1⟩, aliceRoute.start libs service.schema service.config,
          false⟩] := by
  have hmiddleware : authMiddleware auth libs s (atZero 0) (bearerHeaders token) =
      .ok aliceClaims := by
    rw [authMiddleware, extractBearer_bearerHeaders, Except.ok_bind]
    exact Except.mapError_eq_ok.mpr h
  simp only [Gate.run, getEvents, List.foldl_cons, List.foldl_nil, Gate.next, Gate.arrive, getWith,
    hmiddleware, List.nil_append, List.getElem?_cons_zero, Service.next, hongoing]
  rfl

theorem reached_by_alice : ∃ (auth : AuthService) (libs : Libs) (e : MemEngine) (token : String),
    (auth.deployment e aliceRun).state = some ⟨e, []⟩ ∧
    ∃ o ∈ (Gate.run auth libs (fun _ => "") oneOwner ⟨⟨e, []⟩, [], sampleService⟩
      (getEvents token)).service.ongoing, o.phase.key = some ⟨"acme/main/users", ⟨⟨0⟩⟩⟩ ∧
      ∃ before request ticks after token' claims,
        getEvents token = before ++ GateEvent.arrive request ticks :: after ∧
        auth.Backed e (aliceRun ++ happenings before) (ticks 0) token' claims := by
  obtain ⟨auth, e, token, he, hstate, hunforged, haccepted⟩ := exists_aliceRun
  let libs := sampleLibs fun _ => 0
  have hongoing : (Gate.run auth libs (fun _ => "") oneOwner ⟨⟨e, []⟩, [], sampleService⟩
      (getEvents token)).service.ongoing = _ := run_getEvents rfl haccepted
  have hmem := List.mem_of_getElem? (i := 0) (congrArg (·[0]?) hongoing)
  have hkey : (aliceRoute.start libs sampleService.schema sampleService.config).key =
      some ⟨"acme/main/users", ⟨⟨0⟩⟩⟩ := by decide +kernel
  rw [← happenings_getEvents] at hunforged
  obtain ⟨before, request, ticks, after, endpoint, token', claims, hevents, -, -, -, hbacked, -⟩ :=
    (reached_by_session auth libs (fun _ => "") oneOwner e aliceRun ⟨⟨e, []⟩, [], sampleService⟩
      (getEvents token) he hstate rfl rfl hunforged).1 _ hmem _ hkey
  exact ⟨auth, libs, e, token, hstate, _, hmem, hkey, before, request, ticks, after, token', claims,
    hevents, hbacked⟩

end BashfulDB.Api

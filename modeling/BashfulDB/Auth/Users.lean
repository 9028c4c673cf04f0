import BashfulDB.Auth.Store
import BashfulDB.Library.Pool
import BashfulDB.Library.Steps
import BashfulDB.Library.Uuid
import Mathlib.Tactic.Simps.Basic

/-! The creation of users: one call, and any number of calls side by side. -/
namespace BashfulDB.Auth

open Storage

structure UserCreateRequest where
  userId : Option String
  username : String
  tenant : Option String
  password : String
  roles : List Role
  deriving DecidableEq

/-- What a call draws at random. -/
structure Draw where
  uuid : Uuid
  salt : String

namespace UserCreateRequest

/-- The checks before the first scan; a server admin belongs to no tenant. -/
def validate (request : UserCreateRequest) : Except AuthError UserCreateRequest :=
  if request.roles.isEmpty then .error (.internal "user must have at least one role")
  else if request.password.asBytes.length < 8 then
    .error (.weakPassword "password must be at least 8 characters")
  -- whatever tenant was asked for
  else if request.roles.contains .serverAdmin then .ok { request with tenant := none }
  else if request.tenant.isNone then .error (.internal "tenant-scoped users must provide tenant")
  else .ok request

def newId (request : UserCreateRequest) (draw : Draw) : String :=
  request.userId.getD draw.uuid.hyphenated

/-- What `validate` leaves: either a server admin, or a user of a tenant. -/
def Scoped (request : UserCreateRequest) : Prop :=
  request.tenant = none ↔ .serverAdmin ∈ request.roles

theorem scoped_of_validate {request valid : UserCreateRequest}
    (h : request.validate = .ok valid) : valid.Scoped := by
  rw [validate] at h
  split at h
  · cases h
  · split at h
    · cases h
    · split at h
      · rename_i hadmin
        cases h
        exact iff_of_true rfl (List.contains_iff_mem.mp hadmin)
      · rename_i hadmin
        split at h
        · cases h
        · rename_i htenant
          cases h
          exact iff_of_false (by simpa using htenant) (mt List.contains_iff_mem.mpr hadmin)

end UserCreateRequest

namespace AuthLibs

variable (libs : AuthLibs)

def checkTenant (e : MemEngine) (request : UserCreateRequest) : Except AuthError Unit :=
  match request.tenant with
  | none => .ok ()
  | some tenant => do
    let taken ← libs.nonServerAdminExistsForTenant e tenant
    if taken then .error (.userAlreadyExists ("tenant:" ++ tenant)) else .ok ()

def checkUsername (e : MemEngine) (request : UserCreateRequest) : Except AuthError Unit := do
  let user ← libs.findUserByUsername e request.username
  if user.isSome then .error (.userAlreadyExists request.username) else .ok ()

def newUser (draw : Draw) (request : UserCreateRequest) : Except AuthError StoredUser := do
  let passwordHash ← (libs.hashPassword draw.salt request.password).mapError fun err =>
    .internal ("failed to hash password: " ++ err)
  .ok {
    userId := request.newId draw
    username := request.username
    tenant := request.tenant
    passwordHash }

/-- All that happens before the write. -/
def prepare (draw : Draw) (request : UserCreateRequest) (e : MemEngine) :
    Except AuthError (StoredUser × StoredRoles) := do
  let request ← request.validate
  libs.checkTenant e request
  libs.checkUsername e request
  let user ← libs.newUser draw request
  .ok (user, ⟨request.roles⟩)

def createUser (draw : Draw) (request : UserCreateRequest) (e : MemEngine) :
    Except AuthError String × MemEngine :=
  match libs.prepare draw request e with
  | .error err => (.error err, e)
  | .ok (user, roles) =>
    let (written, e) := libs.persistUserAndRoles e user roles
    (written.map fun _ => user.userId, e)

def anyUserExists (e : MemEngine) : Except AuthError Bool := do
  let rows ← scanPrefix e userKeyPrefix
  .ok (!rows.isEmpty)

def bootstrapAdminUser : String := "_system__admin"

/-- `bootstrap_if_needed`, which ends `AuthService::new`. -/
def bootstrapIfNeeded (draw : Draw) (bootstrapPassword : Option String) (e : MemEngine) :
    Except AuthError Unit × MemEngine :=
  match anyUserExists e, bootstrapPassword with
  | .error err, _ => (.error err, e)
  | .ok true, _ => (.ok (), e)
  | .ok false, none =>
    (.error (.internal ("bootstrap password required via env/config " ++
      "(BASHFULDB_BOOTSTRAP_ADMIN_PASSWORD)")), e)
  | .ok false, some password =>
    let (created, e) := libs.createUser draw
      ⟨some bootstrapAdminUser, bootstrapAdminUser, none, password, [.serverAdmin]⟩ e
    (created.map fun _ => (), e)

end AuthLibs

/-- No user has the name. -/
def Accounts.NameFree (accounts : Accounts) (username : String) : Prop :=
  ∀ id a, accounts id = some a → a.user.username ≠ username

/-- No user but server admins has the tenant. -/
def Accounts.TenantFree (accounts : Accounts) (tenant : Option String) : Prop :=
  ∀ t, tenant = some t → ∀ id a, accounts id = some a → ¬ a.TenantUser t

section Free

variable {accounts : Accounts} {username : String} {tenant : Option String} {id : String}
  {a : Account}

theorem Accounts.NameFree.empty (username : String) : Accounts.NameFree (fun _ => none) username :=
  fun _ _ ha => nomatch ha

theorem Accounts.TenantFree.empty (tenant : Option String) :
    Accounts.TenantFree (fun _ => none) tenant :=
  fun _ _ _ _ ha => nomatch ha

theorem Accounts.NameFree.update (h : accounts.NameFree username)
    (ha : a.user.username ≠ username) :
    Accounts.NameFree (Function.update accounts id (some a)) username :=
  Table.forall_update h ha

theorem Accounts.TenantFree.update (h : accounts.TenantFree tenant)
    (ha : ∀ t, tenant = some t → ¬ a.TenantUser t) :
    Accounts.TenantFree (Function.update accounts id (some a)) tenant :=
  fun t ht => Table.forall_update (h t ht) (ha t ht)

end Free

namespace AuthLibs

variable {libs : AuthLibs} {e : MemEngine} {accounts : Accounts} {request : UserCreateRequest}
  {draw : Draw}

theorem Keeps.checkTenant_eq_ok (h : libs.Keeps e accounts) :
    libs.checkTenant e request = .ok () ↔ accounts.TenantFree request.tenant := by
  rw [checkTenant]
  cases htenant : request.tenant with
  | none => exact iff_of_true rfl fun t ht => nomatch ht
  | some tenant =>
    obtain ⟨taken, hscan, htaken⟩ := h.nonServerAdminExistsForTenant tenant
    simp only [hscan, Except.ok_bind]
    cases taken with
    | true =>
      obtain ⟨id, a, ha, huser⟩ := htaken.mp rfl
      exact iff_of_false (by simp) fun hfree => hfree tenant rfl id a ha huser
    | false =>
      refine iff_of_true rfl ?_
      rintro t ⟨⟩ id a ha huser
      exact absurd (htaken.mpr ⟨id, a, ha, huser⟩) (by simp)

theorem Keeps.checkUsername_eq_ok (h : libs.Keeps e accounts) :
    libs.checkUsername e request = .ok () ↔ accounts.NameFree request.username := by
  rw [checkUsername]
  rcases h.findUserByUsername request.username with ⟨hfind, hfree⟩ | ⟨id, a, hfind, ha, hname⟩
  · rw [hfind]
    exact iff_of_true rfl hfree
  · rw [hfind]
    exact iff_of_false (by simp) fun hfree => hfree id a ha hname

/-- What a new user takes over from the request. -/
theorem newUser_eq_ok {user : StoredUser} (h : libs.newUser draw request = .ok user) :
    user.userId = request.newId draw ∧ user.username = request.username ∧
      user.tenant = request.tenant := by
  obtain ⟨passwordHash, -, huser⟩ := Except.bind_eq_ok.mp h
  cases huser
  exact ⟨rfl, rfl, rfl⟩

/-- A creation fails without effect, or adds the account of the request when the name and the tenant
are free. -/
theorem Keeps.createUser_cases (h : libs.Keeps e accounts) (draw : Draw)
    (request : UserCreateRequest) :
    (∃ err, libs.createUser draw request e = (.error err, e)) ∨
    ∃ valid user, request.validate = .ok valid ∧ accounts.TenantFree valid.tenant ∧
      accounts.NameFree valid.username ∧ libs.newUser draw valid = .ok user ∧
      libs.createUser draw request e =
        (.ok user.userId, libs.stored e ⟨user, valid.roles⟩) := by
  rw [createUser]
  cases hprepare : libs.prepare draw request e with
  | error err => exact Or.inl ⟨err, rfl⟩
  | ok prepared =>
    -- the tenant is looked for before the name
    obtain ⟨valid, hvalid, hprepare⟩ := Except.bind_eq_ok.mp hprepare
    obtain ⟨⟨⟩, htenant, hprepare⟩ := Except.bind_eq_ok.mp hprepare
    obtain ⟨⟨⟩, hname, hprepare⟩ := Except.bind_eq_ok.mp hprepare
    obtain ⟨user, huser, hprepare⟩ := Except.bind_eq_ok.mp hprepare
    cases hprepare
    refine Or.inr ⟨valid, user, hvalid, h.checkTenant_eq_ok.mp htenant,
      h.checkUsername_eq_ok.mp hname, huser, ?_⟩
    have hwritten := persistUserAndRoles_eq libs e ⟨user, valid.roles⟩
    simp only [hwritten]
    rfl

/-- A request that passes the checks is carried out. -/
theorem Keeps.createUser_eq (h : libs.Keeps e accounts) {valid : UserCreateRequest}
    {user : StoredUser} (hvalid : request.validate = .ok valid)
    (htenant : accounts.TenantFree valid.tenant) (hname : accounts.NameFree valid.username)
    (huser : libs.newUser draw valid = .ok user) :
    libs.createUser draw request e = (.ok user.userId, libs.stored e ⟨user, valid.roles⟩) := by
  have hprepare : libs.prepare draw request e = .ok (user, ⟨valid.roles⟩) := by
    rw [prepare, hvalid, Except.ok_bind, h.checkTenant_eq_ok.mpr htenant, Except.ok_bind,
      h.checkUsername_eq_ok.mpr hname, Except.ok_bind, huser, Except.ok_bind]
  have hwritten := persistUserAndRoles_eq libs e ⟨user, valid.roles⟩
  rw [createUser, hprepare]
  simp only [hwritten]
  rfl

theorem Keeps.anyUserExists (h : libs.Keeps e accounts) :
    ∃ found, AuthLibs.anyUserExists e = .ok found ∧
      (found = true ↔ ∃ id a, accounts id = some a) := by
  obtain ⟨users, hscan, husers⟩ := h.scanPrefix
  refine ⟨!(users.map libs.userRow).isEmpty, ?_, ?_⟩
  · rw [AuthLibs.anyUserExists, hscan]
    rfl
  · rw [Bool.not_eq_true', List.isEmpty_eq_false_iff_exists_mem]
    constructor
    · rintro ⟨row, hrow⟩
      obtain ⟨a, ha, -⟩ := List.mem_map.mp hrow
      obtain ⟨id, ha⟩ := (husers a).mp ha
      exact ⟨id, a, ha⟩
    · rintro ⟨id, a, ha⟩
      exact ⟨_, List.mem_map_of_mem ((husers a).mpr ⟨id, ha⟩)⟩

/-- A service that has started finds a user in its storage. -/
theorem Keeps.bootstrapIfNeeded (h : libs.Keeps e accounts) (draw : Draw)
    (password : Option String)
    (hstarted : (libs.bootstrapIfNeeded draw password e).1 = .ok ()) :
    ∃ accounts', libs.Keeps (libs.bootstrapIfNeeded draw password e).2 accounts' ∧
      ∃ id a, accounts' id = some a := by
  obtain ⟨found, hscan, hfound⟩ := h.anyUserExists
  unfold AuthLibs.bootstrapIfNeeded at hstarted ⊢
  simp only [hscan] at hstarted ⊢
  cases found with
  | true => exact ⟨accounts, h, hfound.mp rfl⟩
  | false =>
    cases password with
    | none => cases hstarted
    | some password =>
      rcases h.createUser_cases draw
          ⟨some bootstrapAdminUser, bootstrapAdminUser, none, password, [.serverAdmin]⟩ with
        ⟨err, hcreate⟩ | ⟨valid, user, -, -, -, -, hcreate⟩
      · simp only [hcreate] at hstarted
        cases hstarted
      · simp only [hcreate]
        exact ⟨_, h.stored _, user.userId, _, Function.update_self ..⟩

end AuthLibs

/-- The next step of a call of `create_user`. -/
inductive CreateStage
  | tenantScan
  | usernameScan
  | writeBatch
  deriving DecidableEq, Repr

/-- A call that has validated its request. -/
structure Creation where
  request : UserCreateRequest
  stage : CreateStage
  deriving DecidableEq

/-- The engine, and the calls that are under way. -/
structure Registry where
  engine : MemEngine
  calls : List Creation

/-- A call begins, or goes on with its next step. -/
inductive RegistryEvent
  | createUser (request : UserCreateRequest)
  | advance (i : Nat) (draw : Draw)

namespace Registry

def new : Registry := ⟨.new, []⟩

@[simps] def resume (s : Registry) (i : Nat) (call : Option Creation) : Registry :=
  { s with calls := Pool.resume s.calls i call }

/-- A check that fails ends the call. -/
def check (s : Registry) (i : Nat) (checked : Except AuthError Unit) (call : Creation) : Registry :=
  match checked with
  | .ok () => s.resume i (some call)
  | .error _ => s.resume i none

def advance (libs : AuthLibs) (s : Registry) (i : Nat) (draw : Draw) : Creation → Registry
  | ⟨request, .tenantScan⟩ =>
    s.check i (libs.checkTenant s.engine request) ⟨request, .usernameScan⟩
  | ⟨request, .usernameScan⟩ =>
    s.check i (libs.checkUsername s.engine request) ⟨request, .writeBatch⟩
  | ⟨request, .writeBatch⟩ =>
    match libs.newUser draw request with
    | .ok user =>
      { s with engine := (libs.persistUserAndRoles s.engine user ⟨request.roles⟩).2 }.resume i none
    | .error _ => s.resume i none

def next (libs : AuthLibs) (s : Registry) : RegistryEvent → Registry
  | .createUser request =>
    match request.validate with
    | .ok request => { s with calls := s.calls ++ [⟨request, .tenantScan⟩] }
    | .error _ => s
  | .advance i draw => (s.calls[i]?).elim s (s.advance libs i draw)

/-- What a step can be, where the engine keeps these accounts. -/
inductive Step (libs : AuthLibs) (accounts : Accounts) (s : Registry) :
    RegistryEvent → Registry → Prop
  | reject {request : UserCreateRequest} : Step libs accounts s (.createUser request) s
  | start {request valid : UserCreateRequest} : request.validate = .ok valid →
      Step libs accounts s (.createUser request)
        { s with calls := s.calls ++ [⟨valid, .tenantScan⟩] }
  | noCall {i : Nat} {draw : Draw} : s.calls[i]? = none →
      Step libs accounts s (.advance i draw) s
  | tenantFree {i : Nat} {draw : Draw} {request : UserCreateRequest} :
      s.calls[i]? = some ⟨request, .tenantScan⟩ → accounts.TenantFree request.tenant →
      Step libs accounts s (.advance i draw) (s.resume i (some ⟨request, .usernameScan⟩))
  | nameFree {i : Nat} {draw : Draw} {request : UserCreateRequest} :
      s.calls[i]? = some ⟨request, .usernameScan⟩ → accounts.NameFree request.username →
      Step libs accounts s (.advance i draw) (s.resume i (some ⟨request, .writeBatch⟩))
  | taken {i : Nat} {draw : Draw} {call : Creation} : s.calls[i]? = some call →
      call.stage ≠ .writeBatch → Step libs accounts s (.advance i draw) (s.resume i none)
  | unhashed {i : Nat} {draw : Draw} {request : UserCreateRequest} {err : AuthError} :
      s.calls[i]? = some ⟨request, .writeBatch⟩ → libs.newUser draw request = .error err →
      Step libs accounts s (.advance i draw) (s.resume i none)
  | write {i : Nat} {draw : Draw} {request : UserCreateRequest} {user : StoredUser} :
      s.calls[i]? = some ⟨request, .writeBatch⟩ → libs.newUser draw request = .ok user →
      Step libs accounts s (.advance i draw)
        ({ s with engine := libs.stored s.engine ⟨user, request.roles⟩ }.resume i none)

variable {libs : AuthLibs} {accounts : Accounts} {s s' : Registry} {a : RegistryEvent}

theorem next_write {i : Nat} {draw : Draw} {request : UserCreateRequest} {user : StoredUser}
    (hi : s.calls[i]? = some ⟨request, .writeBatch⟩)
    (huser : libs.newUser draw request = .ok user) :
    s.next libs (.advance i draw) =
      { s with engine := libs.stored s.engine ⟨user, request.roles⟩ }.resume i none := by
  have hwritten := libs.persistUserAndRoles_eq s.engine ⟨user, request.roles⟩
  simp only [next, hi, Option.elim, advance, huser, hwritten]

theorem step_next (h : libs.Keeps s.engine accounts) (a : RegistryEvent) :
    s.Step libs accounts a (s.next libs a) := by
  cases a with
  | createUser request =>
    rw [next]
    cases hvalid : request.validate with
    | error err => exact .reject
    | ok valid => exact .start hvalid
  | advance i draw =>
    cases hi : s.calls[i]? with
    | none =>
      rw [next, hi]
      exact .noCall hi
    | some call =>
      obtain ⟨request, stage⟩ := call
      cases stage with
      | tenantScan =>
        rw [next, hi, Option.elim, advance]
        cases hcheck : libs.checkTenant s.engine request with
        | error err => exact .taken hi (by simp)
        | ok => exact .tenantFree hi (h.checkTenant_eq_ok.mp hcheck)
      | usernameScan =>
        rw [next, hi, Option.elim, advance]
        cases hcheck : libs.checkUsername s.engine request with
        | error err => exact .taken hi (by simp)
        | ok => exact .nameFree hi (h.checkUsername_eq_ok.mp hcheck)
      | writeBatch =>
        cases huser : libs.newUser draw request with
        | error err =>
          simp only [next, hi, Option.elim, advance, huser]
          exact .unhashed hi huser
        | ok user =>
          rw [next_write hi huser]
          exact .write hi huser

/-- The engine keeps the accounts that it holds, and the calls have validated their requests. -/
structure Sound (libs : AuthLibs) (s : Registry) : Prop where
  keeps : libs.Keeps s.engine (libs.account s.engine)
  requests : ∀ call ∈ s.calls, call.request.Scoped

theorem sound_new (libs : AuthLibs) : new.Sound libs := by
  have hkeeps := libs.keeps_new
  refine ⟨?_, fun call hcall => nomatch hcall⟩
  rw [new, hkeeps.account]
  exact hkeeps

theorem Sound.resume (h : s.Sound libs) {i : Nat} {call : Creation} {next : Option Creation}
    (hi : s.calls[i]? = some call)
    (hnext : ∀ call', next = some call' → call'.request = call.request) :
    (s.resume i next).Sound libs := by
  have hrequests : ∀ call' ∈ Pool.resume s.calls i next, call'.request.Scoped := by
    refine Pool.forall_resume hi h.requests fun call' hcall' => ?_
    rw [hnext call' hcall']
    exact h.requests call (List.mem_of_getElem? hi)
  exact ⟨h.keeps, hrequests⟩

theorem Sound.stored (h : s.Sound libs) (a : Account) :
    { s with engine := libs.stored s.engine a }.Sound libs := by
  have hkeeps := h.keeps.stored a
  refine ⟨?_, h.requests⟩
  rw [hkeeps.account]
  exact hkeeps

theorem Sound.step (h : s.Sound libs) (hstep : s.Step libs (libs.account s.engine) a s') :
    s'.Sound libs := by
  cases hstep with
  | reject => exact h
  | start hvalid =>
    exact ⟨h.keeps, Pool.forall_concat h.requests (UserCreateRequest.scoped_of_validate hvalid)⟩
  | noCall hi => exact h
  | tenantFree hi hfree =>
    refine h.resume hi ?_
    rintro call ⟨⟩
    rfl
  | nameFree hi hfree =>
    refine h.resume hi ?_
    rintro call ⟨⟩
    rfl
  | taken hi hstage => exact h.resume hi fun call hcall => nomatch hcall
  | unhashed hi huser => exact h.resume hi fun call hcall => nomatch hcall
  | write hi huser => exact (h.stored _).resume hi fun call hcall => nomatch hcall

theorem Sound.next (h : s.Sound libs) (a : RegistryEvent) : (s.next libs a).Sound libs :=
  h.step (step_next h.keeps a)

theorem sound_run (libs : AuthLibs) (events : List RegistryEvent) :
    (events.foldl (Registry.next libs) .new).Sound libs := by
  refine List.foldlRecOn events _ (sound_new libs) ?_
  intro s h a _
  exact h.next a

/-- A call with no other beside it does what `create_user` does. -/
theorem run_alone (libs : AuthLibs) (draw : Draw) (request : UserCreateRequest) (e : MemEngine) :
    [.createUser request, .advance 0 draw, .advance 0 draw, .advance 0 draw].foldl
      (Registry.next libs) ⟨e, []⟩ = ⟨(libs.createUser draw request e).2, []⟩ := by
  rw [AuthLibs.createUser, AuthLibs.prepare, List.foldl_cons, next]
  cases request.validate with
  | error err => rfl
  | ok valid =>
    -- the call is the only one, so it is its turn in every step
    simp only [List.foldl_cons, List.foldl_nil, next, List.nil_append, List.getElem?_cons_zero,
      Option.elim, advance, Except.ok_bind]
    cases libs.checkTenant e valid with
    | error err => rfl
    | ok =>
      simp only [check, resume, Pool.resume, List.set_cons_zero, List.getElem?_cons_zero, advance,
        Except.ok_bind]
      cases libs.checkUsername e valid with
      | error err => rfl
      | ok =>
        simp only [resume, Pool.resume, List.getElem?_cons_zero, advance, Except.ok_bind]
        cases libs.newUser draw valid with
        | error err => rfl
        | ok user => rfl

end Registry

end BashfulDB.Auth

import BashfulDB.Auth.Users

/-! What the creation of a user does to the other users, and when names and tenants stay unique. -/
namespace BashfulDB.Auth

open Storage

/-- The engine after a run of calls of `create_user` side by side. -/
def storeAfter (libs : AuthLibs) (events : List RegistryEvent) : MemEngine :=
  (events.foldl (Registry.next libs) .new).engine

theorem keeps_storeAfter (libs : AuthLibs) (events : List RegistryEvent) :
    libs.Keeps (storeAfter libs events) (libs.account (storeAfter libs events)) :=
  (Registry.sound_run libs events).keeps

/-- Nothing that was stored is changed, and one user is added; or nothing has happened. -/
def Framed (libs : AuthLibs) (e : MemEngine) : Except AuthError String × MemEngine → Prop
  | (.ok _, e') =>
    (∀ cf key value, (e.cfs cf).get key = some value → (e'.cfs cf).get key = some value) ∧
      ∃! id, libs.account e id = none ∧ libs.account e' id ≠ none
  | (.error _, e') => e' = e

/-- The request has roles and a password that is long enough, no other user has its name or, unless
it is for a server admin, its tenant, and its password can be hashed. -/
structure Admissible (libs : AuthLibs) (accounts : Accounts) (draw : Draw)
    (request : UserCreateRequest) : Prop where
  roles : request.roles ≠ []
  password : 8 ≤ request.password.asBytes.length
  tenant : .serverAdmin ∉ request.roles →
    ∃ tenant, request.tenant = some tenant ∧ accounts.TenantFree (some tenant)
  username : accounts.NameFree request.username
  hash : ∃ hash, libs.hashPassword draw.salt request.password = .ok hash

theorem UserCreateRequest.validate_eq_ok {request valid : UserCreateRequest} :
    request.validate = .ok valid ↔ request.roles ≠ [] ∧ 8 ≤ request.password.asBytes.length ∧
      (.serverAdmin ∈ request.roles ∧ { request with tenant := none } = valid ∨
        .serverAdmin ∉ request.roles ∧ request.tenant ≠ none ∧ request = valid) := by
  simp only [validate, Except.guard_eq_ok, List.isEmpty_iff, not_lt]
  refine and_congr_right fun _ => and_congr_right fun _ => ?_
  by_cases hadmin : .serverAdmin ∈ request.roles
  · rw [if_pos (List.contains_iff_mem.mpr hadmin)]
    simp [hadmin]
  · rw [if_neg (mt List.contains_iff_mem.mp hadmin), Except.guard_eq_ok]
    simp [hadmin]

theorem AuthLibs.newUser_iff (libs : AuthLibs) (draw : Draw) (request : UserCreateRequest) :
    (∃ user, libs.newUser draw request = .ok user) ↔
      ∃ hash, libs.hashPassword draw.salt request.password = .ok hash := by
  constructor
  · rintro ⟨user, huser⟩
    obtain ⟨hash, hhash, -⟩ := Except.bind_eq_ok.mp huser
    exact ⟨hash, Except.mapError_eq_ok.mp hhash⟩
  · rintro ⟨hash, hhash⟩
    rw [newUser, hhash]
    exact ⟨_, rfl⟩

theorem admissible_iff {libs : AuthLibs} {accounts : Accounts} {draw : Draw}
    {request : UserCreateRequest} : Admissible libs accounts draw request ↔
      ∃ valid user, request.validate = .ok valid ∧ accounts.TenantFree valid.tenant ∧
        accounts.NameFree valid.username ∧ libs.newUser draw valid = .ok user := by
  constructor
  · rintro ⟨hroles, hpassword, htenant, hname, hhash⟩
    by_cases hadmin : .serverAdmin ∈ request.roles
    · have hvalid := UserCreateRequest.validate_eq_ok.mpr
        ⟨hroles, hpassword, Or.inl ⟨hadmin, rfl⟩⟩
      obtain ⟨user, huser⟩ :=
        (libs.newUser_iff draw { request with tenant := none }).mpr hhash
      exact ⟨_, user, hvalid, (fun _ ht => absurd ht.symm (Option.some_ne_none _)), hname, huser⟩
    · obtain ⟨tenant, hsome, hfree⟩ := htenant hadmin
      have hvalid := UserCreateRequest.validate_eq_ok.mpr
        ⟨hroles, hpassword, Or.inr ⟨hadmin, by simp [hsome], rfl⟩⟩
      obtain ⟨user, huser⟩ := (libs.newUser_iff draw request).mpr hhash
      exact ⟨_, user, hvalid, hsome ▸ hfree, hname, huser⟩
  · rintro ⟨valid, user, hvalid, htenant, hname, huser⟩
    have hhash := (libs.newUser_iff draw valid).mp ⟨user, huser⟩
    obtain ⟨hroles, hpassword, ⟨hadmin, rfl⟩ | ⟨hadmin, hsome, rfl⟩⟩ :=
      UserCreateRequest.validate_eq_ok.mp hvalid
    · exact ⟨hroles, hpassword, fun h => absurd hadmin h, hname, hhash⟩
    · obtain ⟨tenant, htenant'⟩ := Option.ne_none_iff_exists'.mp hsome
      exact ⟨hroles, hpassword, fun _ => ⟨tenant, htenant', htenant' ▸ htenant⟩, hname, hhash⟩

namespace AuthLibs

variable {libs : AuthLibs} {e : MemEngine} {accounts : Accounts} {a : Account}

/-- No row is overwritten when the id is new. -/
theorem Keeps.get_stored_of_new (h : libs.Keeps e accounts) (hnew : accounts a.user.userId = none)
    {cf : ColumnFamily} {key value : Bytes} (hget : (e.cfs cf).get key = some value) :
    ((libs.stored e a).cfs cf).get key = some value := by
  by_cases hcf : cf = .system
  · subst hcf
    have hroles : key ≠ roleKey a.user.userId := by
      rintro rfl
      simp [h.roles, hnew] at hget
    have huser : key ≠ userKey a.user.userId := by
      rintro rfl
      simp [h.user, hnew] at hget
    rw [get_stored, if_neg hroles, if_neg huser, hget]
  · rw [stored_of_ne libs e a hcf, hget]

theorem Keeps.framed_stored_iff (h : libs.Keeps e accounts) {id : String} :
    Framed libs e (.ok id, libs.stored e a) ↔ accounts a.user.userId = none := by
  rw [Framed, h.account, (h.stored a).account, Table.one_added_iff, and_iff_right_iff_imp]
  intro hnew cf key value hget
  exact h.get_stored_of_new hnew hget

end AuthLibs

/-- In every store that calls of `create_user` can reach, a further one keeps to its frame exactly
when it is not admissible, or the id that it was given or has drawn is new. -/
theorem createUser_framed_iff (libs : AuthLibs) (events : List RegistryEvent) (draw : Draw)
    (request : UserCreateRequest) :
    Framed libs (storeAfter libs events) (libs.createUser draw request (storeAfter libs events)) ↔
      (Admissible libs (libs.account (storeAfter libs events)) draw request →
        libs.account (storeAfter libs events) (request.newId draw) = none) := by
  have hkeeps := keeps_storeAfter libs events
  generalize storeAfter libs events = e at *
  by_cases hadmissible : Admissible libs (libs.account e) draw request
  · obtain ⟨valid, user, hvalid, htenant, hname, huser⟩ := admissible_iff.mp hadmissible
    -- validation changes the tenant at most, so the id is the one of the request
    have hid : user.userId = request.newId draw := by
      rw [(AuthLibs.newUser_eq_ok huser).1, UserCreateRequest.newId]
      rcases (UserCreateRequest.validate_eq_ok.mp hvalid).2.2 with ⟨-, rfl⟩ | ⟨-, -, rfl⟩ <;> rfl
    rw [hkeeps.createUser_eq hvalid htenant hname huser, hkeeps.framed_stored_iff, ← hid]
    simp [hadmissible]
  · rcases hkeeps.createUser_cases draw request with
      ⟨err, hcreate⟩ | ⟨valid, user, hvalid, htenant, hname, huser, -⟩
    · rw [hcreate]
      exact iff_of_true rfl fun h => absurd h hadmissible
    · exact absurd (admissible_iff.mpr ⟨valid, user, hvalid, htenant, hname, huser⟩) hadmissible

/-- A request for a user of a tenant. -/
def tenantRequest (id username tenant : String) : UserCreateRequest :=
  ⟨some id, username, some tenant, "password", [.tenantAdmin]⟩

def someDraw : Draw := ⟨⟨0⟩, "salt"⟩

/-- What such a request stores, where passwords are kept as they are. -/
def tenantAccount (id username tenant : String) : Account :=
  ⟨⟨id, username, some tenant, "password"⟩, [.tenantAdmin]⟩

section TenantRequest

variable {libs : AuthLibs} {e : MemEngine} {accounts : Accounts} {id username tenant : String}

theorem validate_tenantRequest :
    (tenantRequest id username tenant).validate = .ok (tenantRequest id username tenant) := rfl

theorem newUser_tenantRequest (hplain : libs.Plain) :
    libs.newUser someDraw (tenantRequest id username tenant) =
      .ok (tenantAccount id username tenant).user := by
  rw [AuthLibs.newUser, hplain.hash]
  rfl

theorem createUser_tenantRequest (h : libs.Keeps e accounts) (hplain : libs.Plain)
    (htenant : accounts.TenantFree (some tenant)) (hname : accounts.NameFree username) :
    libs.createUser someDraw (tenantRequest id username tenant) e =
      (.ok id, libs.stored e (tenantAccount id username tenant)) :=
  h.createUser_eq validate_tenantRequest htenant hname (newUser_tenantRequest hplain)

theorem next_tenantRequest (hplain : libs.Plain) (e : MemEngine) (calls : List Creation) :
    Registry.next libs ⟨e, ⟨tenantRequest id username tenant, .writeBatch⟩ :: calls⟩
      (.advance 0 someDraw) = ⟨libs.stored e (tenantAccount id username tenant), calls⟩ := by
  rw [Registry.next_write rfl (newUser_tenantRequest hplain)]
  rfl

end TenantRequest

/-- The second creation asks for the id of the first, and replaces its user. -/
theorem second_user_replaces_first : ∃ (libs : AuthLibs) (e e' : MemEngine),
    libs.createUser someDraw (tenantRequest "1" "alice" "acme") .new = (.ok "1", e) ∧
    libs.createUser someDraw (tenantRequest "1" "bob" "umbrella") e = (.ok "1", e') ∧
    libs.account e "1" = some (tenantAccount "1" "alice" "acme") ∧
    libs.account e' "1" = some (tenantAccount "1" "bob" "umbrella") ∧
    ¬ Framed libs e (.ok "1", e') := by
  obtain ⟨libs, hplain⟩ := AuthLibs.exists_plain
  let alice := tenantAccount "1" "alice" "acme"
  let bob := tenantAccount "1" "bob" "umbrella"
  have hnew := libs.keeps_new
  have halice := hnew.stored alice
  have hbob := halice.stored bob
  have hget : Function.update (fun _ => none) alice.user.userId (some alice) "1" = some alice :=
    Function.update_self ..
  refine ⟨libs, libs.stored .new alice, libs.stored (libs.stored .new alice) bob,
    createUser_tenantRequest hnew hplain (.empty _) (.empty _),
    createUser_tenantRequest halice hplain (.update (.empty _) ?_) (.update (.empty _) (by decide)),
    ?_, ?_, ?_⟩
  · rintro t ⟨⟩
    decide
  · rw [halice.account, hget]
  · rw [hbob.account]
    exact Function.update_self ..
  · rw [halice.framed_stored_iff]
    exact fun hnone => nomatch hget.symm.trans hnone

/-- No two users have a name in common, and no tenant has two users but server admins. -/
structure Unique (accounts : Accounts) : Prop where
  username : Table.AtMostOne accounts fun a username => a.user.username = username
  tenant : Table.AtMostOne accounts fun a tenant => a.TenantUser tenant

theorem Unique.empty : Unique fun _ => none := by
  constructor
  · intro k id a id' a' ha
    cases ha
  · intro k id a id' a' ha
    cases ha

/-- A user of the request: a server admin belongs to no tenant. -/
theorem UserCreateRequest.Scoped.tenantUser_iff {request : UserCreateRequest} (h : request.Scoped)
    {user : StoredUser} (huser : user.tenant = request.tenant) {tenant : String} :
    Account.TenantUser tenant ⟨user, request.roles⟩ ↔ request.tenant = some tenant := by
  rw [Account.TenantUser, huser, and_iff_left_iff_imp]
  intro htenant hadmin
  cases htenant.symm.trans (h.mpr hadmin)

/-- A new user leaves names and tenants unique exactly when its own are free. -/
theorem Unique.update_iff {accounts : Accounts} (h : Unique accounts) {id : String}
    (hid : accounts id = none) {request : UserCreateRequest} (hscoped : request.Scoped)
    {user : StoredUser} (hname : user.username = request.username)
    (htenant : user.tenant = request.tenant) :
    Unique (Function.update accounts id (some ⟨user, request.roles⟩)) ↔
      accounts.NameFree request.username ∧ accounts.TenantFree request.tenant := by
  have hnames := Table.atMostOne_update_iff (a := ⟨user, request.roles⟩) h.username hid
  have htenants := Table.atMostOne_update_iff (a := ⟨user, request.roles⟩) h.tenant hid
  constructor
  · intro hunique
    refine ⟨fun id' a' ha' => ?_, fun t ht id' a' ha' => ?_⟩
    · exact hnames.mp hunique.username _ hname id' a' ha'
    · exact htenants.mp hunique.tenant t ((hscoped.tenantUser_iff htenant).mpr ht) id' a' ha'
  · rintro ⟨hnameFree, htenantFree⟩
    refine ⟨hnames.mpr ?_, htenants.mpr ?_⟩
    · rintro k rfl id' a' ha'
      rw [hname]
      exact hnameFree id' a' ha'
    · intro t ht id' a' ha'
      exact htenantFree t ((hscoped.tenantUser_iff htenant).mp ht) id' a' ha'

/-- The call has found free what the request is about to take. -/
def Creation.ReliesOn (call : Creation) (request : UserCreateRequest) : Prop :=
  (call.stage = .writeBatch ∧ call.request.username = request.username) ∨
    (call.stage ≠ .tenantScan ∧ ∃ t, call.request.tenant = some t ∧ request.tenant = some t)

/-- What the call has found free still is. -/
structure Creation.Cleared (accounts : Accounts) (call : Creation) : Prop where
  tenant : call.stage ≠ .tenantScan → accounts.TenantFree call.request.tenant
  username : call.stage = .writeBatch → accounts.NameFree call.request.username

namespace Registry

/-- A call is about to write. -/
structure Writes (s : Registry) (a : RegistryEvent) (i : Nat) (draw : Draw)
    (request : UserCreateRequest) : Prop where
  event : a = .advance i draw
  call : s.calls[i]? = some ⟨request, .writeBatch⟩

/-- The id that a call writes is new. -/
def Fresh (libs : AuthLibs) (s : Registry) (a : RegistryEvent) : Prop :=
  ∀ i draw request, s.Writes a i draw request →
    libs.account s.engine (request.newId draw) = none

/-- Both checks would succeed again where a call writes. -/
def Rechecked (libs : AuthLibs) (s : Registry) (a : RegistryEvent) : Prop :=
  ∀ i draw request, s.Writes a i draw request → (∃ user, libs.newUser draw request = .ok user) →
    (libs.account s.engine).NameFree request.username ∧
      (libs.account s.engine).TenantFree request.tenant

/-- No call writes what another one has already found free. -/
def Undisturbed (s : Registry) (a : RegistryEvent) : Prop :=
  ∀ i draw request, s.Writes a i draw request →
    ∀ other ∈ s.calls.eraseIdx i, ¬ other.ReliesOn request

variable {libs : AuthLibs} {s s' : Registry} {a : RegistryEvent} {i : Nat} {draw : Draw}
  {request : UserCreateRequest} {call : Creation}

theorem not_writes_create {draw : Draw} {valid : UserCreateRequest} :
    ¬ s.Writes (.createUser request) i draw valid := fun h => nomatch h.event

theorem not_writes_of_ne {j : Nat} {draw' : Draw} (hi : s.calls[i]? = some call)
    (hstage : call.stage ≠ .writeBatch) : ¬ s.Writes (.advance i draw) j draw' request := by
  rintro ⟨⟨⟩, hcall⟩
  cases hi.symm.trans hcall
  exact hstage rfl

theorem writes_iff {j : Nat} {draw' : Draw} {request' : UserCreateRequest}
    (hi : s.calls[i]? = some ⟨request, .writeBatch⟩) :
    s.Writes (.advance i draw) j draw' request' ↔ j = i ∧ draw' = draw ∧ request' = request := by
  constructor
  · rintro ⟨⟨⟩, hcall⟩
    cases hi.symm.trans hcall
    exact ⟨rfl, rfl, rfl⟩
  · rintro ⟨rfl, rfl, rfl⟩
    exact ⟨rfl, hi⟩

theorem rechecked_of_not (h : ∀ i draw request, ¬ s.Writes a i draw request) :
    s.Rechecked libs a :=
  fun i draw request hw => absurd hw (h i draw request)

/-- The account that a call writes. -/
theorem Sound.account_stored (h : s.Sound libs) {request : UserCreateRequest} {user : StoredUser}
    (huser : libs.newUser draw request = .ok user) :
    libs.account (libs.stored s.engine ⟨user, request.roles⟩) =
      Function.update (libs.account s.engine) (request.newId draw)
        (some ⟨user, request.roles⟩) := by
  rw [(h.keeps.stored _).account, (AuthLibs.newUser_eq_ok huser).1]

theorem unique_step_iff (hsound : s.Sound libs) (hfresh : s.Fresh libs a)
    (h : Unique (libs.account s.engine))
    (hstep : s.Step libs (libs.account s.engine) a s') :
    Unique (libs.account s'.engine) ↔ s.Rechecked libs a := by
  cases hstep with
  | reject => exact iff_of_true h (rechecked_of_not fun _ _ _ => not_writes_create)
  | start hvalid => exact iff_of_true h (rechecked_of_not fun _ _ _ => not_writes_create)
  | noCall hi =>
    refine iff_of_true h (rechecked_of_not ?_)
    rintro j draw request ⟨⟨⟩, hcall⟩
    cases hi.symm.trans hcall
  | tenantFree hi hfree =>
    exact iff_of_true h (rechecked_of_not fun _ _ _ => not_writes_of_ne hi (by simp))
  | nameFree hi hfree =>
    exact iff_of_true h (rechecked_of_not fun _ _ _ => not_writes_of_ne hi (by simp))
  | taken hi hstage =>
    exact iff_of_true h (rechecked_of_not fun _ _ _ => not_writes_of_ne hi hstage)
  | unhashed hi huser =>
    refine iff_of_true h fun j draw request hw => ?_
    obtain ⟨rfl, rfl, rfl⟩ := (writes_iff hi).mp hw
    rintro ⟨user, hok⟩
    cases huser.symm.trans hok
  | write hi huser =>
    obtain ⟨-, hname, htenant⟩ := AuthLibs.newUser_eq_ok huser
    rw [resume_engine, hsound.account_stored huser,
      h.update_iff (hfresh _ _ _ ⟨rfl, hi⟩) (hsound.requests _ (List.mem_of_getElem? hi)) hname
        htenant]
    constructor
    · intro hfree j draw request hw _
      obtain ⟨rfl, rfl, rfl⟩ := (writes_iff hi).mp hw
      exact hfree
    · intro hrechecked
      exact hrechecked _ _ _ ⟨rfl, hi⟩ ⟨_, huser⟩

/-- All calls are cleared. -/
def Clear (libs : AuthLibs) (s : Registry) : Prop :=
  ∀ call ∈ s.calls, call.Cleared (libs.account s.engine)

theorem clear_new (libs : AuthLibs) : new.Clear libs := by
  intro call hcall
  cases hcall

/-- A call that does not rely on what is written stays cleared. -/
theorem cleared_update {accounts : Accounts} {other : Creation} (h : other.Cleared accounts)
    {request : UserCreateRequest} (hrelies : ¬ other.ReliesOn request) {user : StoredUser}
    (hname : user.username = request.username) (htenant : user.tenant = request.tenant)
    (id : String) :
    other.Cleared (Function.update accounts id (some ⟨user, request.roles⟩)) := by
  constructor
  · intro hstage
    refine (h.tenant hstage).update ?_
    rintro t ht ⟨huser, -⟩
    exact hrelies (Or.inr ⟨hstage, t, ht, htenant.symm.trans huser⟩)
  · intro hstage
    refine (h.username hstage).update ?_
    intro huser
    exact hrelies (Or.inl ⟨hstage, huser.symm.trans hname⟩)

theorem Clear.resume (h : s.Clear libs) {next : Option Creation} (hi : s.calls[i]? = some call)
    (hnext : ∀ call', next = some call' → call'.Cleared (libs.account s.engine)) :
    (s.resume i next).Clear libs :=
  Pool.forall_resume hi h hnext

theorem Clear.step (h : s.Clear libs) (hsound : s.Sound libs) (hok : s.Undisturbed a)
    (hstep : s.Step libs (libs.account s.engine) a s') : s'.Clear libs := by
  cases hstep with
  | reject => exact h
  | start hvalid => exact Pool.forall_concat h ⟨fun hne => absurd rfl hne, fun heq => nomatch heq⟩
  | noCall hi => exact h
  | tenantFree hi hfree =>
    refine h.resume hi ?_
    rintro call ⟨⟩
    exact ⟨fun _ => hfree, fun heq => nomatch heq⟩
  | nameFree hi hfree =>
    refine h.resume hi ?_
    rintro call ⟨⟩
    exact ⟨fun _ => (h _ (List.mem_of_getElem? hi)).tenant (by simp), fun _ => hfree⟩
  | taken hi hstage => exact h.resume hi fun call hcall => nomatch hcall
  | unhashed hi huser => exact h.resume hi fun call hcall => nomatch hcall
  | write hi huser =>
    obtain ⟨-, hname, htenant⟩ := AuthLibs.newUser_eq_ok huser
    intro other hother
    rw [resume_engine, hsound.account_stored huser]
    exact cleared_update (h other (List.mem_of_mem_eraseIdx hother))
      (hok _ _ _ ⟨rfl, hi⟩ other hother) hname htenant _

theorem Clear.rechecked (h : s.Clear libs) : s.Rechecked libs a := by
  intro i draw request hw _
  have hcleared := h _ (List.mem_of_getElem? hw.call)
  exact ⟨hcleared.username rfl, hcleared.tenant (by simp)⟩

end Registry

/-- While every call writes a new id, names and tenants stay unique exactly when both checks would
succeed again at each write. They do when no call writes a name or a tenant that another one has
already found free. -/
theorem users_unique_iff (libs : AuthLibs) (events : List RegistryEvent)
    (hfresh : Throughout (Registry.next libs) (Registry.Fresh libs) .new events) :
    (Throughout (Registry.next libs)
        (fun s a => Unique (libs.account (s.next libs a).engine)) .new events ↔
      Throughout (Registry.next libs) (Registry.Rechecked libs) .new events) ∧
    (Throughout (Registry.next libs) Registry.Undisturbed .new events →
      Throughout (Registry.next libs)
        (fun s a => Unique (libs.account (s.next libs a).engine)) .new events) := by
  have hsound := Registry.sound_new libs
  have hunique : Unique (libs.account Registry.new.engine) := by
    rw [Registry.new, libs.keeps_new.account]
    exact .empty
  have hiff : Throughout (Registry.next libs)
      (fun s a => Unique (libs.account (s.next libs a).engine)) .new events ↔
      Throughout (Registry.next libs) (Registry.Rechecked libs) .new events :=
    Throughout.after_iff_of (I := fun s : Registry => s.Sound libs)
      (P := fun s : Registry => Unique (libs.account s.engine)) hfresh
      (fun s a _ h => h.next a)
      (fun s a hok h hu => Registry.unique_step_iff h hok hu (Registry.step_next h.keeps a))
      hsound hunique
  refine ⟨hiff, fun hok => hiff.mpr ?_⟩
  refine hok.of_invariant (I := fun s => s.Sound libs ∧ s.Clear libs) ?_
    (fun s a h => h.2.rechecked) ⟨hsound, Registry.clear_new libs⟩
  intro s a hundisturbed h
  exact ⟨h.1.next a, h.2.step h.1 hundisturbed (Registry.step_next h.1.keeps a)⟩

/-- Both calls make their checks before one of them writes. -/
def sideBySide (request request' : UserCreateRequest) : List RegistryEvent :=
  [.createUser request, .createUser request', .advance 0 someDraw, .advance 0 someDraw,
    .advance 1 someDraw, .advance 1 someDraw, .advance 0 someDraw, .advance 0 someDraw]

section SideBySide

variable {libs : AuthLibs} {id id' username username' tenant tenant' : String}

theorem checkTenant_new (request : UserCreateRequest) : libs.checkTenant .new request = .ok () :=
  libs.keeps_new.checkTenant_eq_ok.mpr (.empty _)

theorem checkUsername_new (request : UserCreateRequest) :
    libs.checkUsername .new request = .ok () :=
  libs.keeps_new.checkUsername_eq_ok.mpr (.empty _)

/-- Nothing is written before both calls have made their checks. -/
theorem run_checks (libs : AuthLibs) {P : Registry → RegistryEvent → Prop}
    (hother : ∀ s a, (∀ i draw request, ¬ s.Writes a i draw request) → P s a) :
    Throughout (Registry.next libs) P .new ((sideBySide (tenantRequest id username tenant)
      (tenantRequest id' username' tenant')).take 6) ∧
    ((sideBySide (tenantRequest id username tenant) (tenantRequest id' username' tenant')).take
      6).foldl (Registry.next libs) .new =
      ⟨.new, [⟨tenantRequest id username tenant, .writeBatch⟩,
        ⟨tenantRequest id' username' tenant', .writeBatch⟩]⟩ := by
  have hcreate : ∀ s request, P s (.createUser request) :=
    fun s request => hother s _ fun _ _ _ => Registry.not_writes_create
  have hscan : ∀ (s : Registry) (i : Nat) (call : Creation), s.calls[i]? = some call →
      call.stage ≠ .writeBatch → P s (.advance i someDraw) :=
    fun s i call hi hstage => hother s _ fun _ _ _ => Registry.not_writes_of_ne hi hstage
  -- both calls scan the empty engine, so no check can fail
  simp only [sideBySide, List.take_succ_cons, List.take_zero, Throughout, List.foldl_cons,
    List.foldl_nil, Registry.next, Registry.new, validate_tenantRequest, List.nil_append,
    List.cons_append, List.getElem?_cons_zero, List.getElem?_cons_succ, Option.elim,
    Registry.advance, Registry.check, checkTenant_new, checkUsername_new, Registry.resume,
    Pool.resume, List.set_cons_zero, List.set_cons_succ]
  exact ⟨⟨hcreate _ _, hcreate _ _, hscan _ _ _ rfl (by simp), hscan _ _ _ rfl (by simp),
    hscan _ _ _ rfl (by simp), hscan _ _ _ rfl (by simp), trivial⟩, trivial⟩

theorem storeAfter_sideBySide (hplain : libs.Plain) :
    storeAfter libs
      (sideBySide (tenantRequest id username tenant) (tenantRequest id' username' tenant')) =
      libs.stored (libs.stored .new (tenantAccount id username tenant))
        (tenantAccount id' username' tenant') := by
  rw [storeAfter, ← List.take_append_drop 6 (sideBySide _ _), List.foldl_append,
    (run_checks libs (P := fun _ _ => True) fun _ _ _ => trivial).2]
  simp only [sideBySide, List.drop_succ_cons, List.drop_zero, List.foldl_cons, List.foldl_nil,
    next_tenantRequest hplain]

/-- It is the two writes that matter. -/
theorem throughout_sideBySide {P : Registry → RegistryEvent → Prop} (hplain : libs.Plain)
    (hother : ∀ s a, (∀ i draw request, ¬ s.Writes a i draw request) → P s a)
    (hfirst : P ⟨.new, [⟨tenantRequest id username tenant, .writeBatch⟩,
        ⟨tenantRequest id' username' tenant', .writeBatch⟩]⟩ (.advance 0 someDraw))
    (hsecond : P ⟨libs.stored .new (tenantAccount id username tenant),
        [⟨tenantRequest id' username' tenant', .writeBatch⟩]⟩ (.advance 0 someDraw)) :
    Throughout (Registry.next libs) P .new
      (sideBySide (tenantRequest id username tenant) (tenantRequest id' username' tenant')) := by
  obtain ⟨hchecks, hrun⟩ := run_checks libs hother
  rw [← List.take_append_drop 6 (sideBySide _ _), Throughout.append_iff, hrun]
  refine ⟨hchecks, hfirst, ?_, trivial⟩
  rw [next_tenantRequest hplain]
  exact hsecond

theorem fresh_sideBySide (hplain : libs.Plain) (hne : id' ≠ id) :
    Throughout (Registry.next libs) (Registry.Fresh libs) .new
      (sideBySide (tenantRequest id username tenant) (tenantRequest id' username' tenant')) := by
  refine throughout_sideBySide hplain (fun s a hnot i draw request hw => absurd hw (hnot _ _ _))
    ?_ ?_
  · intro i draw request _
    rw [libs.keeps_new.account]
  · intro i draw request hw
    obtain ⟨rfl, rfl, rfl⟩ := (Registry.writes_iff rfl).mp hw
    rw [(libs.keeps_new.stored _).account]
    exact Function.update_of_ne hne _ _

/-- Two calls for different names and tenants do not get into each other's way. -/
theorem undisturbed_sideBySide (hplain : libs.Plain) (hname : username' ≠ username)
    (htenant : tenant' ≠ tenant) :
    Throughout (Registry.next libs) Registry.Undisturbed .new
      (sideBySide (tenantRequest id username tenant) (tenantRequest id' username' tenant')) := by
  refine throughout_sideBySide hplain (fun s a hnot i draw request hw => absurd hw (hnot _ _ _))
    ?_ ?_
  · intro i draw request hw
    obtain ⟨rfl, rfl, rfl⟩ := (Registry.writes_iff rfl).mp hw
    simp [Creation.ReliesOn, tenantRequest, hname, htenant]
  · intro i draw request hw
    obtain ⟨rfl, rfl, rfl⟩ := (Registry.writes_iff rfl).mp hw
    simp

end SideBySide

theorem different_users_unique : ∃ libs : AuthLibs,
    Throughout (Registry.next libs) (fun s a => Unique (libs.account (s.next libs a).engine)) .new
      (sideBySide (tenantRequest "1" "alice" "acme") (tenantRequest "2" "bob" "umbrella")) := by
  obtain ⟨libs, hplain⟩ := AuthLibs.exists_plain
  exact ⟨libs, (users_unique_iff libs _ (fresh_sideBySide hplain (by decide))).2
    (undisturbed_sideBySide hplain (by decide) (by decide))⟩

/-- Two calls for one name and one tenant. -/
def twins : List RegistryEvent :=
  sideBySide (tenantRequest "1" "alice" "acme") (tenantRequest "2" "alice" "acme")

/-- Both users are stored. -/
theorem twins_created : ∃ libs : AuthLibs,
    Throughout (Registry.next libs) (Registry.Fresh libs) .new twins ∧
    libs.account (storeAfter libs twins) "1" = some (tenantAccount "1" "alice" "acme") ∧
    libs.account (storeAfter libs twins) "2" = some (tenantAccount "2" "alice" "acme") ∧
    ¬ Unique (libs.account (storeAfter libs twins)) := by
  obtain ⟨libs, hplain⟩ := AuthLibs.exists_plain
  have hkeeps := (libs.keeps_new.stored (tenantAccount "1" "alice" "acme")).stored
    (tenantAccount "2" "alice" "acme")
  have hfirst : libs.account (storeAfter libs twins) "1" =
      some (tenantAccount "1" "alice" "acme") := by
    rw [twins, storeAfter_sideBySide hplain, hkeeps.account]
    rfl
  have hsecond : libs.account (storeAfter libs twins) "2" =
      some (tenantAccount "2" "alice" "acme") := by
    rw [twins, storeAfter_sideBySide hplain, hkeeps.account]
    rfl
  refine ⟨libs, fresh_sideBySide hplain (by decide), hfirst, hsecond, fun hunique => ?_⟩
  exact absurd (hunique.username _ _ _ _ _ hfirst hsecond rfl rfl) (by decide)

end BashfulDB.Auth

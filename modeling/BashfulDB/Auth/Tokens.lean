import BashfulDB.Api.Error
import BashfulDB.Auth.Uniqueness

/-!
The tokens of the authentication service: what a login issues, and what a verification accepts after
any calls before it. Tokens are signed deterministically, and revoked by their digest.
-/
namespace BashfulDB.Auth

open Clock Storage

/-- `Claims`, with the subject and the times that authorization does not look at. -/
structure TokenClaims extends Claims where
  sub : String
  iat : UInt64
  exp : UInt64

def TokenClaims.isExpired (claims : TokenClaims) (nowSecs : UInt64) : Bool := nowSecs ≥ claims.exp

inductive TokenKind
  | access
  | refresh
  deriving DecidableEq, Repr

structure JwtClaims extends TokenClaims where
  tokenKind : TokenKind

structure Credentials where
  username : String
  password : String

structure TokenPair where
  accessToken : String
  refreshToken : String
  accessTtl : UInt64
  refreshTtl : UInt64

/-- The signer, with the functions of `jsonwebtoken` under its key. -/
structure Signer where
  jwtEncode : JwtClaims → Except String String
  jwtDecode : String → Except String JwtClaims
  decode_encode : ∀ claims token, jwtEncode claims = .ok token → jwtDecode token = .ok claims

def Signer.encode (signer : Signer) (claims : JwtClaims) : Except AuthError String :=
  (signer.jwtEncode claims).mapError .invalidToken

def Signer.decode (signer : Signer) (token : String) : Except AuthError JwtClaims :=
  (signer.jwtDecode token).mapError .invalidToken

/-- The parts of an `AuthService` that do not change; the lifetimes are in seconds. -/
structure AuthService where
  libs : AuthLibs
  signer : Signer
  tokenDigest : String → String
  accessTtl : UInt64
  refreshTtl : UInt64

/-- The storage, and the digests of the revoked tokens. -/
structure AuthState where
  engine : MemEngine
  revoked : List String

/-- What the clock answers. -/
abbrev Tick := Except ClockError Hlc

def nowSecs : Tick → Except AuthError UInt64
  | .ok hlc => .ok (hlc.physicalMs / 1000)
  | .error err => .error (.internal ("clock error: " ++ Api.displayClockError err))

def saturatingAdd (a b : UInt64) : UInt64 :=
  if a.toNat + b.toNat < 2 ^ 64 then a + b else UInt64.ofNat (2 ^ 64 - 1)

namespace AuthService

variable (service : AuthService)

def issueTokenPair (tick : Tick) (claims : TokenClaims) : Except AuthError TokenPair := do
  let now ← nowSecs tick
  let accessToken ← service.signer.encode
    { claims with iat := now, exp := saturatingAdd now service.accessTtl, tokenKind := .access }
  let refreshToken ← service.signer.encode
    { claims with iat := now, exp := saturatingAdd now service.refreshTtl, tokenKind := .refresh }
  .ok ⟨accessToken, refreshToken, service.accessTtl, service.refreshTtl⟩

def checkRevoked (s : AuthState) (token : String) : Except AuthError Unit :=
  if service.tokenDigest token ∈ s.revoked then .error .tokenRevoked else .ok ()

def revoke (s : AuthState) (token : String) : AuthState :=
  { s with revoked := service.tokenDigest token :: s.revoked }

def decodeToken (s : AuthState) (tick : Tick) (token : String) (expected : TokenKind) :
    Except AuthError TokenClaims := do
  service.checkRevoked s token
  -- `validate_exp` is off: it is not the library that looks at the time
  let decoded ← service.signer.decode token
  if decoded.tokenKind ≠ expected then .error (.invalidToken "unexpected token kind")
  else do
    let now ← nowSecs tick
    if decoded.toTokenClaims.isExpired now then .error .tokenExpired else .ok decoded.toTokenClaims

/-- The ticks of a call are given in their order. -/
def login (s : AuthState) (ticks : Nat → Tick) (credentials : Credentials) :
    Except AuthError TokenPair := do
  match ← service.libs.findUserByUsername s.engine credentials.username with
  | none => .error .invalidCredentials
  | some user =>
    if !service.libs.verifyPassword credentials.password user.passwordHash then
      .error .invalidCredentials
    else do
      let roles ← service.libs.getRoles s.engine user.userId
      let now ← nowSecs (ticks 0)
      service.issueTokenPair (ticks 1) ⟨⟨user.tenant, roles⟩, user.userId, now, now⟩

def refresh (s : AuthState) (ticks : Nat → Tick) (refreshToken : String) :
    Except AuthError TokenPair := do
  let claims ← service.decodeToken s (ticks 0) refreshToken .refresh
  match ← service.libs.findUserById s.engine claims.sub with
  | none => .error (.userNotFound claims.sub)
  | some user => do
    let roles ← service.libs.getRoles s.engine user.userId
    let iat ← nowSecs (ticks 1)
    let exp ← nowSecs (ticks 2)
    service.issueTokenPair (ticks 3) ⟨⟨user.tenant, roles⟩, user.userId, iat, exp⟩

def verify (s : AuthState) (tick : Tick) (accessToken : String) : Except AuthError TokenClaims :=
  service.decodeToken s tick accessToken .access

def logout (s : AuthState) (accessToken : String) : Except AuthError Unit × AuthState :=
  (.ok (), service.revoke s accessToken)

end AuthService

/-- A call of the service, with what it draws and the ticks that it takes. -/
inductive AuthCall
  | createUser (draw : Draw) (request : UserCreateRequest)
  | login (ticks : Nat → Tick) (credentials : Credentials)
  | refresh (ticks : Nat → Tick) (refreshToken : String)
  | verify (tick : Tick) (accessToken : String)
  | logout (accessToken : String)

/-- The tick that dates the tokens. -/
def AuthCall.issueTick : AuthCall → Option Tick
  | .login ticks _ => some (ticks 1)
  | .refresh ticks _ => some (ticks 3)
  | _ => none

namespace AuthService

variable {service : AuthService} {s : AuthState} {tick : Tick} {token : String}

/-- Only a creation and a logout change anything. -/
def next (service : AuthService) (s : AuthState) : AuthCall → AuthState
  | .createUser draw request =>
    { s with engine := (service.libs.createUser draw request s.engine).2 }
  | .logout accessToken => (service.logout s accessToken).2
  | .login _ _ | .refresh _ _ | .verify _ _ => s

/-- The service is new, on the storage that it finds; revocations are not stored. -/
def after (service : AuthService) (e : MemEngine) (calls : List AuthCall) : AuthState :=
  calls.foldl service.next ⟨e, []⟩

/-- The tokens that a call returns. -/
def issued (service : AuthService) (s : AuthState) : AuthCall → Option (Except AuthError TokenPair)
  | .login ticks credentials => some (service.login s ticks credentials)
  | .refresh ticks refreshToken => some (service.refresh s ticks refreshToken)
  | _ => none

/-- What is signed as the access token of a pair. -/
theorem issueTokenPair_eq_ok {claims : TokenClaims} {pair : TokenPair}
    (h : service.issueTokenPair tick claims = .ok pair) :
    ∃ now, nowSecs tick = .ok now ∧ service.signer.jwtDecode pair.accessToken =
      .ok { claims with
        iat := now, exp := saturatingAdd now service.accessTtl, tokenKind := .access } := by
  obtain ⟨now, hnow, h⟩ := Except.bind_eq_ok.mp h
  obtain ⟨accessToken, haccess, h⟩ := Except.bind_eq_ok.mp h
  obtain ⟨refreshToken, -, h⟩ := Except.bind_eq_ok.mp h
  cases h
  refine ⟨now, hnow, ?_⟩
  exact service.signer.decode_encode _ _ (Except.mapError_eq_ok.mp haccess)

/-- A login signs for the user with the name, with the roles that are stored then. -/
theorem login_access {ticks : Nat → Tick} {credentials : Credentials} {pair : TokenPair}
    (h : service.login s ticks credentials = .ok pair) :
    ∃ user roles now,
      service.libs.findUserByUsername s.engine credentials.username = .ok (some user) ∧
      service.libs.getRoles s.engine user.userId = .ok roles ∧ nowSecs (ticks 1) = .ok now ∧
      service.signer.jwtDecode pair.accessToken = .ok ⟨⟨⟨user.tenant, roles⟩, user.userId, now,
        saturatingAdd now service.accessTtl⟩, .access⟩ := by
  obtain ⟨found, hfind, h⟩ := Except.bind_eq_ok.mp h
  cases found with
  | none => cases h
  | some user =>
    simp only at h
    split at h
    · cases h
    · obtain ⟨roles, hroles, h⟩ := Except.bind_eq_ok.mp h
      obtain ⟨at0, -, h⟩ := Except.bind_eq_ok.mp h
      obtain ⟨now, hnow, hdecode⟩ := issueTokenPair_eq_ok h
      exact ⟨user, roles, now, hfind, hroles, hnow, hdecode⟩

/-- The access token that a call returns is one, and expires in its time. -/
theorem issued_access {call : AuthCall} {pair : TokenPair}
    (h : service.issued s call = some (.ok pair)) :
    ∃ tick now claims, call.issueTick = some tick ∧ nowSecs tick = .ok now ∧
      service.signer.jwtDecode pair.accessToken = .ok claims ∧ claims.tokenKind = .access ∧
      claims.exp = saturatingAdd now service.accessTtl := by
  cases call with
  | login ticks credentials =>
    obtain ⟨user, roles, now, -, -, hnow, hdecode⟩ := login_access (Option.some.inj h)
    exact ⟨_, now, _, rfl, hnow, hdecode, rfl, rfl⟩
  | refresh ticks refreshToken =>
    obtain ⟨claims, -, h⟩ := Except.bind_eq_ok.mp (Option.some.inj h)
    obtain ⟨found, -, h⟩ := Except.bind_eq_ok.mp h
    cases found with
    | none => cases h
    | some user =>
      obtain ⟨roles, -, h⟩ := Except.bind_eq_ok.mp h
      obtain ⟨iat, -, h⟩ := Except.bind_eq_ok.mp h
      obtain ⟨exp, -, h⟩ := Except.bind_eq_ok.mp h
      obtain ⟨now, hnow, hdecode⟩ := issueTokenPair_eq_ok h
      exact ⟨_, now, _, rfl, hnow, hdecode, rfl, rfl⟩
  | createUser draw request => cases h
  | verify tick token => cases h
  | logout token => cases h

/-- What a login signs. -/
theorem login_eq {accounts : Accounts} {a : Account} {ticks : Nat → Tick}
    {credentials : Credentials} {now : UInt64} (h : service.libs.Keeps s.engine accounts)
    (hfind : service.libs.findUserByUsername s.engine credentials.username = .ok (some a.user))
    (ha : accounts a.user.userId = some a)
    (hverify : service.libs.verifyPassword credentials.password a.user.passwordHash = true)
    (hnow : nowSecs (ticks 0) = .ok now) :
    service.login s ticks credentials =
      service.issueTokenPair (ticks 1) ⟨⟨a.user.tenant, a.roles⟩, a.user.userId, now, now⟩ := by
  rw [login, hfind, Except.ok_bind]
  simp only [hverify, h.getRoles ha, hnow, Except.ok_bind]
  rfl

theorem mem_revoked_next {call : AuthCall} {digest : String} :
    digest ∈ (service.next s call).revoked ↔
      digest ∈ s.revoked ∨ ∃ token, call = .logout token ∧ service.tokenDigest token = digest := by
  cases call with
  | logout accessToken =>
    rw [next, logout, revoke, List.mem_cons, or_comm]
    simp [eq_comm]
  | _ => simp [next]

/-- A digest is revoked by the logouts alone, and for good. -/
theorem mem_revoked_foldl {calls : List AuthCall} {digest : String} :
    digest ∈ (calls.foldl service.next s).revoked ↔
      digest ∈ s.revoked ∨
        ∃ token, .logout token ∈ calls ∧ service.tokenDigest token = digest := by
  induction calls generalizing s with
  | nil => simp
  | cons call calls ih =>
    rw [List.foldl_cons, ih, mem_revoked_next, or_assoc]
    refine or_congr_right ?_
    constructor
    · rintro (⟨token, rfl, hdigest⟩ | ⟨token, hmem, hdigest⟩)
      · exact ⟨token, List.mem_cons_self, hdigest⟩
      · exact ⟨token, List.mem_cons_of_mem _ hmem, hdigest⟩
    · rintro ⟨token, hmem, hdigest⟩
      rcases List.mem_cons.mp hmem with heq | hmem
      · exact Or.inl ⟨token, heq.symm, hdigest⟩
      · exact Or.inr ⟨token, hmem, hdigest⟩

theorem mem_revoked_after {e : MemEngine} {calls : List AuthCall} {digest : String} :
    digest ∈ (service.after e calls).revoked ↔
      ∃ token, .logout token ∈ calls ∧ service.tokenDigest token = digest := by
  rw [after, mem_revoked_foldl]
  simp

/-- An access token is accepted in its time, unless it is revoked. -/
theorem verify_eq {claims : JwtClaims} {now : UInt64}
    (hdecode : service.signer.jwtDecode token = .ok claims) (hkind : claims.tokenKind = .access)
    (hnow : nowSecs tick = .ok now) (hexp : now < claims.exp) :
    service.verify s tick token =
      if service.tokenDigest token ∈ s.revoked then .error .tokenRevoked
      else .ok claims.toTokenClaims := by
  have hexpired : claims.toTokenClaims.isExpired now = false := by
    rw [TokenClaims.isExpired, decide_eq_false_iff_not]
    exact UInt64.not_le.mpr hexp
  rw [verify, decodeToken, checkRevoked]
  by_cases hrevoked : service.tokenDigest token ∈ s.revoked
  · rw [if_pos hrevoked, if_pos hrevoked]
    rfl
  · rw [if_neg hrevoked, if_neg hrevoked, Except.ok_bind, Signer.decode, hdecode]
    simp [Except.mapError, hkind, hnow, hexpired]

/-- The tick falls before the second in which the access token of the call expires. -/
def Timely (service : AuthService) (call : AuthCall) (tick : Tick) : Prop :=
  ∃ issueTick issuedAt now, call.issueTick = some issueTick ∧ nowSecs issueTick = .ok issuedAt ∧
    nowSecs tick = .ok now ∧ now < saturatingAdd issuedAt service.accessTtl

theorem lt_saturatingAdd {now ttl : UInt64} (hnow : now.toNat < 2 ^ 64 - 1) (httl : 1 ≤ ttl) :
    now < saturatingAdd now ttl := by
  have hone : 1 ≤ ttl.toNat := UInt64.le_iff_toNat_le.mp httl
  rw [UInt64.lt_iff_toNat_lt, saturatingAdd]
  split
  · rename_i hsum
    rw [UInt64.toNat_add, Nat.mod_eq_of_lt hsum]
    omega
  · exact hnow

/-- With a lifetime of a second or more, the second of the issue is in time. -/
theorem timely_of_same {call : AuthCall} {hlc : Hlc} (hissue : call.issueTick = some (.ok hlc))
    (httl : 1 ≤ service.accessTtl) : service.Timely call (.ok hlc) := by
  refine ⟨_, _, _, hissue, rfl, rfl, lt_saturatingAdd ?_ httl⟩
  have hphysical := hlc.physicalMs_lt
  rw [UInt64.toNat_div]
  exact Nat.lt_of_le_of_lt (Nat.div_le_self _ _) (by omega)

/-- From its issue until it expires, whether an access token is accepted is a matter of the
revocations alone. -/
theorem verify_issued {call : AuthCall} {pair : TokenPair}
    (hissued : service.issued s call = some (.ok pair)) (htimely : service.Timely call tick) :
    ∃ claims, ∀ s' : AuthState, service.verify s' tick pair.accessToken =
      if service.tokenDigest pair.accessToken ∈ s'.revoked then .error .tokenRevoked
      else .ok claims := by
  obtain ⟨issueTick, issuedAt, claims, hissue, hissuedAt, hdecode, hkind, hexp⟩ :=
    issued_access hissued
  obtain ⟨issueTick', issuedAt', now, hissue', hissuedAt', hnow, hlt⟩ := htimely
  cases hissue.symm.trans hissue'
  cases hissuedAt.symm.trans hissuedAt'
  exact ⟨claims.toTokenClaims, fun s' => verify_eq hdecode hkind hnow (hexp ▸ hlt)⟩

/-- A call that returns tokens is no logout. -/
theorem ne_logout_of_issued {call : AuthCall} {pair : TokenPair}
    (h : service.issued s call = some (.ok pair)) (token : String) : call ≠ .logout token := by
  rintro rfl
  cases h

/-- When no logout follows a call that returns tokens, the revocations are those before it. -/
theorem mem_revoked_before {e : MemEngine} {before between : List AuthCall} {call : AuthCall}
    {pair : TokenPair} {digest : String}
    (hissued : service.issued (service.after e before) call = some (.ok pair))
    (hlogout : ∀ token, .logout token ∉ between) :
    digest ∈ (service.after e (before ++ call :: between)).revoked ↔
      ∃ token, .logout token ∈ before ∧ service.tokenDigest token = digest := by
  rw [mem_revoked_after]
  constructor
  · rintro ⟨token, hmem, hdigest⟩
    refine ⟨token, ?_, hdigest⟩
    rcases List.mem_append.mp hmem with hmem | hmem
    · exact hmem
    · rcases List.mem_cons.mp hmem with heq | hmem
      · exact absurd heq.symm (ne_logout_of_issued hissued token)
      · exact absurd hmem (hlogout token)
  · rintro ⟨token, hmem, hdigest⟩
    exact ⟨token, List.mem_append_left _ hmem, hdigest⟩

/-- The access token of a login is accepted until it expires or is logged out, if no token that was
logged out before was issued to the same user, with the same roles, in the same second. -/
theorem login_accepted {e : MemEngine} {before between : List AuthCall} {ticks : Nat → Tick}
    {credentials : Credentials} {pair : TokenPair} {user : StoredUser}
    (hdigest : Function.Injective service.tokenDigest)
    (hlogin : service.login (service.after e before) ticks credentials = .ok pair)
    (hfind : service.libs.findUserByUsername (service.after e before).engine
      credentials.username = .ok (some user))
    (hlogout : ∀ token, .logout token ∉ between)
    (htimely : service.Timely (.login ticks credentials) tick)
    (hnew : ∀ token claims, .logout token ∈ before → service.signer.jwtDecode token = .ok claims →
      claims.sub = user.userId →
      service.libs.getRoles (service.after e before).engine user.userId = .ok claims.roles →
        nowSecs (ticks 1) ≠ .ok claims.iat) :
    ∃ claims, service.verify (service.after e (before ++ .login ticks credentials :: between)) tick
      pair.accessToken = .ok claims := by
  have hissued : service.issued (service.after e before) (.login ticks credentials) =
      some (.ok pair) := congrArg some hlogin
  obtain ⟨claims, hverify⟩ := verify_issued hissued htimely
  refine ⟨claims, (hverify _).trans (if_neg fun hrevoked => ?_)⟩
  obtain ⟨token, htoken, heq⟩ := (mem_revoked_before hissued hlogout).mp hrevoked
  -- the token would be the one that was logged out, and say the same
  obtain rfl := hdigest heq
  obtain ⟨user', roles, now, hfind', hroles, hnow, hdecode⟩ := login_access hlogin
  cases hfind'.symm.trans hfind
  exact hnew _ _ htoken hdecode rfl hroles hnow

end AuthService

/-- An access token that a login or a refresh has returned is accepted, when no logout follows and
it has not expired, exactly when no token of the same digest was logged out before. -/
theorem fresh_token_accepted_iff (service : AuthService) (e : MemEngine)
    (before between : List AuthCall) (call : AuthCall) (pair : TokenPair) (tick : Tick)
    (hissued : service.issued (service.after e before) call = some (.ok pair))
    (hlogout : ∀ token, .logout token ∉ between) (htimely : service.Timely call tick) :
    (∃ claims, service.verify (service.after e (before ++ call :: between)) tick
      pair.accessToken = .ok claims) ↔
      ∀ token, .logout token ∈ before →
        service.tokenDigest token ≠ service.tokenDigest pair.accessToken := by
  obtain ⟨claims, hverify⟩ := AuthService.verify_issued hissued htimely
  rw [hverify]
  constructor
  · rintro ⟨accepted, haccepted⟩ token htoken hdigest
    have hrevoked := (AuthService.mem_revoked_before hissued hlogout).mpr ⟨token, htoken, hdigest⟩
    rw [if_pos hrevoked] at haccepted
    cases haccepted
  · intro hbefore
    refine ⟨claims, if_neg fun hrevoked => ?_⟩
    obtain ⟨token, htoken, hdigest⟩ :=
      (AuthService.mem_revoked_before hissued hlogout).mp hrevoked
    exact hbefore token htoken hdigest

/-- The service with its default lifetimes. -/
def defaultService (libs : AuthLibs) (signer : Signer) : AuthService :=
  ⟨libs, signer, id, 3600, 172800⟩

/-- Every token can be signed. -/
def Signer.Total (signer : Signer) : Prop := ∀ claims, ∃ token, signer.jwtEncode claims = .ok token

theorem exists_signer : ∃ signer : Signer, signer.Total := by
  have hkind : Countable TokenKind :=
    Function.Injective.countable (f := TokenKind.ctorIdx) (by
      rintro ⟨⟩ ⟨⟩ h <;> first | rfl | cases h)
  have hclaims : Countable JwtClaims :=
    Function.Injective.countable (f := fun claims => (claims.tenant, claims.roles, claims.sub,
      claims.iat, claims.exp, claims.tokenKind)) (by
        rintro ⟨⟨⟨_, _⟩, _, _, _⟩, _⟩ ⟨⟨⟨_, _⟩, _, _, _⟩, _⟩ h
        simpa [and_assoc] using h)
  obtain ⟨write, read, hread⟩ := @Codec.exists_codec JwtClaims String hclaims
    ⟨⟨⟨⟨none, []⟩, "", 0, 0⟩, .access⟩⟩ inferInstance
  refine ⟨⟨fun claims => .ok (write claims), read, ?_⟩, fun claims => ⟨write claims, rfl⟩⟩
  rintro claims token ⟨⟩
  exact hread claims

theorem AuthService.exists_pair {service : AuthService} {tick : Tick} {now : UInt64}
    (htotal : service.signer.Total) (hnow : nowSecs tick = .ok now) (claims : TokenClaims) :
    ∃ pair, service.issueTokenPair tick claims = .ok pair := by
  obtain ⟨accessToken, haccess⟩ := htotal
    { claims with iat := now, exp := saturatingAdd now service.accessTtl, tokenKind := .access }
  obtain ⟨refreshToken, hrefresh⟩ := htotal
    { claims with iat := now, exp := saturatingAdd now service.refreshTtl, tokenKind := .refresh }
  refine ⟨⟨accessToken, refreshToken, service.accessTtl, service.refreshTtl⟩, ?_⟩
  rw [issueTokenPair, hnow, Except.ok_bind, Signer.encode, haccess, Signer.encode, hrefresh]
  rfl

section Alice

variable {libs : AuthLibs} {signer : Signer}

def alice : Account := tenantAccount "1" "alice" "acme"

/-- Everything happens in the first second. -/
def atZero : Nat → Tick := fun _ => .ok .zero

def createAlice : AuthCall := .createUser someDraw (tenantRequest "1" "alice" "acme")

def loginAlice : AuthCall := .login atZero ⟨"alice", "password"⟩

theorem findUserByUsername_alice (libs : AuthLibs) :
    libs.findUserByUsername (libs.stored .new alice) "alice" = .ok (some alice.user) := by
  rcases (libs.keeps_new.stored alice).findUserByUsername "alice" with
    ⟨-, hfree⟩ | ⟨id, a, hfind, ha, -⟩
  · exact absurd rfl (hfree "1" alice (Function.update_self ..))
  · rcases Table.update_eq_some.mp ha with ⟨-, rfl⟩ | ⟨-, hnone⟩
    · exact hfind
    · cases hnone

/-- A login goes by what is stored alone. -/
theorem issued_loginAlice (hplain : libs.Plain) (htotal : signer.Total) : ∃ pair, ∀ revoked,
    (defaultService libs signer).issued ⟨libs.stored .new alice, revoked⟩ loginAlice =
      some (.ok pair) := by
  have hnow : nowSecs (atZero 0) = .ok 0 := rfl
  have hverify : libs.verifyPassword "password" alice.user.passwordHash = true := by
    rw [hplain.verify]
    rfl
  obtain ⟨pair, hpair⟩ : ∃ pair, (defaultService libs signer).issueTokenPair (atZero 1)
      ⟨⟨alice.user.tenant, alice.roles⟩, alice.user.userId, 0, 0⟩ = .ok pair :=
    AuthService.exists_pair htotal hnow _
  refine ⟨pair, fun revoked => ?_⟩
  rw [← hpair]
  exact congrArg some (AuthService.login_eq (libs.keeps_new.stored alice)
    (findUserByUsername_alice libs) (Function.update_self ..) hverify hnow)

theorem after_createAlice (hplain : libs.Plain) :
    (defaultService libs signer).after .new [createAlice] = ⟨libs.stored .new alice, []⟩ := by
  have hcreate : libs.createUser someDraw (tenantRequest "1" "alice" "acme") .new =
      (.ok "1", libs.stored .new alice) :=
    createUser_tenantRequest libs.keeps_new hplain (.empty _) (.empty _)
  exact congrArg (fun created => AuthState.mk created.2 []) hcreate

theorem after_logout (hplain : libs.Plain) (token : String) :
    (defaultService libs signer).after .new [createAlice, loginAlice, .logout token] =
      ⟨libs.stored .new alice, [token]⟩ := by
  have hrevoke : (defaultService libs signer).after .new [createAlice, loginAlice, .logout token] =
      (defaultService libs signer).revoke
        ((defaultService libs signer).after .new [createAlice]) token := rfl
  rw [hrevoke, after_createAlice hplain]
  rfl

theorem lifetime_default (libs : AuthLibs) (signer : Signer) :
    1 ≤ (defaultService libs signer).accessTtl :=
  show (1 : UInt64) ≤ 3600 by decide

theorem timely_loginAlice (libs : AuthLibs) (signer : Signer) :
    (defaultService libs signer).Timely loginAlice (.ok .zero) :=
  AuthService.timely_of_same rfl (lifetime_default libs signer)

end Alice

theorem first_login_accepted : ∃ (service : AuthService) (pair : TokenPair) (claims : TokenClaims),
    1 ≤ service.accessTtl ∧
    service.issued (service.after .new [createAlice]) loginAlice = some (.ok pair) ∧
    service.verify (service.after .new [createAlice, loginAlice]) (.ok .zero) pair.accessToken =
      .ok claims := by
  obtain ⟨libs, hplain⟩ := AuthLibs.exists_plain
  obtain ⟨signer, htotal⟩ := exists_signer
  obtain ⟨pair, hpair⟩ := issued_loginAlice hplain htotal
  have hissued : (defaultService libs signer).issued
      ((defaultService libs signer).after .new [createAlice]) loginAlice = some (.ok pair) := by
    rw [after_createAlice hplain]
    exact hpair []
  obtain ⟨claims, hverify⟩ := (fresh_token_accepted_iff (defaultService libs signer) .new
    [createAlice] [] loginAlice pair (.ok .zero) hissued (fun token => List.not_mem_nil)
    (timely_loginAlice libs signer)).mpr fun token htoken => nomatch List.mem_singleton.mp htoken
  exact ⟨_, pair, claims, lifetime_default libs signer, hissued, hverify⟩

/-- A second login in the same second returns the token that was logged out. -/
theorem second_login_revoked : ∃ (service : AuthService) (pair : TokenPair),
    1 ≤ service.accessTtl ∧
    service.issued (service.after .new [createAlice]) loginAlice = some (.ok pair) ∧
    service.issued (service.after .new [createAlice, loginAlice, .logout pair.accessToken])
      loginAlice = some (.ok pair) ∧
    service.Timely loginAlice (.ok .zero) ∧
    service.verify
      (service.after .new [createAlice, loginAlice, .logout pair.accessToken, loginAlice])
      (.ok .zero) pair.accessToken = .error .tokenRevoked := by
  obtain ⟨libs, hplain⟩ := AuthLibs.exists_plain
  obtain ⟨signer, htotal⟩ := exists_signer
  obtain ⟨pair, hpair⟩ := issued_loginAlice hplain htotal
  have htimely := timely_loginAlice libs signer
  refine ⟨defaultService libs signer, pair, lifetime_default libs signer, ?_, ?_, htimely, ?_⟩
  · rw [after_createAlice hplain]
    exact hpair []
  · rw [after_logout hplain]
    exact hpair _
  · obtain ⟨claims, hverify⟩ := AuthService.verify_issued (hpair []) htimely
    rw [hverify, if_pos]
    exact AuthService.mem_revoked_after.mpr ⟨pair.accessToken, by simp, rfl⟩

end BashfulDB.Auth

import BashfulDB.Auth.Tokens
import Mathlib.Data.List.DropRight

/-!
The sessions of a deployment over its restarts, in the mode `Hs256`, where tokens are signed with
the secret of the configuration. Every token that is accepted goes back, by the refreshes in
between, to a password.
-/
namespace BashfulDB.Auth

open Clock Storage

/-- The storage, and the revocations of the service if one is running. -/
structure Deployment where
  engine : MemEngine
  revoked : Option (List String)

def Deployment.state (d : Deployment) : Option AuthState := d.revoked.map (⟨d.engine, ·⟩)

/-- A service is started in the place of the one before, or the one that is running is called. -/
inductive Happening
  | start (draw : Draw) (bootstrapAdminPassword : Option String)
  | call (call : AuthCall)

namespace Happening

def isStart : Happening → Bool
  | start _ _ => true
  | call _ => false

/-- The second that dates the tokens. -/
def issuedAt : Happening → Option UInt64
  | start _ _ => none
  | call c => c.issueTick.bind fun tick => (nowSecs tick).toOption

/-- The token that has to decode for the call to succeed. -/
def presented : Happening → Option String
  | call (.refresh _ token) | call (.verify _ token) => some token
  | _ => none

end Happening

namespace AuthService

variable (service : AuthService)

/-- `AuthService::new` with the same configuration at every start. Its mode is `Hs256`, so that
`Signer::new` returns the same signer each time; in the mode `Rs256` it draws a key pair. -/
def new (draw : Draw) (bootstrapAdminPassword : Option String) (e : MemEngine) : Deployment :=
  let (started, e) := service.libs.bootstrapIfNeeded draw bootstrapAdminPassword e
  ⟨e, match started with
    | .ok () => some []
    | .error _ => none⟩

def follow (d : Deployment) : Happening → Deployment
  | .start draw password => service.new draw password d.engine
  | .call c =>
    match d.state with
    | none => d
    | some s => ⟨(service.next s c).engine, some (service.next s c).revoked⟩

def deployment (e : MemEngine) (run : List Happening) : Deployment :=
  run.foldl service.follow ⟨e, none⟩

variable (e : MemEngine)

/-- The next happening returns the pair to its caller. -/
def Returns (before : List Happening) (next : Happening) (pair : TokenPair) : Prop :=
  ∃ s c, (service.deployment e before).state = some s ∧ next = .call c ∧
    service.issued s c = some (.ok pair)

/-- The service has handed out the token. -/
def Handed (run : List Happening) (token : String) : Prop :=
  ∃ before next after pair, run = before ++ next :: after ∧ service.Returns e before next pair ∧
    (token = pair.accessToken ∨ token = pair.refreshToken)

/-- No one else signs: whatever token decodes when it is presented was handed out before. -/
def Unforged (run : List Happening) : Prop :=
  ∀ before next after token claims, run = before ++ next :: after →
    next.presented = some token → service.signer.jwtDecode token = .ok claims →
    service.Handed e before token

/-- At their end the happenings return the pair to a user: for the password, or for the refresh
token of a pair that was returned to them, while it is accepted. -/
inductive Session : List Happening → TokenPair → String → Prop
  | login {before : List Happening} {s : AuthState} {ticks : Nat → Tick}
      {credentials : Credentials} {a : Account} {pair : TokenPair} :
      (service.deployment e before).state = some s →
      service.libs.findUserByUsername s.engine credentials.username = .ok (some a.user) →
      service.libs.account s.engine a.user.userId = some a →
      service.libs.verifyPassword credentials.password a.user.passwordHash = true →
      service.login s ticks credentials = .ok pair →
      Session (before ++ [.call (.login ticks credentials)]) pair a.user.userId
  | refresh {earlier between : List Happening} {s : AuthState} {ticks : Nat → Tick}
      {previous pair : TokenPair} {id : String} :
      Session earlier previous id →
      (service.deployment e (earlier ++ between)).state = some s →
      service.refresh s ticks previous.refreshToken = .ok pair →
      Session (earlier ++ between ++ [.call (.refresh ticks previous.refreshToken)]) pair id

variable {service e} {run : List Happening} {d : Deployment} {s : AuthState}

theorem deployment_concat (run : List Happening) (next : Happening) :
    service.deployment e (run ++ [next]) = service.follow (service.deployment e run) next := by
  simp [deployment]

theorem follow_call (h : d.state = some s) (c : AuthCall) :
    service.follow d (.call c) =
      ⟨(service.next s c).engine, some (service.next s c).revoked⟩ := by
  simp only [follow, h]

theorem follow_down (h : d.state = none) (c : AuthCall) : service.follow d (.call c) = d := by
  simp only [follow, h]

/-- The start of a service changes nothing, or adds a first account. -/
theorem engine_new {accounts : Accounts} (h : service.libs.Keeps d.engine accounts) (draw : Draw)
    (password : Option String) :
    (service.new draw password d.engine).engine = d.engine ∨
      ∃ a, (service.new draw password d.engine).engine = service.libs.stored d.engine a := by
  obtain ⟨found, hscan, -⟩ := h.anyUserExists
  simp only [new, AuthLibs.bootstrapIfNeeded, hscan]
  cases found with
  | true => exact .inl rfl
  | false =>
    cases password with
    | none => exact .inl rfl
    | some password =>
      rcases h.createUser_cases draw
          ⟨some AuthLibs.bootstrapAdminUser, AuthLibs.bootstrapAdminUser, none, password,
            [.serverAdmin]⟩ with ⟨err, hcreate⟩ | ⟨valid, user, -, -, -, -, hcreate⟩
      · exact .inl (congrArg Prod.snd hcreate)
      · exact .inr ⟨_, congrArg Prod.snd hcreate⟩

theorem engine_next {accounts : Accounts} (h : service.libs.Keeps s.engine accounts)
    (call : AuthCall) :
    (service.next s call).engine = s.engine ∨
      ∃ a, (service.next s call).engine = service.libs.stored s.engine a := by
  cases call with
  | createUser draw request =>
    rcases h.createUser_cases draw request with ⟨err, hcreate⟩ | ⟨valid, user, -, -, -, -, hcreate⟩
    · exact .inl (congrArg Prod.snd hcreate)
    · exact .inr ⟨_, congrArg Prod.snd hcreate⟩
  | login ticks credentials => exact .inl rfl
  | refresh ticks token => exact .inl rfl
  | verify tick token => exact .inl rfl
  | logout token => exact .inl rfl

theorem engine_of_state (h : d.state = some s) : d.engine = s.engine := by
  obtain ⟨revoked, -, rfl⟩ := Option.map_eq_some_iff.mp h
  rfl

theorem keeps_follow (h : ∃ accounts, service.libs.Keeps d.engine accounts) (next : Happening) :
    ∃ accounts, service.libs.Keeps (service.follow d next).engine accounts := by
  obtain ⟨accounts, hkeeps⟩ := h
  cases next with
  | start draw password =>
    rcases engine_new hkeeps draw password with hsame | ⟨a, hstored⟩
    · exact ⟨accounts, (show _ = d.engine from hsame) ▸ hkeeps⟩
    · exact ⟨_, (show _ = service.libs.stored d.engine a from hstored) ▸ hkeeps.stored a⟩
  | call c =>
    cases hstate : d.state with
    | none => exact ⟨accounts, (follow_down hstate c).symm ▸ hkeeps⟩
    | some s =>
      rw [follow_call hstate]
      rw [engine_of_state hstate] at hkeeps
      rcases engine_next hkeeps c with hsame | ⟨a, hstored⟩
      · exact ⟨accounts, hsame.symm ▸ hkeeps⟩
      · exact ⟨_, hstored.symm ▸ hkeeps.stored a⟩

/-- The storage keeps accounts all along. -/
theorem keeps_deployment (he : ∃ accounts, service.libs.Keeps e accounts)
    (run : List Happening) :
    service.libs.Keeps (service.deployment e run).engine
      (service.libs.account (service.deployment e run).engine) := by
  obtain ⟨accounts, hkeeps⟩ :
      ∃ accounts, service.libs.Keeps (service.deployment e run).engine accounts := by
    induction run using List.reverseRecOn with
    | nil => exact he
    | append_singleton run next ih =>
      rw [deployment_concat]
      exact keeps_follow ih next
  rwa [hkeeps.account]

/-- The happenings since the service was started. -/
def sinceStart (run : List Happening) : List Happening := run.rtakeWhile fun next => !next.isStart

theorem sinceStart_start (run : List Happening) (draw : Draw) (password : Option String) :
    sinceStart (run ++ [.start draw password]) = [] :=
  List.rtakeWhile_concat_neg _ _ _ (by simp [Happening.isStart])

theorem sinceStart_call (run : List Happening) (c : AuthCall) :
    sinceStart (run ++ [.call c]) = sinceStart run ++ [.call c] :=
  List.rtakeWhile_concat_pos _ _ _ rfl

/-- A restart forgets the revocations. -/
theorem mem_revoked_deployment {digest : String}
    (hstate : (service.deployment e run).state = some s) :
    digest ∈ s.revoked ↔
      ∃ token, .call (.logout token) ∈ sinceStart run ∧ service.tokenDigest token = digest := by
  induction run using List.reverseRecOn generalizing s with
  | nil => cases hstate
  | append_singleton run next ih =>
    rw [deployment_concat] at hstate
    cases next with
    | start draw password =>
      obtain ⟨revoked, hrevoked, rfl⟩ := Option.map_eq_some_iff.mp hstate
      have hnil : revoked = [] := by
        simp only [follow, new] at hrevoked
        split at hrevoked
        · exact (Option.some.inj hrevoked).symm
        · cases hrevoked
      simp [hnil, sinceStart_start]
    | call c =>
      cases hbefore : (service.deployment e run).state with
      | none =>
        rw [follow_down hbefore, hbefore] at hstate
        cases hstate
      | some s' =>
        rw [follow_call hbefore] at hstate
        cases hstate
        rw [mem_revoked_next, ih hbefore, sinceStart_call]
        constructor
        · rintro (⟨token, hmem, hdigest⟩ | ⟨token, rfl, hdigest⟩)
          · exact ⟨token, List.mem_append_left _ hmem, hdigest⟩
          · exact ⟨token, by simp, hdigest⟩
        · rintro ⟨token, hmem, hdigest⟩
          rcases List.mem_append.mp hmem with hmem | hmem
          · exact .inl ⟨token, hmem, hdigest⟩
          · cases List.mem_singleton.mp hmem
            exact .inr ⟨token, rfl, hdigest⟩

theorem decodeToken_eq_ok {tick : Tick} {token : String} {kind : TokenKind}
    {claims : TokenClaims} :
    service.decodeToken s tick token kind = .ok claims ↔
      service.signer.jwtDecode token = .ok ⟨claims, kind⟩ ∧
        (∃ now, nowSecs tick = .ok now ∧ now < claims.exp) ∧
        service.tokenDigest token ∉ s.revoked := by
  rw [decodeToken, checkRevoked]
  by_cases hrevoked : service.tokenDigest token ∈ s.revoked
  · simp [hrevoked]
  · rw [if_neg hrevoked, Except.ok_bind, Signer.decode]
    cases hdecode : service.signer.jwtDecode token with
    | error err => simp [Except.mapError]
    | ok decoded =>
      obtain ⟨decoded, kind'⟩ := decoded
      by_cases hkind : kind' = kind
      · cases hnow : nowSecs tick with
        | error err => simp [Except.mapError, hkind]
        | ok now =>
          by_cases hexp : decoded.isExpired now
          · have hle : decoded.exp ≤ now := of_decide_eq_true hexp
            simp only [Except.mapError, Except.ok_bind, hkind, ne_eq, not_true, if_false, hexp]
            refine iff_of_false (by simp) ?_
            rintro ⟨heq, ⟨now', hnow', hlt⟩, -⟩
            cases heq
            cases hnow'
            exact absurd hle (UInt64.not_le.mpr hlt)
          · have hlt : now < decoded.exp := UInt64.not_le.mp fun hle => hexp (decide_eq_true hle)
            simp only [Except.mapError, Except.ok_bind, hkind, ne_eq, not_true, if_false, hexp]
            constructor
            · rintro ⟨⟩
              exact ⟨rfl, ⟨now, rfl, hlt⟩, hrevoked⟩
            · rintro ⟨heq, -⟩
              cases heq
              rfl
      · simp [Except.mapError, hkind]

/-- The tokens of the pair are signed for the account, as of the second of their issue. -/
structure Signs (service : AuthService) (pair : TokenPair) (a : Account) (issuedAt : UInt64) :
    Prop where
  access : service.signer.jwtDecode pair.accessToken = .ok ⟨⟨⟨a.user.tenant, a.roles⟩,
    a.user.userId, issuedAt, saturatingAdd issuedAt service.accessTtl⟩, .access⟩
  refresh : service.signer.jwtDecode pair.refreshToken = .ok ⟨⟨⟨a.user.tenant, a.roles⟩,
    a.user.userId, issuedAt, saturatingAdd issuedAt service.refreshTtl⟩, .refresh⟩

theorem signs_issueTokenPair {tick : Tick} {a : Account} {iat exp : UInt64} {pair : TokenPair}
    (h : service.issueTokenPair tick ⟨⟨a.user.tenant, a.roles⟩, a.user.userId, iat, exp⟩ =
      .ok pair) :
    ∃ issuedAt, nowSecs tick = .ok issuedAt ∧ service.Signs pair a issuedAt := by
  obtain ⟨now, hnow, h⟩ := Except.bind_eq_ok.mp h
  obtain ⟨accessToken, haccess, h⟩ := Except.bind_eq_ok.mp h
  obtain ⟨refreshToken, hrefresh, h⟩ := Except.bind_eq_ok.mp h
  cases h
  refine ⟨now, hnow, ?_, ?_⟩
  · exact service.signer.decode_encode _ _ (Except.mapError_eq_ok.mp haccess)
  · exact service.signer.decode_encode _ _ (Except.mapError_eq_ok.mp hrefresh)

variable {accounts : Accounts} {ticks : Nat → Tick} {pair : TokenPair}

theorem login_eq_ok {credentials : Credentials} (h : service.libs.Keeps s.engine accounts)
    (hlogin : service.login s ticks credentials = .ok pair) :
    ∃ a issuedAt, service.libs.findUserByUsername s.engine credentials.username =
        .ok (some a.user) ∧ accounts a.user.userId = some a ∧
      service.libs.verifyPassword credentials.password a.user.passwordHash = true ∧
      nowSecs (ticks 1) = .ok issuedAt ∧ service.Signs pair a issuedAt := by
  obtain ⟨found, hfind, hlogin⟩ := Except.bind_eq_ok.mp hlogin
  rcases h.findUserByUsername credentials.username with ⟨hnone, -⟩ | ⟨id, a, hsome, ha, -⟩
  · cases hnone.symm.trans hfind
    cases hlogin
  · cases hsome.symm.trans hfind
    have hid := h.named id a ha
    subst hid
    dsimp only at hlogin
    cases hverify : service.libs.verifyPassword credentials.password a.user.passwordHash with
    | false =>
      rw [hverify] at hlogin
      cases hlogin
    | true =>
      rw [hverify, h.getRoles ha, Except.ok_bind] at hlogin
      obtain ⟨now, -, hlogin⟩ := Except.bind_eq_ok.mp hlogin
      obtain ⟨issuedAt, hissued, hsigns⟩ := signs_issueTokenPair hlogin
      exact ⟨a, issuedAt, hsome, ha, hverify, hissued, hsigns⟩

theorem refresh_eq_ok {token : String} (h : service.libs.Keeps s.engine accounts)
    (hrefresh : service.refresh s ticks token = .ok pair) :
    ∃ claims a issuedAt, service.decodeToken s (ticks 0) token .refresh = .ok claims ∧
      claims.sub = a.user.userId ∧ accounts a.user.userId = some a ∧
      nowSecs (ticks 3) = .ok issuedAt ∧ service.Signs pair a issuedAt := by
  obtain ⟨claims, hclaims, hrefresh⟩ := Except.bind_eq_ok.mp hrefresh
  rw [h.findUserById, Except.ok_bind] at hrefresh
  cases ha : accounts claims.sub with
  | none =>
    rw [ha] at hrefresh
    cases hrefresh
  | some a =>
    have hid := h.named _ a ha
    rw [← hid] at ha
    simp only [← hid, ha, Option.map_some, h.getRoles ha, Except.ok_bind] at hrefresh
    obtain ⟨iat, -, hrefresh⟩ := Except.bind_eq_ok.mp hrefresh
    obtain ⟨exp, -, hrefresh⟩ := Except.bind_eq_ok.mp hrefresh
    obtain ⟨issuedAt, hissued, hsigns⟩ := signs_issueTokenPair hrefresh
    exact ⟨claims, a, issuedAt, hclaims, hid.symm, ha, hissued, hsigns⟩

theorem issuedAt_call {c : AuthCall} {tick : Tick} {issuedAt : UInt64}
    (hc : c.issueTick = some tick) (hnow : nowSecs tick = .ok issuedAt) :
    (Happening.call c).issuedAt = some issuedAt := by
  rw [Happening.issuedAt, hc, Option.bind_some, hnow]
  rfl

/-- What the next happening returns is signed for an account that is stored then. -/
theorem Returns.signs {before : List Happening} {next : Happening}
    (he : ∃ accounts, service.libs.Keeps e accounts) (h : service.Returns e before next pair) :
    ∃ a issuedAt, service.libs.account (service.deployment e before).engine a.user.userId = some a ∧
      next.issuedAt = some issuedAt ∧ service.Signs pair a issuedAt := by
  obtain ⟨s, c, hstate, rfl, hissued⟩ := h
  have hkeeps := keeps_deployment he before
  rw [engine_of_state hstate] at hkeeps ⊢
  cases c with
  | login ticks credentials =>
    obtain ⟨a, issuedAt, -, ha, -, hticks, hsigns⟩ := login_eq_ok hkeeps (Option.some.inj hissued)
    exact ⟨a, issuedAt, ha, issuedAt_call rfl hticks, hsigns⟩
  | refresh ticks token =>
    obtain ⟨claims, a, issuedAt, -, -, ha, hticks, hsigns⟩ :=
      refresh_eq_ok hkeeps (Option.some.inj hissued)
    exact ⟨a, issuedAt, ha, issuedAt_call rfl hticks, hsigns⟩
  | createUser draw request => cases hissued
  | verify tick token => cases hissued
  | logout token => cases hissued

/-- The user of a session is the one that its tokens are signed for. -/
theorem Session.returns {id : String} (he : ∃ accounts, service.libs.Keeps e accounts)
    (h : service.Session e run pair id) :
    ∃ before next a issuedAt, run = before ++ [next] ∧ service.Returns e before next pair ∧
      a.user.userId = id ∧
      service.libs.account (service.deployment e before).engine id = some a ∧
      next.issuedAt = some issuedAt ∧ service.Signs pair a issuedAt := by
  induction h with
  | @login before s ticks credentials a pair hstate hfind ha hverify hlogin =>
    have hkeeps := keeps_deployment he before
    rw [engine_of_state hstate] at hkeeps
    obtain ⟨a', issuedAt, hfind', ha', -, hticks, hsigns⟩ := login_eq_ok hkeeps hlogin
    have huser : a'.user = a.user :=
      Option.some.inj (Except.ok.inj (hfind'.symm.trans hfind))
    obtain rfl : a' = a := Option.some.inj (ha'.symm.trans (huser ▸ ha))
    refine ⟨before, _, a', issuedAt, rfl, ⟨s, _, hstate, rfl, congrArg some hlogin⟩, rfl, ?_,
      issuedAt_call rfl hticks, hsigns⟩
    rwa [engine_of_state hstate]
  | @refresh earlier between s ticks previous pair id _ hstate hrefresh ih =>
    obtain ⟨_, _, a, issuedAt, -, -, hid, -, -, hprevious⟩ := ih
    have hkeeps := keeps_deployment he (earlier ++ between)
    rw [engine_of_state hstate] at hkeeps
    obtain ⟨claims, a', issuedAt', hdecode, hsub, ha', hticks, hsigns⟩ :=
      refresh_eq_ok hkeeps hrefresh
    have hclaims := hprevious.refresh.symm.trans (decodeToken_eq_ok.mp hdecode).1
    have hid' : a'.user.userId = id := by
      rw [← hsub, ← hid]
      cases hclaims
      rfl
    refine ⟨earlier ++ between, _, a', issuedAt', rfl,
      ⟨s, _, hstate, rfl, congrArg some hrefresh⟩, hid', ?_, issuedAt_call rfl hticks, hsigns⟩
    rw [engine_of_state hstate, ← hid']
    exact ha'

/-- Of the two tokens of a pair, the refresh token is the one that decodes as such. -/
theorem Signs.eq_refresh {a : Account} {issuedAt : UInt64} {token : String}
    {claims : TokenClaims} (h : service.Signs pair a issuedAt)
    (hdecode : service.signer.jwtDecode token = .ok ⟨claims, .refresh⟩)
    (htoken : token = pair.accessToken ∨ token = pair.refreshToken) :
    token = pair.refreshToken := by
  refine htoken.resolve_left ?_
  rintro rfl
  cases h.access.symm.trans hdecode

theorem Signs.eq_access {a : Account} {issuedAt : UInt64} {token : String}
    {claims : TokenClaims} (h : service.Signs pair a issuedAt)
    (hdecode : service.signer.jwtDecode token = .ok ⟨claims, .access⟩)
    (htoken : token = pair.accessToken ∨ token = pair.refreshToken) :
    token = pair.accessToken := by
  refine htoken.resolve_right ?_
  rintro rfl
  cases h.refresh.symm.trans hdecode

/-- Whatever pair is returned belongs to a session, when no token is forged. -/
theorem Returns.session {before : List Happening} {next : Happening}
    (he : ∃ accounts, service.libs.Keeps e accounts) (hunforged : service.Unforged e run)
    (hrun : ∃ after, run = before ++ next :: after) (h : service.Returns e before next pair) :
    ∃ id, service.Session e (before ++ [next]) pair id := by
  -- a refresh token comes from an earlier pair, so the induction is on what happened before
  induction hlength : before.length using Nat.strong_induction_on
    generalizing before next pair with
  | _ n ih =>
    obtain ⟨s, c, hstate, rfl, hissued⟩ := h
    obtain ⟨after, hrun⟩ := hrun
    have hkeeps := keeps_deployment he before
    rw [engine_of_state hstate] at hkeeps
    cases c with
    | login ticks credentials =>
      have hlogin := Option.some.inj hissued
      obtain ⟨a, issuedAt, hfind, ha, hverify, -, -⟩ := login_eq_ok hkeeps hlogin
      exact ⟨_, .login hstate hfind ha hverify hlogin⟩
    | refresh ticks token =>
      have hrefresh := Option.some.inj hissued
      obtain ⟨claims, -, -, hdecode, -⟩ := refresh_eq_ok hkeeps hrefresh
      have hdecode := (decodeToken_eq_ok.mp hdecode).1
      obtain ⟨earlier, issuer, between, previous, rfl, hreturns, htoken⟩ :=
        hunforged before _ after token _ hrun rfl hdecode
      have hshorter : earlier.length < n := by
        rw [← hlength]
        simp
      obtain ⟨id, hsession⟩ :=
        ih earlier.length hshorter ⟨_, hrun.trans (List.append_assoc ..)⟩ hreturns rfl
      obtain ⟨a, issuedAt, -, -, hsigns⟩ := hreturns.signs he
      obtain rfl := hsigns.eq_refresh hdecode htoken
      have hstate' : (service.deployment e (earlier ++ [issuer] ++ between)).state = some s := by
        simpa using hstate
      refine ⟨id, ?_⟩
      simpa using hsession.refresh hstate' hrefresh
    | createUser draw request => cases hissued
    | verify tick token => cases hissued
    | logout token => cases hissued

/-- A shorter run presents fewer tokens. -/
theorem Unforged.of_append {rest : List Happening} (h : service.Unforged e (run ++ rest)) :
    service.Unforged e run := by
  rintro before next after token claims rfl
  exact h before next (after ++ rest) token claims (by simp)

/-- What stands behind a token that is presented after the run. -/
structure Backed (service : AuthService) (e : MemEngine) (run : List Happening) (tick : Tick)
    (token : String) (claims : TokenClaims) : Prop where
  /-- It is the access token of a session, for the tenant and the roles that the user had when it
  was issued. -/
  session : ∃ before issuer between pair a issuedAt, run = before ++ issuer :: between ∧
    service.Session e (before ++ [issuer]) pair claims.sub ∧ token = pair.accessToken ∧
    service.libs.account (service.deployment e before).engine claims.sub = some a ∧
    issuer.issuedAt = some issuedAt ∧
    claims = ⟨⟨a.user.tenant, a.roles⟩, claims.sub, issuedAt,
      saturatingAdd issuedAt service.accessTtl⟩
  unexpired : ∃ now, nowSecs tick = .ok now ∧ now < claims.exp
  /-- It was not logged out since the service was started. -/
  unrevoked : ∀ token', .call (.logout token') ∈ sinceStart run →
    service.tokenDigest token' ≠ service.tokenDigest token

variable {tick : Tick} {token : String} {claims : TokenClaims}

theorem notMem_revoked_iff (hstate : (service.deployment e run).state = some s) :
    service.tokenDigest token ∉ s.revoked ↔
      ∀ token', .call (.logout token') ∈ sinceStart run →
        service.tokenDigest token' ≠ service.tokenDigest token := by
  rw [mem_revoked_deployment hstate]
  simp

theorem backed_of_verify (he : ∃ accounts, service.libs.Keeps e accounts)
    (hunforged : service.Unforged e (run ++ [.call (.verify tick token)]))
    (hstate : (service.deployment e run).state = some s)
    (haccepted : service.verify s tick token = .ok claims) :
    service.Backed e run tick token claims := by
  obtain ⟨hdecode, hunexpired, hrevoked⟩ := decodeToken_eq_ok.mp haccepted
  refine ⟨?_, hunexpired, (notMem_revoked_iff hstate).mp hrevoked⟩
  obtain ⟨before, issuer, between, pair, hrun, hreturns, htoken⟩ :=
    hunforged run _ [] token _ rfl rfl hdecode
  have hlonger : run ++ [.call (.verify tick token)] =
      before ++ issuer :: (between ++ [.call (.verify tick token)]) := by
    rw [hrun, List.append_assoc, List.cons_append]
  obtain ⟨id, hsession⟩ := hreturns.session he hunforged ⟨_, hlonger⟩
  obtain ⟨before', issuer', a, issuedAt, heq, -, hid, ha, hissued, hsigns⟩ := hsession.returns he
  obtain ⟨rfl, hissuer⟩ := List.append_inj' heq rfl
  cases hissuer
  obtain rfl := hsigns.eq_access hdecode htoken
  cases hsigns.access.symm.trans hdecode
  subst hid
  exact ⟨before, issuer, between, pair, a, issuedAt, hrun, hsession, rfl, ha, hissued, rfl⟩

theorem Backed.verify (he : ∃ accounts, service.libs.Keeps e accounts)
    (hstate : (service.deployment e run).state = some s)
    (h : service.Backed e run tick token claims) : service.verify s tick token = .ok claims := by
  refine decodeToken_eq_ok.mpr ⟨?_, h.unexpired, (notMem_revoked_iff hstate).mpr h.unrevoked⟩
  obtain ⟨before, issuer, between, pair, a, issuedAt, -, hsession, rfl, ha, hissued, hclaims⟩ :=
    h.session
  obtain ⟨before', issuer', a', issuedAt', heq, -, hid, ha', hissued', hsigns⟩ :=
    hsession.returns he
  obtain ⟨rfl, hissuer⟩ := List.append_inj' heq rfl
  cases hissuer
  cases ha.symm.trans ha'
  cases hissued.symm.trans hissued'
  rw [hsigns.access, hid, ← hclaims]

end AuthService

/-- While no token is forged, a token is accepted exactly when it is the access token of a session,
which began with a password, has not expired since its issue, and was not logged out since the
service was started. It then stands for the tenant and the roles that the user had at its issue. -/
theorem accepted_iff_backed (service : AuthService) (e : MemEngine) (run : List Happening)
    (s : AuthState) (tick : Tick) (token : String) (claims : TokenClaims)
    (he : ∃ accounts, service.libs.Keeps e accounts)
    (hunforged : service.Unforged e (run ++ [.call (.verify tick token)]))
    (hstate : (service.deployment e run).state = some s) :
    service.verify s tick token = .ok claims ↔ service.Backed e run tick token claims :=
  ⟨AuthService.backed_of_verify he hunforged hstate, AuthService.Backed.verify he hstate⟩

/-- A service is started where one account is stored, and its user logs in. -/
def aliceRun : List Happening := [.start someDraw none, .call loginAlice]

theorem state_started (libs : AuthLibs) (signer : Signer) :
    ((defaultService libs signer).deployment (libs.stored .new alice)
      [.start someDraw none]).state = some ⟨libs.stored .new alice, []⟩ := by
  obtain ⟨found, hscan, hfound⟩ := (libs.keeps_new.stored alice).anyUserExists
  obtain rfl : found = true := hfound.mpr ⟨"1", alice, Function.update_self ..⟩
  have hboot : libs.bootstrapIfNeeded someDraw none (libs.stored .new alice) =
      (.ok (), libs.stored .new alice) := by
    simp only [AuthLibs.bootstrapIfNeeded, hscan]
  have hnew : (defaultService libs signer).new someDraw none (libs.stored .new alice) =
      ⟨libs.stored .new alice, some []⟩ := by
    simp only [AuthService.new, defaultService, hboot]
  exact congrArg Deployment.state hnew

/-- Only the verification presents a token. -/
theorem eq_of_presented {before after : List Happening} {next : Happening} {tick : Tick}
    {token token' : String}
    (hrun : aliceRun ++ [.call (.verify tick token)] = before ++ next :: after)
    (hpresented : next.presented = some token') : before = aliceRun ∧ token' = token := by
  rcases before with _ | ⟨x, _ | ⟨y, _ | ⟨z, before⟩⟩⟩
  · cases hrun
    cases hpresented
  · cases hrun
    cases hpresented
  · cases hrun
    cases hpresented
    exact ⟨rfl, rfl⟩
  · simp [aliceRun] at hrun

/-- What the access token of the user says. -/
def aliceClaims : TokenClaims := ⟨⟨some "acme", [.tenantAdmin]⟩, "1", 0, 3600⟩

theorem exists_aliceRun : ∃ (service : AuthService) (e : MemEngine) (token : String),
    (∃ accounts, service.libs.Keeps e accounts) ∧
    (service.deployment e aliceRun).state = some ⟨e, []⟩ ∧
    service.Unforged e (aliceRun ++ [.call (.verify (.ok .zero) token)]) ∧
    service.verify ⟨e, []⟩ (.ok .zero) token = .ok aliceClaims := by
  obtain ⟨libs, hplain⟩ := AuthLibs.exists_plain
  obtain ⟨signer, htotal⟩ := exists_signer
  obtain ⟨pair, hpair⟩ := issued_loginAlice hplain htotal
  let service := defaultService libs signer
  let e := libs.stored .new alice
  have hkeeps : libs.Keeps e _ := libs.keeps_new.stored alice
  have hstarted := state_started libs signer
  have hstate : (service.deployment e aliceRun).state = some ⟨e, []⟩ := by
    rw [show aliceRun = [.start someDraw none] ++ [.call loginAlice] from rfl,
      AuthService.deployment_concat, AuthService.follow_call hstarted]
    rfl
  have hhanded : service.Handed e aliceRun pair.accessToken :=
    ⟨_, _, [], pair, rfl, ⟨_, loginAlice, hstarted, rfl, hpair []⟩, .inl rfl⟩
  have hunforged : service.Unforged e
      (aliceRun ++ [.call (.verify (.ok .zero) pair.accessToken)]) := by
    intro before next after token claims hrun hpresented _
    obtain ⟨rfl, rfl⟩ := eq_of_presented hrun hpresented
    exact hhanded
  obtain ⟨a, issuedAt, hfind, ha, -, hissued, hsigns⟩ :=
    AuthService.login_eq_ok hkeeps (Option.some.inj (hpair []))
  have huser := Option.some.inj (Except.ok.inj (hfind.symm.trans (findUserByUsername_alice libs)))
  rw [huser, show alice.user.userId = "1" from rfl, Function.update_self] at ha
  cases ha
  cases hissued
  refine ⟨service, e, pair.accessToken, ⟨_, hkeeps⟩, hstate, hunforged, ?_⟩
  exact AuthService.decodeToken_eq_ok.mpr ⟨hsigns.access, ⟨0, rfl, by decide⟩, List.not_mem_nil⟩

theorem accepted_alice : ∃ (service : AuthService) (e : MemEngine) (token : String),
    (service.deployment e aliceRun).state = some ⟨e, []⟩ ∧
    service.verify ⟨e, []⟩ (.ok .zero) token = .ok aliceClaims ∧
    service.Backed e aliceRun (.ok .zero) token aliceClaims := by
  obtain ⟨service, e, token, he, hstate, hunforged, haccepted⟩ := exists_aliceRun
  have hbacked := (accepted_iff_backed service e aliceRun ⟨e, []⟩ (.ok .zero) token aliceClaims he
    hunforged hstate).mp haccepted
  exact ⟨service, e, token, hstate, haccepted, hbacked⟩

end BashfulDB.Auth

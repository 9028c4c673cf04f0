import BashfulDB.Library.Loop
import BashfulDB.Library.Uuid
import BashfulDB.Protocol.Connection
import BashfulDB.Protocol.Serializer
import Mathlib.Data.List.DropRight

/-!
A connection from its banner to its end: the handshake, the command loop, and what the handler of
the commands can rely on.
-/
namespace BashfulDB.Protocol

def serverBanner : String := "+BASHFULDB 4.0.0\r\n"

/-- The `Display` text of an error. -/
def ProtocolError.display : ProtocolError → String
  | .lineTooLong len max =>
    "line too long: " ++ toString len ++ " bytes exceeds max " ++ toString max
  | .bulkTooLarge len max =>
    "bulk string too large: " ++ toString len ++ " bytes exceeds max " ++ toString max
  | .malformed message => "malformed protocol input: " ++ message
  | .unexpectedEof => "unexpected end of stream"
  | .nestingTooDeep max => "array nesting too deep (max " ++ toString max ++ " levels)"
  | .unknownType byte => "unknown RESP type byte: 0x" ++
    String.ofList [Uuid.hexDigit (byte.toNat / 16), Uuid.hexDigit (byte.toNat % 16)]

/-- The variants of `ProtocolError` that a connection returns. Those of the parser are answered. -/
inductive ConnectionError
  | authRequired
  | authFailed (message : String)
  | io (message : String)
  deriving DecidableEq

structure Credentials where
  username : String
  password : String
  deriving DecidableEq

structure TokenPair where
  accessToken : String
  deriving DecidableEq

structure ConnectionContext (Claims : Type) where
  peerAddr : String
  connId : UInt64
  claims : Option Claims
  deriving DecidableEq

/-- What a connection asks of others, whose state is in `σ`: to write to the client, to authenticate
and to handle a command. An error is given by its text; `none` is a call that never returns. -/
structure Outside (σ Claims : Type) where
  writeAll : σ → Bytes → Except String Unit × σ
  flush : σ → Except String Unit × σ
  verify : σ → String → Option (Except String Claims) × σ
  login : σ → Credentials → Option (Except String TokenPair) × σ
  handle : σ → Command → ConnectionContext Claims → Option Response × σ

/-- What happens on a connection. -/
inductive Event (Claims : Type)
  | read (result : Except Fault (Option Command))
  | verified (token : String) (answer : Option (Except String Claims))
  | loggedIn (credentials : Credentials) (answer : Option (Except String TokenPair))
  | authenticated (claims : Claims)
  | handled (cmd : Command) (ctx : ConnectionContext Claims)

/-- A connection in one of its loops; `errors` is the counter of that loop. -/
structure Session (σ Claims : Type) where
  reader : Chunks UInt8
  state : σ
  errors : Nat
  events : List (Event Claims)

/-- How `handle_connection` ends: it returns, panics with the parser, or waits for an answer that
never comes. -/
inductive Ending
  | returned (result : Except ConnectionError Unit)
  | panicked
  | waiting

variable {σ Claims : Type}

namespace Outside

variable (out : Outside σ Claims)

/-- Bytes that are written and flushed, unless writing them fails. -/
def send (state : σ) (bytes : Bytes) : Except ConnectionError Unit × σ :=
  match out.writeAll state bytes with
  | (.error e, state) => (.error (.io e), state)
  | (.ok (), state) =>
    match out.flush state with
    | (.error e, state) => (.error (.io e), state)
    | (.ok (), state) => (.ok (), state)

def writeBanner (state : σ) : Except ConnectionError Unit × σ := out.send state serverBanner.asBytes

/-- `write_response`, and a flush. -/
def reply (state : σ) (resp : Response) : Except ConnectionError Unit × σ :=
  out.send state (serializeResponse resp)

/-- `write_error_str`, and a flush; whether they succeed does not matter. -/
def tell (state : σ) (message : String) : σ :=
  (out.flush (out.writeAll state (serializeResponse (.error message))).2).2

end Outside

namespace Session

variable (out : Outside σ Claims) (p : Platform) (limits : Limits) (s : Session σ Claims)

def parse : Except Fault (Option Command) × Session σ Claims :=
  match (parseCommand p limits).call s.reader with
  | (result, reader) => (result, { s with reader, events := s.events ++ [.read result] })

def verify (token : String) : Option (Except String Claims) × Session σ Claims :=
  match out.verify s.state token with
  | (answer, state) => (answer, { s with state, events := s.events ++ [.verified token answer] })

def login (credentials : Credentials) :
    Option (Except String TokenPair) × Session σ Claims :=
  match out.login s.state credentials with
  | (answer, state) =>
    (answer, { s with state, events := s.events ++ [.loggedIn credentials answer] })

def handle (cmd : Command) (ctx : ConnectionContext Claims) : Option Response × Session σ Claims :=
  match out.handle s.state cmd ctx with
  | (answer, state) => (answer, { s with state, events := s.events ++ [.handled cmd ctx] })

/-- One more error, which the client is told. -/
def countError (message : String) : Session σ Claims :=
  { s with state := out.tell s.state message, errors := s.errors + 1 }

end Session

/-- A turn of the handshake leads to the next, or to the claims or the end of the connection. -/
abbrev AuthTurn (σ Claims : Type) := Session σ Claims ⊕ Except Ending Claims × Session σ Claims

section

variable (out : Outside σ Claims) (p : Platform) (limits : Limits) (s : Session σ Claims)

def authReturn (s : Session σ Claims) (e : ConnectionError) : AuthTurn σ Claims :=
  .inr (.error (.returned (.error e)), s)

/-- A failed attempt, which is answered with `message`; `e` is returned if it is one too many. -/
def authFailure (message : String) (e : ConnectionError) : AuthTurn σ Claims :=
  let s := s.countError out message
  if s.errors > maxConsecutiveErrors then authReturn s e else .inl s

def authSuccess (claims : Claims) : AuthTurn σ Claims :=
  match out.reply s.state (.simple "OK") with
  | (.error e, state) => authReturn { s with state } e
  | (.ok (), state) =>
    .inr (.ok claims, { s with state, events := s.events ++ [.authenticated claims] })

def utf8 (data : Bytes) : Option String := String.fromUTF8? ⟨data.toArray⟩

/-- `AUTH <token>`. -/
def authToken (token : Bytes) : AuthTurn σ Claims :=
  match utf8 token with
  | none => authReturn s (.authFailed "token is not valid UTF-8")
  | some token =>
    match s.verify out token with
    | (none, s) => .inr (.error .waiting, s)
    | (some (.ok claims), s) => authSuccess out s claims
    | (some (.error e), s) => authFailure out s ("ERR WRONGPASS " ++ e) (.authFailed e)

/-- `AUTH <username> <password>`. An issued token that is not verified is not one more attempt. -/
def authLogin (username password : Bytes) : AuthTurn σ Claims :=
  match utf8 username, utf8 password with
  | none, _ => authReturn s (.authFailed "username is not valid UTF-8")
  | some _, none => authReturn s (.authFailed "password is not valid UTF-8")
  | some username, some password =>
    match s.login out ⟨username, password⟩ with
    | (none, s) => .inr (.error .waiting, s)
    | (some (.error e), s) => authFailure out s ("ERR WRONGPASS " ++ e) (.authFailed e)
    | (some (.ok pair), s) =>
      match s.verify out pair.accessToken with
      | (none, s) => .inr (.error .waiting, s)
      | (some (.ok claims), s) => authSuccess out s claims
      | (some (.error e), s) => authReturn s (.authFailed e)

/-- A command that is read during the handshake. -/
def authCommand (cmd : Command) : AuthTurn σ Claims :=
  if cmd.name ≠ "AUTH" then authFailure out s "ERR NOAUTH authentication required" .authRequired
  else
    match cmd.args with
    | [token] => authToken out s token
    | [username, password] => authLogin out s username password
    | _ => authFailure out s "ERR AUTH requires 1 (token) or 2 (username password) arguments"
        .authRequired

/-- One turn of the loop of `auth_handshake`. -/
def authTurn : AuthTurn σ Claims :=
  match s.parse p limits with
  | (.ok (some cmd), s) => authCommand out s cmd
  | (.ok none, s) => authReturn s .authRequired
  | (.error .panic, s) => .inr (.error .panicked, s)
  | (.error (.error e), s) =>
    authFailure out s ("ERR " ++ e.display) (.authFailed "too many errors during auth")

/-- One turn of the command loop of `handle_connection`. -/
def commandTurn (ctx : ConnectionContext Claims) (s : Session σ Claims) :
    Session σ Claims ⊕ Ending × Session σ Claims :=
  match s.parse p limits with
  | (.ok none, s) => .inr (.returned (.ok ()), s)
  | (.ok (some cmd), s) =>
    match Session.handle out { s with errors := 0 } cmd ctx with
    | (none, s) => .inr (.waiting, s)
    | (some resp, s) =>
      match out.reply s.state resp with
      | (.error e, state) => .inr (.returned (.error e), { s with state })
      | (.ok (), state) => .inl { s with state }
  | (.error .panic, s) => .inr (.panicked, s)
  | (.error (.error e), s) =>
    let s := s.countError out ("ERR " ++ e.display)
    if s.errors > maxConsecutiveErrors then .inr (.returned (.ok ()), s) else .inl s

/-- `handle_connection`, unless one of its loops takes more than that many turns. -/
def handleConnection (peerAddr : String) (connId : UInt64) (turns : Nat) (input : Chunks UInt8)
    (state : σ) : Option (Ending × Session σ Claims) :=
  match out.writeBanner state with
  | (.error e, state) => some (.returned (.error e), ⟨input, state, 0, []⟩)
  | (.ok (), state) =>
    match Loop.run (authTurn out p limits) turns ⟨input, state, 0, []⟩ with
    | .inl _ => none
    | .inr (.error ending, s) => some (ending, s)
    | .inr (.ok claims, s) =>
      match Loop.run (commandTurn out p limits ⟨peerAddr, connId, some claims⟩) turns
        { s with errors := 0 } with
      | .inl _ => none
      | .inr result => some result

end

namespace Event

/-- An attempt at the handshake that fails: no command is read, or none that attempts, or the
attempt is turned down. -/
def isFailure : Event Claims → Bool
  | .read (.error (.error _)) => true
  | .read (.ok (some cmd)) => cmd.name != "AUTH" || cmd.args.length != 1 && cmd.args.length != 2
  | .verified _ (some (.error _)) => true
  | .loggedIn _ (some (.error _)) => true
  | _ => false

/-- What only happens once the handshake is over. -/
def isPrivileged : Event Claims → Bool
  | .authenticated _ | .handled _ _ => true
  | _ => false

def isParseError : Event Claims → Bool
  | .read (.error (.error _)) => true
  | _ => false

def isRead : Event Claims → Bool
  | .read _ => true
  | _ => false

end Event

/-- How many errors of the parser there are since it last returned something else. -/
def errorRun (events : List (Event Claims)) : Nat :=
  ((events.filter Event.isRead).rtakeWhile Event.isParseError).length

section Records

variable {events : List (Event Claims)} {e : Event Claims}

theorem errorRun_concat_read (hread : e.isRead = true) : errorRun (events ++ [e]) =
    if e.isParseError then errorRun events + 1 else 0 := by
  rw [errorRun, List.filter_append, List.filter_cons_of_pos hread, List.filter_nil,
    List.rtakeWhile_concat]
  split
  · rw [List.length_append]
    rfl
  · rfl

theorem errorRun_concat_other (hread : e.isRead = false) :
    errorRun (events ++ [e]) = errorRun events := by
  rw [errorRun, List.filter_append, List.filter_cons_of_neg (by simp [hread]), List.filter_nil,
    List.append_nil, errorRun]

theorem Event.isFailure_of_isParseError (h : e.isParseError = true) : e.isFailure = true := by
  unfold isParseError at h
  split at h
  · rfl
  · cases h

/-- Every error of the parser is a failure. -/
theorem errorRun_le_countP (events : List (Event Claims)) :
    errorRun events ≤ events.countP Event.isFailure := by
  have hrun : errorRun events ≤ (events.filter Event.isRead).countP Event.isParseError := by
    rw [errorRun, ← List.countP_eq_length.mpr fun _ => List.mem_rtakeWhile_imp]
    exact (List.rtakeWhile_suffix _ _).sublist.countP_le
  calc errorRun events ≤ (events.filter Event.isRead).countP Event.isParseError := hrun
    _ ≤ events.countP Event.isParseError := List.filter_sublist.countP_le
    _ ≤ events.countP Event.isFailure :=
      List.countP_mono_left fun _ _ => Event.isFailure_of_isParseError

end Records

variable {out : Outside σ Claims} {p : Platform} {limits : Limits} {s t : Session σ Claims}

section Reading

variable (p limits) (s)

theorem Session.parse_events :
    (s.parse p limits).2.events = s.events ++ [.read (s.parse p limits).1] := rfl

theorem Session.parse_errors : (s.parse p limits).2.errors = s.errors := rfl

theorem Session.parse_length :
    (s.parse p limits).2.reader.flat.length ≤ s.reader.flat.length :=
  (keeps_parseCommand s.reader).length_le

/-- What goes on after a call of the parser has less input than before. -/
theorem Session.parse_consumes (hend : (s.parse p limits).1 ≠ .ok none)
    (hpanic : (s.parse p limits).1 ≠ .error .panic) :
    ∃ used, used ≠ [] ∧ s.reader.flat = used ++ (s.parse p limits).2.reader.flat := by
  rcases consumes_parseCommand p limits s.reader with h | ⟨e, h, rfl⟩ | h
  · exact absurd h hend
  · exact absurd h hpanic
  · exact h

end Reading

/-- What happens in a turn of the handshake before its last event. -/
def Event.Quiet (e : Event Claims) : Prop := e.isFailure = false ∧ e.isPrivileged = false

/-- What a turn of the handshake comes to: a failure that is counted, the end of the connection, or
claims that were verified. -/
def Attempts (base : List (Event Claims)) (errors : Nat) (reader : Chunks UInt8) :
    AuthTurn σ Claims → Prop
  | .inl t => t.reader = reader ∧ t.errors = errors + 1 ∧ t.errors ≤ maxConsecutiveErrors ∧
      ∃ init last, t.events = base ++ init ++ [last] ∧ (∀ e ∈ init, e.Quiet) ∧
        last.isFailure = true ∧ last.isPrivileged = false
  | .inr (.error _, t) => ∃ init last, t.events = base ++ init ++ [last] ∧
      (∀ e ∈ init, e.Quiet) ∧ last.isPrivileged = false
  | .inr (.ok claims, t) => t.reader = reader ∧
      ∃ init token, t.events =
          base ++ init ++ [.verified token (some (.ok claims)), .authenticated claims] ∧
        (∀ e ∈ init, e.Quiet) ∧ errorRun (base ++ init) = 0

section Attempts

variable {base init : List (Event Claims)} {last : Event Claims}

theorem attempts_authFailure (out : Outside σ Claims) (message : String) (e : ConnectionError)
    (h : t.events = base ++ init ++ [last]) (hinit : ∀ e ∈ init, e.Quiet)
    (hfailure : last.isFailure = true) (hlast : last.isPrivileged = false) :
    Attempts base t.errors t.reader (authFailure out t message e) := by
  dsimp only [authFailure]
  split
  · exact ⟨init, last, h, hinit, hlast⟩
  · rename_i hle
    exact ⟨rfl, rfl, Nat.le_of_not_lt hle, init, last, h, hinit, hfailure, hlast⟩

theorem attempts_authSuccess (out : Outside σ Claims) {token : String} {claims : Claims}
    (h : t.events = base ++ init ++ [Event.verified token (some (.ok claims))])
    (hinit : ∀ e ∈ init, e.Quiet) (hrun : errorRun (base ++ init) = 0) :
    Attempts base t.errors t.reader (authSuccess out t claims) := by
  dsimp only [authSuccess]
  split
  · exact ⟨init, _, h, hinit, rfl⟩
  · refine ⟨rfl, init, token, ?_, hinit, hrun⟩
    dsimp only
    rw [h, List.append_assoc]
    rfl

variable {cmd : Command} (h : t.events = base ++ [Event.read (.ok (some cmd))])
include h

theorem attempts_authToken (out : Outside σ Claims)
    (hquiet : (.read (.ok (some cmd)) : Event Claims).Quiet) (token : Bytes) :
    Attempts base t.errors t.reader (authToken out t token) := by
  have hinit : ∀ e ∈ [(.read (.ok (some cmd)) : Event Claims)], e.Quiet := by simpa using hquiet
  unfold authToken
  cases utf8 token with
  | none => exact ⟨[], _, by simpa using h, by simp, rfl⟩
  | some token =>
    rcases hverify : out.verify t.state token with ⟨_ | e | claims, state⟩
    all_goals simp only [Session.verify, hverify]
    · exact ⟨_, _, congrArg (· ++ _) h, hinit, rfl⟩
    · exact attempts_authFailure out _ _ (congrArg (· ++ _) h) hinit rfl rfl
    · exact attempts_authSuccess out (congrArg (· ++ _) h) hinit (errorRun_concat_read rfl)

theorem attempts_authLogin (out : Outside σ Claims)
    (hquiet : (.read (.ok (some cmd)) : Event Claims).Quiet) (username password : Bytes) :
    Attempts base t.errors t.reader (authLogin out t username password) := by
  have hinit : ∀ e ∈ [(.read (.ok (some cmd)) : Event Claims)], e.Quiet := by simpa using hquiet
  unfold authLogin
  split
  · exact ⟨[], _, by simpa using h, by simp, rfl⟩
  · exact ⟨[], _, by simpa using h, by simp, rfl⟩
  · rename_i username password _ _
    rcases hlogin : out.login t.state ⟨username, password⟩ with ⟨_ | e | pair, state⟩
    all_goals simp only [Session.login, hlogin]
    · exact ⟨_, _, congrArg (· ++ _) h, hinit, rfl⟩
    · exact attempts_authFailure out _ _ (congrArg (· ++ _) h) hinit rfl rfl
    · -- the attempt is settled by the token that was issued
      have hissued : t.events ++ [Event.loggedIn ⟨username, password⟩ (some (.ok pair))] =
          base ++ [Event.read (.ok (some cmd)),
            .loggedIn ⟨username, password⟩ (some (.ok pair))] := by
        simp [h]
      have hrun :
          errorRun (t.events ++ [Event.loggedIn ⟨username, password⟩ (some (.ok pair))]) = 0 := by
        rw [errorRun_concat_other rfl, h, errorRun_concat_read rfl]
        rfl
      have hinit : ∀ e ∈ [(.read (.ok (some cmd)) : Event Claims),
          .loggedIn ⟨username, password⟩ (some (.ok pair))], e.Quiet := by
        simpa using ⟨hquiet, rfl, rfl⟩
      rw [hissued] at hrun ⊢
      rcases hverify : out.verify state pair.accessToken with ⟨_ | e | claims, state⟩
      all_goals simp only [Session.verify, hverify]
      · exact ⟨_, _, rfl, hinit, rfl⟩
      · exact ⟨_, _, rfl, hinit, rfl⟩
      · exact attempts_authSuccess out rfl hinit hrun

theorem attempts_authCommand (out : Outside σ Claims) :
    Attempts base t.errors t.reader (authCommand out t cmd) := by
  have hevents : t.events = base ++ [] ++ [Event.read (.ok (some cmd))] := by simpa using h
  unfold authCommand
  split
  · rename_i hname
    exact attempts_authFailure out _ _ hevents (by simp) (by simp [Event.isFailure, hname]) rfl
  · rename_i hname
    split
    · rename_i token hargs
      refine attempts_authToken h out ⟨?_, rfl⟩ token
      simp [Event.isFailure, not_not.mp hname, hargs]
    · rename_i username password hargs
      refine attempts_authLogin h out ⟨?_, rfl⟩ username password
      simp [Event.isFailure, not_not.mp hname, hargs]
    · rename_i hone htwo
      refine attempts_authFailure out _ _ hevents (by simp) ?_ rfl
      have hargs : cmd.args.length ≠ 1 ∧ cmd.args.length ≠ 2 := by
        constructor
        · intro hlen
          obtain ⟨token, htoken⟩ := List.length_eq_one_iff.mp hlen
          exact hone token htoken
        · intro hlen
          obtain ⟨username, password, hpair⟩ := List.length_eq_two.mp hlen
          exact htwo username password hpair
      simp [Event.isFailure, hargs]

end Attempts

theorem attempts_authTurn (out : Outside σ Claims) (p : Platform) (limits : Limits)
    (s : Session σ Claims) :
    Attempts s.events s.errors (s.parse p limits).2.reader (authTurn out p limits s) := by
  have hevents := s.parse_events p limits
  have herrors := s.parse_errors p limits
  unfold authTurn
  rcases hparse : s.parse p limits with ⟨(e | _) | _ | cmd, t⟩
  all_goals
    rw [hparse] at hevents herrors
    dsimp only at hevents herrors ⊢
    rw [← herrors]
  · have hread : t.events = s.events ++ [] ++ [Event.read (.error (.error e))] := by
      simpa using hevents
    exact attempts_authFailure out _ _ hread (by simp) rfl rfl
  · exact ⟨[], _, by simpa using hevents, by simp, rfl⟩
  · exact ⟨[], _, by simpa using hevents, by simp, rfl⟩
  · exact attempts_authCommand hevents out

/-- A turn that leads to another has used up some of the input. -/
theorem authTurn_consumes (h : authTurn out p limits s = .inl t) :
    ∃ used, used ≠ [] ∧ s.reader.flat = used ++ t.reader.flat := by
  have hattempts := attempts_authTurn out p limits s
  rw [h] at hattempts
  rw [hattempts.1]
  refine s.parse_consumes p limits (fun hend => ?_) fun hpanic => ?_
  · rcases hparse : s.parse p limits with ⟨result, t⟩
    rw [hparse] at hend
    cases hend
    simp only [authTurn, hparse] at h
    cases h
  · rcases hparse : s.parse p limits with ⟨result, t⟩
    rw [hparse] at hpanic
    cases hpanic
    simp only [authTurn, hparse] at h
    cases h

/-- What a turn of the command loop that leads to another adds. -/
theorem commandTurn_again {ctx : ConnectionContext Claims}
    (h : commandTurn out p limits ctx s = .inl t) :
    t.reader = (s.parse p limits).2.reader ∧
      ((∃ cmd, (s.parse p limits).1 = .ok (some cmd) ∧ t.errors = 0 ∧
          t.events = s.events ++ [Event.read (.ok (some cmd)), .handled cmd ctx]) ∨
        ∃ e, (s.parse p limits).1 = .error (.error e) ∧ t.errors = s.errors + 1 ∧
          t.errors ≤ maxConsecutiveErrors ∧
          t.events = s.events ++ [Event.read (.error (.error e))]) := by
  have hevents := s.parse_events p limits
  have herrors := s.parse_errors p limits
  unfold commandTurn at h
  rcases hparse : s.parse p limits with ⟨(e | _) | _ | cmd, u⟩
  all_goals
    rw [hparse] at hevents herrors h
    dsimp only at hevents herrors h ⊢
  · split at h
    · cases h
    · rename_i hle
      cases h
      exact ⟨rfl, Or.inr ⟨e, rfl, congrArg (· + 1) herrors, Nat.le_of_not_lt hle, hevents⟩⟩
  · cases h
  · cases h
  · rcases hhandle : out.handle u.state cmd ctx with ⟨_ | resp, state⟩
    all_goals simp only [Session.handle, hhandle] at h
    · cases h
    · split at h
      · cases h
      · cases h
        refine ⟨rfl, Or.inl ⟨cmd, rfl, rfl, ?_⟩⟩
        dsimp only
        rw [hevents, List.append_assoc]
        rfl

/-- What its last turn adds. -/
theorem commandTurn_last {ctx : ConnectionContext Claims} {ending : Ending}
    (h : commandTurn out p limits ctx s = .inr (ending, t)) :
    (∃ result, t.events = s.events ++ [Event.read result]) ∨
      ∃ cmd, t.events = s.events ++ [Event.read (.ok (some cmd)), .handled cmd ctx] := by
  have hevents := s.parse_events p limits
  unfold commandTurn at h
  rcases hparse : s.parse p limits with ⟨(e | _) | _ | cmd, u⟩
  all_goals
    rw [hparse] at hevents h
    dsimp only at hevents h
  · split at h
    · cases h
      exact Or.inl ⟨_, hevents⟩
    · cases h
  · cases h
    exact Or.inl ⟨_, hevents⟩
  · cases h
    exact Or.inl ⟨_, hevents⟩
  · have hhandled : u.events ++ [Event.handled cmd ctx] =
        s.events ++ [Event.read (.ok (some cmd)), .handled cmd ctx] := by
      rw [hevents, List.append_assoc]
      rfl
    rcases hhandle : out.handle u.state cmd ctx with ⟨_ | resp, state⟩
    all_goals simp only [Session.handle, hhandle] at h
    · cases h
      exact Or.inr ⟨cmd, hhandled⟩
    · split at h
      · cases h
        exact Or.inr ⟨cmd, hhandled⟩
      · cases h

theorem commandTurn_consumes {ctx : ConnectionContext Claims}
    (h : commandTurn out p limits ctx s = .inl t) :
    ∃ used, used ≠ [] ∧ s.reader.flat = used ++ t.reader.flat := by
  obtain ⟨hreader, hturn⟩ := commandTurn_again h
  rw [hreader]
  rcases hturn with ⟨cmd, hparse, -⟩ | ⟨e, hparse, -⟩
  · exact s.parse_consumes p limits (by simp [hparse]) (by simp [hparse])
  · exact s.parse_consumes p limits (by simp [hparse]) (by simp [hparse])

/-- The command loop reads, and counts errors, as `Connection.turn` does. -/
theorem turn_of_commandTurn {ctx : ConnectionContext Claims}
    (h : commandTurn out p limits ctx s = .inl t) :
    ∃ outcome, Connection.turn p limits ⟨s.reader, s.errors⟩ =
      some (outcome, some ⟨t.reader, t.errors⟩) := by
  obtain ⟨hreader, ⟨cmd, hparse, herrors, -⟩ | ⟨e, hparse, herrors, hle, -⟩⟩ := commandTurn_again h
  · have hcall : (parseCommand p limits).call s.reader = (.ok (some cmd), t.reader) :=
      Prod.ext hparse hreader.symm
    refine ⟨.command cmd, ?_⟩
    rw [Connection.turn, hcall, herrors]
  · have hcall : (parseCommand p limits).call s.reader = (.error (.error e), t.reader) :=
      Prod.ext hparse hreader.symm
    refine ⟨.error e.kind, ?_⟩
    rw [herrors] at hle ⊢
    rw [Connection.turn, hcall]
    dsimp only
    rw [if_neg (not_lt.mpr hle)]

/-- The handshake before a turn: its failures are counted, and nothing is granted. -/
structure Handshaking (length : Nat) (s : Session σ Claims) : Prop where
  reader : s.reader.flat.length ≤ length
  counted : s.events.countP Event.isFailure = s.errors
  errors : s.errors ≤ maxConsecutiveErrors
  unprivileged : ∀ e ∈ s.events, e.isPrivileged = false

/-- The handshake at its end. -/
def Concluded (length : Nat) : Except Ending Claims × Session σ Claims → Prop
  | (.error _, t) => ∃ record last, t.events = record ++ [last] ∧
      record.countP Event.isFailure ≤ maxConsecutiveErrors ∧
      ∀ e ∈ t.events, e.isPrivileged = false
  | (.ok claims, t) => t.reader.flat.length ≤ length ∧
      ∃ record token, t.events =
          record ++ [.verified token (some (.ok claims)), .authenticated claims] ∧
        record.countP Event.isFailure ≤ maxConsecutiveErrors ∧
        (∀ e ∈ record, e.isPrivileged = false) ∧ errorRun record = 0

section

variable {length : Nat}

theorem countP_quiet {init : List (Event Claims)} (h : ∀ e ∈ init, e.Quiet) :
    init.countP Event.isFailure = 0 :=
  List.countP_eq_zero.mpr fun e he => by simp [(h e he).1]

theorem Handshaking.again (h : Handshaking length s) (hturn : authTurn out p limits s = .inl t) :
    Handshaking length t := by
  have hattempts := attempts_authTurn out p limits s
  rw [hturn] at hattempts
  obtain ⟨hreader, herrors, hle, init, last, hevents, hinit, hfailure, hlast⟩ := hattempts
  refine ⟨?_, ?_, hle, ?_⟩
  · rw [hreader]
    exact (s.parse_length p limits).trans h.reader
  · rw [hevents, List.countP_append, List.countP_append, countP_quiet hinit, h.counted, herrors,
      List.countP_singleton, hfailure]
    rfl
  · intro e he
    simp only [hevents, List.mem_append, List.mem_singleton] at he
    rcases he with (he | he) | rfl
    · exact h.unprivileged e he
    · exact (hinit e he).2
    · exact hlast

theorem Handshaking.last {r : Except Ending Claims × Session σ Claims}
    (h : Handshaking length s) (hturn : authTurn out p limits s = .inr r) :
    Concluded length r := by
  have hattempts := attempts_authTurn out p limits s
  rw [hturn] at hattempts
  have hcount {init : List (Event Claims)} (hinit : ∀ e ∈ init, e.Quiet) :
      (s.events ++ init).countP Event.isFailure ≤ maxConsecutiveErrors := by
    rw [List.countP_append, countP_quiet hinit, h.counted]
    exact h.errors
  have hquiet {init : List (Event Claims)} (hinit : ∀ e ∈ init, e.Quiet) :
      ∀ e ∈ s.events ++ init, e.isPrivileged = false := by
    intro e he
    rcases List.mem_append.mp he with he | he
    · exact h.unprivileged e he
    · exact (hinit e he).2
  rcases r with ⟨ending | claims, t⟩
  · obtain ⟨init, last, hevents, hinit, hlast⟩ := hattempts
    refine ⟨_, last, hevents, hcount hinit, fun e he => ?_⟩
    rw [hevents] at he
    rcases List.mem_append.mp he with he | he
    · exact hquiet hinit e he
    · rw [List.mem_singleton.mp he]
      exact hlast
  · obtain ⟨hreader, init, token, hevents, hinit, hrun⟩ := hattempts
    refine ⟨?_, _, token, hevents, hcount hinit, hquiet hinit, hrun⟩
    rw [hreader]
    exact (s.parse_length p limits).trans h.reader

end

/-- What happens while commands are served to `ctx`. -/
def Event.Serves (ctx : ConnectionContext Claims) (e : Event Claims) : Prop :=
  e.isRead = true ∨ ∃ cmd, e = .handled cmd ctx

/-- The command loop before a turn, after a handshake that left the record `opening`. -/
structure Serving (ctx : ConnectionContext Claims) (opening : List (Event Claims))
    (s : Session σ Claims) : Prop where
  serves : ∃ later, s.events = opening ++ later ∧ ∀ e ∈ later, e.Serves ctx
  run : errorRun s.events = s.errors
  patient : ∀ first, first <+: s.events → errorRun first ≤ maxConsecutiveErrors

section

variable {ctx : ConnectionContext Claims} {opening events : List (Event Claims)}

theorem patient_concat {e : Event Claims}
    (h : ∀ first, first <+: events → errorRun first ≤ maxConsecutiveErrors)
    (he : errorRun (events ++ [e]) ≤ maxConsecutiveErrors) :
    ∀ first, first <+: events ++ [e] → errorRun first ≤ maxConsecutiveErrors := by
  intro first hfirst
  rcases List.prefix_concat_iff.mp hfirst with rfl | hfirst
  · exact he
  · exact h first hfirst

/-- A command that is handled ends a run of errors. -/
theorem Serving.handled (h : Serving ctx opening s) (cmd : Command)
    (hevents : t.events = s.events ++ [Event.read (.ok (some cmd)), .handled cmd ctx]) :
    errorRun t.events = 0 ∧
      (∀ first, first <+: t.events → errorRun first ≤ maxConsecutiveErrors) ∧
      ∃ later, t.events = opening ++ later ∧ ∀ e ∈ later, e.Serves ctx := by
  obtain ⟨later, hlater, hserves⟩ := h.serves
  have hsplit : t.events =
      s.events ++ [Event.read (.ok (some cmd))] ++ [Event.handled cmd ctx] := by
    rw [hevents, List.append_assoc]
    rfl
  have hread : errorRun (s.events ++ [Event.read (.ok (some cmd))]) = 0 := errorRun_concat_read rfl
  have hrun : errorRun t.events = 0 := by
    rw [hsplit, errorRun_concat_other rfl, hread]
  refine ⟨hrun, ?_, later ++ [Event.read (.ok (some cmd)), .handled cmd ctx], ?_, ?_⟩
  · rw [hsplit] at hrun ⊢
    refine patient_concat (patient_concat h.patient ?_) ?_
    · exact hread.le.trans (Nat.zero_le _)
    · exact hrun.le.trans (Nat.zero_le _)
  · rw [hevents, hlater, List.append_assoc]
  · intro e he
    simp only [List.mem_append, List.mem_cons, List.not_mem_nil, or_false] at he
    rcases he with he | rfl | rfl
    · exact hserves e he
    · exact Or.inl rfl
    · exact Or.inr ⟨cmd, rfl⟩

theorem Serving.read (h : Serving ctx opening s) (result : Except Fault (Option Command)) :
    ∃ later, s.events ++ [Event.read result] = opening ++ later ∧ ∀ e ∈ later, e.Serves ctx := by
  obtain ⟨later, hlater, hserves⟩ := h.serves
  refine ⟨later ++ [Event.read result], by rw [hlater, List.append_assoc], fun e he => ?_⟩
  rcases List.mem_append.mp he with he | he
  · exact hserves e he
  · rw [List.mem_singleton.mp he]
    exact Or.inl rfl

theorem Serving.again (h : Serving ctx opening s)
    (hturn : commandTurn out p limits ctx s = .inl t) : Serving ctx opening t := by
  obtain ⟨-, ⟨cmd, -, herrors, hevents⟩ | ⟨e, -, herrors, hle, hevents⟩⟩ :=
    commandTurn_again hturn
  · obtain ⟨hrun, hpatient, hserves⟩ := h.handled cmd hevents
    exact ⟨hserves, hrun.trans herrors.symm, hpatient⟩
  · have hrun : errorRun t.events = t.errors := by
      rw [hevents, errorRun_concat_read rfl, h.run, herrors]
      rfl
    refine ⟨?_, hrun, ?_⟩
    · rw [hevents]
      exact h.read _
    · rw [← hrun, hevents] at hle
      rw [hevents]
      exact patient_concat h.patient hle

theorem Serving.last {r : Ending × Session σ Claims} (h : Serving ctx opening s)
    (hturn : commandTurn out p limits ctx s = .inr r) :
    (∃ later, r.2.events = opening ++ later ∧ ∀ e ∈ later, e.Serves ctx) ∧
      ClosesAt (maxConsecutiveErrors < errorRun ·) r.2.events := by
  rcases r with ⟨ending, t⟩
  rcases commandTurn_last hturn with ⟨result, hevents⟩ | ⟨cmd, hevents⟩
  · dsimp only
    rw [hevents]
    exact ⟨h.read result, .of_concat fun first hfirst => not_lt.mpr (h.patient first hfirst)⟩
  · obtain ⟨-, hpatient, hserves⟩ := h.handled cmd hevents
    exact ⟨hserves, .of_never fun first hfirst => not_lt.mpr (hpatient first hfirst)⟩

end

/-- No command is handled; or claims are verified, the handshake returns them, and all commands are
handled after that and with just these claims. -/
def Authorised (context : Claims → ConnectionContext Claims) (events : List (Event Claims)) :
    Prop :=
  (∀ e ∈ events, e.isPrivileged = false) ∨
    ∃ record token claims later,
      events = record ++ .verified token (some (.ok claims)) :: .authenticated claims :: later ∧
        (∀ e ∈ record, e.isPrivileged = false) ∧ ∀ e ∈ later, e.Serves (context claims)

/-- The handshake is not over, after more failures than it bears. -/
def Exhausted (events : List (Event Claims)) : Prop :=
  (∀ e ∈ events, e.isPrivileged = false) ∧
    maxConsecutiveErrors < events.countP Event.isFailure

/-- What a whole connection keeps to. -/
structure Disciplined (context : Claims → ConnectionContext Claims) (events : List (Event Claims)) :
    Prop where
  authorised : Authorised context events
  errors : ClosesAt (maxConsecutiveErrors < errorRun ·) events
  failures : ClosesAt Exhausted events

section

variable {context : Claims → ConnectionContext Claims} {record : List (Event Claims)}

theorem Disciplined.nil : Disciplined context ([] : List (Event Claims)) where
  authorised := Or.inl (by simp)
  errors := by
    rintro first rest hempty -
    exact (List.append_eq_nil_iff.mp hempty.symm).2
  failures := by
    rintro first rest hempty -
    exact (List.append_eq_nil_iff.mp hempty.symm).2

/-- A connection that ends in the handshake. -/
theorem Disciplined.refused {last : Event Claims}
    (hcount : record.countP Event.isFailure ≤ maxConsecutiveErrors)
    (hquiet : ∀ e ∈ record ++ [last], e.isPrivileged = false) :
    Disciplined context (record ++ [last]) := by
  have hcloses : ClosesAt (maxConsecutiveErrors < List.countP Event.isFailure ·)
      (record ++ [last]) :=
    .of_concat fun first hfirst => not_lt.mpr (hfirst.sublist.countP_le.trans hcount)
  refine ⟨Or.inl hquiet, hcloses.mono fun first hrun => ?_, hcloses.mono fun first h => h.2⟩
  exact hrun.trans_le (errorRun_le_countP first)

/-- A connection on which commands are served. -/
theorem Disciplined.served {token : String} {claims : Claims} {later : List (Event Claims)}
    (hcount : record.countP Event.isFailure ≤ maxConsecutiveErrors)
    (hquiet : ∀ e ∈ record, e.isPrivileged = false)
    (hserves : ∀ e ∈ later, e.Serves (context claims))
    (hcloses : ClosesAt (maxConsecutiveErrors < errorRun ·)
      (record ++ [Event.verified token (some (.ok claims)), .authenticated claims] ++ later)) :
    Disciplined context
      (record ++ [Event.verified token (some (.ok claims)), .authenticated claims] ++ later) := by
  refine ⟨Or.inr ⟨record, token, claims, later, by simp, hquiet, hserves⟩, hcloses, ?_⟩
  refine .of_never fun first hfirst ⟨hopen, hexhausted⟩ => ?_
  -- the record of a handshake that is not over ends before the claims are granted
  have hgrant : record ++ [Event.verified token (some (.ok claims))] ++
      [Event.authenticated claims] <+:
        record ++ [Event.verified token (some (.ok claims)), .authenticated claims] ++ later := by
    simp
  have hle : first <+: record ++ [Event.verified token (some (.ok claims))] := by
    rcases List.prefix_or_prefix_of_prefix hfirst hgrant with hpre | hpre
    · rcases List.prefix_concat_iff.mp hpre with rfl | hpre
      · exact absurd (hopen (.authenticated claims) (by simp)) Bool.true_eq_false.mp
      · exact hpre
    · have hmem : .authenticated claims ∈ first := hpre.mem (by simp)
      exact absurd (hopen _ hmem) Bool.true_eq_false.mp
  have hfew : first.countP Event.isFailure ≤ maxConsecutiveErrors := by
    refine hle.sublist.countP_le.trans ?_
    rw [List.countP_append, List.countP_singleton]
    exact hcount
  exact absurd hexhausted (not_lt.mpr hfew)

end

theorem length_lt_of_used (h : ∃ used, used ≠ [] ∧ s.reader.flat = used ++ t.reader.flat) :
    t.reader.flat.length < s.reader.flat.length := by
  obtain ⟨used, hused, hflat⟩ := h
  have hpos := List.length_pos_iff.mpr hused
  rw [hflat, List.length_append]
  omega

section

variable (out p limits)

theorem handshake_total {length : Nat} (h : Handshaking length s) :
    ∃ r, Concluded length r ∧ ∀ turns, s.reader.flat.length < turns →
      Loop.run (authTurn out p limits) turns s = .inr r := by
  refine Loop.run_total (fun s => s.reader.flat.length) (fun s t hs hturn => ?_)
    (fun s r hs hturn => hs.last hturn) h
  exact ⟨hs.again hturn, length_lt_of_used (authTurn_consumes hturn)⟩

theorem commands_total {ctx : ConnectionContext Claims} {opening : List (Event Claims)}
    (h : Serving ctx opening s) :
    ∃ r, ((∃ later, r.2.events = opening ++ later ∧ ∀ e ∈ later, e.Serves ctx) ∧
        ClosesAt (maxConsecutiveErrors < errorRun ·) r.2.events) ∧
      ∀ turns, s.reader.flat.length < turns →
        Loop.run (commandTurn out p limits ctx) turns s = .inr r := by
  refine Loop.run_total (fun s => s.reader.flat.length) (fun s t hs hturn => ?_)
    (fun s r hs hturn => hs.last hturn) h
  exact ⟨hs.again hturn, length_lt_of_used (commandTurn_consumes hturn)⟩

/-- The command loop starts with no error counted. -/
theorem serving_of_concluded (ctx : ConnectionContext Claims) {claims : Claims}
    {record : List (Event Claims)} {token : String}
    (hevents : t.events =
      record ++ [Event.verified token (some (.ok claims)), .authenticated claims])
    (hcount : record.countP Event.isFailure ≤ maxConsecutiveErrors)
    (hrun : errorRun record = 0) : Serving ctx t.events { t with errors := 0 } := by
  have hsplit : t.events =
      record ++ [Event.verified token (some (.ok claims))] ++ [Event.authenticated claims] := by
    rw [hevents, List.append_assoc]
    rfl
  refine ⟨⟨[], by simp, by simp⟩, ?_, ?_⟩
  · dsimp only
    rw [hsplit, errorRun_concat_other rfl, errorRun_concat_other rfl, hrun]
  · intro first hfirst
    refine (errorRun_le_countP first).trans (hfirst.sublist.countP_le.trans ?_)
    dsimp only
    rw [hevents, List.countP_append]
    exact hcount

theorem handleConnection_total (peerAddr : String) (connId : UInt64) (input : Chunks UInt8)
    (state : σ) :
    ∃ ending t,
      (∀ turns, input.flat.length < turns →
        handleConnection out p limits peerAddr connId turns input state = some (ending, t)) ∧
      Disciplined (fun claims => ⟨peerAddr, connId, some claims⟩) t.events := by
  rcases hbanner : out.writeBanner state with ⟨e | ⟨⟩, state'⟩
  · refine ⟨.returned (.error e), ⟨input, state', 0, []⟩, fun turns _ => ?_, .nil⟩
    simp only [handleConnection, hbanner]
  · have hstart : Handshaking input.flat.length
        (⟨input, state', 0, []⟩ : Session σ Claims) := ⟨le_rfl, rfl, Nat.zero_le _, by simp⟩
    obtain ⟨⟨ending | claims, t⟩, hconcluded, hshake⟩ := handshake_total out p limits hstart
    · obtain ⟨record, last, hevents, hcount, hquiet⟩ := hconcluded
      refine ⟨ending, t, fun turns hturns => ?_, ?_⟩
      · simp only [handleConnection, hbanner, hshake turns hturns]
      · rw [hevents] at hquiet ⊢
        exact .refused hcount hquiet
    · obtain ⟨hlength, record, token, hevents, hcount, hquiet, hrun⟩ := hconcluded
      have hserving : Serving ⟨peerAddr, connId, some claims⟩ t.events { t with errors := 0 } :=
        serving_of_concluded _ hevents hcount hrun
      obtain ⟨⟨ending, u⟩, ⟨⟨later, hlater, hserves⟩, hcloses⟩, hserve⟩ :=
        commands_total out p limits hserving
      refine ⟨ending, u, fun turns hturns => ?_, ?_⟩
      · simp only [handleConnection, hbanner, hshake turns hturns,
          hserve turns (hlength.trans_lt hturns)]
      · dsimp only at hlater hcloses
        rw [hlater, hevents] at hcloses ⊢
        exact .served hcount hquiet hserves hcloses

end

/-- On every finite input, and whatever the authenticator, the handler and the client's end do,
each turn of either loop that leads to another uses up some input, and the connection comes to an
end. Commands are only handled after the handshake has returned claims that were verified on this
connection, and with just these claims; never after more than ten errors of the parser in a row, of
which the eleventh is the last that happens, as is the eleventh failure of a handshake. -/
theorem connection_disciplined (out : Outside σ Claims) (p : Platform) (limits : Limits)
    (peerAddr : String) (connId : UInt64) (input : Chunks UInt8) (state : σ) :
    (∀ s t, authTurn out p limits s = .inl t →
      ∃ used, used ≠ [] ∧ s.reader.flat = used ++ t.reader.flat) ∧
    (∀ ctx s t, commandTurn out p limits ctx s = .inl t →
      ∃ used, used ≠ [] ∧ s.reader.flat = used ++ t.reader.flat) ∧
    ∃ ending t,
      (∀ turns, input.flat.length < turns →
        handleConnection out p limits peerAddr connId turns input state = some (ending, t)) ∧
      Disciplined (fun claims => ⟨peerAddr, connId, some claims⟩) t.events ∧
      ∀ before cmd ctx after, t.events = before ++ .handled cmd ctx :: after →
        ∀ first, first <+: before → errorRun first ≤ maxConsecutiveErrors := by
  refine ⟨fun s t => authTurn_consumes, fun ctx s t => commandTurn_consumes, ?_⟩
  obtain ⟨ending, t, hends, hdisciplined⟩ :=
    handleConnection_total out p limits peerAddr connId input state
  refine ⟨ending, t, hends, hdisciplined, ?_⟩
  rintro before cmd ctx after hevents first ⟨rest, rfl⟩
  by_contra hrun
  rw [List.append_assoc] at hevents
  have hrest := hdisciplined.errors first _ hevents (not_le.mp hrun)
  simp at hrest

/-- After the handshake, a command is still handled after ten lines of garbage but not after
eleven. -/
example :
    let out : Outside Unit String :=
      ⟨fun _ _ => (.ok (), ()), fun _ => (.ok (), ()), fun _ token => (some (.ok token), ()),
        fun _ _ => (none, ()), fun _ _ _ => (some (.simple "PONG"), ())⟩
    let input (lines : Nat) : Bytes := "*2\r\n$4\r\nAUTH\r\n$3\r\ntok\r\n".asBytes ++
      (List.replicate lines "INVALID_GARBAGE\r\n".asBytes).flatten ++ "*1\r\n$4\r\nPING\r\n".asBytes
    let handled (lines : Nat) : Option (List String) :=
      (handleConnection out ⟨false, id, id⟩ .default "" 0 20 (Chunks.push (input lines) []) ()).map
        fun r => r.2.events.filterMap fun
          | .handled cmd _ => some cmd.name
          | _ => none
    handled 10 = some ["PING"] ∧ handled 11 = some [] := by
  decide +kernel

end BashfulDB.Protocol

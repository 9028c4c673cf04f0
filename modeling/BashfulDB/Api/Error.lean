import BashfulDB.Auth.Rbac
import BashfulDB.Replication.Replica

/-! The errors of the HTTP layer, what they answer, and the errors below that they stand for. -/
namespace BashfulDB.Api

open Auth Clock Data Replication

/-- The renderings that the standard library supplies. -/
structure Format where
  /-- `{:?}` of a string. -/
  debugStr : String → String
  /-- `{}` of a double. -/
  displayF64 : F64 → String

def hexDigits (n : Nat) : String := String.ofList (Nat.toDigits 16 n)

section

variable (fmt : Format)

def displayDocumentError : DocumentError → String
  | .nestingDepthExceeded depth max => s!"nesting depth exceeded: {depth} > {max}"
  | .valueTooLarge kind size max => s!"{kind} size {size} exceeds maximum {max}"
  | .arrayTooLarge count max => s!"array has {count} elements, maximum is {max}"
  | .objectTooManyKeys count max => s!"object has {count} keys, maximum is {max}"
  | .invalidName name =>
    "invalid name " ++ fmt.debugStr name ++ ": must match [a-z0-9_]\x7b1,64\x7d"
  | .reservedName name => "name " ++ fmt.debugStr name ++ " is reserved"
  | .notAnObject actual => s!"document top-level value must be an Object, got {actual}"
  | .unknownTypeTag tag =>
    "unknown type tag: 0x" ++ (if tag < 16 then "0" else "") ++ hexDigits tag.toNat
  | .unexpectedEof offset => s!"unexpected end of input at offset {offset}"
  | .invalidUtf8 offset => s!"invalid UTF-8 at offset {offset}"
  | .nonFiniteFloat value => "non-finite float value: " ++ fmt.displayF64 value
  | .unsupportedCodecVersion version => s!"unsupported codec version: {version}"
  | .trailingBytes offset count =>
    s!"trailing bytes: {count} bytes remaining after offset {offset}"
  | .keyTooLarge size max => s!"object key size {size} exceeds maximum {max}"

def displayClockError : ClockError → String
  | .vectorClockCapacityExceeded => "vector clock capacity exceeded (max 4096 entries)"
  | .logicalOverflow physicalMs => s!"logical counter overflow at physical_ms={physicalMs}"
  | .physicalOverflow physicalMs => s!"physical_ms {physicalMs} exceeds 48-bit limit"

def displayReplicationError : ReplicationError → String
  | .insufficientReplicas needed available =>
    s!"insufficient replicas: need {needed}, got {available}"
  | .idempotencyConflict =>
    "idempotency conflict: same key submitted with a different payload"
  | .transportError message => s!"transport error: {message}"
  | .clock e => "clock error: " ++ displayClockError e
  | .vectorClock e => "vector clock error: " ++ displayClockError e

def displayAuthError : AuthError → String
  | .invalidCredentials => "invalid credentials"
  | .tokenExpired => "token expired"
  | .invalidToken reason => s!"invalid token: {reason}"
  | .tokenRevoked => "token revoked"
  | .permissionDenied action resource => s!"permission denied: {action.debug} on {resource}"
  | .userNotFound username => "user not found: " ++ fmt.debugStr username
  | .userAlreadyExists username => "user already exists: " ++ fmt.debugStr username
  | .weakPassword reason => s!"password too weak: {reason}"
  | .internal message => s!"auth internal error: {message}"

end

inductive ApiError
  | badRequest (message : String)
  | unauthorized (message : String)
  | forbidden (message : String)
  | notFound (message : String)
  | conflict (message : String)
  | preconditionFailed (message : String)
  | tooManyRequests (message : String)
  | gatewayTimeout (message : String)
  | internal (message : String)
  deriving DecidableEq

namespace ApiError

def statusAndCode : ApiError → Nat × String
  | .badRequest _ => (400, "BAD_REQUEST")
  | .unauthorized _ => (401, "UNAUTHORIZED")
  | .forbidden _ => (403, "FORBIDDEN")
  | .notFound _ => (404, "NOT_FOUND")
  | .conflict _ => (409, "CONFLICT")
  | .preconditionFailed _ => (412, "PRECONDITION_FAILED")
  | .tooManyRequests _ => (429, "TOO_MANY_REQUESTS")
  | .gatewayTimeout _ => (504, "GATEWAY_TIMEOUT")
  | .internal _ => (500, "INTERNAL_SERVER_ERROR")

def display : ApiError → String
  | .badRequest m => s!"bad request: {m}"
  | .unauthorized m => s!"unauthorized: {m}"
  | .forbidden m => s!"forbidden: {m}"
  | .notFound m => s!"not found: {m}"
  | .conflict m => s!"conflict: {m}"
  | .preconditionFailed m => s!"precondition failed: {m}"
  | .tooManyRequests m => s!"too many requests: {m}"
  | .gatewayTimeout m => s!"gateway timeout: {m}"
  | .internal m => s!"internal server error: {m}"

def ofAuth (fmt : Format) : AuthError → ApiError
  | .invalidCredentials => .unauthorized "invalid credentials"
  | .tokenExpired => .unauthorized "token expired"
  | .invalidToken reason => .unauthorized s!"invalid token: {reason}"
  | .tokenRevoked => .unauthorized "token revoked"
  | .permissionDenied action resource =>
    .forbidden s!"permission denied: {action.debug} on {resource}"
  | .userNotFound username => .notFound s!"user not found: {username}"
  | other => .internal (displayAuthError fmt other)

def ofReplication : ReplicationError → ApiError
  | .insufficientReplicas needed available =>
    .gatewayTimeout (displayReplicationError (.insufficientReplicas needed available))
  | .idempotencyConflict => .conflict "idempotency key reused with different payload"
  | other => .internal (displayReplicationError other)

def ofDocument (fmt : Format) (e : DocumentError) : ApiError :=
  .badRequest (displayDocumentError fmt e)

end ApiError

end BashfulDB.Api

import BashfulDB.Library.Bytes
import BashfulDB.Library.Chunks
import BashfulDB.Library.Digits
import BashfulDB.Library.Text

/-! The RESP parser, over input that arrives in pieces. Sizes are those of a 64-bit target. -/
namespace BashfulDB.Protocol

inductive ProtocolError
  | lineTooLong (len : Nat) (max : UInt64)
  | bulkTooLarge (len : Nat) (max : UInt64)
  | malformed (message : String)
  | unexpectedEof
  | nestingTooDeep (max : Nat)
  | unknownType (byte : UInt8)
  deriving DecidableEq

/-- Why a call returned no value: a `ProtocolError`, or a panic. -/
inductive Fault
  | error (e : ProtocolError)
  | panic
  deriving DecidableEq

def maxNestingDepth : Nat := 8

inductive RespFrame
  | simpleString (text : String)
  | error (text : String)
  | integer (n : Int64)
  | bulk (data : Option Bytes)
  | array (elements : Option (List RespFrame))
  | warning (text : String)

structure Command where
  name : String
  args : List Bytes
  deriving DecidableEq

structure Limits where
  maxLine : UInt64
  maxBulk : UInt64

/-- `DEFAULT_MAX_LINE_LENGTH` and `DEFAULT_MAX_BULK_LENGTH`. -/
def Limits.default : Limits := ⟨1048576, 16777216⟩

/-- What the parser gets from its build and from the standard library. -/
structure Platform where
  /-- Whether an overflow panics, as in a debug build, or wraps around. -/
  overflowChecks : Bool
  /-- The format `{:?}` of a string. -/
  debug : String → String
  /-- `str::to_uppercase`. -/
  toUppercase : String → String

abbrev ParseM := ReadM UInt8 Fault

def newline : UInt8 := 0x0A

def crlf : Bytes := [0x0D, newline]

section

variable (p : Platform) (limits : Limits)

/-- `max_len + 2`. -/
def lineLimit (maxLen : UInt64) : Option Nat :=
  if maxLen.toNat + 2 < UInt64.size then some (maxLen.toNat + 2)
  else if p.overflowChecks then none
  else some (maxLen + 2).toNat

/-- How far the line goes in a piece, and whether it ends there. -/
def lineEnd (available : Bytes) : Nat × Bool :=
  match available.findIdx? (· == newline) with
  | some pos => (pos + 1, true)
  | none => (available.length, false)

/-- The loop of `read_line_limited`. A piece without a newline is consumed whole. -/
def readLineLoop (maxLen : UInt64) :
    Bytes → Chunks UInt8 → Except Fault (Option Bytes) × Chunks UInt8
  | buf, [] => (if buf.isEmpty then .ok none else .error (.error .unexpectedEof), [])
  | buf, available :: cs =>
    let (stop, found) := lineEnd available.val
    let newTotal := buf.length + stop
    match lineLimit p maxLen with
    | none => (.error .panic, available :: cs)
    | some limit =>
      let rest := Chunks.push (available.val.drop stop) cs
      if newTotal > limit then (.error (.error (.lineTooLong newTotal maxLen)), rest)
      else if found then (.ok (some (buf ++ available.val.take stop)), rest)
      else readLineLoop maxLen (buf ++ available.val.take stop) cs

def stripLineEnd (buf : Bytes) : Bytes :=
  if crlf.isSuffixOf buf then buf.take (buf.length - 2)
  else if [newline].isSuffixOf buf then buf.take (buf.length - 1)
  else buf

def fromUtf8 (message : String) (buf : Bytes) : Except Fault String :=
  match String.fromUTF8? ⟨buf.toArray⟩ with
  | some s => .ok s
  | none => .error (.error (.malformed message))

def readLineLimited (maxLen : UInt64) : ParseM (Option String) := do
  match ← ReadM.of (readLineLoop p maxLen []) with
  | none => return none
  | some buf =>
    let line ← liftM (fromUtf8 "invalid UTF-8 in RESP line" (stripLineEnd buf))
    return some line

/-- `read_exact`. -/
def readExact (len : Nat) : ParseM Bytes := ReadM.exactly (.error .unexpectedEof) len

/-- The type byte of a header and its payload `&header[1..]`. -/
def splitHeader (header : String) : Except Fault (UInt8 × String) :=
  match header.asBytes with
  | [] => .error (.error (.malformed "received empty RESP header line"))
  | typeByte :: _ =>
    match Text.sliceFrom header 1 with
    | none => .error .panic
    | some payload => .ok (typeByte, payload)

def parseNumber (what payload : String) : Except Fault Int64 :=
  match Digits.parseI64 payload with
  | none => .error (.error (.malformed ("invalid " ++ what ++ ": " ++ p.debug payload)))
  | some n => .ok n

def warningSentinel : String := "_warning "

/-- The payload of a `+` line, by `strip_prefix`. -/
def parseSimple (payload : String) : RespFrame :=
  if warningSentinel.toList.isPrefixOf payload.toList then
    .warning (String.ofList (payload.toList.drop warningSentinel.toList.length))
  else .simpleString payload

def parseBulk (payload : String) : ParseM RespFrame := do
  let len ← liftM (parseNumber p "bulk length" payload)
  if len < 0 then return .bulk none
  else
    let len := len.toInt.toNat
    if len > limits.maxBulk.toNat then throw (.error (.bulkTooLarge len limits.maxBulk))
    else
      let data ← readExact len
      let ending ← readExact 2
      if ending ≠ crlf then throw (.error (.malformed "expected CRLF after bulk string data"))
      else return .bulk (some data)

/-- The loop over the elements of an array, around the parser for one element. -/
def parseElements (parse : ParseM (Option RespFrame)) : Nat → ParseM (List RespFrame)
  | 0 => return []
  | count + 1 => do
    match ← parse with
    | none => throw (.error .unexpectedEof)
    | some elem =>
      let elements ← parseElements parse count
      return elem :: elements

def parseArray (parse : ParseM (Option RespFrame)) (payload : String) : ParseM RespFrame := do
  let count ← liftM (parseNumber p "array count" payload)
  if count < 0 then return .array none
  else
    let elements ← parseElements parse count.toInt.toNat
    return .array (some elements)

/-- A frame after its header line; `parse` reads an element of an array. -/
def parseBody (parse : ParseM (Option RespFrame)) (header : String) : ParseM RespFrame := do
  let (typeByte, payload) ← liftM (splitHeader header)
  if typeByte = '+'.toUInt8 then return parseSimple payload
  else if typeByte = '-'.toUInt8 then return .error payload
  else if typeByte = ':'.toUInt8 then
    let n ← liftM (parseNumber p "integer" payload)
    return .integer n
  else if typeByte = '$'.toUInt8 then parseBulk p limits payload
  else if typeByte = '*'.toUInt8 then parseArray p parse payload
  else throw (.error (.unknownType typeByte))

/-- `parse_frame_inner`, by the levels of nesting still allowed. -/
def parseFrameInner : (levels : Nat) → ParseM (Option RespFrame)
  | 0 => throw (.error (.nestingTooDeep maxNestingDepth))
  | levels + 1 => do
    match ← readLineLimited p limits.maxLine with
    | none => return none
    | some header =>
      let frame ← parseBody p limits (parseFrameInner levels) header
      return some frame

def parseFrame : ParseM (Option RespFrame) := parseFrameInner p limits (maxNestingDepth + 1)

def parseArg : RespFrame → Except Fault Bytes
  | .bulk (some b) => .ok b
  | .bulk none => .ok []
  | .simpleString s => .ok s.asBytes
  | _ => .error (.error (.malformed "command arguments must be bulk strings"))

def parseName : RespFrame → Except Fault String
  | .bulk (some b) => fromUtf8 "command name is not valid UTF-8" b
  | .simpleString s => .ok s
  | _ => .error (.error (.malformed "command name must be a bulk string"))

def frameArrayToCommand : List RespFrame → Except Fault Command
  | [] => .error (.error (.malformed "command array is empty"))
  | nameRaw :: rest => do
    let name ← parseName nameRaw
    let args ← rest.mapM parseArg
    return ⟨p.toUppercase name, args⟩

def commandOf : Option RespFrame → Except Fault (Option Command)
  | none => .ok none
  | some (.array (some [])) => .error (.error (.malformed "command array must not be empty"))
  | some (.array (some elements)) => (frameArrayToCommand p elements).map some
  | some (.array none) => .error (.error (.malformed "null array is not a valid command"))
  | some _ => .error (.error (.malformed "commands must be sent as RESP arrays"))

def parseCommand : ParseM (Option Command) := do
  let frame ← parseFrame p limits
  liftM (commandOf p frame)

end

end BashfulDB.Protocol

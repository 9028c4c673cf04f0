import BashfulDB.Protocol.Parser

/-! The RESP serialiser. -/
namespace BashfulDB.Protocol

inductive Response
  | simple (text : String)
  | error (text : String)
  | integer (n : Int64)
  | bulk (data : Option Bytes)
  | array (items : List Response)
  | warning (text : String)

mutual

def writeToBuf : Response → Bytes → Bytes
  | .simple s, buf => buf ++ ['+'.toUInt8] ++ s.asBytes ++ crlf
  | .error s, buf => buf ++ ['-'.toUInt8] ++ s.asBytes ++ crlf
  | .integer n, buf => buf ++ [':'.toUInt8] ++ (toString n.toInt).asBytes ++ crlf
  | .bulk none, buf => buf ++ "$-1\r\n".asBytes
  | .bulk (some data), buf =>
    buf ++ ['$'.toUInt8] ++ (toString data.length).asBytes ++ crlf ++ data ++ crlf
  | .array items, buf =>
    writeItems items (buf ++ ['*'.toUInt8] ++ (toString items.length).asBytes ++ crlf)
  | .warning s, buf => buf ++ "+_warning ".asBytes ++ s.asBytes ++ crlf

/-- The loop over the items of an array. -/
def writeItems : List Response → Bytes → Bytes
  | [], buf => buf
  | item :: items, buf => writeItems items (writeToBuf item buf)

end

def serializeResponse (resp : Response) : Bytes := writeToBuf resp []

mutual

theorem writeToBuf_append : ∀ (r : Response) (buf : Bytes),
    writeToBuf r buf = buf ++ writeToBuf r []
  | .simple s, buf => by simp [writeToBuf]
  | .error s, buf => by simp [writeToBuf]
  | .integer n, buf => by simp [writeToBuf]
  | .bulk none, buf => by simp [writeToBuf]
  | .bulk (some data), buf => by simp [writeToBuf]
  | .array items, buf => by
    rw [writeToBuf, writeToBuf, writeItems_append, writeItems_append items (_ ++ crlf)]
    simp
  | .warning s, buf => by simp [writeToBuf]

theorem writeItems_append : ∀ (items : List Response) (buf : Bytes),
    writeItems items buf = buf ++ writeItems items []
  | [], buf => by simp [writeItems]
  | item :: items, buf => by
    rw [writeItems, writeItems, writeItems_append items, writeToBuf_append item,
      writeItems_append items (writeToBuf item []), List.append_assoc]

end

end BashfulDB.Protocol

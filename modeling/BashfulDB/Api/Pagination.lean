import BashfulDB.Api.Filter
import BashfulDB.Library.Base64

/-! Cursors and pages, and the handler that lists the objects of a collection. -/
namespace BashfulDB.Api

open Auth Data

structure PageInfo where
  nextCursor : Option String
  count : Nat

def encodeCursor (id : ObjectId) : String := Base64.encode (Bytes.ofNat 16 id.uuid.bits.toNat)

def decodeCursor (cursor : String) : Option ObjectId :=
  (Base64.decode cursor).bind fun bytes =>
    if bytes.length = 16 then some ⟨⟨BitVec.ofNat 128 (Bytes.toNat bytes)⟩⟩ else none

def parseCursorParam (s : Option String) : Except ApiError (Option ObjectId) :=
  match s with
  | none => .ok none
  | some c =>
    match decodeCursor c with
    | some id => .ok (some id)
    | none => .error (.badRequest s!"invalid cursor: {c}")

def effectiveLimit (requested : Option Nat) (default max : Nat) : Nat :=
  min (requested.getD default) max

/-- A cursor that is not in the list starts from its beginning. -/
def paginateIds (allIds : List ObjectId) (cursor : Option ObjectId) (limit : Nat) :
    List ObjectId × Option String :=
  let start := match cursor with
    | none => 0
    | some afterId => ((allIds.findIdx? (· = afterId)).map (· + 1)).getD 0
  let page := (allIds.drop start).take limit
  let nextCursor := if start + limit < allIds.length then page.getLast?.map encodeCursor else none
  (page, nextCursor)

structure ApiConfig where
  defaultPageSize : Nat
  maxPageSize : Nat

def ApiConfig.default : ApiConfig := ⟨100, 1000⟩

structure ListQuery where
  cursor : Option String
  limit : Option Nat
  filterField : Option String

structure ListResponse where
  items : List JsonValue
  pagination : PageInfo

def PageInfo.toJson (p : PageInfo) : JsonValue :=
  .object [("next_cursor", p.nextCursor.elim .null .string),
    ("count", .number (.posInt (UInt64.ofNat p.count)))]

def ListResponse.toJson (r : ListResponse) : JsonValue :=
  .object [("items", .array r.items), ("pagination", r.pagination.toJson)]

/-- The listing of the ids comes from nowhere yet: it is always empty. -/
def listObjects (libs : Libs) (schema : Schema.SchemaManager) (config : ApiConfig)
    (path : ObjectPath) (query : ListQuery) (claims : Claims) : Except ApiError Response := do
  admission libs path claims .read
  guardQuery schema (collectionKey path) query.filterField
  let limit := effectiveLimit query.limit config.defaultPageSize config.maxPageSize
  let afterId ← parseCursorParam query.cursor
  let (pageIds, nextCursor) := paginateIds [] afterId limit
  let items := pageIds.map fun id => JsonValue.object [("_id", .string (toString id))]
  .ok ⟨200, none, none, some (ListResponse.toJson ⟨items, ⟨nextCursor, items.length⟩⟩)⟩

theorem decodeCursor_encodeCursor (id : ObjectId) : decodeCursor (encodeCursor id) = some id := by
  have hlt : id.uuid.bits.toNat < 256 ^ 16 := id.uuid.bits.isLt
  rw [decodeCursor, encodeCursor, Base64.decode_encode, Option.bind_some,
    if_pos (Bytes.length_ofNat _ _), Bytes.toNat_ofNat hlt, BitVec.ofNat_toNat, BitVec.setWidth_eq]

/-- Every page is the empty one. -/
theorem listObjects_ok {libs : Libs} {schema : Schema.SchemaManager} {config : ApiConfig}
    {path : ObjectPath} {query : ListQuery} {claims : Claims} {response : Response}
    (h : listObjects libs schema config path query claims = .ok response) :
    response = ⟨200, none, none, some (ListResponse.toJson ⟨[], none, 0⟩)⟩ := by
  obtain ⟨_, -, h⟩ := Except.bind_eq_ok.mp h
  obtain ⟨_, -, h⟩ := Except.bind_eq_ok.mp h
  obtain ⟨afterId, -, h⟩ := Except.bind_eq_ok.mp h
  simpa [paginateIds] using h.symm

end BashfulDB.Api

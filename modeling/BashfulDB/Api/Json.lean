import BashfulDB.Api.Error
import BashfulDB.Library.Except

/-! JSON trees as `serde_json` keeps them, and their conversion to and from stored values. -/
namespace BashfulDB.Api

open Data

/-- The double nearest to `n < 2 ^ 64`, ties going to the even significand. -/
def f64OfNat (n : Nat) : F64 :=
  if n = 0 then ⟨0⟩
  else
    let exponent := n.log2
    let significand :=
      if exponent ≤ 52 then n <<< (52 - exponent)
      else
        let shift := exponent - 52
        let quotient := n >>> shift
        let rest := n % 2 ^ shift
        if rest > 2 ^ (shift - 1) || (rest = 2 ^ (shift - 1) && quotient % 2 = 1) then quotient + 1
        else quotient
    -- A significand rounded up to `2 ^ 53` carries into the exponent field.
    ⟨UInt64.ofNat ((exponent + 1023) * 2 ^ 52 + (significand - 2 ^ 52))⟩

def f64OfInt (i : Int) : F64 :=
  if i < 0 then ⟨(f64OfNat i.natAbs).bits ||| (1 : UInt64) <<< 63⟩ else f64OfNat i.natAbs

/-- A number without arbitrary precision: negative only as `negInt`, never a non-finite float. -/
inductive JsonNumber
  | posInt (n : UInt64)
  | negInt (i : Int64) (neg : i < 0)
  | float (f : F64) (finite : f.isFinite = true)

namespace JsonNumber

def asI64 : JsonNumber → Option Int64
  | .posInt n => if n.toNat < 2 ^ 63 then some (Int64.ofNat n.toNat) else none
  | .negInt i _ => some i
  | .float _ _ => none

def asF64 : JsonNumber → Option F64
  | .posInt n => some (f64OfNat n.toNat)
  | .negInt i _ => some (f64OfInt i.toInt)
  | .float f _ => some f

def ofI64 (i : Int64) : JsonNumber :=
  if h : i < 0 then .negInt i h else .posInt i.toUInt64

end JsonNumber

/-- A map keeps its entries in its own iteration order, which is that of a `BTreeMap`. -/
inductive JsonValue
  | null
  | bool (b : Bool)
  | number (n : JsonNumber)
  | string (s : String)
  | array (items : List JsonValue)
  | object (entries : List (String × JsonValue))

namespace JsonValue

/-- Structural induction, with the hypothesis for every item and every entry of a container. -/
@[elab_as_elim]
theorem induct {P : JsonValue → Prop} (null : P .null) (bool : ∀ b, P (.bool b))
    (number : ∀ n, P (.number n)) (string : ∀ s, P (.string s))
    (array : ∀ items, (∀ j ∈ items, P j) → P (.array items))
    (object : ∀ entries, (∀ e ∈ entries, P e.2) → P (.object entries)) (j : JsonValue) : P j :=
  @JsonValue.rec P (fun items => ∀ j ∈ items, P j) (fun entries => ∀ e ∈ entries, P e.2)
    (fun e => P e.2) null bool number string array object
    (by simp) (fun _ _ hj hl => List.forall_mem_cons.mpr ⟨hj, hl⟩)
    (by simp) (fun _ _ he hl => List.forall_mem_cons.mpr ⟨he, hl⟩) (fun _ _ hj => hj) j

/-- Every map, at every depth, is in the order of a `BTreeMap`. -/
inductive Ordered : JsonValue → Prop
  | null : Ordered .null
  | bool (b : Bool) : Ordered (.bool b)
  | number (n : JsonNumber) : Ordered (.number n)
  | string (s : String) : Ordered (.string s)
  | array {items : List JsonValue} : (∀ j ∈ items, Ordered j) → Ordered (.array items)
  | object {entries : List (String × JsonValue)} : Entries.Ascending entries →
      (∀ e ∈ entries, Ordered e.2) → Ordered (.object entries)

/-- The number stands somewhere in the tree. -/
inductive Holds (n : JsonNumber) : JsonValue → Prop
  | number : Holds n (.number n)
  | item {items : List JsonValue} {j : JsonValue} : j ∈ items → Holds n j → Holds n (.array items)
  | entry {entries : List (String × JsonValue)} {e : String × JsonValue} : e ∈ entries →
      Holds n e.2 → Holds n (.object entries)

end JsonValue

mutual

/-- What `#[derive(Serialize)]` makes of a value: every variant under its own tag. -/
def toValue : RawValue → JsonValue
  | .null => .string "Null"
  | .bool b => .object [("Bool", .bool b)]
  | .int i => .object [("Int", .number (.ofI64 i))]
  | .float f => .object [("Float", if h : f.isFinite = true then .number (.float f h) else .null)]
  | .string s => .object [("String", .string s)]
  | .blob b => .object [("Blob", .array (b.map fun x => .number (.posInt x.toUInt64)))]
  | .array items => .object [("Array", .array (toValues items))]
  | .object entries => .object [("Object", .object (toEntries entries))]

def toValues : List RawValue → List JsonValue
  | [] => []
  | v :: items => toValue v :: toValues items

def toEntries : List (String × RawValue) → List (String × JsonValue)
  | [] => []
  | (k, v) :: entries => (k, toValue v) :: toEntries entries

end

def docToJson (doc : Document) : JsonValue :=
  let obj := match toValue doc.data.val with
    | .object m => m
    | _ => []
  .object (Entries.insert "_id" (.string (toString doc.id)) obj)

section

variable (display : JsonNumber → String)

mutual

/-- `json_to_value`, before its result is known to be ordered. -/
def jsonToRaw : JsonValue → Except ApiError RawValue
  | .null => .ok .null
  | .bool b => .ok (.bool b)
  | .number n =>
    match n.asI64, n.asF64 with
    | some i, _ => .ok (.int i)
    | none, some f => .ok (.float f)
    | none, none => .error (.badRequest ("unsupported number: " ++ display n))
  | .string s => .ok (.string s)
  | .array arr => do
    let items ← jsonToItems arr
    .ok (.array items)
  | .object map => do
    let btree ← jsonToEntries [] map
    .ok (.object btree)

def jsonToItems : List JsonValue → Except ApiError (List RawValue)
  | [] => .ok []
  | j :: arr => do
    let v ← jsonToRaw j
    let items ← jsonToItems arr
    .ok (v :: items)

/-- Inserts the converted entries of a map into `btree`. -/
def jsonToEntries (btree : List (String × RawValue)) :
    List (String × JsonValue) → Except ApiError (List (String × RawValue))
  | [] => .ok btree
  | (k, j) :: map => do
    let v ← jsonToRaw j
    jsonToEntries (Entries.insert k v btree) map

end

variable {display}

mutual

theorem jsonToRaw_ordered :
    ∀ (j : JsonValue) {v : RawValue}, jsonToRaw display j = .ok v → v.Ordered
  | .null, v, h => by
    cases h
    exact .null
  | .bool b, v, h => by
    cases h
    exact .bool b
  | .number n, v, h => by
    rw [jsonToRaw] at h
    split at h
    · cases h
      exact .int _
    · cases h
      exact .float _
    · cases h
  | .string s, v, h => by
    cases h
    exact .string s
  | .array arr, v, h => by
    rw [jsonToRaw, Except.bind_eq_ok] at h
    obtain ⟨items, hitems, hv⟩ := h
    cases hv
    exact .array (jsonToItems_ordered arr hitems)
  | .object map, v, h => by
    rw [jsonToRaw, Except.bind_eq_ok] at h
    obtain ⟨btree, hbtree, hv⟩ := h
    cases hv
    obtain ⟨hasc, hmem⟩ := jsonToEntries_ordered map List.Pairwise.nil (by simp) hbtree
    exact .object hasc hmem

theorem jsonToItems_ordered : ∀ (arr : List JsonValue) {items : List RawValue},
    jsonToItems display arr = .ok items → ∀ v ∈ items, v.Ordered
  | [], items, h => by
    cases h
    simp
  | j :: arr, items, h => by
    rw [jsonToItems, Except.bind_eq_ok] at h
    obtain ⟨v, hv, h⟩ := h
    obtain ⟨rest, hrest, h⟩ := Except.bind_eq_ok.mp h
    cases h
    exact List.forall_mem_cons.mpr ⟨jsonToRaw_ordered j hv, jsonToItems_ordered arr hrest⟩

theorem jsonToEntries_ordered : ∀ (map : List (String × JsonValue))
    {btree entries : List (String × RawValue)}, Entries.Ascending btree →
    (∀ e ∈ btree, e.2.Ordered) → jsonToEntries display btree map = .ok entries →
      Entries.Ascending entries ∧ ∀ e ∈ entries, e.2.Ordered
  | [], btree, entries, hasc, hmem, h => by
    cases h
    exact ⟨hasc, hmem⟩
  | (k, j) :: map, btree, entries, hasc, hmem, h => by
    rw [jsonToEntries, Except.bind_eq_ok] at h
    obtain ⟨v, hv, h⟩ := h
    refine jsonToEntries_ordered map (Entries.ascending_insert hasc) ?_ h
    intro e he
    rcases Entries.mem_insert he with rfl | he
    · exact jsonToRaw_ordered j hv
    · exact hmem e he

end

/-- Every number answers `as_f64`, so no conversion fails. -/
theorem exists_asF64 (n : JsonNumber) : ∃ f, n.asF64 = some f := by
  cases n <;> exact ⟨_, rfl⟩

mutual

theorem exists_jsonToRaw : ∀ j : JsonValue, ∃ v, jsonToRaw display j = .ok v
  | .null => ⟨_, rfl⟩
  | .bool _ => ⟨_, rfl⟩
  | .number n => by
    obtain ⟨f, hf⟩ := exists_asF64 n
    rw [jsonToRaw, hf]
    cases n.asI64 with
    | some i => exact ⟨_, rfl⟩
    | none => exact ⟨_, rfl⟩
  | .string _ => ⟨_, rfl⟩
  | .array arr => by
    obtain ⟨items, hitems⟩ := exists_jsonToItems arr
    exact ⟨.array items, by rw [jsonToRaw, hitems]; rfl⟩
  | .object map => by
    obtain ⟨btree, hbtree⟩ := exists_jsonToEntries map []
    exact ⟨.object btree, by rw [jsonToRaw, hbtree]; rfl⟩

theorem exists_jsonToItems : ∀ arr : List JsonValue, ∃ items, jsonToItems display arr = .ok items
  | [] => ⟨_, rfl⟩
  | j :: arr => by
    obtain ⟨v, hv⟩ := exists_jsonToRaw j
    obtain ⟨items, hitems⟩ := exists_jsonToItems arr
    exact ⟨v :: items, by rw [jsonToItems, hv, hitems]; rfl⟩

theorem exists_jsonToEntries : ∀ (map : List (String × JsonValue))
    (btree : List (String × RawValue)), ∃ entries, jsonToEntries display btree map = .ok entries
  | [], _ => ⟨_, rfl⟩
  | (k, j) :: map, btree => by
    obtain ⟨v, hv⟩ := exists_jsonToRaw j
    obtain ⟨entries, hentries⟩ := exists_jsonToEntries map (Entries.insert k v btree)
    exact ⟨entries, by rw [jsonToEntries, hv]; exact hentries⟩

end

variable (display)

def jsonToValue (json : JsonValue) : Except ApiError Value :=
  match h : jsonToRaw display json with
  | .ok v => .ok ⟨v, jsonToRaw_ordered json h⟩
  | .error e => .error e

theorem exists_jsonToValue (j : JsonValue) : ∃ v, jsonToValue display j = .ok v := by
  obtain ⟨v, hv⟩ := exists_jsonToRaw j
  unfold jsonToValue
  split
  · exact ⟨_, rfl⟩
  · rename_i herror
    cases hv.symm.trans herror

end

end BashfulDB.Api

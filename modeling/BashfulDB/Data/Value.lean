import Mathlib.Data.String.Basic
import BashfulDB.Library.Bytes
import BashfulDB.Library.Except
import BashfulDB.Library.OrdMap
import BashfulDB.Library.Uuid

/-! The schema-less data model: values, documents and the names that scope them. -/
namespace BashfulDB.Data

def maxNestingDepth : Nat := 64
def maxStringBlobSize : Nat := 16 * 1024 * 1024
def maxArrayElements : Nat := 1000000
def maxObjectKeys : Nat := 100000
def maxKeySize : Nat := 256

/-- An IEEE 754 double, as its bit pattern. -/
structure F64 where
  bits : UInt64
  deriving DecidableEq, Repr

/-- Finite unless the eleven exponent bits are all ones. -/
def F64.isFinite (f : F64) : Bool := (f.bits >>> 52) &&& 0x7FF != 0x7FF

inductive DocumentError
  | nestingDepthExceeded (depth max : Nat)
  | valueTooLarge (kind : String) (size max : Nat)
  | arrayTooLarge (count max : Nat)
  | objectTooManyKeys (count max : Nat)
  | invalidName (name : String)
  | reservedName (name : String)
  | notAnObject (actual : String)
  | unknownTypeTag (tag : UInt8)
  | unexpectedEof (offset : Nat)
  | invalidUtf8 (offset : Nat)
  | nonFiniteFloat (value : F64)
  | unsupportedCodecVersion (version : UInt8)
  | trailingBytes (offset count : Nat)
  | keyTooLarge (size max : Nat)
  deriving DecidableEq, Repr

/-- The constructors of `Value`, with the entries of an object as a plain list. -/
inductive RawValue
  | null
  | bool (b : Bool)
  | int (i : Int64)
  | float (f : F64)
  | string (s : String)
  | blob (b : Bytes)
  | array (items : List RawValue)
  | object (entries : List (String × RawValue))

namespace RawValue

/-- Structural induction, with the hypothesis for every item and every entry of a container. -/
@[elab_as_elim]
theorem induct {P : RawValue → Prop} (null : P .null) (bool : ∀ b, P (.bool b))
    (int : ∀ i, P (.int i)) (float : ∀ f, P (.float f)) (string : ∀ s, P (.string s))
    (blob : ∀ b, P (.blob b)) (array : ∀ items, (∀ v ∈ items, P v) → P (.array items))
    (object : ∀ entries, (∀ e ∈ entries, P e.2) → P (.object entries)) (v : RawValue) : P v :=
  @RawValue.rec P (fun items => ∀ v ∈ items, P v) (fun entries => ∀ e ∈ entries, P e.2)
    (fun e => P e.2) null bool int float string blob array object
    (by simp) (fun _ _ hv hl => List.forall_mem_cons.mpr ⟨hv, hl⟩)
    (by simp) (fun _ _ he hl => List.forall_mem_cons.mpr ⟨he, hl⟩) (fun _ _ hv => hv) v

def typeName : RawValue → String
  | .null => "Null"
  | .bool _ => "Bool"
  | .int _ => "Int"
  | .float _ => "Float"
  | .string _ => "String"
  | .blob _ => "Blob"
  | .array _ => "Array"
  | .object _ => "Object"

def isObject : RawValue → Bool
  | .object _ => true
  | _ => false

def typeTag : RawValue → UInt8
  | .null => 0x00
  | .bool _ => 0x01
  | .int _ => 0x02
  | .float _ => 0x03
  | .string _ => 0x04
  | .blob _ => 0x05
  | .array _ => 0x06
  | .object _ => 0x07

/-- Every object, at every depth, lists its keys in ascending order, as a `BTreeMap` does.
Code-point order of strings and byte order of their UTF-8 forms agree. -/
inductive Ordered : RawValue → Prop
  | null : Ordered .null
  | bool (b : Bool) : Ordered (.bool b)
  | int (i : Int64) : Ordered (.int i)
  | float (f : F64) : Ordered (.float f)
  | string (s : String) : Ordered (.string s)
  | blob (b : List UInt8) : Ordered (.blob b)
  | array {items : List RawValue} : (∀ v ∈ items, Ordered v) → Ordered (.array items)
  | object {entries : List (String × RawValue)} : Entries.Ascending entries →
      (∀ e ∈ entries, Ordered e.2) → Ordered (.object entries)

theorem Ordered.items {items : List RawValue} (h : (RawValue.array items).Ordered) :
    ∀ v ∈ items, v.Ordered := by
  cases h
  assumption

theorem Ordered.entries {entries : List (String × RawValue)}
    (h : (RawValue.object entries).Ordered) :
    Entries.Ascending entries ∧ ∀ e ∈ entries, e.2.Ordered := by
  cases h
  exact ⟨‹_›, ‹_›⟩

end RawValue

theorem map_eq_self {α : Type} {f : α → α} {l : List α} : l.map f = l ↔ ∀ a ∈ l, f a = a := by
  conv_lhs => rhs; rw [← List.map_id l]
  exact List.map_inj_left

/-- The items or entries of a container, converted and back. -/
theorem map_map_self {α β : Type} {f : α → β} {g : β → α} {l : List α}
    (h : ∀ a ∈ l, g (f a) = a) : (l.map f).map g = l := by
  rw [List.map_map]
  exact map_eq_self.mpr h

/-- A value whose objects cannot hold a key twice or out of order. -/
abbrev Value := { v : RawValue // v.Ordered }

structure ObjectId where
  uuid : Uuid
  deriving DecidableEq, Repr

instance : ToString ObjectId := ⟨fun id => id.uuid.hyphenated⟩

/-- A document: the top-level value is an object. -/
structure Document where
  id : ObjectId
  data : Value
  isObject : data.val.isObject = true

/-- The document with no fields. -/
def Document.blank (id : ObjectId) : Document :=
  ⟨id, ⟨.object [], .object List.Pairwise.nil (by simp)⟩, rfl⟩

def Document.new (id : ObjectId) (data : Value) : Except DocumentError Document :=
  if h : data.val.isObject = true then .ok ⟨id, data, h⟩
  else .error (.notAnObject data.val.typeName)

def isNameByte (b : UInt8) : Bool :=
  (97 ≤ b && b ≤ 122) || (48 ≤ b && b ≤ 57) || b == 95

def validateName (name : String) : Except DocumentError Unit :=
  if name.isEmpty || name.utf8ByteSize > 64 then
    .error (.invalidName name)
  else if !name.asBytes.all isNameByte then
    .error (.invalidName name)
  else if name = "_default" || name = "_system" then
    .error (.reservedName name)
  else
    .ok ()

/-- An accepted name holds no separator of the keys it becomes part of. -/
theorem slash_notMem_of_validateName {name : String} (h : validateName name = .ok ()) :
    '/' ∉ name.toList := by
  rw [validateName, Except.guard_eq_ok, Except.guard_eq_ok] at h
  intro hmem
  have hbytes : name.asBytes.all isNameByte = true := by simpa using h.2.1
  have hslash : (47 : UInt8) ∈ name.asBytes := by
    rw [String.asBytes_eq_flatMap, List.mem_flatMap]
    exact ⟨'/', hmem, by decide⟩
  exact absurd (List.all_eq_true.mp hbytes 47 hslash) (by decide)

end BashfulDB.Data

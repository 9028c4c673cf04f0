import BashfulDB.Api.Json
import BashfulDB.Data.RoundTrip
import BashfulDB.Library.Base64

/-! The conversions between values and JSON trees, and what survives them both. -/
namespace BashfulDB.Data

open Api

/-- `serde_json::Number::from_f64`. -/
def fromF64 (f : F64) : Option JsonNumber :=
  if h : f.isFinite = true then some (.float f h) else none

mutual

/-- `From<Value> for serde_json::Value`. -/
def intoJson : RawValue → JsonValue
  | .null => .null
  | .bool b => .bool b
  | .int i => .number (.ofI64 i)
  | .float f => ((fromF64 f).map .number).getD .null
  | .string s => .string s
  | .blob b => .string (Base64.encodeStandard b)
  | .array a => .array (intoItems a)
  | .object o => .object (Entries.insertAll [] (intoEntries o))

def intoItems : List RawValue → List JsonValue
  | [] => []
  | v :: a => intoJson v :: intoItems a

def intoEntries : List (String × RawValue) → List (String × JsonValue)
  | [] => []
  | (k, v) :: o => (k, intoJson v) :: intoEntries o

end

mutual

/-- `From<serde_json::Value> for Value`, before its result is known to be ordered. -/
def rawFromJson : JsonValue → RawValue
  | .null => .null
  | .bool b => .bool b
  | .number n =>
    match n.asI64 with
    | some i => .int i
    | none => .float (n.asF64.getD ⟨0⟩)
  | .string s => .string s
  | .array a => .array (fromItems a)
  | .object o => .object (Entries.insertAll [] (fromEntries o))

def fromItems : List JsonValue → List RawValue
  | [] => []
  | j :: a => rawFromJson j :: fromItems a

def fromEntries : List (String × JsonValue) → List (String × RawValue)
  | [] => []
  | (k, j) :: o => (k, rawFromJson j) :: fromEntries o

end

mutual

theorem rawFromJson_ordered : ∀ j : JsonValue, (rawFromJson j).Ordered
  | .null => .null
  | .bool b => .bool b
  | .number n => by
    rw [rawFromJson]
    split
    · exact .int _
    · exact .float _
  | .string s => .string s
  | .array a => .array (fromItems_ordered a)
  | .object o => by
    refine .object (Entries.ascending_insertAll List.Pairwise.nil) ?_
    intro e he
    rcases Entries.mem_insertAll he with hnil | hmem
    · cases hnil
    · exact fromEntries_ordered o e hmem

theorem fromItems_ordered : ∀ a : List JsonValue, ∀ v ∈ fromItems a, v.Ordered
  | [] => by simp [fromItems]
  | j :: a => List.forall_mem_cons.mpr ⟨rawFromJson_ordered j, fromItems_ordered a⟩

theorem fromEntries_ordered : ∀ o : List (String × JsonValue), ∀ e ∈ fromEntries o, e.2.Ordered
  | [] => by simp [fromEntries]
  | (_, j) :: o => List.forall_mem_cons.mpr ⟨rawFromJson_ordered j, fromEntries_ordered o⟩

end

def fromJson (json : JsonValue) : Value := ⟨rawFromJson json, rawFromJson_ordered json⟩

theorem intoItems_eq_map (a : List RawValue) : intoItems a = a.map intoJson := by
  induction a with
  | nil => rfl
  | cons v a ih => rw [intoItems, ih, List.map_cons]

theorem intoEntries_eq_map (o : List (String × RawValue)) :
    intoEntries o = o.map fun e => (e.1, intoJson e.2) := by
  induction o with
  | nil => rfl
  | cons e o ih => rw [intoEntries, ih, List.map_cons]

theorem fromItems_eq_map (a : List JsonValue) : fromItems a = a.map rawFromJson := by
  induction a with
  | nil => rfl
  | cons j a ih => rw [fromItems, ih, List.map_cons]

theorem fromEntries_eq_map (o : List (String × JsonValue)) :
    fromEntries o = o.map fun e => (e.1, rawFromJson e.2) := by
  induction o with
  | nil => rfl
  | cons e o ih => rw [fromEntries, ih, List.map_cons]

/-- The conversions of numbers keep integers apart from floats. -/
theorem asI64_ofI64 (i : Int64) : (JsonNumber.ofI64 i).asI64 = some i := by
  unfold JsonNumber.ofI64
  split
  · rfl
  · next hneg =>
    have hnonneg : 0 ≤ i.toBitVec.toInt := by
      rw [Int64.lt_iff_toInt_lt] at hneg
      exact Int.not_lt.mp hneg
    have hlt : i.toUInt64.toNat < 2 ^ 63 := by
      change i.toBitVec.toNat < 2 ^ 63
      rw [BitVec.toInt_eq_toNat_cond] at hnonneg
      have := i.toBitVec.isLt
      split at hnonneg <;> omega
    have hback : Int64.ofNat i.toUInt64.toNat = i :=
      Int64.toBitVec_inj.mp (BitVec.ofNat_toNat _ _)
    rw [JsonNumber.asI64, if_pos hlt, hback]

/-- What JSON has no form for: a float that is not finite becomes null, a blob a text. -/
def Survives : RawValue → Prop
  | .float f => f.isFinite = true
  | .blob _ => False
  | _ => True

theorem rawFromJson_intoJson_array (a : List RawValue) :
    rawFromJson (intoJson (.array a)) = .array (a.map fun v => rawFromJson (intoJson v)) := by
  rw [intoJson, rawFromJson, intoItems_eq_map, fromItems_eq_map, List.map_map]
  rfl

/-- Both conversions keep every key of a map. -/
theorem rawFromJson_intoJson_object {o : List (String × RawValue)} (hasc : Entries.Ascending o) :
    rawFromJson (intoJson (.object o)) =
      .object (o.map fun e => (e.1, rawFromJson (intoJson e.2))) := by
  have hinto : Entries.Ascending (o.map fun e => (e.1, intoJson e.2)) :=
    Entries.ascending_map.mpr hasc
  have hfrom := Entries.ascending_map (f := rawFromJson) |>.mpr hinto
  rw [intoJson, rawFromJson, intoEntries_eq_map, Entries.insertAll_nil hinto,
    fromEntries_eq_map, Entries.insertAll_nil hfrom, List.map_map]
  rfl

theorem survives_of_fromJson {v w : RawValue} {d : Nat} (hocc : OccursAt v d w) (hord : v.Ordered)
    (h : rawFromJson (intoJson v) = v) : Survives w := by
  induction hocc with
  | self v =>
    cases v with
    | float f =>
      by_contra hfinite
      have hnone : fromF64 f = none := dif_neg hfinite
      rw [intoJson, hnone] at h
      cases h
    | blob b => cases h
    | null | bool | int | string | array | object => trivial
  | item hv _ ih =>
    rw [rawFromJson_intoJson_array, RawValue.array.injEq, map_eq_self] at h
    exact ih (hord.items _ hv) (h _ hv)
  | @entry o e w d he _ ih =>
    obtain ⟨hasc, hvals⟩ := hord.entries
    rw [rawFromJson_intoJson_object hasc, RawValue.object.injEq, map_eq_self] at h
    exact ih (hvals e he) (congrArg Prod.snd (h e he))

theorem fromJson_of_survives {v : RawValue} (hord : v.Ordered)
    (h : ∀ d w, OccursAt v d w → Survives w) : rawFromJson (intoJson v) = v := by
  induction v using RawValue.induct with
  | null | bool | string => rfl
  | int i => rw [intoJson, rawFromJson, asI64_ofI64]
  | float f =>
    have hfinite : f.isFinite = true := h 0 _ (.self _)
    rw [intoJson, fromF64, dif_pos hfinite]
    rfl
  | blob b => exact (h 0 _ (.self _)).elim
  | array a ih =>
    rw [rawFromJson_intoJson_array, RawValue.array.injEq, map_eq_self]
    exact fun v hv => ih v hv (hord.items v hv) fun d w hw => h (d + 1) w (.item hv hw)
  | object o ih =>
    obtain ⟨hasc, hvals⟩ := hord.entries
    rw [rawFromJson_intoJson_object hasc, RawValue.object.injEq, map_eq_self]
    exact fun e he => Prod.ext rfl <|
      ih e he (hvals e he) fun d w hw => h (d + 1) w (.entry he hw)

/-- A value comes back from JSON as it was exactly when all of it survives. -/
theorem fromJson_intoJson_iff (v : Value) :
    fromJson (intoJson v.val) = v ↔ ∀ d w, OccursAt v.val d w → Survives w := by
  rw [Subtype.ext_iff]
  exact ⟨fun h d w hocc => survives_of_fromJson hocc v.property h,
    fromJson_of_survives v.property⟩

/-- A value without blobs whose floats are all finite comes back from JSON as it was. -/
theorem fromJson_intoJson (v : Value) (hblob : ∀ d b, ¬ OccursAt v.val d (.blob b))
    (hfloat : ∀ d f, OccursAt v.val d (.float f) → f.isFinite = true) :
    fromJson (intoJson v.val) = v := by
  refine (fromJson_intoJson_iff v).mpr ?_
  intro d w hw
  cases w with
  | float f => exact hfloat d f hw
  | blob b => exact hblob d b hw
  | null | bool | int | string | array | object => trivial

theorem fromJson_intoJson_numbers :
    ∃ hord, fromJson (intoJson (.object [("a", .int (-1)), ("b", .float ⟨0x3FF0000000000000⟩)])) =
      ⟨.object [("a", .int (-1)), ("b", .float ⟨0x3FF0000000000000⟩)], hord⟩ := by
  have hord : (RawValue.object
      [("a", .int (-1)), ("b", .float ⟨0x3FF0000000000000⟩)]).Ordered :=
    .object (by decide) (by simp [RawValue.Ordered.int, RawValue.Ordered.float])
  refine ⟨hord, fromJson_intoJson ⟨_, hord⟩ ?_ ?_⟩
  · intro d b hocc
    cases hocc with
    | entry he hw =>
      simp only [List.mem_cons, List.not_mem_nil, or_false] at he
      rcases he with rfl | rfl <;> cases hw
  · intro d f hocc
    cases hocc with
    | entry he hw =>
      simp only [List.mem_cons, List.not_mem_nil, or_false] at he
      rcases he with rfl | rfl <;> cases hw
      decide

theorem intoJson_ordered (v : RawValue) : (intoJson v).Ordered := by
  induction v using RawValue.induct with
  | null => exact .null
  | bool b => exact .bool b
  | int i => exact .number _
  | float f =>
    rw [intoJson]
    cases fromF64 f with
    | none => exact .null
    | some n => exact .number n
  | string s => exact .string s
  | blob b => exact .string _
  | array a ih =>
    rw [intoJson, intoItems_eq_map]
    exact .array (List.forall_mem_map.mpr ih)
  | object o ih =>
    rw [intoJson, intoEntries_eq_map]
    refine .object (Entries.ascending_insertAll List.Pairwise.nil) ?_
    intro e he
    rcases Entries.mem_insertAll he with hnil | hmem
    · cases hnil
    · exact List.forall_mem_map (P := fun e : String × JsonValue => e.2.Ordered).mpr ih e hmem

/-- A `serde_json::Value`. -/
abbrev Json := { j : JsonValue // j.Ordered }

def toJson (value : Value) : Json := ⟨intoJson value.val, intoJson_ordered value.val⟩

/-- Numbers that an `i64` or a finite `f64` holds. -/
def Kept : JsonNumber → Prop
  | .posInt n => n.toNat < 2 ^ 63
  | .negInt _ _ => True
  | .float _ _ => True

theorem ofI64_ofNat {n : UInt64} (h : n.toNat < 2 ^ 63) :
    JsonNumber.ofI64 (Int64.ofNat n.toNat) = .posInt n := by
  have hpos : ¬ Int64.ofNat n.toNat < 0 := by
    rw [Int64.lt_iff_toInt_lt, Int64.toInt_ofNat_of_lt h]
    simp
  have hback : (Int64.ofNat n.toNat).toUInt64 = n :=
    UInt64.toBitVec_inj.mp (BitVec.ofNat_toNat _ _)
  rw [JsonNumber.ofI64, dif_neg hpos, hback]

/-- An integer that no `i64` holds comes back as a float, or as null. -/
theorem intoJson_rawFromJson_number (n : JsonNumber) :
    intoJson (rawFromJson (.number n)) = .number n ↔ Kept n := by
  cases n with
  | posInt n =>
    by_cases hlt : n.toNat < 2 ^ 63
    · have hint : (JsonNumber.posInt n).asI64 = some (Int64.ofNat n.toNat) := if_pos hlt
      rw [rawFromJson, hint, intoJson, ofI64_ofNat hlt]
      exact iff_of_true rfl hlt
    · have hint : (JsonNumber.posInt n).asI64 = none := if_neg hlt
      refine iff_of_false ?_ hlt
      rw [rawFromJson, hint, intoJson, fromF64]
      intro h
      split at h <;> cases h
  | negInt i hneg =>
    have hint : (JsonNumber.negInt i hneg).asI64 = some i := rfl
    rw [rawFromJson, hint, intoJson, JsonNumber.ofI64, dif_pos hneg]
    exact iff_of_true rfl trivial
  | float f hfinite =>
    have hint : (JsonNumber.float f hfinite).asI64 = none := rfl
    have hfloat : (JsonNumber.float f hfinite).asF64 = some f := rfl
    rw [rawFromJson, hint, hfloat, Option.getD_some, intoJson, fromF64, dif_pos hfinite]
    exact iff_of_true rfl trivial

theorem intoJson_rawFromJson_array (a : List JsonValue) :
    intoJson (rawFromJson (.array a)) = .array (a.map fun j => intoJson (rawFromJson j)) := by
  rw [rawFromJson, intoJson, fromItems_eq_map, intoItems_eq_map, List.map_map]
  rfl

theorem intoJson_rawFromJson_object {o : List (String × JsonValue)} (hasc : Entries.Ascending o) :
    intoJson (rawFromJson (.object o)) =
      .object (o.map fun e => (e.1, intoJson (rawFromJson e.2))) := by
  have hfrom : Entries.Ascending (o.map fun e => (e.1, rawFromJson e.2)) :=
    Entries.ascending_map.mpr hasc
  have hinto := Entries.ascending_map (f := intoJson) |>.mpr hfrom
  rw [rawFromJson, intoJson, fromEntries_eq_map, Entries.insertAll_nil hfrom,
    intoEntries_eq_map, Entries.insertAll_nil hinto, List.map_map]
  rfl

theorem kept_of_intoJson {j : JsonValue} {n : JsonNumber} (hocc : j.Holds n) (hord : j.Ordered)
    (h : intoJson (rawFromJson j) = j) : Kept n := by
  induction hocc with
  | number => exact (intoJson_rawFromJson_number n).mp h
  | item hj _ ih =>
    cases hord with
    | array hitems =>
      rw [intoJson_rawFromJson_array, JsonValue.array.injEq, map_eq_self] at h
      exact ih (hitems _ hj) (h _ hj)
  | @entry o e he _ ih =>
    cases hord with
    | object hasc hvals =>
      rw [intoJson_rawFromJson_object hasc, JsonValue.object.injEq, map_eq_self] at h
      exact ih (hvals e he) (congrArg Prod.snd (h e he))

theorem intoJson_of_kept {j : JsonValue} (hord : j.Ordered) (h : ∀ n, j.Holds n → Kept n) :
    intoJson (rawFromJson j) = j := by
  induction j using JsonValue.induct with
  | null | bool | string => rfl
  | number n => exact (intoJson_rawFromJson_number n).mpr (h n .number)
  | array a ih =>
    cases hord with
    | array hitems =>
      rw [intoJson_rawFromJson_array, JsonValue.array.injEq, map_eq_self]
      exact fun j hj => ih j hj (hitems j hj) fun n hn => h n (.item hj hn)
  | object o ih =>
    cases hord with
    | object hasc hvals =>
      rw [intoJson_rawFromJson_object hasc, JsonValue.object.injEq, map_eq_self]
      exact fun e he => Prod.ext rfl <|
        ih e he (hvals e he) fun n hn => h n (.entry he hn)

/-- A JSON tree comes back from the value made of it exactly when no integer in it is beyond those
of an `i64`. -/
theorem toJson_fromJson_iff (j : Json) :
    toJson (fromJson j.val) = j ↔ ∀ n : UInt64, j.val.Holds (.posInt n) → n.toNat < 2 ^ 63 := by
  rw [Subtype.ext_iff]
  constructor
  · exact fun h n hn => kept_of_intoJson hn j.property h
  · intro h
    refine intoJson_of_kept j.property fun n hn => ?_
    cases n with
    | posInt n => exact h n hn
    | negInt | float => trivial

/-- The first integer beyond an `i64` comes back as the float of that size. -/
theorem toJson_fromJson_large :
    let j : Json := ⟨.number (.posInt 9223372036854775808), .number _⟩
    (toJson (fromJson j.val)).val = .number (.float ⟨0x43E0000000000000⟩ rfl) ∧
      toJson (fromJson j.val) ≠ j := by
  intro j
  have hval : (toJson (fromJson j.val)).val = .number (.float ⟨0x43E0000000000000⟩ rfl) := rfl
  refine ⟨hval, fun h => ?_⟩
  rw [h] at hval
  cases hval

end BashfulDB.Data

import BashfulDB.Library.Binary64
import BashfulDB.Replication.Replica

/-!
A document that is not read back as it was written. `serde_json` prints a double with the digits of
its nearest decimal; without its feature `float_roundtrip`, which the workspace leaves off, it reads
them with two roundings, and the second starts from an inexact value.
-/
namespace BashfulDB.Replication

open Data

/-- How `serde_json` reads digits of which so many follow the point. -/
def f64FromParts (significand places : Nat) : ℚ :=
  Binary64.round (Binary64.round significand / 10 ^ places)

/-- The double that is nearest to 51.248178375505404, and is printed so. -/
def printed : F64 := ⟨0x40499fc44f1b2f60⟩

/-- The next one, which is read. -/
def parsed : F64 := ⟨0x40499fc44f1b2f61⟩

/-- The value of a positive normal double. -/
def toRat (f : F64) : ℚ :=
  (2 ^ 52 + f.bits.toNat % 2 ^ 52 : ℕ) * 2 ^ ((f.bits.toNat / 2 ^ 52 : ℕ) - 1075 : ℤ)

/-- The digits of the first are read as the second. -/
def PrintedDrifts : Prop :=
  toRat printed = Binary64.round (51248178375505404 / 10 ^ 15) ∧
    toRat parsed = f64FromParts 51248178375505404 15

theorem printed_drifts : PrintedDrifts := by
  unfold PrintedDrifts
  decide +kernel

/-- The document with the number as its only field. -/
def measured (id : ObjectId) (f : F64) : Document where
  id := id
  data := ⟨.object [("x", .float f)],
    .object (List.pairwise_singleton _ _) (by simp [RawValue.Ordered.float])⟩
  isObject := rfl

/-- Reads every document back as it was written, but for that number. -/
def drifting (doc : Document) : Option Document :=
  match doc.data.val with
  | .object [("x", .float f)] => some (if f = printed then measured doc.id parsed else doc)
  | _ => some doc

theorem measured_ne (id : ObjectId) : measured id parsed ≠ measured id printed := by
  intro h
  have hdata := congrArg (fun doc : Document => doc.data.val) h
  simp [measured, parsed, printed] at hdata

end BashfulDB.Replication

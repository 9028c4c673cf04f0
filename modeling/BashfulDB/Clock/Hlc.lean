import Mathlib.Algebra.Group.Nat.Defs
import Mathlib.Data.Prod.Lex
import Mathlib.Order.Lattice
import Mathlib.Tactic.Common

/-! Hybrid logical clock values: 48 physical bits above 16 logical bits in one word. -/
namespace BashfulDB.Clock

inductive ClockError
  | vectorClockCapacityExceeded
  | logicalOverflow (physicalMs : UInt64)
  | physicalOverflow (physicalMs : UInt64)
  deriving DecidableEq, Repr

structure Hlc where
  raw : UInt64
  deriving DecidableEq, Repr

namespace Hlc

def physicalShift : UInt64 := 16
def logicalMask : UInt64 := 0xFFFF
def physicalLimit : UInt64 := (1 : UInt64) <<< 48

def zero : Hlc := ⟨0⟩

def tryNew (physicalMs : UInt64) (logical : UInt16) : Except ClockError Hlc :=
  if physicalMs ≥ physicalLimit then
    .error (.physicalOverflow physicalMs)
  else
    .ok ⟨(physicalMs <<< physicalShift) ||| logical.toUInt64⟩

def physicalMs (h : Hlc) : UInt64 := h.raw >>> physicalShift

def logical (h : Hlc) : UInt16 := (h.raw &&& logicalMask).toUInt16

def toU64 (h : Hlc) : UInt64 := h.raw

def fromU64 (raw : UInt64) : Hlc := ⟨raw⟩

/-- The derived order of the Rust newtype: the order of the packed word. -/
instance : LinearOrder Hlc := LinearOrder.lift' (fun h => h.raw.toNat) (by
  intro a b h
  cases a; cases b
  simpa [UInt64.toNat_inj] using h)

theorem lt_iff_toNat {a b : Hlc} : a < b ↔ a.raw.toNat < b.raw.toNat := Iff.rfl

theorem le_iff_toNat {a b : Hlc} : a ≤ b ↔ a.raw.toNat ≤ b.raw.toNat := Iff.rfl

theorem zero_le (h : Hlc) : zero ≤ h := Nat.zero_le _

theorem physicalMs_toNat (h : Hlc) : h.physicalMs.toNat = h.raw.toNat / 2 ^ 16 := by
  simp [physicalMs, physicalShift, UInt64.toNat_shiftRight, Nat.shiftRight_eq_div_pow]

theorem logical_toNat (h : Hlc) : h.logical.toNat = h.raw.toNat % 2 ^ 16 := by
  have hm := Nat.and_two_pow_sub_one_eq_mod (h.raw.toNat % 2 ^ 16) 16
  simpa [logical, logicalMask, UInt64.toNat_and] using hm

/-- Every packed word has a 48-bit physical part, whatever wire it arrived on. -/
theorem physicalMs_lt (h : Hlc) : h.physicalMs.toNat < 2 ^ 48 := by
  rw [physicalMs_toNat]
  have := h.raw.toNat_lt
  omega

theorem logical_lt (h : Hlc) : h.logical.toNat < 2 ^ 16 := h.logical.toNat_lt

theorem toNat_eq (h : Hlc) : h.raw.toNat = h.physicalMs.toNat * 2 ^ 16 + h.logical.toNat := by
  rw [physicalMs_toNat, logical_toNat]
  omega

/-- The packed order is the lexicographic order of the two components. -/
theorem lt_iff_lex {a b : Hlc} :
    a < b ↔ a.physicalMs.toNat < b.physicalMs.toNat ∨
      a.physicalMs.toNat = b.physicalMs.toNat ∧ a.logical.toNat < b.logical.toNat := by
  have ha := logical_lt a
  have hb := logical_lt b
  rw [lt_iff_toNat, toNat_eq a, toNat_eq b]
  omega

theorem le_iff_lex {a b : Hlc} :
    a ≤ b ↔ a.physicalMs.toNat < b.physicalMs.toNat ∨
      a.physicalMs.toNat = b.physicalMs.toNat ∧ a.logical.toNat ≤ b.logical.toNat := by
  have ha := logical_lt a
  have hb := logical_lt b
  rw [le_iff_toNat, toNat_eq a, toNat_eq b]
  omega

theorem packed_toNat {p : UInt64} (hp : p.toNat < 2 ^ 48) (l : UInt16) :
    ((p <<< physicalShift) ||| l.toUInt64).toNat = p.toNat * 2 ^ 16 + l.toNat := by
  have hl := l.toNat_lt
  have hs : p.toNat <<< 16 % 2 ^ 64 = p.toNat <<< 16 := by
    apply Nat.mod_eq_of_lt
    rw [Nat.shiftLeft_eq]
    omega
  simp only [physicalShift, UInt64.toNat_or, UInt64.toNat_shiftLeft, UInt16.toNat_toUInt64]
  change p.toNat <<< 16 % 2 ^ 64 ||| l.toNat = _
  rw [hs, ← Nat.shiftLeft_add_eq_or_of_lt hl, Nat.shiftLeft_eq]

theorem tryNew_of_lt {p : UInt64} (hp : p.toNat < 2 ^ 48) (l : UInt16) :
    ∃ h, tryNew p l = .ok h ∧ h.physicalMs.toNat = p.toNat ∧ h.logical.toNat = l.toNat := by
  have hn : ¬ p ≥ physicalLimit := by
    rw [ge_iff_le, UInt64.le_iff_toNat_le]
    change ¬ 2 ^ 48 ≤ p.toNat
    omega
  have hl := l.toNat_lt
  refine ⟨⟨(p <<< physicalShift) ||| l.toUInt64⟩, by simp only [tryNew, hn, if_false], ?_, ?_⟩
  · rw [physicalMs_toNat, packed_toNat hp]
    omega
  · rw [logical_toNat, packed_toNat hp]
    omega

theorem tryNew_of_ge {p : UInt64} (hp : 2 ^ 48 ≤ p.toNat) (l : UInt16) :
    tryNew p l = .error (.physicalOverflow p) := by
  have hn : p ≥ physicalLimit := by
    rw [ge_iff_le, UInt64.le_iff_toNat_le]
    exact hp
  simp only [tryNew, hn, if_true]

end Hlc

end BashfulDB.Clock

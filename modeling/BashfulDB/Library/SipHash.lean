import BashfulDB.Library.Bytes
import Mathlib.Algebra.Group.Nat.Defs

/-! SipHash-1-3 with the key zero, and byte strings written after their length, so that a
concatenation of them can be taken apart. -/
namespace SipHash

structure State where
  v0 : UInt64
  v1 : UInt64
  v2 : UInt64
  v3 : UInt64

def rotl (x : UInt64) (n : UInt64) : UInt64 := x <<< n ||| x >>> (64 - n)

def State.new : State :=
  ⟨0x736f6d6570736575, 0x646f72616e646f6d, 0x6c7967656e657261, 0x7465646279746573⟩

def State.round (s : State) : State :=
  let v0 := s.v0 + s.v1
  let v1 := rotl s.v1 13 ^^^ v0
  let v0 := rotl v0 32
  let v2 := s.v2 + s.v3
  let v3 := rotl s.v3 16 ^^^ v2
  let v0 := v0 + v3
  let v3 := rotl v3 21 ^^^ v0
  let v2 := v2 + v1
  let v1 := rotl v1 17 ^^^ v2
  ⟨v0, v1, rotl v2 32, v3⟩

/-- One round for each word. -/
def State.write (s : State) (word : UInt64) : State :=
  let s := State.round { s with v3 := s.v3 ^^^ word }
  { s with v0 := s.v0 ^^^ word }

/-- Three rounds in the end. -/
def State.finish (s : State) : UInt64 :=
  let s := State.round (State.round (State.round { s with v2 := s.v2 ^^^ 0xff }))
  s.v0 ^^^ s.v1 ^^^ s.v2 ^^^ s.v3

/-- Up to eight bytes, least significant first. -/
def word (b : Bytes) : UInt64 := UInt64.ofNat (Bytes.toNat b.reverse)

/-- The last word has the bytes that are left, and the length of the whole above them. -/
def hashFrom (length : Nat) (s : State) : Bytes → UInt64
  | a :: b :: c :: d :: e :: f :: g :: h :: rest =>
    hashFrom length (s.write (word [a, b, c, d, e, f, g, h])) rest
  | rest => (s.write (UInt64.ofNat length <<< 56 ||| word rest)).finish

def hash (b : Bytes) : UInt64 := hashFrom b.length .new b

example : hash [97, 98, 99, 100, 101, 102, 103, 104, 105] = 17913969820989044453 := by
  decide +kernel

/-- A byte string after its length in eight bytes. -/
def sized (b : Bytes) : Bytes := (Bytes.ofNat 8 b.length).reverse ++ b

variable {b c rest rest' : Bytes}

theorem sized_append_inj (hb : b.length < 2 ^ 64) (hc : c.length < 2 ^ 64)
    (h : sized b ++ rest = sized c ++ rest') : b = c ∧ rest = rest' := by
  rw [sized, sized, List.append_assoc, List.append_assoc] at h
  obtain ⟨hsize, hrest⟩ := List.append_inj h (by simp)
  have hlength : b.length = c.length :=
    Bytes.ofNat_inj (k := 8) (by omega) (by omega) (List.reverse_inj.mp hsize)
  exact List.append_inj hrest hlength

/-- Blocks that end where they end whatever comes after them. -/
theorem flatMap_inj_of_delimited {α : Type*} {f : α → Bytes} {P : α → Prop}
    (hne : ∀ a, f a ≠ [])
    (hf : ∀ {a b rest rest'}, P a → P b → f a ++ rest = f b ++ rest' → a = b ∧ rest = rest')
    {l l' : List α} (hl : ∀ a ∈ l, P a) (hl' : ∀ a ∈ l', P a)
    (h : l.flatMap f = l'.flatMap f) : l = l' := by
  induction l generalizing l' with
  | nil =>
    cases l' with
    | nil => rfl
    | cons b l' => exact absurd (List.append_eq_nil_iff.mp h.symm).1 (hne b)
  | cons a l ih =>
    cases l' with
    | nil => exact absurd (List.append_eq_nil_iff.mp h).1 (hne a)
    | cons b l' =>
      rw [List.forall_mem_cons] at hl hl'
      obtain ⟨rfl, hrest⟩ := hf hl.1 hl'.1 h
      rw [ih hl.2 hl'.2 hrest]

end SipHash

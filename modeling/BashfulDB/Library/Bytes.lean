import Mathlib.Algebra.Group.Nat.Defs
import Mathlib.Order.Lattice
import Mathlib.Tactic.Common

/-! Byte strings, their order, and big-endian integers. -/

abbrev Bytes := List UInt8

instance Bytes.linearOrderUInt8 : LinearOrder UInt8 where
  le_refl _ := UInt8.le_refl _
  le_trans _ _ _ := UInt8.le_trans
  le_antisymm _ _ := UInt8.le_antisymm
  le_total := UInt8.le_total
  lt_iff_le_not_ge a b := by
    simp only [UInt8.lt_iff_toNat_lt, UInt8.le_iff_toNat_le]
    omega
  toDecidableLE := inferInstance

instance Bytes.linearOrderUInt64 : LinearOrder UInt64 where
  le_refl _ := UInt64.le_refl _
  le_trans _ _ _ := UInt64.le_trans
  le_antisymm _ _ := UInt64.le_antisymm
  le_total := UInt64.le_total
  lt_iff_le_not_ge a b := by
    simp only [UInt64.lt_iff_toNat_lt, UInt64.le_iff_toNat_le]
    omega
  toDecidableLE := inferInstance

/-- The UTF-8 bytes of a string. -/
def String.asBytes (s : String) : Bytes := s.toUTF8.data.toList

theorem String.asBytes_eq_flatMap (s : String) : s.asBytes = s.toList.flatMap utf8EncodeChar := by
  rw [asBytes, toUTF8_eq_toByteArray, ← utf8Encode_toList, List.utf8Encode]
  simp

theorem String.asBytes_inj {s t : String} (h : s.asBytes = t.asBytes) : s = t := by
  have hutf8 : s.toUTF8 = t.toUTF8 := ByteArray.ext (Array.toList_inj.mp h)
  exact String.toByteArray_inj.mp hutf8

theorem String.asBytes_append (s t : String) : (s ++ t).asBytes = s.asBytes ++ t.asBytes := by
  rw [asBytes_eq_flatMap, asBytes_eq_flatMap, asBytes_eq_flatMap, toList_append,
    List.flatMap_append]

theorem String.fromUTF8_asBytes (s : String) : fromUTF8? ⟨s.asBytes.toArray⟩ = some s := by
  simp [asBytes, fromUTF8?, fromUTF8, s.isValidUTF8]

theorem String.fromUTF8_eq_some {data : Bytes} {s : String} :
    fromUTF8? ⟨data.toArray⟩ = some s ↔ data = s.asBytes := by
  constructor
  · intro h
    unfold fromUTF8? at h
    split at h
    · cases h
      simp [asBytes, fromUTF8]
    · cases h
  · rintro rfl
    exact s.fromUTF8_asBytes

namespace Bytes

/-- Between a start and the start with one more byte are the strings that go on with a smaller
one. -/
theorem between_iff {start key : Bytes} {x : UInt8} :
    ¬ key < start ∧ key < start ++ [x] ↔ ∃ rest, key = start ++ rest ∧ rest < [x] := by
  induction start generalizing key with
  | nil => simp
  | cons a start ih =>
    cases key with
    | nil => simp
    | cons b key =>
      simp only [List.cons_append, List.cons_lt_cons_iff, List.cons.injEq]
      constructor
      · rintro ⟨hnot, hlt | ⟨rfl, hlt⟩⟩
        · exact absurd (Or.inl hlt) hnot
        · have hle : ¬ key < start := fun h => hnot (Or.inr ⟨rfl, h⟩)
          obtain ⟨rest, rfl, hrest⟩ := ih.mp ⟨hle, hlt⟩
          exact ⟨rest, ⟨rfl, rfl⟩, hrest⟩
      · rintro ⟨rest, ⟨rfl, rfl⟩, hrest⟩
        obtain ⟨hle, hlt⟩ := ih.mpr ⟨rest, rfl, hrest⟩
        refine ⟨?_, Or.inr ⟨rfl, hlt⟩⟩
        rintro (hbb | ⟨-, h⟩)
        · exact lt_irrefl _ hbb
        · exact hle h

/-- Below the largest byte is what does not begin with it. -/
theorem lt_max_iff {b : Bytes} : b < [0xFF] ↔ ¬ [0xFF] <+: b := by
  cases b with
  | nil => simp
  | cons x b =>
    have hmax : x < 0xFF ↔ x ≠ 0xFF := by
      have hx := x.toNat_lt
      rw [UInt8.lt_iff_toNat_lt, ne_eq, ← UInt8.toNat_inj]
      change x.toNat < 255 ↔ ¬ x.toNat = 255
      omega
    simp [List.cons_lt_cons_iff, List.cons_prefix_cons, hmax, eq_comm]

/-- The `k` low-order bytes of `n`, most significant first. -/
def ofNat : (k : Nat) → (n : Nat) → Bytes
  | 0, _ => []
  | k + 1, n => UInt8.ofNat (n / 256 ^ k) :: ofNat k n

/-- The number a big-endian byte string denotes, above an accumulator. -/
def toNatFrom (acc : Nat) (b : Bytes) : Nat := b.foldl (fun acc x => acc * 256 + x.toNat) acc

def toNat (b : Bytes) : Nat := toNatFrom 0 b

@[simp] theorem length_ofNat (k n : Nat) : (ofNat k n).length = k := by
  induction k with
  | zero => rfl
  | succ k ih => simp [ofNat, ih]

theorem toNatFrom_ofNat (acc k n : Nat) :
    toNatFrom acc (ofNat k n) = acc * 256 ^ k + n % 256 ^ k := by
  induction k generalizing acc with
  | zero => simp [ofNat, toNatFrom, Nat.mod_one]
  | succ k ih =>
    have hstep : toNatFrom acc (ofNat (k + 1) n) =
        toNatFrom (acc * 256 + n / 256 ^ k % 256) (ofNat k n) := by
      simp [ofNat, toNatFrom]
    have hsplit : n % 256 ^ (k + 1) = n / 256 ^ k % 256 * 256 ^ k + n % 256 ^ k := by
      rw [Nat.pow_succ, Nat.mod_mul, Nat.mul_comm (256 ^ k), Nat.add_comm]
    rw [hstep, ih, hsplit, Nat.pow_succ, Nat.add_mul, Nat.mul_comm (256 ^ k) 256, ← Nat.mul_assoc,
      Nat.add_assoc]

theorem toNat_ofNat {k n : Nat} (h : n < 256 ^ k) : toNat (ofNat k n) = n := by
  rw [toNat, toNatFrom_ofNat, Nat.mod_eq_of_lt h]
  omega

theorem toNatFrom_bounds (acc : Nat) (b : Bytes) :
    acc * 256 ^ b.length ≤ toNatFrom acc b ∧ toNatFrom acc b < (acc + 1) * 256 ^ b.length := by
  induction b generalizing acc with
  | nil => simp [toNatFrom]
  | cons x b ih =>
    obtain ⟨hle, hlt⟩ := ih (acc * 256 + x.toNat)
    have hx : x.toNat + 1 ≤ 256 := x.toNat_lt
    have hlow : acc * 256 * 256 ^ b.length ≤ (acc * 256 + x.toNat) * 256 ^ b.length :=
      Nat.mul_le_mul_right _ (by omega)
    have hhigh : (acc * 256 + x.toNat + 1) * 256 ^ b.length ≤ (acc + 1) * 256 * 256 ^ b.length :=
      Nat.mul_le_mul_right _ (by omega)
    rw [List.length_cons, Nat.pow_succ, Nat.mul_comm (256 ^ b.length) 256, ← Nat.mul_assoc,
      ← Nat.mul_assoc]
    exact ⟨hlow.trans hle, hlt.trans_le hhigh⟩

theorem toNat_lt (b : Bytes) : toNat b < 256 ^ b.length := by
  have h := (toNatFrom_bounds 0 b).2
  rwa [Nat.zero_add, Nat.one_mul] at h

theorem ofNat_toNatFrom (acc : Nat) (b : Bytes) : ofNat b.length (toNatFrom acc b) = b := by
  induction b generalizing acc with
  | nil => rfl
  | cons x b ih =>
    -- What the rest denotes is below `256 ^ b.length`, so division leaves `x` and what is above.
    have hstep : toNatFrom acc (x :: b) = toNatFrom (acc * 256 + x.toNat) b := rfl
    obtain ⟨hle, hlt⟩ := toNatFrom_bounds (acc * 256 + x.toNat) b
    have hdiv : toNatFrom (acc * 256 + x.toNat) b / 256 ^ b.length = acc * 256 + x.toNat := by
      apply Nat.div_eq_of_lt_le
      · exact hle
      · exact hlt
    have hbyte : UInt8.ofNat (acc * 256 + x.toNat) = x := by
      apply UInt8.toNat_inj.mp
      rw [UInt8.toNat_ofNat']
      have := x.toNat_lt
      omega
    rw [List.length_cons, ofNat, hstep, hdiv, hbyte, ih]

theorem ofNat_toNat {k : Nat} {b : Bytes} (h : b.length = k) : ofNat k (toNat b) = b := by
  subst h
  exact ofNat_toNatFrom 0 b

theorem ofNat_inj {k m n : Nat} (hm : m < 256 ^ k) (hn : n < 256 ^ k) (h : ofNat k m = ofNat k n) :
    m = n := by
  rw [← toNat_ofNat hm, h, toNat_ofNat hn]

/-- Blocks of one length, each of which tells what it was made from. -/
theorem flatMap_inj {α : Type*} {f : α → Bytes} {n : Nat} (hpos : 0 < n)
    (hlength : ∀ a, (f a).length = n) (hinj : ∀ a b, f a = f b → a = b) {l l' : List α}
    (h : l.flatMap f = l'.flatMap f) : l = l' := by
  have hcons (a : α) (l : List α) : (a :: l).flatMap f ≠ [] := by
    intro hnil
    have := congrArg List.length hnil
    rw [List.flatMap_cons, List.length_append, hlength, List.length_nil] at this
    omega
  induction l generalizing l' with
  | nil =>
    cases l' with
    | nil => rfl
    | cons b l' => exact absurd h.symm (hcons b l')
  | cons a l ih =>
    cases l' with
    | nil => exact absurd h (hcons a l)
    | cons b l' =>
      rw [List.flatMap_cons, List.flatMap_cons] at h
      obtain ⟨hblock, hrest⟩ := List.append_inj h (by rw [hlength, hlength])
      rw [hinj a b hblock, ih hrest]

/-- `b` stands at `offset` of `bytes`, and ends at `stop`. -/
structure Span (bytes : Bytes) (offset : Nat) (b : Bytes) (stop : Nat) : Prop where
  stop_eq : stop = offset + b.length
  stop_le : stop ≤ bytes.length
  take : (bytes.drop offset).take b.length = b

variable {bytes b c : Bytes} {offset middle stop : Nat}

theorem span_middle (pre b rest : Bytes) :
    Span (pre ++ b ++ rest) pre.length b (pre.length + b.length) := by
  refine ⟨rfl, ?_, ?_⟩
  · simp only [List.length_append]
    omega
  · rw [List.append_assoc, List.drop_left, List.take_left]

theorem Span.drop (h : Span bytes offset b stop) :
    bytes.drop offset = b ++ bytes.drop stop := by
  rw [← List.take_append_drop b.length (bytes.drop offset), h.take, List.drop_drop, h.stop_eq]

theorem span_iff_drop : Span bytes offset b stop ↔
    stop = offset + b.length ∧ stop ≤ bytes.length ∧ bytes.drop offset = b ++ bytes.drop stop :=
  ⟨fun h => ⟨h.stop_eq, h.stop_le, h.drop⟩,
    fun ⟨heq, hle, hdrop⟩ => ⟨heq, hle, by rw [hdrop, List.take_left]⟩⟩

theorem span_append : Span bytes offset (b ++ c) stop ↔
    ∃ middle, Span bytes offset b middle ∧ Span bytes middle c stop := by
  constructor
  · intro h
    have heq := h.stop_eq
    have hle := h.stop_le
    have hdrop := h.drop
    rw [List.length_append] at heq
    have hrest : bytes.drop (offset + b.length) = c ++ bytes.drop stop := by
      rw [← List.drop_drop, hdrop, List.append_assoc, List.drop_left]
    refine ⟨offset + b.length, span_iff_drop.mpr ⟨rfl, by omega, ?_⟩,
      span_iff_drop.mpr ⟨by omega, hle, hrest⟩⟩
    rw [hrest, hdrop, List.append_assoc]
  · rintro ⟨middle, hb, hc⟩
    refine span_iff_drop.mpr ⟨?_, hc.stop_le, ?_⟩
    · rw [hc.stop_eq, hb.stop_eq, List.length_append, Nat.add_assoc]
    · rw [hb.drop, hc.drop, List.append_assoc]

theorem span_cons {x : UInt8} : Span bytes offset (x :: b) stop ↔
    ∃ middle, Span bytes offset [x] middle ∧ Span bytes middle b stop :=
  span_append (b := [x])

end Bytes

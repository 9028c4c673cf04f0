import Mathlib.Data.Int.Log
import Mathlib.Data.Rat.Floor
import Mathlib.Algebra.Order.Field.Power
import Mathlib.Algebra.Ring.Int.Parity
import Mathlib.Tactic.Linarith
import Mathlib.Tactic.GCongr
import Mathlib.Tactic.Positivity

/-!
Arithmetic in double precision, on values that do not overflow: an operation is the exact one,
rounded to the nearest double, and to the even one of two. How far a value is from the exact one is
relative to the value, and counted in roundings.
-/
namespace Binary64

/-- The nearest integer, and the even one of two. -/
def nearest (q : ℚ) : ℤ :=
  if q - ⌊q⌋ < 1 / 2 ∨ q - ⌊q⌋ = 1 / 2 ∧ Even ⌊q⌋ then ⌊q⌋ else ⌊q⌋ + 1

/-- The exponent of the last place of a double next to `q`, which the subnormal ones share. -/
def place (q : ℚ) : ℤ := max (Int.log 2 |q| - 52) (-1074)

def ulp (q : ℚ) : ℚ := 2 ^ place q

def round (q : ℚ) : ℚ := nearest (q / ulp q) * ulp q

/-- Any value of the type. -/
inductive Double
  | finite (q : ℚ)
  | infinite (negative : Bool)
  | nan
  deriving DecidableEq

/-- The comparison with a finite double. -/
def Double.le : Double → ℚ → Bool
  | finite p, q => p ≤ q
  | infinite negative, _ => negative
  | nan, _ => false

variable {q : ℚ}

theorem abs_nearest_sub_le (q : ℚ) : |(nearest q : ℚ) - q| ≤ 1 / 2 := by
  have hfloor := Int.floor_le q
  have hlt := Int.lt_floor_add_one q
  unfold nearest
  rw [abs_le]
  split
  · rename_i hdown
    have hle : q - ⌊q⌋ ≤ 1 / 2 := hdown.elim le_of_lt fun h => h.1.le
    constructor <;> linarith
  · rename_i hup
    have hle : 1 / 2 ≤ q - ⌊q⌋ := not_lt.mp fun h => hup (.inl h)
    push_cast
    constructor <;> linarith

theorem ulp_pos (q : ℚ) : 0 < ulp q := zpow_pos (by norm_num) _

theorem abs_round_sub_le (q : ℚ) : |round q - q| ≤ ulp q / 2 := by
  have hulp := ulp_pos q
  have hq : q / ulp q * ulp q = q := div_mul_cancel₀ q hulp.ne'
  calc |round q - q| = |(nearest (q / ulp q) - q / ulp q) * ulp q| := by rw [sub_mul, hq, round]
    _ = |(nearest (q / ulp q) : ℚ) - q / ulp q| * ulp q := by rw [abs_mul, abs_of_pos hulp]
    _ ≤ 1 / 2 * ulp q := mul_le_mul_of_nonneg_right (abs_nearest_sub_le _) hulp.le
    _ = ulp q / 2 := by ring

theorem place_of_nonneg (hq : 0 ≤ q) : place q = max (Int.log 2 q - 52) (-1074) := by
  rw [place, abs_of_nonneg hq]

theorem log_le (hq : 0 < q) : (2 : ℚ) ^ Int.log 2 q ≤ q := by
  exact_mod_cast Int.zpow_log_le_self (b := 2) (by norm_num) hq

theorem lt_log_succ (q : ℚ) : q < (2 : ℚ) ^ (Int.log 2 q + 1) := by
  exact_mod_cast Int.lt_zpow_succ_log_self (b := 2) (by norm_num) q

theorem round_zero : round 0 = 0 := by simp [round, nearest]

/-- More than what one rounding of a normal double multiplies or divides a value by. -/
def slack : ℚ := 1 + 1 / 2 ^ 52

/-- `y` is off `x` by at most `n` roundings. -/
def Close (n : Nat) (x y : ℚ) : Prop := x ≤ y * slack ^ n ∧ y ≤ x * slack ^ n

variable {c x x' y y' z : ℚ} {m n : Nat}

theorem one_le_slack_pow (n : Nat) : 1 ≤ slack ^ n :=
  one_le_pow₀ (by norm_num [slack])

theorem slack_pow_pos (n : Nat) : 0 < slack ^ n := lt_of_lt_of_le one_pos (one_le_slack_pow n)

theorem Close.refl (hx : 0 ≤ x) : Close n x x := by
  have h := le_mul_of_one_le_right hx (one_le_slack_pow n)
  exact ⟨h, h⟩

theorem Close.nonneg (h : Close n x y) (hx : 0 ≤ x) : 0 ≤ y :=
  nonneg_of_mul_nonneg_left (hx.trans h.1) (slack_pow_pos n)

theorem Close.pos (h : Close n x y) (hx : 0 < x) : 0 < y :=
  (mul_pos_iff_of_pos_right (slack_pow_pos n)).mp (hx.trans_le h.1)

theorem Close.mono (h : Close m x y) (hx : 0 ≤ x) (hmn : m ≤ n) : Close n x y := by
  have hpow : slack ^ m ≤ slack ^ n := pow_le_pow_right₀ (by norm_num [slack]) hmn
  exact ⟨h.1.trans (mul_le_mul_of_nonneg_left hpow (h.nonneg hx)),
    h.2.trans (mul_le_mul_of_nonneg_left hpow hx)⟩

theorem Close.trans (h : Close m x y) (k : Close n y z) : Close (m + n) x z := by
  have hm := (slack_pow_pos m).le
  have hn := (slack_pow_pos n).le
  constructor
  · calc x ≤ y * slack ^ m := h.1
      _ ≤ z * slack ^ n * slack ^ m := mul_le_mul_of_nonneg_right k.1 hm
      _ = z * slack ^ (m + n) := by ring
  · calc z ≤ y * slack ^ n := k.2
      _ ≤ x * slack ^ m * slack ^ n := mul_le_mul_of_nonneg_right h.2 hn
      _ = x * slack ^ (m + n) := by ring

theorem Close.add (h : Close n x y) (k : Close n x' y') : Close n (x + x') (y + y') := by
  constructor
  · rw [add_mul]
    exact add_le_add h.1 k.1
  · rw [add_mul]
    exact add_le_add h.2 k.2

theorem Close.max (h : Close n x y) (k : Close n x' y') : Close n (max x x') (max y y') := by
  have hpow := (slack_pow_pos n).le
  constructor
  · refine max_le (h.1.trans ?_) (k.1.trans ?_)
    · exact mul_le_mul_of_nonneg_right (le_max_left _ _) hpow
    · exact mul_le_mul_of_nonneg_right (le_max_right _ _) hpow
  · refine max_le (h.2.trans ?_) (k.2.trans ?_)
    · exact mul_le_mul_of_nonneg_right (le_max_left _ _) hpow
    · exact mul_le_mul_of_nonneg_right (le_max_right _ _) hpow

theorem Close.mul_right (h : Close n x y) (hc : 0 ≤ c) : Close n (x * c) (y * c) := by
  constructor
  · calc x * c ≤ y * slack ^ n * c := mul_le_mul_of_nonneg_right h.1 hc
      _ = y * c * slack ^ n := by ring
  · calc y * c ≤ x * slack ^ n * c := mul_le_mul_of_nonneg_right h.2 hc
      _ = x * c * slack ^ n := by ring

theorem Close.div (h : Close m x y) (k : Close n x' y') (hx : 0 ≤ x) (hx' : 0 < x') :
    Close (m + n) (x / x') (y / y') := by
  have hy := h.nonneg hx
  have hy' := k.pos hx'
  have hinv (p q : ℚ) (hp : 0 < p) (hq : 0 < q) (hqp : q ≤ p * slack ^ n) :
      1 / p ≤ 1 / q * slack ^ n := by
    rw [div_mul_eq_mul_div, one_mul, div_le_div_iff₀ hp hq]
    linarith
  constructor
  · calc x / x' = x * (1 / x') := by ring
      _ ≤ y * slack ^ m * (1 / y' * slack ^ n) :=
        mul_le_mul h.1 (hinv x' y' hx' hy' k.2) (by positivity)
          (mul_nonneg hy (slack_pow_pos m).le)
      _ = y / y' * slack ^ (m + n) := by ring
  · calc y / y' = y * (1 / y') := by ring
      _ ≤ x * slack ^ m * (1 / x' * slack ^ n) :=
        mul_le_mul h.2 (hinv y' x' hy' hx' k.1) (by positivity)
          (mul_nonneg hx (slack_pow_pos m).le)
      _ = x / x' * slack ^ (m + n) := by ring

/-- One rounding is one rounding, as long as it does not end among the subnormal doubles. -/
theorem close_round (h : q = 0 ∨ 2 ^ (-1022 : ℤ) ≤ q) : Close 1 q (round q) := by
  rcases h with rfl | hq
  · rw [round_zero]
    exact .refl le_rfl
  · have hpos : 0 < q := lt_of_lt_of_le (by positivity) hq
    have hlog : -1022 ≤ Int.log 2 q := by
      have hlt := hq.trans_lt (lt_log_succ q)
      have := (zpow_lt_zpow_iff_right₀ (a := (2 : ℚ)) (by norm_num)).mp hlt
      omega
    have hulp : ulp q / 2 ≤ q / 2 ^ 53 := by
      have hlog_le := log_le hpos
      rw [ulp, place_of_nonneg hpos.le, max_eq_left (by omega), zpow_sub₀ (by norm_num)]
      calc (2 : ℚ) ^ Int.log 2 q / 2 ^ (52 : ℤ) / 2 = 2 ^ Int.log 2 q / 2 ^ 53 := by
            norm_num [div_div]
        _ ≤ q / 2 ^ 53 := div_le_div_of_nonneg_right hlog_le (by norm_num)
    obtain ⟨hlow, hhigh⟩ := abs_le.mp (abs_round_sub_le q)
    rw [Close, pow_one, slack]
    constructor
    · calc q ≤ (q - q / 2 ^ 53) * (1 + 1 / 2 ^ 52) := by linarith
        _ ≤ round q * (1 + 1 / 2 ^ 52) :=
          mul_le_mul_of_nonneg_right (by linarith) (by norm_num)
    · linarith

theorem slack_pow_le (h : n ≤ 128) : slack ^ n ≤ 1 + 1 / 2 ^ 44 :=
  calc slack ^ n ≤ slack ^ 128 := pow_le_pow_right₀ (by norm_num [slack]) h
    _ ≤ 1 + 1 / 2 ^ 44 := by norm_num [slack]

/-- A value that is rounded may have been rounded before. -/
theorem Close.round (h : Close n x y) (hn : n ≤ 128) (hx : x = 0 ∨ 2 ^ (-1000 : ℤ) ≤ x) :
    Close (n + 1) x (Binary64.round y) := by
  refine h.trans (close_round ?_)
  rcases hx with rfl | hx
  · have hle : y ≤ 0 := by simpa using h.2
    exact Or.inl (le_antisymm hle (h.nonneg le_rfl))
  · have hpos : (0 : ℚ) < 2 ^ (-1000 : ℤ) := by positivity
    have hy : 0 < y := h.pos (hpos.trans_le hx)
    refine Or.inr ?_
    have hslack : slack ^ n ≤ 2 := (slack_pow_le hn).trans (by norm_num)
    have hdouble : 2 ^ (-1000 : ℤ) ≤ y * 2 :=
      hx.trans (h.1.trans (mul_le_mul_of_nonneg_left hslack hy.le))
    have hpower : (2 : ℚ) ^ (-1022 : ℤ) * 2 ≤ 2 ^ (-1000 : ℤ) := by
      rw [← zpow_add_one₀ (by norm_num)]
      exact zpow_le_zpow_right₀ (by norm_num) (by norm_num)
    linarith

/-- The sum of doubles, one after another. -/
def sum (values : List ℚ) : ℚ := values.foldl (fun acc x => round (acc + x)) 0

theorem close_foldl {values values' : List ℚ} {acc acc' : ℚ} {k : Nat}
    (h : List.Forall₂ (Close n) values values') (hnormal : ∀ x ∈ values, 2 ^ (-1000 : ℤ) ≤ x)
    (hacc : Close k acc acc') (hnonneg : 0 ≤ acc) (hn : n ≤ k) (hk : k + values.length ≤ 129) :
    Close (k + values.length) (acc + values.sum)
      (values'.foldl (fun acc x => Binary64.round (acc + x)) acc') := by
  induction h generalizing acc acc' k with
  | nil => simpa using hacc
  | @cons x y values values' hxy _ ih =>
    rw [List.forall_mem_cons] at hnormal
    rw [List.length_cons] at hk
    have hx : 0 ≤ x := le_trans (by positivity) hnormal.1
    have hsum : Close (k + 1) (acc + x) (Binary64.round (acc' + y)) :=
      (hacc.add (hxy.mono hx hn)).round (by omega)
        (.inr (hnormal.1.trans (le_add_of_nonneg_left hnonneg)))
    have hrest := ih hnormal.2 hsum (add_nonneg hnonneg hx) (by omega) (by omega)
    rw [List.length_cons, List.sum_cons, ← add_assoc acc, Nat.add_comm values.length,
      ← Nat.add_assoc]
    exact hrest

/-- A sum of positive values is off by a rounding for each of them. -/
theorem close_sum {values values' : List ℚ} (h : List.Forall₂ (Close n) values values')
    (hnormal : ∀ x ∈ values, 2 ^ (-1000 : ℤ) ≤ x) (hn : n + values.length ≤ 129) :
    Close (n + values.length) values.sum (sum values') := by
  have := close_foldl h hnormal (Close.refl (n := n) le_rfl) le_rfl le_rfl hn
  rwa [zero_add] at this

end Binary64

import Mathlib.Algebra.Order.Floor.Ring
import Mathlib.Data.Int.Log
import Mathlib.Data.Rat.Floor
import Mathlib.Tactic.Linarith
import Mathlib.Tactic.Positivity

/-!
# Rounding to a binary floating-point format

A finite number of a format is an integer of at most `precision` bits times a power of two not below
`minExponent`. Rounding takes the nearest such number, and the one with the even integer between two
that are as near. It is monotone and keeps what is representable; overflow is not modelled.
-/

namespace P2pnas.Lib.Rounding

/-- The nearest integer, the even one of two. -/
def roundEven (q : ℚ) : ℤ :=
  let n := ⌊q⌋
  if q - n < 1 / 2 then n
  else if 1 / 2 < q - n then n + 1
  else if n % 2 = 0 then n
  else n + 1

structure Format where
  precision : ℕ
  minExponent : ℤ
  precision_pos : 0 < precision

/-- The power of two that numbers of the size of `x` are multiples of. -/
def Format.exponent (F : Format) (x : ℚ) : ℤ :=
  if x = 0 then F.minExponent else max (Int.log 2 |x| + 1 - F.precision) F.minExponent

def Format.round (F : Format) (x : ℚ) : ℚ := roundEven (x / 2 ^ F.exponent x) * 2 ^ F.exponent x

def Format.Representable (F : Format) (x : ℚ) : Prop :=
  ∃ n e : ℤ, |n| ≤ 2 ^ F.precision ∧ F.minExponent ≤ e ∧ x = n * 2 ^ e

/-! Each operation rounds its exact result. -/

def Format.add (F : Format) (x y : ℚ) : ℚ := F.round (x + y)
def Format.mul (F : Format) (x y : ℚ) : ℚ := F.round (x * y)
def Format.div (F : Format) (x y : ℚ) : ℚ := F.round (x / y)
def Format.ofInt (F : Format) (n : ℤ) : ℚ := F.round n

/-- IEEE 754 binary64. -/
def binary64 : Format := ⟨53, -1074, Nat.succ_pos 52⟩

/-! ### Integers -/

@[simp] theorem roundEven_intCast (n : ℤ) : roundEven (n : ℚ) = n := by
  simp [roundEven]

theorem floor_le_roundEven (q : ℚ) : ⌊q⌋ ≤ roundEven q := by
  unfold roundEven
  dsimp only
  split_ifs <;> omega

theorem roundEven_le_floor (q : ℚ) : roundEven q ≤ ⌊q⌋ + 1 := by
  unfold roundEven
  dsimp only
  split_ifs <;> omega

theorem roundEven_mono {q r : ℚ} (hqr : q ≤ r) : roundEven q ≤ roundEven r := by
  have hfloor := Int.floor_le_floor hqr
  rcases hfloor.lt_or_eq with hlt | heq
  · have hq := roundEven_le_floor q
    have hr := floor_le_roundEven r
    omega
  · -- both lie between the same two integers
    unfold roundEven
    dsimp only
    rw [← heq]
    split_ifs <;> first | omega | (exfalso; linarith)

/-! ### Rounding against a multiple of a larger power of two -/

section
variable {F : Format} {x y : ℚ} {k : ℤ} {n : ℤ}

theorem zpow_two_pos (e : ℤ) : (0 : ℚ) < 2 ^ e := zpow_pos two_pos e

theorem multiple_div (h : F.exponent x ≤ k) : (n : ℚ) * 2 ^ k / 2 ^ F.exponent x =
    ((n * 2 ^ (k - F.exponent x).toNat : ℤ) : ℚ) := by
  have hk : (2 : ℚ) ^ k = 2 ^ (k - F.exponent x).toNat * 2 ^ F.exponent x := by
    rw [← zpow_natCast, ← zpow_add₀ two_ne_zero]
    congr 1
    omega
  rw [hk, ← mul_assoc, mul_div_cancel_right₀ _ (zpow_two_pos _).ne']
  push_cast
  rfl

theorem round_le (h : F.exponent x ≤ k) (hx : x ≤ n * 2 ^ k) : F.round x ≤ n * 2 ^ k := by
  have hpos := zpow_two_pos (F.exponent x)
  have hdiv := div_le_div_of_nonneg_right hx hpos.le
  rw [multiple_div h] at hdiv
  have hround := roundEven_mono hdiv
  rw [roundEven_intCast] at hround
  have hcast : (roundEven (x / 2 ^ F.exponent x) : ℚ) ≤ n * 2 ^ k / 2 ^ F.exponent x := by
    rw [multiple_div h]
    exact_mod_cast hround
  exact (le_div_iff₀ hpos).mp hcast

theorem le_round (h : F.exponent x ≤ k) (hx : n * 2 ^ k ≤ x) : n * 2 ^ k ≤ F.round x := by
  have hpos := zpow_two_pos (F.exponent x)
  have hdiv := div_le_div_of_nonneg_right hx hpos.le
  rw [multiple_div h] at hdiv
  have hround := roundEven_mono hdiv
  rw [roundEven_intCast] at hround
  have hcast : n * 2 ^ k / 2 ^ F.exponent x ≤ (roundEven (x / 2 ^ F.exponent x) : ℚ) := by
    rw [multiple_div h]
    exact_mod_cast hround
  exact (div_le_iff₀ hpos).mp hcast

theorem minExponent_le (F : Format) (x : ℚ) : F.minExponent ≤ F.exponent x := by
  unfold Format.exponent
  split_ifs <;> omega

/-- A number is below the power of two above its leading digit. -/
theorem abs_lt_zpow (F : Format) (x : ℚ) : |x| < 2 ^ (F.exponent x + F.precision) := by
  by_cases hx : x = 0
  · rw [hx, abs_zero]
    exact zpow_two_pos _
  · have hlog : |x| < 2 ^ (Int.log 2 |x| + 1) := by
      have h := Int.lt_zpow_succ_log_self (b := 2) one_lt_two |x|
      simpa using h
    have hle : Int.log 2 |x| + 1 ≤ F.exponent x + F.precision := by
      rw [Format.exponent, if_neg hx]
      omega
    exact hlog.trans_le (zpow_le_zpow_right₀ one_le_two hle)

/-- Where the exponent is not the least one, the number has all its digits. -/
theorem zpow_le_abs (h : F.minExponent < F.exponent x) : 2 ^ (F.exponent x + F.precision - 1) ≤ |x| := by
  have hx : x ≠ 0 := by
    rintro rfl
    simp [Format.exponent] at h
  have hexp : F.exponent x + F.precision - 1 = Int.log 2 |x| := by
    rw [Format.exponent, if_neg hx] at h ⊢
    omega
  rw [hexp]
  have hlog := Int.zpow_log_le_self (b := 2) one_lt_two (abs_pos.mpr hx)
  simpa using hlog

/-! ### The rules of rounding -/

theorem round_mono (F : Format) : Monotone F.round := by
  intro x y hxy
  have hp := F.precision_pos
  rcases lt_trichotomy (F.exponent x) (F.exponent y) with hlt | heq | hgt
  · -- `y` is the larger one, so it is positive, and a power of two lies between
    have hy := zpow_le_abs ((minExponent_le F x).trans_lt hlt)
    have hx := (abs_lt_zpow F x).trans_le
      (zpow_le_zpow_right₀ one_le_two (show F.exponent x + F.precision ≤ F.exponent y + F.precision - 1 by omega))
    have hpos : 0 ≤ y := by
      by_contra hneg
      rw [abs_of_neg (not_le.mp hneg)] at hy
      have habs := neg_abs_le x
      linarith
    rw [abs_of_nonneg hpos] at hy
    have hle := (le_abs_self x).trans hx.le
    have h₁ := round_le (F := F) (x := x) (n := 1) (k := F.exponent y + F.precision - 1) (by omega) (by simpa using hle)
    have h₂ := le_round (F := F) (x := y) (n := 1) (k := F.exponent y + F.precision - 1) (by omega) (by simpa using hy)
    exact h₁.trans h₂
  · have hpos := zpow_two_pos (F.exponent x)
    have hdiv := roundEven_mono (div_le_div_of_nonneg_right hxy hpos.le)
    unfold Format.round
    rw [← heq]
    exact mul_le_mul_of_nonneg_right (by exact_mod_cast hdiv) hpos.le
  · -- `x` is the larger one, so it is negative
    have hx := zpow_le_abs ((minExponent_le F y).trans_lt hgt)
    have hy := (abs_lt_zpow F y).trans_le
      (zpow_le_zpow_right₀ one_le_two (show F.exponent y + F.precision ≤ F.exponent x + F.precision - 1 by omega))
    have hneg : x ≤ 0 := by
      by_contra hpos
      rw [abs_of_pos (not_le.mp hpos)] at hx
      have habs := le_abs_self y
      linarith
    rw [abs_of_nonpos hneg] at hx
    have hle := (neg_le_neg hy.le).trans (neg_abs_le y)
    have h₁ := round_le (F := F) (x := x) (n := -1) (k := F.exponent x + F.precision - 1) (by omega)
      (by push_cast; linarith)
    have h₂ := le_round (F := F) (x := y) (n := -1) (k := F.exponent x + F.precision - 1) (by omega)
      (by push_cast; linarith)
    exact h₁.trans h₂

/-- What is representable is a multiple of the power of two of its exponent. -/
theorem Format.Representable.multiple (h : F.Representable x) : ∃ m : ℤ, x = m * 2 ^ F.exponent x := by
  obtain ⟨n, e, hn, he, rfl⟩ := h
  by_cases hle : F.exponent (n * 2 ^ e) ≤ e
  · refine ⟨n * 2 ^ (e - F.exponent (n * 2 ^ e)).toNat, ?_⟩
    rw [← multiple_div hle, div_mul_cancel₀ _ (zpow_two_pos _).ne']
  · -- the integer has one bit more than the others, so it is a power of two
    have hp := F.precision_pos
    have hlow := zpow_le_abs (he.trans_lt (not_le.mp hle))
    have habs : |(n : ℚ) * 2 ^ e| ≤ 2 ^ ((F.precision : ℤ) + e) := by
      rw [abs_mul, abs_of_pos (zpow_two_pos e), zpow_add₀ two_ne_zero, zpow_natCast]
      exact mul_le_mul_of_nonneg_right (by exact_mod_cast hn) (zpow_two_pos e).le
    have hexp := (zpow_le_zpow_iff_right₀ (one_lt_two (α := ℚ))).mp (hlow.trans habs)
    obtain heq : F.exponent (n * 2 ^ e) = e + 1 := by omega
    rw [heq, add_right_comm, add_sub_cancel_right, abs_mul, abs_of_pos (zpow_two_pos e), add_comm,
      zpow_add₀ two_ne_zero, zpow_natCast] at hlow
    have hfull : (2 ^ F.precision : ℤ) ≤ |n| := by
      exact_mod_cast le_of_mul_le_mul_right hlow (zpow_two_pos e)
    have heven : (2 : ℤ) ∣ n := by
      rw [← dvd_abs, le_antisymm hn hfull]
      exact dvd_pow_self 2 hp.ne'
    obtain ⟨m, rfl⟩ := heven
    refine ⟨m, ?_⟩
    rw [heq, zpow_add_one₀ two_ne_zero]
    push_cast
    ring

theorem round_of_representable (h : F.Representable x) : F.round x = x := by
  obtain ⟨m, hm⟩ := h.multiple
  have hdiv : x / 2 ^ F.exponent x = (m : ℚ) := by
    rw [div_eq_iff (zpow_two_pos _).ne']
    exact hm
  rw [Format.round, hdiv, roundEven_intCast, ← hm]

theorem le_round_of_representable (hy : F.Representable y) (h : y ≤ x) : y ≤ F.round x := by
  rw [← round_of_representable hy]
  exact round_mono F h

theorem round_le_of_representable (hy : F.Representable y) (h : x ≤ y) : F.round x ≤ y := by
  rw [← round_of_representable hy]
  exact round_mono F h

end

end P2pnas.Lib.Rounding

import Mathlib

/-!
# Rounding to binary64

A program that computes in doubles on rational inputs computes on rationals and rounds
after each operation. `Binary64.round` is that rounding: to the nearest multiple of the
unit in the last place of fifty-three binary digits, ties to even. It is a function on
rationals that evaluates, so a computation in doubles can be run; the range of the
exponent is not modelled, which is exact as long as no operation overflows or falls below
the least normal number.

The one fact the error analyses use is that the rounding moves a number by at most one
part in `2 ^ 53` (`Binary64.abs_round_sub_le`).
-/

namespace Binary64

/-! ### The rounding -/

/-- The nearest integer, the even one of two. -/
def roundEven (x : ℚ) : ℤ :=
  if x - ⌊x⌋ < 1 / 2 then ⌊x⌋
  else if 1 / 2 < x - ⌊x⌋ then ⌊x⌋ + 1
  else if ⌊x⌋ % 2 = 0 then ⌊x⌋
  else ⌊x⌋ + 1

/-- The exponent of the leading binary digit. -/
def binade (x : ℚ) : ℤ :=
  let e := (x.num.natAbs.log2 : ℤ) - x.den.log2
  if |x| < 2 ^ e then e - 1 else e

/-- The nearest number of fifty-three binary digits. -/
def round (x : ℚ) : ℚ := roundEven (x / 2 ^ (binade x - 52)) * 2 ^ (binade x - 52)

/-- A cast to an integer: towards zero. -/
def truncate (x : ℚ) : ℤ := if 0 ≤ x then ⌊x⌋ else ⌈x⌉

/-! ### How far a rounding moves -/

variable {x y : ℚ}

theorem abs_roundEven_sub_le (x : ℚ) : |(roundEven x : ℚ) - x| ≤ 1 / 2 := by
  have hle := Int.floor_le x
  have hlt := Int.lt_floor_add_one x
  unfold roundEven
  split
  · rw [abs_le]
    constructor <;> linarith
  · split
    · rw [abs_le]
      push_cast
      constructor <;> linarith
    · -- a tie: both neighbours are a half away
      split
      · rw [abs_le]
        constructor <;> linarith
      · rw [abs_le]
        push_cast
        constructor <;> linarith

/-- The leading digit of a fraction, up to one place. -/
theorem log2_bounds (hx : x ≠ 0) :
    (2 : ℚ) ^ ((x.num.natAbs.log2 : ℤ) - x.den.log2 - 1) < |x| ∧
      |x| < 2 ^ ((x.num.natAbs.log2 : ℤ) - x.den.log2 + 1) := by
  have hnum : x.num.natAbs ≠ 0 := Int.natAbs_ne_zero.mpr (Rat.num_ne_zero.mpr hx)
  have habs : |x| = (x.num.natAbs : ℚ) / x.den := by
    rw [Nat.cast_natAbs, Int.cast_abs, ← abs_of_pos (Nat.cast_pos.mpr x.den_pos : (0 : ℚ) < x.den),
      ← abs_div, Rat.num_div_den]
  have hnlo : (2 : ℚ) ^ x.num.natAbs.log2 ≤ x.num.natAbs := by
    exact_mod_cast Nat.log2_self_le hnum
  have hnhi : (x.num.natAbs : ℚ) < 2 ^ (x.num.natAbs.log2 + 1) := by
    exact_mod_cast Nat.lt_log2_self
  have hdlo : (2 : ℚ) ^ x.den.log2 ≤ x.den := by
    exact_mod_cast Nat.log2_self_le x.den_nz
  have hdhi : (x.den : ℚ) < 2 ^ (x.den.log2 + 1) := by
    exact_mod_cast Nat.lt_log2_self
  have hden : (0 : ℚ) < x.den := Nat.cast_pos.mpr x.den_pos
  have htwo : (2 : ℚ) ≠ 0 := two_ne_zero
  rw [habs]
  constructor
  · rw [sub_sub, zpow_sub₀ htwo, div_lt_div_iff₀ (zpow_pos two_pos _) hden]
    have hexp : (2 : ℚ) ^ ((x.den.log2 : ℤ) + 1) = 2 ^ (x.den.log2 + 1) := by
      exact_mod_cast rfl
    rw [hexp, zpow_natCast]
    calc (2 : ℚ) ^ x.num.natAbs.log2 * x.den
        < 2 ^ x.num.natAbs.log2 * 2 ^ (x.den.log2 + 1) := by gcongr
      _ ≤ x.num.natAbs * 2 ^ (x.den.log2 + 1) := by gcongr
  · rw [sub_add_eq_add_sub, zpow_sub₀ htwo, div_lt_div_iff₀ hden (zpow_pos two_pos _)]
    have hexp : (2 : ℚ) ^ ((x.num.natAbs.log2 : ℤ) + 1) = 2 ^ (x.num.natAbs.log2 + 1) := by
      exact_mod_cast rfl
    rw [hexp, zpow_natCast]
    calc (x.num.natAbs : ℚ) * 2 ^ x.den.log2
        < 2 ^ (x.num.natAbs.log2 + 1) * 2 ^ x.den.log2 := by gcongr
      _ ≤ 2 ^ (x.num.natAbs.log2 + 1) * x.den := by gcongr

/-- The leading digit stands at the binade, or above it. -/
theorem two_pow_binade_le (hx : x ≠ 0) : (2 : ℚ) ^ binade x ≤ |x| := by
  obtain ⟨hlo, -⟩ := log2_bounds hx
  unfold binade
  dsimp only
  split
  · exact hlo.le
  · rename_i h
    exact not_lt.mp h

/-- **A rounding moves a number by at most one part in `2 ^ 53`.** -/
theorem abs_round_sub_le (x : ℚ) : |round x - x| ≤ |x| / 2 ^ 53 := by
  by_cases hx : x = 0
  · subst hx
    decide +kernel
  · set u : ℚ := 2 ^ (binade x - 52) with hu
    have hupos : 0 < u := zpow_pos two_pos _
    have hround : round x - x = (roundEven (x / u) - x / u) * u := by
      rw [round, ← hu, sub_mul, div_mul_cancel₀ x hupos.ne']
    have hhalf : |(roundEven (x / u) : ℚ) - x / u| ≤ 1 / 2 := abs_roundEven_sub_le _
    have hunit : u = 2 ^ binade x / 2 ^ 52 := by
      rw [hu, zpow_sub₀ two_ne_zero]
      norm_num
    rw [hround, abs_mul, abs_of_pos hupos]
    calc |(roundEven (x / u) : ℚ) - x / u| * u ≤ 1 / 2 * u := by gcongr
      _ = 2 ^ binade x / 2 ^ 53 := by rw [hunit]; ring
      _ ≤ |x| / 2 ^ 53 := by gcongr; exact two_pow_binade_le hx

/-- Within a bound, a rounding moves by at most one part in `2 ^ 53` of the bound. -/
theorem abs_round_sub_le_of_abs_le (h : |x| ≤ y) : |round x - x| ≤ y / 2 ^ 53 :=
  (abs_round_sub_le x).trans (by gcongr)

/-- A cast is the integer below, where the number is less than one off it. -/
theorem truncate_eq {n : ℤ} (hn : 0 ≤ n) (hlo : n ≤ x) (hhi : x < n + 1) : truncate x = n := by
  have hx : 0 ≤ x := (by exact_mod_cast hn : (0 : ℚ) ≤ n).trans hlo
  rw [truncate, if_pos hx, Int.floor_eq_iff]
  exact ⟨hlo, hhi⟩

end Binary64

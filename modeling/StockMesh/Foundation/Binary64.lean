import Mathlib.Algebra.Order.Floor.Ring
import Mathlib.Data.Rat.Floor
import Mathlib.Tactic.FieldSimp
import Mathlib.Tactic.Positivity
import Mathlib.Tactic.Ring

/-! # Binary64 patterns

The fields of the 64-bit pattern of a double and the number that a normal pattern stands for: the sign, a
significand of 53 bits with its leading bit implied, and a power of two.

`floor_value_mul` is the value in fixed point: a shift of the significand, to the left while the exponent
lasts and to the right, with a floor, after that. -/

namespace Binary64

/-- The sign bit. -/
def sign (bits : ℕ) : ℕ := bits / 2 ^ 63

/-- The biased exponent. -/
def exponent (bits : ℕ) : ℕ := bits / 2 ^ 52 % 2 ^ 11

/-- The stored part of the significand. -/
def fraction (bits : ℕ) : ℕ := bits % 2 ^ 52

/-- The significand of a normal pattern. -/
def significand (bits : ℕ) : ℕ := 2 ^ 52 + fraction bits

/-- The pattern of a positive number that is neither subnormal nor infinite. -/
structure PositiveNormal (bits : ℕ) : Prop where
  sign_eq : sign bits = 0
  exponent_ne_zero : exponent bits ≠ 0
  exponent_ne_max : exponent bits ≠ 2 ^ 11 - 1

/-- The number of a normal pattern: the exponent is biased by 1023 and the significand has 52 bits after
its point. -/
def value (bits : ℕ) : ℚ :=
  (-1) ^ sign bits * significand bits * 2 ^ ((exponent bits : ℤ) - 1023 - 52)

theorem le_significand (bits : ℕ) : 2 ^ 52 ≤ significand bits := Nat.le_add_right _ _

theorem significand_lt (bits : ℕ) : significand bits < 2 ^ 53 := by
  have hfraction : fraction bits < 2 ^ 52 := Nat.mod_lt _ (by positivity)
  unfold significand
  omega

/-- A positive number in fixed point, with as many bits after the point as the significand has to move
left. -/
theorem value_mul_of_le {bits k : ℕ} (hsign : sign bits = 0) (hle : 1075 ≤ exponent bits + k) :
    value bits * 2 ^ k = (significand bits * 2 ^ (exponent bits + k - 1075) : ℕ) := by
  have hexp : (exponent bits : ℤ) - 1023 - 52 + k = (exponent bits + k - 1075 : ℕ) := by omega
  rw [value, hsign, pow_zero, one_mul, mul_assoc, ← zpow_natCast (2 : ℚ) k,
    ← zpow_add₀ (by norm_num), hexp, zpow_natCast]
  push_cast
  rfl

/-- The other case: the significand moves right. -/
theorem value_mul_of_lt {bits k : ℕ} (hsign : sign bits = 0) (hlt : exponent bits + k < 1075) :
    value bits * 2 ^ k = (significand bits : ℚ) / (2 ^ (1075 - (exponent bits + k)) : ℕ) := by
  have hexp : (exponent bits : ℤ) - 1023 - 52 + k = -(1075 - (exponent bits + k) : ℕ) := by omega
  rw [value, hsign, pow_zero, one_mul, mul_assoc, ← zpow_natCast (2 : ℚ) k,
    ← zpow_add₀ (by norm_num), hexp, zpow_neg, zpow_natCast]
  push_cast
  rfl

/-- The fixed point of a positive number, rounded down. -/
theorem floor_value_mul {bits : ℕ} (k : ℕ) (hsign : sign bits = 0) :
    ⌊value bits * 2 ^ k⌋ =
      (if 1075 ≤ exponent bits + k then significand bits * 2 ^ (exponent bits + k - 1075)
        else significand bits / 2 ^ (1075 - (exponent bits + k)) : ℕ) := by
  by_cases hle : 1075 ≤ exponent bits + k
  · rw [if_pos hle, value_mul_of_le hsign hle, Int.floor_natCast]
  · rw [if_neg hle, value_mul_of_lt hsign (not_le.mp hle), Rat.floor_natCast_div_natCast]
    exact (Int.natCast_div _ _).symm

/-- The bits that a left shift of a significand loses are never the ones that a word keeps: what is left
of the shift is a positive word exactly when nothing was lost and the shift is a word. -/
theorem shifted_eq_iff {sig shift wide q : ℕ} (hlow : 2 ^ 52 ≤ sig) (hhigh : sig < 2 ^ 53)
    (hwide : 116 ≤ wide) :
    (sig * 2 ^ shift % 2 ^ wide = q ∧ q ≠ 0 ∧ q < 2 ^ 64) ↔
      (sig * 2 ^ shift = q ∧ q < 2 ^ 64) := by
  have hpos : 0 < sig * 2 ^ shift := Nat.mul_pos (by omega) (by positivity)
  by_cases hsmall : shift < 64
  · -- nothing is lost
    have hfits : sig * 2 ^ shift < 2 ^ wide := calc
      sig * 2 ^ shift < 2 ^ 53 * 2 ^ shift := Nat.mul_lt_mul_of_pos_right hhigh (by positivity)
      _ = 2 ^ (53 + shift) := (pow_add 2 53 shift).symm
      _ ≤ 2 ^ wide := Nat.pow_le_pow_right (by decide) (by omega)
    rw [Nat.mod_eq_of_lt hfits]
    constructor
    · rintro ⟨heq, -, hlt⟩
      exact ⟨heq, hlt⟩
    · rintro ⟨heq, hlt⟩
      exact ⟨heq, by omega, hlt⟩
  · -- what is kept and what is lost are multiples of `2 ^ 64`
    have hdvd : 2 ^ 64 ∣ sig * 2 ^ shift := Dvd.dvd.mul_left (pow_dvd_pow 2 (by omega)) sig
    have hkept : 2 ^ 64 ∣ sig * 2 ^ shift % 2 ^ wide :=
      (Nat.dvd_mod_iff (pow_dvd_pow 2 (by omega))).mpr hdvd
    constructor
    · rintro ⟨heq, hne, hlt⟩
      have := Nat.le_of_dvd (Nat.pos_of_ne_zero (heq ▸ hne)) hkept
      omega
    · rintro ⟨heq, hlt⟩
      have := Nat.le_of_dvd hpos hdvd
      omega

end Binary64

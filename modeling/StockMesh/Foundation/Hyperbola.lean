import Mathlib.Algebra.Order.Field.Basic
import Mathlib.Tactic.FieldSimp
import Mathlib.Tactic.Positivity
import Mathlib.Tactic.Linarith
import Mathlib.Tactic.Ring

/-! # The hyperbola `a·x / (b + c·x)`

The output of a constant-product exchange as a function of its input. On the non-negative half line
it increases, lies below each of its right-going tangents and above each of its chords. -/

namespace Hyperbola

variable {K : Type*} [Field K] [LinearOrder K] [IsStrictOrderedRing K]

/-- The value at `x`. -/
def value (a b c x : K) : K := a * x / (b + c * x)

/-- The derivative at `x`. -/
def slope (a b c x : K) : K := a * b / (b + c * x) ^ 2

variable {a b c x y z : K}

theorem den_pos (hb : 0 < b) (hc : 0 ≤ c) (hx : 0 ≤ x) : 0 < b + c * x := by positivity

/-- The increment of the hyperbola. -/
theorem value_sub (hb : 0 < b) (hc : 0 ≤ c) (hx : 0 ≤ x) (hy : 0 ≤ y) :
    value a b c y - value a b c x = a * b * (y - x) / ((b + c * x) * (b + c * y)) := by
  have h1 := (den_pos hb hc hx).ne'
  have h2 := (den_pos hb hc hy).ne'
  unfold value
  field_simp
  ring

/-- The hyperbola increases. -/
theorem value_mono (ha : 0 ≤ a) (hb : 0 < b) (hc : 0 ≤ c) (hx : 0 ≤ x) (hxy : x ≤ y) :
    value a b c x ≤ value a b c y := by
  have hy := hx.trans hxy
  have h := value_sub (a := a) hb hc hx hy
  have hpos : 0 ≤ a * b * (y - x) / ((b + c * x) * (b + c * y)) :=
    div_nonneg (mul_nonneg (by positivity) (by linarith))
      (mul_nonneg (den_pos hb hc hx).le (den_pos hb hc hy).le)
  linarith

/-- The hyperbola is below its tangent to the right. -/
theorem value_le_tangent (ha : 0 ≤ a) (hb : 0 < b) (hc : 0 ≤ c) (hx : 0 ≤ x) (hxy : x ≤ y) :
    value a b c y ≤ value a b c x + slope a b c x * (y - x) := by
  have hy := hx.trans hxy
  have hdx := den_pos hb hc hx
  have hden : b + c * x ≤ b + c * y := by
    have := mul_le_mul_of_nonneg_left hxy hc
    linarith
  have hnum : 0 ≤ a * b * (y - x) := mul_nonneg (by positivity) (by linarith)
  have hinc : a * b * (y - x) / ((b + c * x) * (b + c * y))
      ≤ a * b * (y - x) / ((b + c * x) * (b + c * x)) :=
    div_le_div_of_nonneg_left hnum (by positivity) (mul_le_mul_of_nonneg_left hden hdx.le)
  have hslope : slope a b c x * (y - x) = a * b * (y - x) / ((b + c * x) * (b + c * x)) := by
    unfold slope
    rw [sq, div_mul_eq_mul_div]
  have hsub := value_sub (a := a) hb hc hx hy
  linarith

/-- The hyperbola is above its chords. -/
theorem chord_le_value (ha : 0 ≤ a) (hb : 0 < b) (hc : 0 ≤ c) (hx : 0 ≤ x) (hxz : x ≤ z)
    (hzy : z ≤ y) :
    (y - z) * value a b c x + (z - x) * value a b c y ≤ (y - x) * value a b c z := by
  have hz := hx.trans hxz
  have hy := hz.trans hzy
  have hdx := den_pos hb hc hx
  have hdz := den_pos hb hc hz
  have hden : b + c * z ≤ b + c * y := by
    have := mul_le_mul_of_nonneg_left hzy hc
    linarith
  have h1 := value_sub (a := a) hb hc hx hy
  have h2 := value_sub (a := a) hb hc hx hz
  -- both increments from `x`, the nearer one with the larger slope
  have hnum : 0 ≤ a * b * ((y - x) * (z - x)) :=
    mul_nonneg (by positivity) (mul_nonneg (by linarith) (by linarith))
  have hinc : a * b * ((y - x) * (z - x)) / ((b + c * x) * (b + c * y))
      ≤ a * b * ((y - x) * (z - x)) / ((b + c * x) * (b + c * z)) :=
    div_le_div_of_nonneg_left hnum (by positivity) (mul_le_mul_of_nonneg_left hden hdx.le)
  have hfar : (z - x) * (value a b c y - value a b c x)
      = a * b * ((y - x) * (z - x)) / ((b + c * x) * (b + c * y)) := by
    rw [h1]
    ring
  have hnear : (y - x) * (value a b c z - value a b c x)
      = a * b * ((y - x) * (z - x)) / ((b + c * x) * (b + c * z)) := by
    rw [h2]
    ring
  nlinarith [hinc, hfar, hnear]

end Hyperbola

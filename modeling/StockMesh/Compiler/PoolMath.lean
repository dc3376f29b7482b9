import StockMesh.Compiler.Compile
import StockMesh.Foundation.Hyperbola
import Mathlib.Algebra.Order.Ring.Rat
import Mathlib.Data.Nat.Cast.Order.Field

/-! # The fixed-point arithmetic of a constant-product pool

Closed forms of `cp_fp` and `derivative_upper` under the domain bounds, where no machine operation
overflows, and their relation to the hyperbola they round: `cpValue` is its Q32 floor,
`tangentBound` is above its derivative, and the pool's own integer quote stays within one input and
one output atom of it. -/

namespace StockMesh

/-- The parameters `validate_cp` admits, with the fee complement `f = 1_000_000 - fee_ppm`. -/
structure PoolBounds (r y f : ℕ) : Prop where
  r_pos : 0 < r
  y_pos : 0 < y
  r_le : r ≤ maxAtoms
  y_le : y ≤ maxAtoms
  f_pos : 0 < f
  f_le : f ≤ 1000000

/-- Validation establishes the bounds. -/
theorem validateCp_eq_ok {r y fee : ℕ} {u : Unit} :
    validateCp r y fee = .ok u ↔ PoolBounds r y (1000000 - fee) ∧ fee < 1000000 := by
  rw [validateCp, rejectIf_eq_ok]
  constructor
  · intro h
    exact ⟨⟨by omega, by omega, by omega, by omega, by omega, by omega⟩, by omega⟩
  · rintro ⟨h, hf⟩
    have := h.r_pos
    have := h.y_pos
    have := h.r_le
    have := h.y_le
    omega

/-- The common denominator of the pool formulas. -/
def poolDen (r f x : ℕ) : ℕ := r * 1000000 + x * f

/-- The Q32 value of the pool curve, rounded down. -/
def cpValue (r y f x : ℕ) : ℕ := scale * (y * x * f) / poolDen r f x

/-- Division rounded up. -/
def ceilQuot (n d : ℕ) : ℕ := n / d + if n % d ≠ 0 then 1 else 0

/-- The Q32 bound on the derivative of the pool curve. -/
def tangentBound (r y f x : ℕ) : ℕ :=
  ceilQuot (ceilQuot (y * f * scale) (poolDen r f x) * r * 1000000) (poolDen r f x)

/-- A quotient rounded down is less than one below. -/
theorem lt_quot_mul (n : ℕ) {d : ℕ} (hd : 0 < d) : n < (n / d + 1) * d :=
  (Nat.lt_mul_div_succ n hd).trans_eq (Nat.mul_comm _ _)

theorem ceilQuot_le (n d : ℕ) : ceilQuot n d ≤ n / d + 1 := by
  unfold ceilQuot
  split <;> omega

theorem le_ceilQuot_mul (n : ℕ) {d : ℕ} (hd : 0 < d) : n ≤ ceilQuot n d * d := by
  have h := Nat.div_add_mod n d
  have hlt := Nat.mod_lt n hd
  unfold ceilQuot
  split
  · rw [Nat.add_mul, Nat.mul_comm (n / d) d]
    omega
  · rw [Nat.add_zero, Nat.mul_comm (n / d) d]
    omega

theorem ceilQuot_le_of_le_mul {n d k : ℕ} (h : n ≤ k * d) : ceilQuot n d ≤ k := by
  have hdiv := Nat.div_add_mod n d
  have hq : n / d ≤ k := Nat.div_le_of_le_mul (by rw [Nat.mul_comm]; exact h)
  unfold ceilQuot
  split
  · rename_i hmod
    rcases Nat.lt_or_ge (n / d) k with hlt | hge
    · omega
    · -- a full quotient leaves no remainder
      have hmul : k * d ≤ d * (n / d) := by
        rw [Nat.mul_comm]
        exact Nat.mul_le_mul_left d hge
      omega
  · omega

theorem ceilQuot_mono {n n' d d' : ℕ} (hd' : 0 < d') (hn : n ≤ n') (h : d' ≤ d) :
    ceilQuot n d ≤ ceilQuot n' d' :=
  ceilQuot_le_of_le_mul
    ((hn.trans (le_ceilQuot_mul n' hd')).trans (Nat.mul_le_mul_left _ h))

/-- `ceil_div` returns the rounded-up quotient. -/
theorem ceilDiv_eq {n d : ℕ} (hd : 0 < d) (hn : n / d + 1 < u128Size) :
    ceilDiv n d = .ok (ceilQuot n d) := by
  have := ceilQuot_le n d
  rw [ceilDiv, rejectIf_of_not _ (by omega), ok_bind, addU128_of_lt (by unfold ceilQuot at this; omega)]
  rfl

/-- Scaling a quotient by parts. -/
theorem div_mul_add_mod_mul_div (n s : ℕ) {d : ℕ} (hd : 0 < d) :
    n / d * s + n % d * s / d = s * n / d := by
  conv_rhs => rw [← Nat.div_add_mod n d]
  rw [Nat.mul_add, Nat.mul_left_comm, Nat.mul_add_div hd, Nat.mul_comm s, Nat.mul_comm s]

namespace PoolBounds

variable {r y f x : ℕ} (h : PoolBounds r y f)

include h

theorem den_pos (x : ℕ) : 0 < poolDen r f x := by
  have := h.r_pos
  unfold poolDen
  omega

/-- The denominator stays far below the `u128` range. -/
theorem den_le (hx : x ≤ maxAtoms) : poolDen r f x ≤ 200000000000000000000 := by
  have := constants
  have hr := h.r_le
  have hxf : x * f ≤ maxAtoms * 1000000 := Nat.mul_le_mul hx h.f_le
  unfold poolDen
  omega

/-- The products of the value stay below the `u128` range. -/
theorem num_le (hx : x ≤ maxAtoms) :
    y * x ≤ 10000000000000000000000000000 ∧ y * x * f ≤ 10000000000000000000000000000000000 := by
  have hyx : y * x ≤ maxAtoms * maxAtoms := Nat.mul_le_mul h.y_le hx
  have hyxf : y * x * f ≤ maxAtoms * maxAtoms * 1000000 := Nat.mul_le_mul hyx h.f_le
  norm_num [maxAtoms] at hyx hyxf
  exact ⟨hyx, hyxf⟩

/-- The products of the derivative stay below the `u128` range. -/
theorem rate_le : y * f ≤ 100000000000000000000 ∧
    y * f * scale ≤ 429496729600000000000000000000 := by
  have := constants
  have hy := h.y_le
  have hyf : y * f ≤ maxAtoms * 1000000 := Nat.mul_le_mul hy h.f_le
  have hscaled : y * f * scale = y * f * 4294967296 := by rw [scale]
  omega

/-- The value never exceeds the whole output reserve. -/
theorem cpValue_le (x : ℕ) : cpValue r y f x ≤ scale * y := by
  have hd := h.den_pos x
  refine Nat.div_le_of_le_mul ?_
  have hxf : x * f ≤ poolDen r f x := Nat.le_add_left _ _
  calc scale * (y * x * f) = scale * y * (x * f) := by ring
    _ ≤ scale * y * poolDen r f x := Nat.mul_le_mul_left _ hxf
    _ = poolDen r f x * (scale * y) := by ring

/-- `cp_fp` returns the closed form, without overflow. -/
theorem cpFp_eq (hx : x ≤ maxAtoms) : cpFp r y f x = .ok (cpValue r y f x) := by
  have hd := h.den_pos x
  have hden := h.den_le hx
  obtain ⟨hyx, hyxf⟩ := h.num_le hx
  have hle := h.cpValue_le x
  have hy := h.y_le
  have hmod := Nat.mod_lt (y * x * f) hd
  have hsplit : y * x * f / poolDen r f x * scale + y * x * f % poolDen r f x * scale / poolDen r f x
      = cpValue r y f x := div_mul_add_mod_mul_div _ _ hd
  have hwhole : y * x * f / poolDen r f x * scale ≤ cpValue r y f x :=
    hsplit ▸ Nat.le_add_right _ _
  have hsy : scale * y = 4294967296 * y := by rw [scale]
  have hmodscale : y * x * f % poolDen r f x * scale
      = y * x * f % poolDen r f x * 4294967296 := by rw [scale]
  have hc := constants
  have hrx : poolDen r f x = r * 1000000 + x * f := rfl
  have e1 : mulU128 y x = .ok (y * x) := mulU128_of_lt (by omega)
  have e2 : mulU128 (y * x) f = .ok (y * x * f) := mulU128_of_lt (by omega)
  have e3 : mulU128 r 1000000 = .ok (r * 1000000) := mulU128_of_lt (by omega)
  have e4 : mulU128 x f = .ok (x * f) := mulU128_of_lt (by omega)
  have e5 : addU128 (r * 1000000) (x * f) = .ok (poolDen r f x) := addU128_of_lt (by omega)
  have e6 : mulU128 (y * x * f / poolDen r f x) scale
      = .ok (y * x * f / poolDen r f x * scale) := mulU128_of_lt (by omega)
  have e7 : mulU128 (y * x * f % poolDen r f x) scale
      = .ok (y * x * f % poolDen r f x * scale) := mulU128_of_lt (by omega)
  have e8 : addU128 (y * x * f / poolDen r f x * scale)
      (y * x * f % poolDen r f x * scale / poolDen r f x) = .ok (cpValue r y f x) := by
    rw [← hsplit]
    exact addU128_of_lt (by omega)
  rw [cpFp, e1, ok_bind, e2, ok_bind, e3, ok_bind, e4, ok_bind, e5, ok_bind, divU128_of_pos hd,
    ok_bind, e6, ok_bind, remU128_of_pos hd, ok_bind, e7, ok_bind, divU128_of_pos hd, ok_bind, e8]

omit h in
theorem first_le (x : ℕ) :
    ceilQuot (y * f * scale) (poolDen r f x) * r * 1000000 ≤ y * f * scale + r * 1000000 := by
  have hq := ceilQuot_le (y * f * scale) (poolDen r f x)
  have hden : r * 1000000 ≤ poolDen r f x := Nat.le_add_right _ _
  have hdiv := Nat.div_mul_le_self (y * f * scale) (poolDen r f x)
  calc ceilQuot (y * f * scale) (poolDen r f x) * r * 1000000
      = ceilQuot (y * f * scale) (poolDen r f x) * (r * 1000000) := by ring
    _ ≤ (y * f * scale / poolDen r f x + 1) * (r * 1000000) := Nat.mul_le_mul_right _ hq
    _ = y * f * scale / poolDen r f x * (r * 1000000) + r * 1000000 := by ring
    _ ≤ y * f * scale / poolDen r f x * poolDen r f x + r * 1000000 :=
        Nat.add_le_add_right (Nat.mul_le_mul_left _ hden) _
    _ ≤ y * f * scale + r * 1000000 := Nat.add_le_add_right hdiv _

/-- `derivative_upper` returns the closed form, without overflow. -/
theorem derivativeUpper_eq (hx : x ≤ maxAtoms) :
    derivativeUpper r y f x = .ok (tangentBound r y f x) := by
  have hd := h.den_pos x
  have hden := h.den_le hx
  have hr := h.r_le
  obtain ⟨hyf, hyfs⟩ := h.rate_le
  have hdiv := Nat.div_le_self (y * f * scale) (poolDen r f x)
  have hc := constants
  have hrx : poolDen r f x = r * 1000000 + x * f := rfl
  have e1 : mulU128 r 1000000 = .ok (r * 1000000) := mulU128_of_lt (by omega)
  have e2 : mulU128 x f = .ok (x * f) := mulU128_of_lt (by omega)
  have e3 : addU128 (r * 1000000) (x * f) = .ok (poolDen r f x) := addU128_of_lt (by omega)
  have e4 : mulU128 y f = .ok (y * f) := mulU128_of_lt (by omega)
  have e5 : mulU128 (y * f) scale = .ok (y * f * scale) := mulU128_of_lt (by omega)
  have e6 : ceilDiv (y * f * scale) (poolDen r f x)
      = .ok (ceilQuot (y * f * scale) (poolDen r f x)) := ceilDiv_eq hd (by omega)
  -- the rounded quotient times `r` is back at the size of the numerator
  have hfirst := first_le (r := r) (y := y) (f := f) x
  have htangent : tangentBound r y f x = ceilQuot
      (ceilQuot (y * f * scale) (poolDen r f x) * r * 1000000) (poolDen r f x) := by rw [tangentBound]
  generalize ceilQuot (y * f * scale) (poolDen r f x) = q at e6 hfirst htangent
  have e7 : mulU128 q r = .ok (q * r) := mulU128_of_lt (by omega)
  have e8 : mulU128 (q * r) 1000000 = .ok (q * r * 1000000) := mulU128_of_lt (by omega)
  have e9 : ceilDiv (q * r * 1000000) (poolDen r f x)
      = .ok (ceilQuot (q * r * 1000000) (poolDen r f x)) := by
    have := Nat.div_le_self (q * r * 1000000) (poolDen r f x)
    exact ceilDiv_eq hd (by omega)
  rw [derivativeUpper, e1, ok_bind, e2, ok_bind, e3, ok_bind, e4, ok_bind, e5, ok_bind, e6, ok_bind,
    e7, ok_bind, e8, ok_bind, e9, htangent]

/-- The tangent bounds decrease along the curve. -/
theorem tangentBound_le_zero (x : ℕ) : tangentBound r y f x ≤ tangentBound r y f 0 := by
  have hle : poolDen r f 0 ≤ poolDen r f x := by
    unfold poolDen
    omega
  have hfirst := ceilQuot_mono (h.den_pos 0) (Nat.le_refl (y * f * scale)) hle
  refine ceilQuot_mono (h.den_pos 0) ?_ hle
  exact Nat.mul_le_mul_right _ (Nat.mul_le_mul_right _ hfirst)

end PoolBounds

/-! ## The hyperbola behind the fixed-point values -/

/-- The continuous pool curve in Q32. -/
def poolCurve (r y f : ℕ) (x : ℚ) : ℚ := Hyperbola.value ((scale : ℚ) * y * f) (r * 1000000) f x

/-- The pool curve at a whole number of atoms, over the common denominator. -/
theorem poolCurve_nat (r y f x : ℕ) :
    poolCurve r y f x = (scale * (y * x * f) : ℕ) / (poolDen r f x : ℚ) := by
  unfold poolCurve Hyperbola.value poolDen
  push_cast
  ring

/-- The fixed-point value rounds the curve down. -/
theorem cpValue_le_poolCurve (r y f x : ℕ) : (cpValue r y f x : ℚ) ≤ poolCurve r y f x := by
  rw [poolCurve_nat]
  exact Nat.cast_div_le

namespace PoolBounds

variable {r y f : ℕ} (h : PoolBounds r y f)

include h

theorem poolCurve_mono {x z : ℚ} (hx : 0 ≤ x) (hxz : x ≤ z) :
    poolCurve r y f x ≤ poolCurve r y f z := by
  have hr : (0 : ℚ) < r := by exact_mod_cast h.r_pos
  exact Hyperbola.value_mono (by positivity) (by positivity) (by positivity) hx hxz

/-- The fixed-point value is less than one unit below the curve. -/
theorem poolCurve_lt_cpValue_add_one (x : ℕ) : poolCurve r y f x < cpValue r y f x + 1 := by
  have hd : (0 : ℚ) < poolDen r f x := by exact_mod_cast h.den_pos x
  rw [poolCurve_nat, div_lt_iff₀ hd]
  exact_mod_cast lt_quot_mul (scale * (y * x * f)) (h.den_pos x)

/-- The fixed-point bound is above the derivative. -/
theorem slope_le_tangentBound (x : ℕ) :
    Hyperbola.slope ((scale : ℚ) * y * f) (r * 1000000) f x ≤ tangentBound r y f x := by
  have hd : (0 : ℚ) < poolDen r f x := by exact_mod_cast h.den_pos x
  have hden : (r * 1000000 + f * x : ℚ) = poolDen r f x := by
    unfold poolDen
    push_cast
    ring
  have h1 : (y * f * scale : ℚ) ≤ ceilQuot (y * f * scale) (poolDen r f x) * poolDen r f x := by
    exact_mod_cast le_ceilQuot_mul (y * f * scale) (h.den_pos x)
  have h2 : (ceilQuot (y * f * scale) (poolDen r f x) * r * 1000000 : ℚ)
      ≤ tangentBound r y f x * poolDen r f x := by
    exact_mod_cast le_ceilQuot_mul (ceilQuot (y * f * scale) (poolDen r f x) * r * 1000000)
      (h.den_pos x)
  have hr : (0 : ℚ) ≤ r * 1000000 := by positivity
  unfold Hyperbola.slope
  rw [hden, div_le_iff₀ (by positivity)]
  calc (scale : ℚ) * y * f * (r * 1000000) = (y * f * scale) * (r * 1000000) := by ring
    _ ≤ ceilQuot (y * f * scale) (poolDen r f x) * poolDen r f x * (r * 1000000) :=
        mul_le_mul_of_nonneg_right h1 hr
    _ = ceilQuot (y * f * scale) (poolDen r f x) * r * 1000000 * poolDen r f x := by ring
    _ ≤ tangentBound r y f x * poolDen r f x * poolDen r f x :=
        mul_le_mul_of_nonneg_right h2 hd.le
    _ = tangentBound r y f x * (poolDen r f x : ℚ) ^ 2 := by ring

/-- To the right of `x` the curve is below the rounded tangent. -/
theorem poolCurve_le_tangent {x z : ℕ} (hxz : x ≤ z) :
    poolCurve r y f z ≤ cpValue r y f x + 1 + tangentBound r y f x * ((z : ℚ) - x) := by
  have hr : (0 : ℚ) < r := by exact_mod_cast h.r_pos
  have hz : (x : ℚ) ≤ z := by exact_mod_cast hxz
  have htangent := Hyperbola.value_le_tangent (a := (scale : ℚ) * y * f) (b := r * 1000000)
    (c := f) (x := x) (y := z) (by positivity) (by positivity) (by positivity) (by positivity) hz
  have hslope := mul_le_mul_of_nonneg_right (h.slope_le_tangentBound x) (sub_nonneg.mpr hz)
  have hfloor := (h.poolCurve_lt_cpValue_add_one x).le
  unfold poolCurve at hfloor ⊢
  linarith

/-- A line through points below the curve stays below it between them. -/
theorem line_le_poolCurve {a b z : ℕ} {u v : ℚ} (haz : a ≤ z) (hzb : z ≤ b)
    (hu : u ≤ poolCurve r y f a) (hv : v ≤ poolCurve r y f b) :
    ((b : ℚ) - z) * u + ((z : ℚ) - a) * v ≤ ((b : ℚ) - a) * poolCurve r y f z := by
  have hr : (0 : ℚ) < r := by exact_mod_cast h.r_pos
  have hz : (a : ℚ) ≤ z := by exact_mod_cast haz
  have hb : (z : ℚ) ≤ b := by exact_mod_cast hzb
  have hchord := Hyperbola.chord_le_value (a := (scale : ℚ) * y * f) (b := r * 1000000)
    (c := f) (x := a) (y := b) (z := z) (by positivity) (by positivity) (by positivity)
    (by positivity) hz hb
  have h1 := mul_le_mul_of_nonneg_left hu (sub_nonneg.mpr hb)
  have h2 := mul_le_mul_of_nonneg_left hv (sub_nonneg.mpr hz)
  unfold poolCurve at h1 h2 ⊢
  linarith

/-- The fixed-point values increase along the curve. -/
theorem cpValue_mono {x z : ℕ} (hxz : x ≤ z) : cpValue r y f x ≤ cpValue r y f z := by
  have h1 := cpValue_le_poolCurve r y f x
  have h2 := h.poolCurve_lt_cpValue_add_one z
  have h3 := h.poolCurve_mono (x := x) (z := z) (by positivity) (by exact_mod_cast hxz)
  have h4 : (cpValue r y f x : ℚ) < cpValue r y f z + 1 := by linarith
  have h5 : cpValue r y f x < cpValue r y f z + 1 := by exact_mod_cast h4
  omega

/-- A chord is no steeper than the tangent bound at its left end. -/
theorem cpValue_le_tangent {x z : ℕ} (hxz : x ≤ z) :
    cpValue r y f z ≤ cpValue r y f x + tangentBound r y f x * (z - x) := by
  have hr : (0 : ℚ) < r := by exact_mod_cast h.r_pos
  have hz : (x : ℚ) ≤ z := by exact_mod_cast hxz
  have htangent := Hyperbola.value_le_tangent (a := (scale : ℚ) * y * f) (b := r * 1000000)
    (c := f) (x := x) (y := z) (by positivity) (by positivity) (by positivity) (by positivity) hz
  have hslope := mul_le_mul_of_nonneg_right (h.slope_le_tangentBound x) (sub_nonneg.mpr hz)
  have hfloor := h.poolCurve_lt_cpValue_add_one x
  have hvalue := cpValue_le_poolCurve r y f z
  unfold poolCurve at hfloor hvalue
  have hlt : (cpValue r y f z : ℚ) < cpValue r y f x + 1 + tangentBound r y f x * ((z - x : ℕ) : ℚ) := by
    rw [Nat.cast_sub hxz]
    linarith
  have hnat : cpValue r y f z < cpValue r y f x + 1 + tangentBound r y f x * (z - x) := by
    exact_mod_cast hlt
  omega

/-! ## The pool's own quote -/

/-- The fee-adjusted input of the exact quote. -/
def net (f x : ℕ) : ℕ := x * f / 1000000

/-- The exact quote is below the curve. -/
theorem exact_le_poolCurve (x : ℕ) :
    ((scale * (y * net f x / (r + net f x)) : ℕ) : ℚ) ≤ poolCurve r y f x := by
  have hd := h.den_pos x
  have hnet : net f x * 1000000 ≤ x * f := Nat.div_mul_le_self _ _
  have hr := h.r_pos
  have hcross : y * net f x * poolDen r f x ≤ y * x * f * (r + net f x) := by
    have hmul := Nat.mul_le_mul_left (y * r) hnet
    unfold poolDen
    calc y * net f x * (r * 1000000 + x * f)
        = y * r * (net f x * 1000000) + y * net f x * (x * f) := by ring
      _ ≤ y * r * (x * f) + y * net f x * (x * f) := Nat.add_le_add_right hmul _
      _ = y * x * f * (r + net f x) := by ring
  have hdiv := Nat.div_mul_le_self (y * net f x) (r + net f x)
  have hnat : scale * (y * net f x / (r + net f x)) * poolDen r f x ≤ scale * (y * x * f) := by
    have hpos : 0 < r + net f x := by omega
    refine Nat.le_of_mul_le_mul_right ?_ hpos
    calc scale * (y * net f x / (r + net f x)) * poolDen r f x * (r + net f x)
        = scale * poolDen r f x * (y * net f x / (r + net f x) * (r + net f x)) := by ring
      _ ≤ scale * poolDen r f x * (y * net f x) := Nat.mul_le_mul_left _ hdiv
      _ = scale * (y * net f x * poolDen r f x) := by ring
      _ ≤ scale * (y * x * f * (r + net f x)) := Nat.mul_le_mul_left _ hcross
      _ = scale * (y * x * f) * (r + net f x) := by ring
  rw [poolCurve_nat, le_div_iff₀ (by exact_mod_cast hd)]
  exact_mod_cast hnat

/-- The curve is less than one output atom plus the value of one input atom above the exact
quote. -/
theorem poolCurve_lt_exact (x : ℕ) :
    poolCurve r y f x < ((scale * (y * net f x / (r + net f x) + 1 + ceilQuot y r) : ℕ) : ℚ) := by
  have hd := h.den_pos x
  have hr := h.r_pos
  have hnet : x * f < (net f x + 1) * 1000000 := lt_quot_mul (x * f) (by decide)
  have hfloor : y * net f x < (y * net f x / (r + net f x) + 1) * (r + net f x) :=
    lt_quot_mul (y * net f x) (by omega)
  have hceil := le_ceilQuot_mul y hr
  -- cross-multiplied with `r + net`, the input rounding costs at most `y * r * 1_000_000`
  have hcross : y * x * f * (r + net f x)
      ≤ y * net f x * poolDen r f x + y * r * 1000000 := by
    have hmul := Nat.mul_le_mul_left (y * r) hnet.le
    unfold poolDen
    calc y * x * f * (r + net f x) = y * r * (x * f) + y * net f x * (x * f) := by ring
      _ ≤ y * r * ((net f x + 1) * 1000000) + y * net f x * (x * f) := Nat.add_le_add_right hmul _
      _ = y * net f x * (r * 1000000 + x * f) + y * r * 1000000 := by ring
  have hatom : y * r * 1000000 ≤ ceilQuot y r * (r + net f x) * poolDen r f x := by
    have hden : r * 1000000 ≤ poolDen r f x := Nat.le_add_right _ _
    calc y * r * 1000000 = y * (r * 1000000) := by ring
      _ ≤ ceilQuot y r * r * poolDen r f x := Nat.mul_le_mul hceil hden
      _ ≤ ceilQuot y r * (r + net f x) * poolDen r f x :=
          Nat.mul_le_mul_right _ (Nat.mul_le_mul_left _ (Nat.le_add_right _ _))
  have hnat : y * x * f
      < (y * net f x / (r + net f x) + 1 + ceilQuot y r) * poolDen r f x := by
    have hpos : 0 < r + net f x := by omega
    refine Nat.lt_of_mul_lt_mul_right (a := r + net f x) ?_
    calc y * x * f * (r + net f x)
        ≤ y * net f x * poolDen r f x + ceilQuot y r * (r + net f x) * poolDen r f x := by omega
      _ < (y * net f x / (r + net f x) + 1) * (r + net f x) * poolDen r f x
            + ceilQuot y r * (r + net f x) * poolDen r f x :=
          Nat.add_lt_add_right (Nat.mul_lt_mul_of_pos_right hfloor hd) _
      _ = (y * net f x / (r + net f x) + 1 + ceilQuot y r) * poolDen r f x * (r + net f x) := by
          ring
  rw [poolCurve_nat, div_lt_iff₀ (by exact_mod_cast hd)]
  have hscaled : scale * (y * x * f)
      < scale * (y * net f x / (r + net f x) + 1 + ceilQuot y r) * poolDen r f x := by
    rw [Nat.mul_assoc scale (_ + _)]
    exact Nat.mul_lt_mul_of_pos_left hnat (by decide)
  exact_mod_cast hscaled

end PoolBounds

end StockMesh

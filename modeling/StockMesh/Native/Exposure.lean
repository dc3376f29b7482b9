import StockMesh.Foundation.Binary64
import StockMesh.Native.Curves
import Mathlib.Data.Nat.Cast.Order.Field
import Mathlib.Data.Nat.ModEq

/-! # Underlying exposure of a product

A scaled mint stores its multiplier as the bytes of a double. `positiveF64Q32` maps these bytes to Q32
without a float and rounds down. `exposureQ32` converts raw atoms to underlying shares with one floor,
so the exposure of a sum is at least the sum of the exposures, and exceeds it by one unit at most. -/

namespace StockMesh

/-- `checked_mul` on `u128`. -/
def wideMul (a b : ℕ) : NativeResult ℕ :=
  if a * b < u128Size then .ok (a * b) else .error .arithmetic

@[simp] theorem wideMul_eq_ok {a b c : ℕ} : wideMul a b = .ok c ↔ a * b < u128Size ∧ a * b = c := by
  by_cases h : a * b < u128Size <;> simp [wideMul, h]

/-- `positive_f64_q32`: the Q32 value of a positive finite double. -/
def positiveF64Q32 (bits : ℕ) : NativeResult ℕ := do
  if bits / 2 ^ 63 ≠ 0 then .error .unsupported else
  let exponent := bits / 2 ^ 52 % 2 ^ 11
  let fraction := bits % 2 ^ 52
  if exponent = 0 ∨ exponent = 2 ^ 11 - 1 then .error .unsupported else
  let significand := 2 ^ 52 + fraction
  -- value * 2^32 = significand * 2^(exponent - 1043); a shift drops the bits beyond 128
  let fixed ← if 1043 ≤ exponent then
      if exponent - 1043 < 128 then .ok (significand * 2 ^ (exponent - 1043) % u128Size)
      else .error .arithmetic
    else .ok (if 1043 - exponent < 128 then significand / 2 ^ (1043 - exponent) else 0)
  if fixed = 0 then .error .unsupported else
  if fixed < u64Size then .ok fixed else .error .arithmetic

/-- `i64::from_le_bytes` of a word. -/
def signed64 (n : ℕ) : ℤ := if n < 2 ^ 63 then n else n - u64Size

/-- `ScaledUiAmount`, without the next multiplier, which nothing reads. -/
structure ScaledUiAmount where
  decimals : ℕ
  multiplierQ32 : ℕ
  nextMultiplierEffectiveTimestamp : ℤ
  deriving DecidableEq

/-- The current multiplier, the next one and when it takes effect. -/
structure Multipliers where
  current : ℕ
  effective : ℤ
  next : ℕ

/-- The extension of a scaled mint. -/
def Multipliers.ofExtension (value : List UInt8) : NativeResult Multipliers := do
  if value.length ≠ 56 then .error .layout else
  let data := Buffer.ofList value
  let currentBits ← okOr (data.number 32 8) .layout
  let current ← positiveF64Q32 currentBits
  let effective ← okOr (data.number 40 8) .layout
  let nextBits ← okOr (data.number 48 8) .layout
  let next ← positiveF64Q32 nextBits
  .ok { current, effective := signed64 effective, next }

/-- The extension loop of `ScaledUiAmount::decode`. Every round moves on by four bytes at least, so as
many rounds as bytes are enough. -/
def Multipliers.scan (mint : Buffer) :
    ℕ → ℕ → ℕ → Option Multipliers → NativeResult (Option Multipliers)
  | 0, _, _, scaled => .ok scaled
  | fuel + 1, position, seen, scaled => do
    if mint.size ≤ position ∨ zeroFrom mint position = true then .ok scaled else
    let kind ← okOr (mint.number position 2) .layout
    let length ← okOr (mint.number (position + 2) 2) .layout
    if 64 ≤ kind ∨ seen.testBit kind then .error .unsupported else
    let value ← okOr (mint.slice (position + 4) length) .layout
    let scaled ← if kind = 25 then (ofExtension value).map some else .ok scaled
    scan mint fuel (position + 4 + length) (seen ||| 1 <<< kind) scaled

/-- `ScaledUiAmount::decode`. -/
def ScaledUiAmount.decode (mint : Buffer) (unixTimestamp : ℤ) : NativeResult ScaledUiAmount := do
  if mint.size < 166 ∨ mint.byte 45 ≠ 1 ∨ mint.byte 165 ≠ 1 ∨
      (List.range (165 - 82)).any (fun i => mint.byte (82 + i) ≠ 0) = true then .error .layout else
  let scaled ← Multipliers.scan mint mint.size 166 0 none
  let scaled ← okOr scaled .unsupported
  .ok {
    decimals := (mint.byte 44).toNat
    multiplierQ32 := if scaled.effective ≤ unixTimestamp then scaled.next else scaled.current
    nextMultiplierEffectiveTimestamp := scaled.effective }

/-- `ScaledUiAmount::exposure_q32`. -/
def ScaledUiAmount.exposureQ32 (scaled : ScaledUiAmount)
    (rawAtoms numerator denominator conservativeBps : ℕ) : NativeResult ℕ := do
  if rawAtoms = 0 ∨ numerator = 0 ∨ denominator = 0 ∨ conservativeBps = 0 ∨ 10000 < conservativeBps then
    .error .arithmetic else
  let scale ← wideMul 1 (10 ^ scaled.decimals)
  let denominator ← wideMul scale denominator
  let denominator ← wideMul denominator 10000
  let value ← wideMul rawAtoms scaled.multiplierQ32
  let value ← wideMul value numerator
  let value ← wideMul value conservativeBps
  if value / denominator < u64Size then .ok (value / denominator) else .error .arithmetic

/-! ## The multiplier -/

/-- A failed test of `positive_f64_q32` is a failure. -/
private theorem unsupported_eq_ok {bad : Prop} [Decidable bad] {rest : NativeResult ℕ} {q : ℕ} :
    (if bad then .error .unsupported else rest : NativeResult ℕ) = .ok q ↔ ¬bad ∧ rest = .ok q := by
  by_cases h : bad <;> simp [h]

/-- What is left of `positive_f64_q32` after the shift. -/
private theorem fixed_eq_ok {fixed q : ℕ} :
    (if fixed = 0 then .error .unsupported else
      if fixed < u64Size then .ok fixed else .error .arithmetic : NativeResult ℕ) = .ok q ↔
    fixed = q ∧ q ≠ 0 ∧ q < 2 ^ 64 := by
  rw [unsupported_eq_ok]
  constructor
  · rintro ⟨hne, h⟩
    split at h
    · next hlt =>
      cases h
      exact ⟨rfl, hne, hlt⟩
    · cases h
  · rintro ⟨rfl, hne, hlt⟩
    exact ⟨hne, if_pos hlt⟩

/-- A shifted significand is never zero. -/
private theorem shifted_ne_zero (bits shift : ℕ) : Binary64.significand bits * 2 ^ shift ≠ 0 := by
  have hlow := Binary64.le_significand bits
  exact Nat.mul_ne_zero (by omega) (by positivity)

/-- The fixed point that `positive_f64_q32` computes: whatever a shift to the left loses, a word comes out
only if it is the whole value. -/
theorem positiveF64Q32_eq_ok {bits q : ℕ} : positiveF64Q32 bits = .ok q ↔
    Binary64.PositiveNormal bits ∧ ⌊Binary64.value bits * 2 ^ 32⌋ = (q : ℤ) ∧ q ≠ 0 ∧ q < 2 ^ 64 := by
  have hlow := Binary64.le_significand bits
  have hhigh := Binary64.significand_lt bits
  have hnormal : Binary64.PositiveNormal bits ↔
      ¬bits / 2 ^ 63 ≠ 0 ∧ ¬(bits / 2 ^ 52 % 2 ^ 11 = 0 ∨ bits / 2 ^ 52 % 2 ^ 11 = 2 ^ 11 - 1) := by
    rw [not_or, not_not]
    exact ⟨fun h => ⟨h.sign_eq, h.exponent_ne_zero, h.exponent_ne_max⟩,
      fun h => ⟨h.1, h.2.1, h.2.2⟩⟩
  unfold positiveF64Q32
  rw [unsupported_eq_ok, unsupported_eq_ok, ← and_assoc, ← hnormal]
  refine and_congr_right fun hbits => ?_
  rw [Binary64.floor_value_mul 32 hbits.sign_eq, Nat.cast_inj]
  dsimp only
  by_cases hle : 1043 ≤ Binary64.exponent bits
  · have hshift : Binary64.exponent bits + 32 - 1075 = Binary64.exponent bits - 1043 := by omega
    rw [if_pos (show 1075 ≤ Binary64.exponent bits + 32 by omega), hshift,
      if_pos (show 1043 ≤ bits / 2 ^ 52 % 2 ^ 11 from hle)]
    by_cases hfits : Binary64.exponent bits - 1043 < 128
    · rw [if_pos (show bits / 2 ^ 52 % 2 ^ 11 - 1043 < 128 from hfits), ok_bind, fixed_eq_ok]
      have hkept : Binary64.significand bits * 2 ^ (Binary64.exponent bits - 1043) % 2 ^ 128 = q ∧
          q ≠ 0 ∧ q < 2 ^ 64 ↔ Binary64.significand bits * 2 ^ (Binary64.exponent bits - 1043) = q ∧
            q < 2 ^ 64 := Binary64.shifted_eq_iff hlow hhigh (by decide)
      refine hkept.trans (and_congr_right fun heq => ?_)
      exact ⟨fun hlt => ⟨heq ▸ shifted_ne_zero bits _, hlt⟩, And.right⟩
    · -- the source rejects the shift, and the value is too large
      rw [if_neg (show ¬bits / 2 ^ 52 % 2 ^ 11 - 1043 < 128 from hfits), error_bind]
      refine iff_of_false (by simp) ?_
      rintro ⟨heq, -, hlt⟩
      have hdvd : 2 ^ 64 ∣ Binary64.significand bits * 2 ^ (Binary64.exponent bits - 1043) :=
        Dvd.dvd.mul_left (pow_dvd_pow 2 (by omega)) _
      have := Nat.le_of_dvd (Nat.pos_of_ne_zero (shifted_ne_zero bits _)) hdvd
      omega
  · have hshift : 1075 - (Binary64.exponent bits + 32) = 1043 - Binary64.exponent bits := by omega
    rw [if_neg (show ¬1075 ≤ Binary64.exponent bits + 32 by omega), hshift,
      if_neg (show ¬1043 ≤ bits / 2 ^ 52 % 2 ^ 11 from hle), ok_bind, fixed_eq_ok]
    by_cases hfits : 1043 - Binary64.exponent bits < 128
    · rw [if_pos (show 1043 - bits / 2 ^ 52 % 2 ^ 11 < 128 from hfits)]
      rfl
    · -- nothing is left of the significand
      have hzero : Binary64.significand bits / 2 ^ (1043 - Binary64.exponent bits) = 0 := by
        refine Nat.div_eq_of_lt (hhigh.trans_le ?_)
        exact Nat.pow_le_pow_right (by decide) (by omega)
      rw [if_neg (show ¬1043 - bits / 2 ^ 52 % 2 ^ 11 < 128 from hfits), hzero]

/-! ## Exposures -/

namespace ScaledUiAmount

/-- The exposure without rounding, in Q32 units: atoms over the scale of the mint, times the multiplier,
times the ratio of the product, times the conservative factor. -/
def exactExposureQ32 (scaled : ScaledUiAmount) (rawAtoms numerator denominator conservativeBps : ℕ) : ℚ :=
  rawAtoms / 10 ^ scaled.decimals * (scaled.multiplierQ32 / 2 ^ 32) * (numerator / denominator) *
    (conservativeBps / 10000) * 2 ^ 32

variable {scaled : ScaledUiAmount} {rawAtoms numerator denominator conservativeBps exposure : ℕ}

/-- The exposure is one floor of a linear function. Whether it is computed at all depends on the last
product and the last divisor, which are the largest. -/
theorem exposureQ32_iff :
    scaled.exposureQ32 rawAtoms numerator denominator conservativeBps = .ok exposure ↔
      (0 < rawAtoms ∧ 0 < numerator ∧ 0 < denominator ∧ 0 < conservativeBps ∧ conservativeBps ≤ 10000) ∧
      10 ^ scaled.decimals * denominator * 10000 < u128Size ∧
      rawAtoms * (scaled.multiplierQ32 * numerator * conservativeBps) < u128Size ∧
      rawAtoms * (scaled.multiplierQ32 * numerator * conservativeBps) /
        (10 ^ scaled.decimals * denominator * 10000) = exposure ∧ exposure < u64Size := by
  have hvalue : rawAtoms * scaled.multiplierQ32 * numerator * conservativeBps =
      rawAtoms * (scaled.multiplierQ32 * numerator * conservativeBps) := by ring
  unfold exposureQ32
  by_cases hbad : rawAtoms = 0 ∨ numerator = 0 ∨ denominator = 0 ∨ conservativeBps = 0 ∨
      10000 < conservativeBps
  · rw [if_pos hbad]
    refine iff_of_false (by simp) ?_
    rintro ⟨hgood, -⟩
    omega
  · rw [if_neg hbad]
    simp only [bind_eq_ok, wideMul_eq_ok, Nat.one_mul]
    constructor
    · rintro ⟨_, ⟨-, rfl⟩, _, ⟨-, rfl⟩, _, ⟨hdivisor, rfl⟩, _, ⟨-, rfl⟩, _, ⟨-, rfl⟩, _, ⟨hlast, rfl⟩, h⟩
      rw [hvalue] at h hlast
      split at h
      · next hlt =>
        cases h
        exact ⟨by omega, hdivisor, hlast, rfl, hlt⟩
      · cases h
    · rintro ⟨hgood, hdivisor, hlast, rfl, hlt⟩
      -- every earlier product is a factor of the last one
      have hscaled : 10 ^ scaled.decimals * denominator < u128Size :=
        (Nat.le_mul_of_pos_right _ (by decide)).trans_lt hdivisor
      have hscale : 10 ^ scaled.decimals < u128Size :=
        (Nat.le_mul_of_pos_right _ hgood.2.2.1).trans_lt hscaled
      rw [← hvalue] at hlast hlt ⊢
      have hsecond : rawAtoms * scaled.multiplierQ32 * numerator < u128Size :=
        (Nat.le_mul_of_pos_right _ hgood.2.2.2.1).trans_lt hlast
      have hfirst : rawAtoms * scaled.multiplierQ32 < u128Size :=
        (Nat.le_mul_of_pos_right _ hgood.2.1).trans_lt hsecond
      exact ⟨_, ⟨hscale, rfl⟩, _, ⟨hscaled, rfl⟩, _, ⟨hdivisor, rfl⟩, _, ⟨hfirst, rfl⟩, _,
        ⟨hsecond, rfl⟩, _, ⟨hlast, rfl⟩, if_pos hlt⟩

/-- The exposure is one floor of a linear function. -/
theorem exposureQ32_eq_ok
    (h : scaled.exposureQ32 rawAtoms numerator denominator conservativeBps = .ok exposure) :
    exposure = rawAtoms * (scaled.multiplierQ32 * numerator * conservativeBps) /
      (10 ^ scaled.decimals * denominator * 10000) ∧
    0 < 10 ^ scaled.decimals * denominator * 10000 ∧ exposure < u64Size := by
  obtain ⟨hgood, -, -, hfloor, hlt⟩ := exposureQ32_iff.mp h
  have hscale : 0 < 10 ^ scaled.decimals := Nat.pow_pos (by decide)
  exact ⟨hfloor.symm, Nat.mul_pos (Nat.mul_pos hscale hgood.2.2.1) (by decide), hlt⟩

/-- The floor only takes away. -/
theorem exposureQ32_le_exact
    (h : scaled.exposureQ32 rawAtoms numerator denominator conservativeBps = .ok exposure) :
    (exposure : ℚ) ≤ scaled.exactExposureQ32 rawAtoms numerator denominator conservativeBps := by
  obtain ⟨rfl, hpos, -⟩ := exposureQ32_eq_ok h
  have hden : (denominator : ℚ) ≠ 0 := by
    have := (exposureQ32_iff.mp h).1.2.2.1
    positivity
  have hexact : scaled.exactExposureQ32 rawAtoms numerator denominator conservativeBps =
      (rawAtoms * (scaled.multiplierQ32 * numerator * conservativeBps) : ℕ) /
        (10 ^ scaled.decimals * denominator * 10000 : ℕ) := by
    rw [exactExposureQ32]
    push_cast
    field_simp
  rw [hexact]
  exact Nat.cast_div_le

variable {a b ea eb : ℕ}

/-- More atoms are worth no less. -/
theorem exposureQ32_mono (hle : a ≤ b)
    (ha : scaled.exposureQ32 a numerator denominator conservativeBps = .ok ea)
    (hb : scaled.exposureQ32 b numerator denominator conservativeBps = .ok eb) : ea ≤ eb := by
  obtain ⟨rfl, -, -⟩ := exposureQ32_eq_ok ha
  obtain ⟨rfl, -, -⟩ := exposureQ32_eq_ok hb
  exact Nat.div_le_div_right (Nat.mul_le_mul_right _ hle)

/-- A sum is worth what its parts are worth, and at most one unit more. -/
theorem exposureQ32_add {sum : ℕ}
    (ha : scaled.exposureQ32 a numerator denominator conservativeBps = .ok ea)
    (hb : scaled.exposureQ32 b numerator denominator conservativeBps = .ok eb)
    (hab : scaled.exposureQ32 (a + b) numerator denominator conservativeBps = .ok sum) :
    ea + eb ≤ sum ∧ sum ≤ ea + eb + 1 := by
  obtain ⟨rfl, -, -⟩ := exposureQ32_eq_ok ha
  obtain ⟨rfl, -, -⟩ := exposureQ32_eq_ok hb
  obtain ⟨rfl, -, -⟩ := exposureQ32_eq_ok hab
  rw [Nat.add_mul]
  exact ⟨Nat.div_add_div_le_add_div, Nat.add_div_le_div_add_div_add_one _ _ _⟩

/-- If a larger amount has an exposure, so has every positive smaller one. -/
theorem exists_exposureQ32_of_lt (ha : 0 < a) (hlt : a < b)
    (hb : scaled.exposureQ32 b numerator denominator conservativeBps = .ok eb) :
    ∃ ea, scaled.exposureQ32 a numerator denominator conservativeBps = .ok ea := by
  obtain ⟨⟨-, hgood⟩, hdivisor, hlast, rfl, hword⟩ := exposureQ32_iff.mp hb
  have hle := Nat.mul_le_mul_right (scaled.multiplierQ32 * numerator * conservativeBps) hlt.le
  exact ⟨_, exposureQ32_iff.mpr ⟨⟨ha, hgood⟩, hdivisor, hle.trans_lt hlast, rfl,
    (Nat.div_le_div_right hle).trans_lt hword⟩⟩

end ScaledUiAmount

/-- The arithmetic of scaled products. A pattern has a multiplier exactly if it stands for a positive
normal number whose Q32 floor is a positive word, and the multiplier is that floor. An exposure is at most
the exact one and monotone in the atoms, a sum is worth its parts or one unit more, and an amount without
an exposure is smaller than no amount that has one. -/
theorem scaled_exposure_arithmetic :
    (∀ (bits : UInt64) (q : ℕ), positiveF64Q32 bits.toNat = .ok q ↔
      Binary64.PositiveNormal bits.toNat ∧ 1 ≤ ⌊Binary64.value bits.toNat * 2 ^ 32⌋ ∧
        ⌊Binary64.value bits.toNat * 2 ^ 32⌋ < 2 ^ 64 ∧ (q : ℤ) = ⌊Binary64.value bits.toNat * 2 ^ 32⌋) ∧
    ∀ (scaled : ScaledUiAmount) (numerator denominator conservativeBps a b : ℕ),
      let exposure raw := scaled.exposureQ32 raw numerator denominator conservativeBps
      (∀ ea, exposure a = .ok ea →
        (ea : ℚ) ≤ scaled.exactExposureQ32 a numerator denominator conservativeBps) ∧
      (∀ ea eb, a ≤ b → exposure a = .ok ea → exposure b = .ok eb → ea ≤ eb) ∧
      (∀ ea eb sum, exposure a = .ok ea → exposure b = .ok eb → exposure (a + b) = .ok sum →
        ea + eb ≤ sum ∧ sum ≤ ea + eb + 1) ∧
      (0 < a → a < b → (∀ ea, exposure a ≠ .ok ea) → ∀ eb, exposure b ≠ .ok eb) := by
  refine ⟨fun bits q => ?_, fun scaled numerator denominator conservativeBps a b => ⟨?_, ?_, ?_, ?_⟩⟩
  · rw [positiveF64Q32_eq_ok]
    refine and_congr_right fun _ => ?_
    constructor
    · rintro ⟨hfloor, hne, hlt⟩
      rw [hfloor]
      omega
    · rintro ⟨hone, hlt, hfloor⟩
      rw [← hfloor] at hone hlt ⊢
      omega
  · exact fun ea ha => ScaledUiAmount.exposureQ32_le_exact ha
  · exact fun ea eb hle ha hb => ScaledUiAmount.exposureQ32_mono hle ha hb
  · exact fun ea eb sum ha hb hab => ScaledUiAmount.exposureQ32_add ha hb hab
  · intro hpos hlt hnone eb hb
    obtain ⟨ea, ha⟩ := ScaledUiAmount.exists_exposureQ32_of_lt hpos hlt hb
    exact hnone ea ha

/-- The pattern of one: the multiplier is one in Q32, and three halves of an atom of a mint with one decimal
are worth less than the atom and a half. -/
theorem scaled_exposure_arithmetic_example :
    ((4294967296 : ℕ) : ℤ) = ⌊Binary64.value 4607182418800017408 * 2 ^ 32⌋ ∧
      (429496729 : ℕ) + 858993459 ≤ 1288490188 := by
  have hpattern := scaled_exposure_arithmetic.1 4607182418800017408 4294967296
  have hsum := (scaled_exposure_arithmetic.2 ⟨1, 4294967296, 0⟩ 1 1 10000 1 2).2.2.1
    429496729 858993459 1288490188
  refine ⟨(hpattern.mp ?_).2.2.2, (hsum ?_ ?_ ?_).1⟩ <;> decide

end StockMesh

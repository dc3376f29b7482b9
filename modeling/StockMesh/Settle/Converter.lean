import StockMesh.Settle.Allocation
import StockMesh.Native.Exposure

/-! # Conservative conversion of a product

A `Converter` is decoded once from a product mint and the signed parameters, and converts atoms of the
product to Q32 underlying shares. A mint without a multiplier converts by the signed rational alone. -/

namespace StockMesh.Settle

/-- `FIXED_RATIONAL`. -/
def fixedRational : UInt8 := 0

/-- `TOKEN_2022_SCALED_UI`. -/
def token2022ScaledUi : UInt8 := 1

/-- The signed parameters of a conversion. -/
structure ConversionTerms where
  model : UInt8
  conservativeBps : ℕ
  numerator : ℕ
  denominator : ℕ
  deriving DecidableEq

/-- `Converter`. -/
structure Converter where
  scaled : ScaledUiAmount
  numerator : ℕ
  denominator : ℕ
  conservativeBps : ℕ
  deriving DecidableEq

/-- The multiplier of a mint under an exposure model. A scaled mint is not converted near a change of
its multiplier. -/
def scaledOf (mint : Account) (model : UInt8) (timestamp : ℤ) : Outcome ScaledUiAmount :=
  if model = fixedRational then do
    need (82 ≤ mint.data.size ∧ mint.data.byte 45 = 1) .identity
    .ok {
      decimals := (mint.data.byte 44).toNat
      multiplierQ32 := 2 ^ 32
      nextMultiplierEffectiveTimestamp := 2 ^ 63 - 1 }
  else if model = token2022ScaledUi then do
    need (mint.owner = token2022Id) .identity
    let scaled ← native (ScaledUiAmount.decode mint.data timestamp)
    let effective := scaled.nextMultiplierEffectiveTimestamp
    need (effective ≤ 0 ∨ 900 < |timestamp - effective|) .expired
    .ok scaled
  else .error .bounds

/-- `Converter::decode`. -/
def Converter.decode (mint : Account) (terms : ConversionTerms) (timestamp : ℤ) :
    Outcome Converter := do
  let scaled ← scaledOf mint terms.model timestamp
  need (0 < terms.numerator ∧ 0 < terms.denominator ∧ 1 ≤ terms.conservativeBps ∧
    terms.conservativeBps ≤ 10000) .bounds
  .ok {
    scaled
    numerator := terms.numerator
    denominator := terms.denominator
    conservativeBps := terms.conservativeBps }

/-- `Converter::convert`. -/
def Converter.convert (c : Converter) (rawOutput : ℕ) : Outcome ℕ :=
  native (c.scaled.exposureQ32 rawOutput c.numerator c.denominator c.conservativeBps)

/-- `exposure::convert`. -/
def convert (mint : Account) (terms : ConversionTerms) (rawOutput : ℕ) (timestamp : ℤ) :
    Outcome ℕ := do
  let c ← Converter.decode mint terms timestamp
  c.convert rawOutput

@[simp] theorem native_eq_ok {α : Type} {x : NativeResult α} {v : α} :
    native x = .ok v ↔ x = .ok v := by
  cases x <;> simp [native]

namespace Converter

variable (c : Converter)

/-- What one atom is worth before rounding, over `divisor`. -/
def weight : ℕ := c.scaled.multiplierQ32 * c.numerator * c.conservativeBps

/-- The divisor of a conversion. -/
def divisor : ℕ := 10 ^ c.scaled.decimals * c.denominator * 10000

variable {c}

/-- A conversion rounds down once. -/
theorem convert_eq_ok {raw exposure : ℕ} (h : c.convert raw = .ok exposure) :
    exposure = raw * c.weight / c.divisor ∧ 0 < c.divisor ∧ exposure < u64Size :=
  ScaledUiAmount.exposureQ32_eq_ok (native_eq_ok.mp h)

end Converter

end StockMesh.Settle

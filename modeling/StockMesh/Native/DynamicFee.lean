import StockMesh.Native.Segments
import Mathlib.GroupTheory.GroupAction.Ring

/-! # Dynamic fees of a concentrated pool

The fee state a pool stores in 80 bytes: a reference that decays with time, and an accumulator that grows
with the distance of a price group from the reference. -/

namespace StockMesh.Native

/-- `uN::from_le_bytes(bytes(d, o)?)`. -/
def uintAt (d : Buffer) (o size : ℕ) : NativeResult ℕ := okOr (d.number o size) .layout

/-- `iN::from_le_bytes(bytes(d, o)?)`. -/
def intAt (d : Buffer) (o size : ℕ) : NativeResult ℤ := do
  let n ← uintAt d o size
  .ok (if n < 2 ^ (8 * size - 1) then n else n - 2 ^ (8 * size))

/-- `bytes::<N>(d, o)`. -/
def bytesAt (d : Buffer) (o size : ℕ) : NativeResult (List UInt8) := okOr (d.slice o size) .layout

/-- A buffer that is zero outside some windows. -/
def sparse (size : ℕ) (fields : List (ℕ × List UInt8)) : Buffer where
  size
  byte i := match fields.find? fun f => f.1 ≤ i ∧ i < f.1 + f.2.length with
    | some f => f.2.getD (i - f.1) 0
    | none => 0

/-- The fee state of a pool (`DynamicFee`). -/
structure DynamicFee where
  filter : ℕ
  decay : ℕ
  reduction : ℕ
  control : ℕ
  maximum : ℕ
  referenceIndex : ℤ
  reference : ℕ
  accumulator : ℕ
  timestamp : ℕ
  deriving DecidableEq

/-- The fields of the fee state as they are stored. -/
def DynamicFee.read (d : Buffer) : NativeResult DynamicFee := do
  let filter ← uintAt d 0 2
  let decay ← uintAt d 2 2
  let reduction ← uintAt d 4 2
  let control ← uintAt d 6 4
  let maximum ← uintAt d 10 4
  let referenceIndex ← intAt d 14 4
  let reference ← uintAt d 18 4
  let accumulator ← uintAt d 22 4
  let timestamp ← uintAt d 26 8
  .ok { filter, decay, reduction, control, maximum, referenceIndex, reference, accumulator, timestamp }

/-- The stored fields that `decode` refuses. -/
def DynamicFee.Refused (fee : DynamicFee) (spacing : ℤ) (d : Buffer) : Prop :=
  spacing ≤ 0 ∨ fee.filter = 0 ∨ fee.decay ≤ fee.filter ∨ fee.reduction = 0 ∨ 10000 ≤ fee.reduction ∨
    fee.control = 0 ∨ 100000 ≤ fee.control ∨ u32Size - 1 < fee.maximum * spacing.toNat ∨
    fee.maximum < fee.reference ∨ fee.maximum < fee.accumulator ∨ zeroFrom d 34 = false

instance (fee : DynamicFee) (spacing : ℤ) (d : Buffer) : Decidable (fee.Refused spacing d) :=
  inferInstanceAs (Decidable (_ ∨ _))

/-- `DynamicFee::decode`. -/
def DynamicFee.decode (pool : Buffer) (spacing current : ℤ) (timestamp : ℕ) :
    NativeResult (Option DynamicFee) := do
  let stored ← bytesAt pool 1096 80
  let d := Buffer.ofList stored
  if zeroFrom d 0 = true then .ok none else
  let fee ← read d
  if fee.Refused spacing d then .error .unsupported else
  -- a dynamic pool is priced only with a clock that is not behind it
  if timestamp = 0 ∨ timestamp < fee.timestamp then .error .stale else
  let elapsed := timestamp - fee.timestamp
  if elapsed < fee.filter then .ok (some fee) else
  .ok (some { fee with
    referenceIndex := current / spacing
    reference := if elapsed < fee.decay then fee.accumulator * fee.reduction / 10000 else 0
    timestamp })

/-- `DynamicFee::update`. -/
def DynamicFee.update (fee : DynamicFee) (index : ℤ) : NativeResult DynamicFee := do
  let distance := (fee.referenceIndex - index).natAbs
  let scaled ← word (distance * 10000)
  let value ← wordAdd fee.reference scaled
  .ok { fee with accumulator := min value fee.maximum }

/-- `DynamicFee::capped`. -/
def DynamicFee.capped (fee : DynamicFee) : Bool := fee.accumulator = fee.maximum

/-- `DynamicFee::total`. -/
def DynamicFee.total (fee : DynamicFee) (base : ℕ) (spacing : ℤ) : NativeResult ℕ := do
  let crossed ← small (fee.accumulator * spacing.toNat)
  let squared ← small (crossed * crossed)
  let numerator ← small (squared * fee.control)
  let extra := min (numerator ⌈/⌉ 10000000000000) 100000
  if u32Size ≤ base + extra then .error .arithmetic else .ok (min (base + extra) 100000)

end StockMesh.Native

import StockMesh.Compiler.Curve
import Mathlib.Logic.Function.Basic

/-! # Snapshots and their compilation

A `Snapshot` carries a venue's identity, its availability and its pricing model: explicit book
levels or a constant-product pool. `Snapshot.exactQuote` is the model's own integer quote and
`compile` turns the snapshot into a `Curve`: a book is cut at the horizon, a pool becomes at most
sixteen adaptive chords. Every unchecked machine operation of the pool branch goes through the
panicking primitives, so an overflow would surface as `Error.overflow`. -/

namespace StockMesh

open Budgeted Stateful Function

/-- A venue's pricing model. -/
inductive Model
  /-- Executable input bands, of which the first `len` count. -/
  | book (levels : Vector Segment maxSegments) (len : ℕ)
  /-- Constant product with a fee of `feePpm` millionths on the input. -/
  | constantProduct (reserveIn reserveOut feePpm : ℕ)
  deriving DecidableEq, Repr, Inhabited

/-- A venue's state as the engine reads it. -/
structure Snapshot where
  market : Key
  program : Key
  inputMint : Key
  outputMint : Key
  /-- The underlying pool, the same across wrappers. -/
  liquidityId : Key
  /-- Bitset over the venue-state accounts a swap writes. -/
  writableResources : ℕ
  slot : ℕ
  generation : ℕ
  expiresAtSlot : ℕ
  capacity : ℕ
  atomic : Bool
  enabled : Bool
  model : Model
  deriving DecidableEq, Repr, Inhabited

/-- The total capacity of book levels, `try_fold` with `checked_add`. -/
def levelCapacity (levels : List Segment) : Result ℕ :=
  levels.foldlM (fun a s => checkedAdd a s.inputCapacity) 0

/-- `validate_cp`. -/
def validateCp (r y fee : ℕ) : Result Unit :=
  rejectIf (r = 0 ∨ y = 0 ∨ maxAtoms < r ∨ maxAtoms < y ∨ 1000000 ≤ fee) .invalidCurve

/-- `Snapshot::exact_quote`. -/
def Snapshot.exactQuote (s : Snapshot) (input : ℕ) : Result ℕ := do
  rejectIf (s.capacity < input ∨ maxAtoms < input) .capacity
  match s.model with
  | .book levels len => do
    let capacity ← levelCapacity (levels.toList.take len)
    Curve.quote { segments := levels, len := len, capacity := capacity } input
  | .constantProduct reserveIn reserveOut feePpm => do
    validateCp reserveIn reserveOut feePpm
    let net := input * (1000000 - feePpm) / 1000000
    asU64 (reserveOut * net / (reserveIn + net))

/-- `cp_fp`: the continuous constant-product output in Q32, rounded down. -/
def cpFp (r y f x : ℕ) : Result ℕ := do
  let n ← mulU128 (← mulU128 y x) f
  let d ← addU128 (← mulU128 r 1000000) (← mulU128 x f)
  let whole ← mulU128 (← divU128 n d) scale
  let part ← divU128 (← mulU128 (← remU128 n d) scale) d
  addU128 whole part

/-- `derivative_upper`: an upper bound in Q32 on the marginal output at `x`. -/
def derivativeUpper (r y f x : ℕ) : Result ℕ := do
  let d ← addU128 (← mulU128 r 1000000) (← mulU128 x f)
  let first ← ceilDiv (← mulU128 (← mulU128 y f) scale) d
  ceilDiv (← mulU128 (← mulU128 first r) 1000000) d

/-! ## The adaptive chords -/

/-- The intervals under construction: `n` of them between consecutive boundaries, with the curve's
value at each boundary, its tangent at each left end and the priority of each interval. -/
structure Chords where
  n : ℕ
  boundaries : ℕ → ℕ
  values : ℕ → ℕ
  tangents : ℕ → ℕ
  gaps : ℕ → ℕ

/-- `for j in (lo..=hi).rev() { a[j] = a[j - 1] }`. -/
def shiftUp (a : ℕ → ℕ) (lo hi : ℕ) : ℕ → ℕ := fun j => if lo ≤ j ∧ j ≤ hi then a (j - 1) else a j

namespace Chords

/-- The single interval `[0, capacity]`. -/
def init (r y f capacity derivativeZero : ℕ) : Result Chords := do
  let value ← cpFp r y f capacity
  let slope ← divU128 value capacity
  let gap ← mulU128 (derivativeZero - slope) capacity
  .ok
    { n := 1
      boundaries := update (fun _ => 0) 1 capacity
      values := update (fun _ => 0) 1 value
      tangents := update (fun _ => 0) 0 derivativeZero
      gaps := update (fun _ => 0) 0 gap }

/-- One comparison of the search for the interval to split: atoms are not split, and an equal gap
keeps the earlier interval. -/
def pickStep (c : Chords) (best : Option ℕ × ℕ) (i : ℕ) : Metered (Option ℕ × ℕ) := do
  charge 1
  let width ← lift (subUint (c.boundaries (i + 1)) (c.boundaries i))
  if width ≤ 1 then
    pure best
  else if best.1 = none ∨ best.2 < c.gaps i then
    pure (some i, c.gaps i)
  else
    pure best

/-- The interval with the largest gap, if one can still be split. -/
def pick (c : Chords) : Metered (Option ℕ × ℕ) := (List.range c.n).foldlM c.pickStep (none, 0)

/-- The priority of interval `j`: tangent above chord, times the width. -/
def gap (c : Chords) (j : ℕ) : Result ℕ := do
  let width ← subUint (c.boundaries (j + 1)) (c.boundaries j)
  let slope ← divU128 (← subUint (c.values (j + 1)) (c.values j)) width
  mulU128 (c.tangents j - slope) width

/-- Bisect interval `i`. -/
def split (r y f : ℕ) (c : Chords) (i : ℕ) : Result Chords := do
  let boundaries := shiftUp c.boundaries (i + 2) (c.n + 1)
  let values := shiftUp c.values (i + 2) (c.n + 1)
  let tangents := shiftUp c.tangents (i + 2) (c.n + 1)
  let gaps := shiftUp c.gaps (i + 2) c.n
  let width ← subUint (boundaries (i + 2)) (boundaries i)
  let middle ← addU64 (boundaries i) (width / 2)
  let value ← cpFp r y f middle
  let tangent ← derivativeUpper r y f middle
  let c : Chords :=
    { n := c.n
      boundaries := update boundaries (i + 1) middle
      values := update values (i + 1) value
      tangents := update tangents (i + 1) tangent
      gaps := gaps }
  let left ← c.gap i
  let right ← c.gap (i + 1)
  .ok { c with n := c.n + 1, gaps := update (update c.gaps i left) (i + 1) right }

/-- The splitting loop, `while n < MAX_SEGMENTS`; the first argument is `MAX_SEGMENTS - n`. -/
def refine (r y f : ℕ) : ℕ → Chords → Metered Chords
  | 0, c => pure c
  | k + 1, c => do
    match (← c.pick).1 with
    | none => pure c
    | some i => do
      let c ← lift (c.split r y f i)
      refine r y f k c

end Chords

/-- The accumulators of the loop that emits the bands. -/
structure Emitted where
  segments : Vector Segment maxSegments
  integral : ℕ
  errorFp : ℕ
  previous : ℕ

/-- Emit band `i`: the chord slope, clamped to be non-increasing, and the tangent error. -/
def Chords.emitStep (c : Chords) (acc : Emitted) (i : ℕ) : Metered Emitted := do
  charge 1
  let width ← lift (subUint (c.boundaries (i + 1)) (c.boundaries i))
  let fa := c.values i
  let rise ← lift (subUint (c.values (i + 1)) fa)
  let chord ← lift (divU128 rise width)
  let slope := min (← lift (asU64 chord)) acc.previous
  let below ← lift (addU128 fa 1)
  let below ← lift (subUint below acc.integral)
  let above ← lift (mulU128 (c.tangents i - slope) width)
  let tangentGap ← lift (addU128 below above)
  let area ← lift (mulU128 slope width)
  let integral ← lift (addU128 acc.integral area)
  pure
    { segments := acc.segments.setIfInBounds i ⟨width, slope⟩
      integral := integral
      errorFp := max acc.errorFp tangentGap
      previous := slope }

/-- The constant-product branch of `compile`. -/
def compilePool (r y feePpm capacity : ℕ) : Metered Curve := do
  lift (validateCp r y feePpm)
  let f := 1000000 - feePpm
  let derivativeZero ← lift (derivativeUpper r y f 0)
  lift (rejectIf (maxRate < derivativeZero) .invalidCurve)
  let c ← lift (Chords.init r y f capacity derivativeZero)
  let c ← c.refine r y f (maxSegments - 1)
  let e ← (List.range c.n).foldlM c.emitStep ⟨.replicate maxSegments ⟨0, 0⟩, 0, 0, maxRate⟩
  let upper ← lift (asU64 (← lift (ceilDiv e.errorFp scale)))
  let perAtom ← lift (ceilDiv y r)
  let lower ← lift (asU64 (← lift (addU128 perAtom 1)))
  let curve : Curve :=
    { segments := e.segments
      len := c.n
      capacity := capacity
      upperErrorAtoms := upper
      lowerErrorAtoms := lower }
  lift curve.validate
  pure curve

/-- The loop of the book branch: cut the levels at `left` remaining atoms. -/
def cutLevels : List Segment → Curve → ℕ → Metered Curve
  | [], curve, _ => pure curve
  | level :: rest, curve, left => do
    charge 1
    if left = 0 then
      pure curve
    else
      let take := min left level.inputCapacity
      let segment := { level with inputCapacity := take }
      cutLevels rest
        { curve with
          segments := curve.segments.setIfInBounds curve.len segment
          len := curve.len + 1 }
        (left - take)

/-- The book branch of `compile`. -/
def compileBook (s : Snapshot) (levels : Vector Segment maxSegments) (len capacity : ℕ) :
    Metered Curve := do
  let fullCapacity ← lift (levelCapacity (levels.toList.take len))
  let full : Curve := { segments := levels, len := len, capacity := fullCapacity }
  lift full.validate
  lift (rejectIf (fullCapacity < s.capacity) .capacity)
  cutLevels (levels.toList.take len) { capacity := capacity } capacity

/-- `compile`. -/
def compile (s : Snapshot) (horizon : ℕ) : Metered Curve := do
  lift (rejectIf (s.atomic = false) .unsupported)
  lift (rejectIf (s.enabled = false) .venueUnavailable)
  lift (rejectIf (s.capacity = 0 ∨ maxAtoms < s.capacity ∨ horizon = 0 ∨ maxAtoms < horizon)
    .invalidAmount)
  let capacity := min s.capacity horizon
  match s.model with
  | .book levels len => compileBook s levels len capacity
  | .constantProduct r y feePpm => compilePool r y feePpm capacity

end StockMesh

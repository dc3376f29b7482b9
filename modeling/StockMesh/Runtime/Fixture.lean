import StockMesh.Runtime.Host
import StockMesh.Optimizer.Mask

/-! # The synthetic execution host

`FixtureHost` settles every invocation with the venue's own integer quote and then moves the venue's
model: a pool gains the input and loses the output, a book loses the consumed part of its levels. -/

namespace StockMesh

open Budgeted Stateful Function

/-- The synthetic host. -/
structure FixtureHost where
  venues : Edge → Snapshot
  len : ℕ
  balances : Balances
  slot : ℕ
  /-- Successful partial execution, distinct from a failing call. -/
  settlementCaps : Edge → ℕ
  fatal : Mask
  calls : ℕ

/-- `FixtureHost::new`. -/
def FixtureHost.new (venues : List Snapshot) (amount slot : ℕ) : Result FixtureHost := do
  rejectIf (venues.length = 0 ∨ maxEdges < venues.length) .bounds
  .ok
    { venues := fun i => venues.getD i.val (venues.getD 0 default)
      len := venues.length
      balances := { input := amount, output := 0 }
      slot := slot
      settlementCaps := fun _ => u64Size - 1
      fatal := 0
      calls := 0 }

/-- Fixed levels from a list, padded with empty ones. -/
def packLevels (levels : List Segment) : Vector Segment maxSegments :=
  Vector.ofFn fun k => levels.getD k.val ⟨0, 0⟩

/-- What is left of book levels after consuming `remaining` atoms in order. -/
def drainLevels : List Segment → ℕ → List Segment
  | [], _ => []
  | level :: rest, remaining =>
    let take := min remaining level.inputCapacity
    if take < level.inputCapacity then
      { level with inputCapacity := level.inputCapacity - take }
        :: drainLevels rest (remaining - take)
    else
      drainLevels rest (remaining - take)

/-- The pricing model after settling `spent` for `output`. -/
def Model.settle (model : Model) (spent output : ℕ) : Result Model :=
  match model with
  | .constantProduct reserveIn reserveOut feePpm => do
    let reserveIn ← checkedAdd reserveIn spent
    rejectIf (reserveOut < output) .overflow
    .ok (.constantProduct reserveIn (reserveOut - output) feePpm)
  | .book levels len =>
    let left := drainLevels (levels.toList.take len) spent
    .ok (.book (packLevels left) left.length)

namespace FixtureHost

/-- Settle `spent` atoms at venue `i`. -/
def settleVenue (i : Edge) (spent : ℕ) : Comp Error FixtureHost Unit := do
  let s := (← get).venues i
  let output ← lift (s.exactQuote spent)
  let before := (← get).balances
  lift (rejectIf (before.input < spent) .balanceInvariant)
  modify fun h => { h with balances := { h.balances with input := before.input - spent } }
  let credited ← lift (checkedAdd before.output output)
  modify fun h => { h with balances := { h.balances with output := credited } }
  let model ← lift (s.model.settle spent output)
  lift (rejectIf (s.capacity < spent ∨ u64Size ≤ s.generation + 1) .overflow)
  let moved : Snapshot :=
    { s with model := model, capacity := s.capacity - spent, generation := s.generation + 1 }
  modify fun h => { h with venues := update h.venues i moved }

/-- `FixtureHost::invoke`. -/
def invoke (index input : ℕ) : Comp Error FixtureHost Unit := do
  let h ← get
  lift (rejectIf (h.len ≤ index) .bounds)
  lift (rejectIf (255 ≤ h.calls) .overflow)
  modify fun h => { h with calls := h.calls + 1 }
  if hi : index < maxEdges then do
    let i : Edge := ⟨index, hi⟩
    lift (rejectIf (h.fatal.has i = true) .fatalCpi)
    let s := h.venues i
    lift (rejectIf (s.enabled = false ∨ s.expiresAtSlot < h.slot) .fatalCpi)
    settleVenue i (min (min input (h.settlementCaps i)) s.capacity)
  else
    fail .overflow

/-- `FixtureHost::snapshot`. -/
def readVenue (index : ℕ) (h : FixtureHost) : Result Snapshot :=
  if h.len ≤ index then .error .bounds
  else if hi : index < maxEdges then .ok (h.venues ⟨index, hi⟩)
  else .error .overflow

end FixtureHost

/-- The fixture as an execution host. -/
def fixtureHost : ExecutionHost FixtureHost where
  slot h := (h.slot, h)
  snapshot index h := (h.readVenue index, h)
  balances h := (.ok h.balances, h)
  invoke := FixtureHost.invoke

end StockMesh

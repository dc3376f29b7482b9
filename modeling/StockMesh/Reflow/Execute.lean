import StockMesh.Optimizer.Search
import StockMesh.Runtime.Host
import Mathlib.Data.List.MinMax
import Mathlib.Data.Prod.Lex

/-! # The bounded executor

Read the pinned venues, plan, invoke one venue, observe the balances, and go on with what is left.
A successful partial or zero fill causes another round; an error of the host ends the execution. -/

namespace StockMesh

open Budgeted Stateful Function

/-- What the signer wants. -/
structure Intent where
  inputMint : Key
  outputMint : Key
  amountIn : ℕ
  minOut : ℕ
  expiresAtSlot : ℕ
  maxSnapshotAge : ℕ

/-- Bounds of an execution. -/
structure Limits where
  maxLegs : ℕ := 4
  maxReflows : ℕ := 3
  maxWork : ℕ := 200000

/-- One executed leg. -/
structure LegTrace where
  edge : ℕ := 0
  requested : ℕ := 0
  spent : ℕ := 0
  received : ℕ := 0
  residual : ℕ := 0
  eligibleMask : Mask := 0
  chosenMask : Mask := 0

/-- What an execution returns. -/
structure Receipt where
  initial : SearchReport := ⟨{}, ⟨0, 0, 0⟩, {}⟩
  inputSpent : ℕ := 0
  outputReceived : ℕ := 0
  legs : ℕ := 0
  reflows : ℕ := 0
  workUnits : ℕ := 0
  curvesCompiled : ℕ := 0
  tapeBuilds : ℕ := 0
  trace : Fin maxLegs → LegTrace := fun _ => {}

/-- `&pins[i]`. -/
def pinAt (pins : List EdgePin) (i : Edge) : EdgePin :=
  pins.getD i.val ⟨default, default, default, 0, 0⟩

/-- `&array[..n]`. -/
def slice {α : Type} (n : ℕ) (array : Edge → α) : List α := (List.ofFn array).take n

/-- The variables of the loop. -/
structure Progress where
  before : Balances
  remaining : ℕ
  used : Mask
  usedResources : ℕ
  receipt : Receipt
  snapshots : Edge → Snapshot
  curves : Edge → Curve
  tape : Option ResidualTape

/-- The variables of one scan over the pins. -/
structure PinScan where
  snapshots : Edge → Snapshot
  curves : Edge → Curve
  curvesCompiled : ℕ
  dirty : Bool
  eligible : Mask

/-- The snapshot is of another venue or pair than the pin and the intent say. -/
def Mismatched (intent : Intent) (pin : EdgePin) (s : Snapshot) : Prop :=
  s.market ≠ pin.market ∨ s.program ≠ pin.program ∨ s.liquidityId ≠ pin.liquidityId ∨
    s.inputMint ≠ intent.inputMint ∨ s.outputMint ≠ intent.outputMint ∨
    s.writableResources ≠ pin.writableResources

instance (intent : Intent) (pin : EdgePin) (s : Snapshot) : Decidable (Mismatched intent pin s) :=
  inferInstanceAs (Decidable (_ ∨ _))

/-- Unavailable, expired and stale candidates are skipped. -/
def Unavailable (intent : Intent) (slot : ℕ) (pin : EdgePin) (s : Snapshot) : Prop :=
  s.enabled = false ∨ s.atomic = false ∨ s.capacity = 0 ∨ s.expiresAtSlot < slot ∨ slot < s.slot ∨
    intent.maxSnapshotAge < slot - s.slot ∨ s.generation < pin.minGeneration

instance (intent : Intent) (slot : ℕ) (pin : EdgePin) (s : Snapshot) :
    Decidable (Unavailable intent slot pin s) := inferInstanceAs (Decidable (_ ∨ _))

/-- The checks on the pins: no two share a market or a liquidity. -/
def aliasedPins (pins : List EdgePin) : Prop :=
  ∃ i ∈ venues pins.length, ∃ j ∈ venues i.val,
    (pinAt pins i).market = (pinAt pins j).market ∨
      (pinAt pins i).liquidityId = (pinAt pins j).liquidityId

instance (pins : List EdgePin) : Decidable (aliasedPins pins) :=
  inferInstanceAs (Decidable (∃ i ∈ venues pins.length, _))

/-- The plan's legs are executed by imminent expiry, ties by index. -/
def imminent (n : ℕ) (snapshots : Edge → Snapshot) (inputs : Edge → ℕ) : Option Edge :=
  ((venues n).filter fun i => decide (0 < inputs i)).argmin fun i =>
    toLex ((snapshots i).expiresAtSlot, i)

/-- Most legs the plan of the next round may have. -/
def legBudget (limits : Limits) (receipt : Receipt) : ℕ :=
  min (limits.maxLegs - receipt.legs) (limits.maxReflows - receipt.reflows + 1)

/-- The counters at the start of a round. -/
def countRound (limits : Limits) (receipt : Receipt) : Result Receipt := do
  rejectIf (limits.maxLegs ≤ receipt.legs) .bounds
  if 0 < receipt.legs then do
    rejectIf (limits.maxReflows ≤ receipt.reflows) .bounds
    .ok { receipt with reflows := receipt.reflows + 1 }
  else
    .ok receipt

section Execution

variable {σ : Type} (host : ExecutionHost σ) (pins : List EdgePin) (intent : Intent)
  (limits : Limits) (slot : ℕ)

/-- Read one pinned venue. The cached curve stays while the snapshot does. -/
def readPin (used : Mask) (usedResources : ℕ) (scan : PinScan) (i : Edge) : Exec σ PinScan := do
  work (charge 1)
  let s ← readSnapshot host i.val
  lift (rejectIf (Mismatched intent (pinAt pins i) s) .identity)
  if used.has i = true ∨ usedResources &&& s.writableResources ≠ 0 then
    pure scan
  else if Unavailable intent slot (pinAt pins i) s then
    pure scan
  else if (scan.curves i).len = 0 ∨ scan.snapshots i ≠ s then do
    let curve ← work (compile s intent.amountIn)
    pure
      { snapshots := update scan.snapshots i s
        curves := update scan.curves i curve
        curvesCompiled := scan.curvesCompiled + 1
        dirty := true
        eligible := scan.eligible ||| Mask.bit i }
  else
    pure
      { scan with
        snapshots := update scan.snapshots i s
        eligible := scan.eligible ||| Mask.bit i }

/-- Read all pinned venues. -/
def readPins (st : Progress) : Exec σ PinScan :=
  (venues pins.length).foldlM (readPin host pins intent slot st.used st.usedResources)
    { snapshots := st.snapshots
      curves := st.curves
      curvesCompiled := st.receipt.curvesCompiled
      dirty := st.tape.isNone
      eligible := 0 }

/-- Rebuild the tape if a curve changed. -/
def refreshTape (scan : PinScan) (tape : Option ResidualTape) (builds : ℕ) :
    Exec σ (Option ResidualTape × ℕ) :=
  if scan.dirty then do
    let t ← work (ResidualTape.build (slice pins.length scan.curves) scan.eligible)
    pure (some t, builds + 1)
  else
    pure (tape, builds)

/-- Invoke the chosen venue and account for what it did. -/
def settle (st : Progress) (scan : PinScan) (plan : Allocation) (edge : Edge) :
    Exec σ Progress := do
  let request := plan.inputs edge
  work (charge 1)
  invoke host edge.val request
  let after ← readBalances host
  let spent ← lift (if after.input ≤ st.before.input then .ok (st.before.input - after.input)
    else .error .balanceInvariant)
  let received ← lift (if st.before.output ≤ after.output then .ok (after.output - st.before.output)
    else .error .balanceInvariant)
  lift (rejectIf (request < spent ∨ st.remaining < spent ∨ (spent = 0 ∧ received ≠ 0) ∨
    (0 < spent ∧ received = 0)) .balanceInvariant)
  let leg : LegTrace :=
    { edge := edge.val
      requested := request
      spent := spent
      received := received
      residual := st.remaining - spent
      eligibleMask := scan.eligible
      chosenMask := plan.mask }
  pure
    { st with
      before := after
      remaining := st.remaining - spent
      used := st.used ||| Mask.bit edge
      usedResources := st.usedResources ||| (scan.snapshots edge).writableResources
      receipt := { st.receipt with
        legs := st.receipt.legs + 1
        trace := fun k => if k.val = st.receipt.legs then leg else st.receipt.trace k }
      snapshots := scan.snapshots
      curves := scan.curves }

/-- The first half of a turn: read, compile and plan. -/
def planTurn (st : Progress) : Exec σ (Progress × PinScan × Allocation) := do
  let receipt ← lift (countRound limits st.receipt)
  let current ← readSlot host
  lift (rejectIf (current ≠ slot) .stale)
  let scan ← readPins host pins intent slot st
  lift (rejectIf (scan.eligible = 0) .capacity)
  let (tape, builds) ← refreshTape pins scan st.tape receipt.tapeBuilds
  let receipt := { receipt with curvesCompiled := scan.curvesCompiled, tapeBuilds := builds }
  match tape with
  | none => fail .invalidCurve
  | some t => do
    let report ← work (searchTape (slice pins.length scan.snapshots)
      (slice pins.length scan.curves) t st.remaining scan.eligible (legBudget limits receipt))
    let receipt := if receipt.legs = 0 then { receipt with initial := report } else receipt
    pure ({ st with receipt := receipt, tape := some t }, scan, report.plan)

/-- The second half of a turn: execute the most imminent leg. -/
def executeLeg (st : Progress) (scan : PinScan) (plan : Allocation) : Exec σ Progress :=
  match imminent pins.length scan.snapshots plan.inputs with
  | none => fail .capacity
  | some edge => settle host st scan plan edge

/-- One turn of the loop. -/
def round (st : Progress) : Exec σ Progress := do
  let (st, scan, plan) ← planTurn host pins intent limits slot st
  executeLeg host pins st scan plan

/-- The loop. Every turn executes a leg, so the first argument bounds the turns. -/
def rounds : ℕ → Progress → Exec σ Progress
  | 0, _ => fail .overflow
  | k + 1, st => do
    let st ← round host pins intent limits slot st
    if st.remaining = 0 then pure st else rounds k st

/-- The checks after the loop. -/
def finish (start : Balances) (st : Progress) : Exec σ Receipt := do
  let inputSpent ← lift (if st.before.input ≤ start.input then .ok (start.input - st.before.input)
    else .error .balanceInvariant)
  let outputReceived ← lift (if start.output ≤ st.before.output then
    .ok (st.before.output - start.output) else .error .balanceInvariant)
  lift (rejectIf (inputSpent ≠ intent.amountIn) .balanceInvariant)
  lift (rejectIf (outputReceived < intent.minOut) .minOut)
  let units ← usedWork
  pure
    { st.receipt with
      inputSpent := inputSpent
      outputReceived := outputReceived
      workUnits := units }

end Execution

/-- Everything before the loop: the slot, the balances at the start and the initial variables. -/
def opening {σ : Type} (host : ExecutionHost σ) (pins : List EdgePin) (intent : Intent)
    (limits : Limits) : Exec σ (ℕ × Balances × Progress) := do
  lift (rejectIf (pins.length = 0 ∨ maxEdges < pins.length ∨ limits.maxLegs = 0 ∨
    maxLegs < limits.maxLegs ∨ maxReflows < limits.maxReflows) .bounds)
  lift (rejectIf (intent.amountIn = 0 ∨ maxAtoms < intent.amountIn ∨
    intent.inputMint = intent.outputMint) .invalidAmount)
  lift (rejectIf (aliasedPins pins) .aliasedLiquidity)
  let slot ← readSlot host
  lift (rejectIf (intent.expiresAtSlot < slot) .expired)
  let start ← readBalances host
  lift (rejectIf (start.input < intent.amountIn) .balanceInvariant)
  newMeter limits.maxWork
  let first ← readSnapshot host 0
  pure (slot, start,
    { before := start
      remaining := intent.amountIn
      used := 0
      usedResources := 0
      receipt := {}
      snapshots := fun _ => first
      curves := fun _ => default
      tape := none })

/-- `reflow::execute`. -/
def execute {σ : Type} (host : ExecutionHost σ) (pins : List EdgePin) (intent : Intent)
    (limits : Limits) : Exec σ Receipt := do
  let (slot, start, st) ← opening host pins intent limits
  let st ← rounds host pins intent limits slot (maxLegs + 1) st
  finish intent start st

end StockMesh

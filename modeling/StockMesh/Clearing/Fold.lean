import StockMesh.Basic
import StockMesh.Foundation.Circulation

/-! # Flow folding

A bounded maximum-cost circulation over crossing orders. `fold` works at supplied common prices,
`foldLots` on supplied asset lots; both look for an improving cycle in the residual graph by in-place
Bellman–Ford, pivot on it, and stop when there is none or the pivot bound is reached.

Fixed-size arrays are functions on `ℕ` that are zero past their use. A predecessor entry of
`usize::MAX` is `none`, and the pair of a cycle array and its length is a list. Distances stay far
inside `i64` and are integers. -/

namespace StockMesh

open Budgeted Stateful BellmanFord

/-- Most orders of one fold (`MAX_INTENTS`). -/
abbrev maxIntents : ℕ := 32

/-- Most assets of one fold (`MAX_ASSETS`). -/
abbrev maxAssets : ℕ := 8

/-- Most pivots of one fold (`MAX_PIVOTS`). -/
abbrev maxPivots : ℕ := 256

/-- A signed order. -/
structure FlowIntent where
  owner : Key := .replicate 32 0
  nonce : ℕ := 0
  sell : ℕ := 0
  buy : ℕ := 0
  amount : ℕ := 0
  minOut : ℕ := 0
  expiresAtSlot : ℕ := 0
  deriving DecidableEq

instance : Inhabited FlowIntent := ⟨{}⟩

/-- What an order sold and bought internally. -/
structure FoldFill where
  input : ℕ := 0
  output : ℕ := 0
  deriving DecidableEq

/-- The report of `fold`. -/
structure FoldReport where
  fills : ℕ → FoldFill := fun _ => {}
  valueQuantum : ℕ := 0
  requestedValue : ℕ := 0
  internallyClearedValue : ℕ := 0
  pivots : ℕ := 0
  reverseEdgePivots : ℕ := 0
  optimalAtFixedPrices : Bool := false

/-- The report of `fold_lots`. -/
structure LotFoldReport where
  fills : ℕ → FoldFill := fun _ => {}
  lotSizes : ℕ → ℕ := fun _ => 0
  requestedLots : ℕ := 0
  internallyClearedLots : ℕ := 0
  pivots : ℕ := 0
  reverseEdgePivots : ℕ := 0
  optimalAtFixedLots : Bool := false

/-- `orders[i]`. -/
def intentAt (orders : List FlowIntent) (i : ℕ) : FlowIntent := orders.getD i default

/-- `table[key] += value`. -/
def addAt (table : ℕ → ℕ) (key value : ℕ) : ℕ → ℕ :=
  Function.update table key (table key + value)

/-- `debit == credit`. -/
abbrev SameTotals (debit credit : ℕ → ℕ) : Prop := ∀ a < maxAssets, debit a = credit a

/-- `.ok_or(e)`. -/
def orError {α : Type} (e : Error) : Option α → Result α
  | some a => .ok a
  | none => .error e

/-- `gcd`. -/
def gcd (a b : ℕ) : ℕ := if b = 0 then a else gcd b (a % b)
termination_by b
decreasing_by exact Nat.mod_lt a (by omega)

/-! ## The residual graph -/

/-- An arc of the residual graph (`Arc`; `from` and `to` are its tail and head). -/
structure Arc extends Edge ℕ where
  order : ℕ
  reverse : Bool
  cap : ℕ

/-- `arc`. -/
def arc (orders : List FlowIntent) (capacities flows : ℕ → ℕ) (index : ℕ) : Result Arc := do
  let i := index / 2
  let o := intentAt orders i
  if index % 2 = 1 then
    .ok { tail := o.buy, head := o.sell, order := i, reverse := true, cap := flows i, cost := -1 }
  else do
    let cap ← subUint (capacities i) (flows i)
    .ok { tail := o.sell, head := o.buy, order := i, reverse := false, cap, cost := 1 }

section ImprovingCycle

variable (orders : List FlowIntent) (capacities flows : ℕ → ℕ)

/-- The body of the relaxation loop. -/
def relaxArc (s : Labels ℕ ℕ) (j : ℕ) : Metered (Labels ℕ ℕ) := do
  charge 1
  let e ← lift (arc orders capacities flows j)
  if 0 < e.cap ∧ s.distance e.head < s.distance e.tail + e.cost then
    pure
      { distance := Function.update s.distance e.head (s.distance e.tail + e.cost)
        previous := Function.update s.previous e.head (some j)
        updated := some e.head }
  else pure s

/-- The sweeps; `none` after one that updated nothing. -/
def relaxSweeps : ℕ → Labels ℕ ℕ → Metered (Option (Labels ℕ ℕ))
  | 0, s => pure (some s)
  | n + 1, s => do
    let s ← (List.range (orders.length * 2)).foldlM (relaxArc orders capacities flows)
      { s with updated := none }
    if s.updated = none then pure none else relaxSweeps n s

/-- `for _ in 0..n`: step back to the tail of the predecessor arc. -/
def stepBack (s : Labels ℕ ℕ) : ℕ → ℕ → Result ℕ
  | 0, vertex => .ok vertex
  | n + 1, vertex => do
    let j ← orError .arithmetic (s.previous vertex)
    let e ← arc orders capacities flows j
    stepBack s n e.tail

/-- The cycle loop, with `n` arcs left before the length bound. -/
def cycleArcs (s : Labels ℕ ℕ) (start : ℕ) : ℕ → ℕ → Result (List ℕ)
  | 0, _ => .error .arithmetic
  | n + 1, vertex => do
    let j ← orError .arithmetic (s.previous vertex)
    let e ← arc orders capacities flows j
    if e.tail = start then .ok [j]
    else do
      let rest ← cycleArcs s start n e.tail
      .ok (j :: rest)

/-- `improving_cycle`. -/
def improvingCycle (assets : ℕ) : Metered (Option (List ℕ)) := do
  match ← relaxSweeps orders capacities flows assets {} with
  | none => pure none
  | some s =>
    let vertex ← lift (orError .arithmetic s.updated)
    let start ← lift (stepBack orders capacities flows s assets vertex)
    let cycle ← lift (cycleArcs orders capacities flows s start assets start)
    pure (some cycle)

end ImprovingCycle

/-! ## Pivoting -/

/-- What the first loop of a pivot finds: the smallest room, the cost, and whether an arc is taken
backwards. -/
structure CycleSums where
  delta : ℕ := u128Size - 1
  cost : ℤ := 0
  reverse : Bool := false

/-- One arc of the first loop of a pivot. -/
def addArc (orders : List FlowIntent) (capacities flows : ℕ → ℕ) (c : CycleSums) (j : ℕ) :
    Result CycleSums := do
  let e ← arc orders capacities flows j
  .ok { delta := min c.delta e.cap, cost := c.cost + e.cost, reverse := c.reverse || e.reverse }

/-- One arc of the second loop of a pivot. -/
def pushArc (orders : List FlowIntent) (capacities : ℕ → ℕ) (delta : ℕ) (flows : ℕ → ℕ) (j : ℕ) :
    Result (ℕ → ℕ) := do
  let e ← arc orders capacities flows j
  let flow ← if e.reverse then subUint (flows e.order) delta else addU128 (flows e.order) delta
  .ok (Function.update flows e.order flow)

/-- The state of the pivot loop. -/
structure Pivots where
  flows : ℕ → ℕ := fun _ => 0
  pivots : ℕ := 0
  reverseEdgePivots : ℕ := 0
  optimal : Bool := false

/-- One pivot. -/
def pivot (orders : List FlowIntent) (capacities : ℕ → ℕ) (p : Pivots) (cycle : List ℕ) :
    Result Pivots := do
  let sums ← cycle.foldlM (addArc orders capacities p.flows) {}
  rejectIf (sums.cost ≤ 0 ∨ sums.delta = 0) .arithmetic
  let flows ← cycle.foldlM (pushArc orders capacities sums.delta) p.flows
  .ok { p with
    flows
    pivots := p.pivots + 1
    reverseEdgePivots := p.reverseEdgePivots + if sums.reverse then 1 else 0 }

/-- `for _ in 0..max_pivots`. -/
def pivotLoop (orders : List FlowIntent) (capacities : ℕ → ℕ) (assets : ℕ) :
    ℕ → Pivots → Metered Pivots
  | 0, p => pure p
  | n + 1, p => do
    match ← improvingCycle orders capacities p.flows assets with
    | none => pure { p with optimal := true }
    | some cycle =>
      let p ← lift (pivot orders capacities p cycle)
      pivotLoop orders capacities assets n p

/-- The pivot loop and the last look for a cycle, common to `fold` and `fold_lots`. -/
def circulate (orders : List FlowIntent) (capacities : ℕ → ℕ) (assets bound : ℕ) :
    Metered Pivots := do
  let p ← pivotLoop orders capacities assets bound {}
  if p.optimal then pure p
  else do
    let cycle ← improvingCycle orders capacities p.flows assets
    pure { p with optimal := cycle.isNone }

/-! ## Folding -/

/-- The tests on one order, common to `fold` and `fold_lots`. -/
def checkIntent (orders : List FlowIntent) (assets slot i : ℕ) : Result Unit := do
  let o := intentAt orders i
  rejectIf (o.sell = o.buy ∨ assets ≤ o.sell ∨ assets ≤ o.buy ∨ o.amount = 0 ∨
    maxAtoms < o.amount ∨ maxAtoms < o.minOut) .invalidAmount
  rejectIf (o.expiresAtSlot < slot) .expired
  rejectIf (∃ a ∈ orders.take i, a.owner = o.owner ∧ a.nonce = o.nonce) .duplicate

/-- The capacities and the requested total of the order loop. -/
structure Loaded where
  capacities : ℕ → ℕ := fun _ => 0
  requested : ℕ := 0

/-- What the last loop of a fold adds up. -/
structure Tally where
  fills : ℕ → FoldFill := fun _ => {}
  cleared : ℕ := 0
  debit : ℕ → ℕ := fun _ => 0
  credit : ℕ → ℕ := fun _ => 0

/-- Enter an order's fill, common to `fold` and `fold_lots`. -/
def Tally.enter (t : Tally) (o : FlowIntent) (i : ℕ) (fill : FoldFill) (cleared : ℕ) : Tally where
  fills := Function.update t.fills i fill
  cleared := cleared
  debit := addAt t.debit o.sell fill.input
  credit := addAt t.credit o.buy fill.output

/-- A fill that sells too much or is worse than the order's limit. -/
abbrev BadFill (o : FlowIntent) (fill : FoldFill) : Prop :=
  o.amount < fill.input ∨ fill.output * o.amount < fill.input * o.minOut

/-- `prices[a]`, `lot_sizes[a]`. -/
def atAsset (table : List ℕ) (a : ℕ) : ℕ := table.getD a 0

/-- One price of the quantum loop. -/
def quantumStep (quantum p : ℕ) : Result ℕ := do
  rejectIf (p = 0 ∨ 1000000000000 < p) .invalidAmount
  fits u128Size .arithmetic (quantum / gcd quantum p * p)

/-- One order of the capacity loop of `fold`. -/
def loadValue (orders : List FlowIntent) (prices : List ℕ) (slot quantum : ℕ) (l : Loaded) (i : ℕ) :
    Result Loaded := do
  let o := intentAt orders i
  checkIntent orders prices.length slot i
  let value := o.amount * atAsset prices o.sell
  let requested ← addU128 l.requested value
  -- only cross at a price meeting the full order's proportional limit
  .ok
    { requested
      capacities :=
        if o.minOut * atAsset prices o.buy ≤ value then
          Function.update l.capacities i (value / quantum)
        else l.capacities }

/-- One order of the fill loop of `fold`. -/
def fillValue (orders : List FlowIntent) (prices : List ℕ) (flows : ℕ → ℕ) (quantum : ℕ)
    (t : Tally) (i : ℕ) : Result Tally := do
  let o := intentAt orders i
  let value ← fits u128Size .arithmetic (flows i * quantum)
  let input ← asU64 (value / atAsset prices o.sell)
  let output ← asU64 (value / atAsset prices o.buy)
  let fill : FoldFill := ⟨input, output⟩
  rejectIf (BadFill o fill) .balanceInvariant
  let cleared ← addU128 t.cleared value
  .ok (t.enter o i fill cleared)

/-- `fold`. -/
def fold (orders : List FlowIntent) (prices : List ℕ) (slot bound : ℕ) : Metered FoldReport := do
  lift (rejectIf (orders = [] ∨ maxIntents < orders.length ∨ prices.length < 2 ∨
    maxAssets < prices.length ∨ maxPivots < bound) .bounds)
  let quantum ← lift (prices.foldlM quantumStep 1)
  let loaded ← lift ((List.range orders.length).foldlM (loadValue orders prices slot quantum) {})
  let p ← circulate orders loaded.capacities prices.length bound
  let t ← lift ((List.range orders.length).foldlM (fillValue orders prices p.flows quantum) {})
  lift (rejectIf (¬SameTotals t.debit t.credit) .balanceInvariant)
  pure
    { fills := t.fills
      valueQuantum := quantum
      requestedValue := loaded.requested
      internallyClearedValue := t.cleared
      pivots := p.pivots
      reverseEdgePivots := p.reverseEdgePivots
      optimalAtFixedPrices := p.optimal }

/-- One order of the capacity loop of `fold_lots`. -/
def loadLots (orders : List FlowIntent) (lotSizes : List ℕ) (slot : ℕ) (l : Loaded) (i : ℕ) :
    Result Loaded := do
  let o := intentAt orders i
  checkIntent orders lotSizes.length slot i
  let sellLot := atAsset lotSizes o.sell
  let buyLot := atAsset lotSizes o.buy
  let requested ← fits u128Size .arithmetic (l.requested + o.amount / sellLot)
  -- a stricter limit leaves the order entirely residual
  .ok
    { requested
      capacities :=
        if sellLot * o.minOut ≤ buyLot * o.amount then
          Function.update l.capacities i (o.amount / sellLot)
        else l.capacities }

/-- One order of the fill loop of `fold_lots`. -/
def fillLots (orders : List FlowIntent) (lotSizes : List ℕ) (flows : ℕ → ℕ) (t : Tally) (i : ℕ) :
    Result Tally := do
  let o := intentAt orders i
  let lots := flows i
  let input ← fits u128Size .arithmetic (lots * atAsset lotSizes o.sell)
  let output ← fits u128Size .arithmetic (lots * atAsset lotSizes o.buy)
  let input ← asU64 input
  let output ← asU64 output
  let fill : FoldFill := ⟨input, output⟩
  rejectIf (BadFill o fill) .balanceInvariant
  let cleared ← fits u128Size .arithmetic (t.cleared + lots)
  .ok (t.enter o i fill cleared)

/-- `fold_lots`. -/
def foldLots (orders : List FlowIntent) (lotSizes : List ℕ) (slot bound : ℕ) :
    Metered LotFoldReport := do
  lift (rejectIf (orders = [] ∨ maxIntents < orders.length ∨ lotSizes.length < 2 ∨
    maxAssets < lotSizes.length ∨ maxPivots < bound ∨
    ∃ lot ∈ lotSizes, lot = 0 ∨ maxAtoms < lot) .bounds)
  let loaded ← lift ((List.range orders.length).foldlM (loadLots orders lotSizes slot) {})
  let p ← circulate orders loaded.capacities lotSizes.length bound
  let t ← lift ((List.range orders.length).foldlM (fillLots orders lotSizes p.flows) {})
  lift (rejectIf (¬SameTotals t.debit t.credit) .balanceInvariant)
  pure
    { fills := t.fills
      lotSizes := atAsset lotSizes
      requestedLots := loaded.requested
      internallyClearedLots := t.cleared
      pivots := p.pivots
      reverseEdgePivots := p.reverseEdgePivots
      optimalAtFixedLots := p.optimal }

/-! ## Validating a report -/

/-- Enter a reported fill, common to `validate_fold` and `validate_lot_fold`. -/
def Tally.replay (t : Tally) (o : FlowIntent) (fill : FoldFill) (cleared : ℕ) : Tally :=
  { t with
    cleared
    debit := addAt t.debit o.sell fill.input
    credit := addAt t.credit o.buy fill.output }

/-- An order no fold accepts. -/
abbrev BadIntent (o : FlowIntent) : Prop :=
  maxAssets ≤ o.sell ∨ maxAssets ≤ o.buy ∨ o.sell = o.buy ∨ o.amount = 0

/-- One order of `validate_fold`. -/
def validateFill (orders : List FlowIntent) (report : FoldReport) (t : Tally) (i : ℕ) :
    Result Tally := do
  let o := intentAt orders i
  let f := report.fills i
  rejectIf (BadIntent o ∨ o.amount < f.input ∨ (f.input = 0 ∧ f.output ≠ 0) ∨
    f.output * o.amount < f.input * o.minOut) .balanceInvariant
  .ok (t.replay o f t.cleared)

/-- `validate_fold`. -/
def validateFold (orders : List FlowIntent) (report : FoldReport) : Result Unit := do
  rejectIf (maxIntents < orders.length) .bounds
  let t ← (List.range orders.length).foldlM (validateFill orders report) {}
  rejectIf (¬SameTotals t.debit t.credit) .balanceInvariant

/-- One order of `validate_lot_fold`. -/
def validateLotFill (orders : List FlowIntent) (report : LotFoldReport) (t : Tally) (i : ℕ) :
    Result Tally := do
  let o := intentAt orders i
  let f := report.fills i
  rejectIf (BadIntent o) .balanceInvariant
  let sellLot := report.lotSizes o.sell
  let buyLot := report.lotSizes o.buy
  rejectIf (sellLot = 0 ∨ buyLot = 0 ∨ o.amount < f.input ∨ (f.input = 0 ∧ f.output ≠ 0) ∨
    f.input % sellLot ≠ 0 ∨ f.output % buyLot ≠ 0 ∨ f.input / sellLot ≠ f.output / buyLot ∨
    f.output * o.amount < f.input * o.minOut) .balanceInvariant
  let cleared ← fits u128Size .arithmetic (t.cleared + f.input / sellLot)
  .ok (t.replay o f cleared)

/-- `validate_lot_fold`. -/
def validateLotFold (orders : List FlowIntent) (report : LotFoldReport) : Result Unit := do
  rejectIf (maxIntents < orders.length) .bounds
  let t ← (List.range orders.length).foldlM (validateLotFill orders report) {}
  rejectIf (¬SameTotals t.debit t.credit ∨ t.cleared ≠ report.internallyClearedLots)
    .balanceInvariant

end StockMesh

import StockMesh.Settle.Conservation
import StockMesh.Settle.Converter
import StockMesh.Optimizer.OracleState

/-! # Economic reflow

A reflow graph over several products of one stock. Its candidates are paths of one or two legs from the cash
to a product, compared by the conservative exposure that they deliver. After every observed fill the paths
are quoted again. The second leg of a path spends exactly what the first one delivered, so that no product
held before leaks into another path. -/

namespace StockMesh.Settle

open Stateful

/-! ## Paths -/

/-- `EconomicPath`: a leg from the cash to a product, or two over a product in transit. -/
structure EconomicPath (k : ℕ) where
  first : ℕ
  second : Option ℕ
  terminal : Fin k

/-- `EconomicPath::cpis`. -/
def EconomicPath.cpis {k : ℕ} (path : EconomicPath k) : ℕ := 1 + path.second.isSome.toNat

/-- The paths found so far, the legs that they use and the products that they reach. -/
structure PathSearch (k : ℕ) where
  paths : List (EconomicPath k) := []
  usedLegs : ℕ → Bool := fun _ => false
  reached : Fin k → Bool := fun _ => false

/-- One path more. -/
def PathSearch.add {k : ℕ} (search : PathSearch k) (path : EconomicPath k) : Outcome (PathSearch k) := do
  need (search.paths.length < maxCandidates) .bounds
  .ok {
    paths := search.paths ++ [path]
    usedLegs := fun i => decide (i = path.first) || decide (some i = path.second) || search.usedLegs i
    reached := Function.update search.reached path.terminal true }

section Paths

variable {n : ℕ} (g : Graph n) (converters : ℕ → Option Converter)

/-- A second leg behind the first one. -/
def tailPath (first : ℕ) (head : Leg n g.assetCount) (search : PathSearch g.assetCount)
    (p : Leg n g.assetCount × ℕ) : Outcome (PathSearch g.assetCount) :=
  let tail := p.1
  if tail.source = head.destination ∧ tail.source < tail.destination ∧
      (converters tail.destination).isSome then
    search.add { first, second := some p.2, terminal := tail.destination }
  else .ok search

/-- The paths that begin with a leg. -/
def headPaths (search : PathSearch g.assetCount) (p : Leg n g.assetCount × ℕ) :
    Outcome (PathSearch g.assetCount) :=
  let head := p.1
  if head.source ≠ g.first then .ok search else do
    let search ← (if (converters head.destination).isSome then
      search.add { first := p.2, second := none, terminal := head.destination } else .ok search)
    g.legs.zipIdx.foldlM (tailPath g converters p.2 head) search

/-- `economic_paths`: every leg is used and every product is reached. -/
def economicPaths : Outcome (List (EconomicPath g.assetCount)) := do
  let search ← g.legs.zipIdx.foldlM (headPaths g converters) {}
  need (search.paths ≠ [] ∧ (∀ i ∈ List.range g.legs.length, search.usedLegs i = true) ∧
    ∀ i, i ≠ g.first → (converters i).isNone ∨ search.reached i = true) .bounds
  .ok search.paths

end Paths

/-! ## Quotes -/

/-- The last sixteen answers of a selection, whether they were to be exact or not. -/
structure QuoteCache where
  slots : List (ℕ × ℕ × Option ℕ) := List.replicate 16 (u64Size - 1, 0, none)
  cursor : ℕ := 0

/-- Replace the oldest answer. -/
def QuoteCache.push (cache : QuoteCache) (index amount : ℕ) (value : Outcome ℕ) : QuoteCache where
  slots := cache.slots.set cache.cursor (index, amount, value.toOption)
  cursor := (cache.cursor + 1) % 16

section Quotes

variable {natives : Natives} {n : ℕ} (ledger : Ledger) (a : Accounts n) (g : Graph n) (clock : Clock)
  (oracle : Oracle natives) (used : ℕ → ℕ) (converters : ℕ → Option Converter)

/-- The quote of the second leg, if there is one. It has to be exact: a path may not leave a product in
transit behind. -/
def quoteSecond (first : Leg n g.assetCount) (terminal : Fin g.assetCount) (intermediate : ℕ) :
    Option ℕ → Outcome ℕ
  | none => .ok intermediate
  | some j => do
    let second ← okOr g.legs[j]? .bounds
    need (second.source = first.destination ∧ second.destination = terminal ∧
      intermediate ≤ second.budget - used j) .bounds
    oracle.quote ledger a g clock j intermediate true

/-- `quote_economic_path`: the exposure that a path delivers. -/
def quoteEconomicPath (path : EconomicPath g.assetCount) (input : ℕ) (exact : Bool) : Outcome ℕ := do
  let first ← okOr g.legs[path.first]? .bounds
  need (input ≤ first.budget - used path.first) .bounds
  let intermediate ← oracle.quote ledger a g clock path.first input exact
  let raw ← quoteSecond ledger a g clock oracle used first path.terminal intermediate path.second
  let converter ← okOr (converters path.terminal) .bounds
  converter.convert raw

variable {k : ℕ} (paths : List (EconomicPath k)) (remainingCpis : ℕ)
  (quote : EconomicPath k → ℕ → Bool → Outcome ℕ)

/-- The closure `quote` of a selection. -/
def cachedQuote (exact : Bool) (index amount : ℕ) (cache : QuoteCache) : Outcome ℕ × QuoteCache :=
  match paths[index]? with
  | none => (.error .bounds, cache)
  | some path =>
    if remainingCpis < path.cpis then (.error .bounds, cache) else
    match cache.slots.find? fun slot => decide (slot.1 = index) && decide (slot.2.1 = amount) with
    | some slot => (okOr slot.2.2 .adapter, cache)
    | none => (quote path amount exact, cache.push index amount (quote path amount exact))

/-- The first path with the greatest exact quote for all that remains. -/
def bestFull (remaining : ℕ) : List ℕ → Option (ℕ × ℕ) → QuoteCache → Option (ℕ × ℕ) × QuoteCache
  | [], best, cache => (best, cache)
  | i :: rest, best, cache =>
    let answer := cachedQuote paths remainingCpis quote true i remaining cache
    match answer.1 with
    | .error _ => bestFull remaining rest best answer.2
    | .ok output =>
      match best with
      | some (j, prior) =>
        bestFull remaining rest (if prior < output then some (i, output) else some (j, prior)) answer.2
      | none => bestFull remaining rest (some (i, output)) answer.2

/-- The oracle of the refinement: every failure is the same. -/
def refineQuote (index amount : ℕ) (cache : QuoteCache) : Result ℕ × QuoteCache :=
  let answer := cachedQuote paths remainingCpis quote false index amount cache
  (match answer.1 with
    | .ok output => .ok output
    | .error _ => .error .capacity, answer.2)

/-- The first of some candidates with the greatest input. -/
def largestOf (inputs : ℕ → ℕ) (candidates : List ℕ) : Option ℕ :=
  candidates.foldl (fun best i =>
    match best with
    | none => some i
    | some j => if inputs j < inputs i then some i else some j) none

/-- The choice of a path and an amount with the given quotes. A path that would need the last CPI for a part
of what remains is not begun. -/
def choosePath (remaining calls : ℕ) : Outcome (EconomicPath k × ℕ) := do
  let full := bestFull paths remainingCpis quote remaining (List.range paths.length) none {}
  let best ← okOr full.1 .adapter
  let fullPath ← okOr paths[best.1]? .bounds
  if remainingCpis = 1 then .ok (fullPath, remaining) else
  match (ExactOracle.Held.refine paths.length remaining calls (refineQuote paths remainingCpis quote)
    full.2).1 with
  | .error _ => .error .adapter
  | .ok plan => do
    let fitting := (List.range paths.length).filter fun i =>
      decide (∃ path ∈ paths[i]?, path.cpis ≤ remainingCpis)
    let selected ← okOr (largestOf plan.inputs fitting) .adapter
    let path ← okOr paths[selected]? .bounds
    let amount := plan.inputs selected
    need (0 < amount) .adapter
    if amount < remaining ∧ path.cpis = remainingCpis then .ok (fullPath, remaining)
    else .ok (path, amount)

/-- `select_economic_path`. -/
def selectEconomicPath (paths : List (EconomicPath g.assetCount)) (remaining : ℕ) :
    Outcome ((EconomicPath g.assetCount × ℕ) × Oracle natives) := do
  need (0 < remaining ∧ 0 < remainingCpis) .bounds
  let oracle := oracle.refresh ledger a g clock used
  let choice ← choosePath paths remainingCpis (quoteEconomicPath ledger a g clock oracle used converters)
    remaining g.reflowCalls
  .ok (choice, oracle)

end Quotes

/-! ## Execution -/

/-- The locals of the loop. -/
structure EconomicRun (natives : Natives) (k : ℕ) where
  oracle : Oracle natives
  current : Fin k → ℕ
  used : ℕ → ℕ := fun _ => 0
  executed : ℕ := 0

/-- `EconomicGraphOutcome`. -/
structure EconomicOutcome where
  sequence : ℕ
  actualIn : ℕ
  exposureQ32 : ℕ
  executed : ℕ

section Execute

variable {natives : Natives} {n : ℕ} (a : Accounts n) (g : Graph n) (clock : Clock)

/-- The data of a leg's CPI, which has to spend the whole amount. -/
def economicLegData (ledger : Ledger) (wallet : Key) (leg : Leg n g.assetCount) (budget : ℕ) :
    Outcome (List UInt8) :=
  if leg.venue = .phoenix then do
    let book ← ad (PhoenixBook.decode (ledger (a.key leg.pool)).data)
    let expected ← ad (book.quote wallet leg.direction budget maxMatches clock.slot clock.time)
    need (expected.input = budget ∧ 0 < expected.output) .adapter
    let bytes ← ad (phoenixIoc book.header leg.direction budget maxMatches g.deadline)
    .ok (bytes.take phoenixIocLen)
  else ad (leg.venue.swapData budget leg.direction)

variable {program : ProgramId} (venues : Venues program) (wallet : Fin n)

/-- `invoke_economic_leg`. -/
def invokeEconomicLeg (index budget : ℕ) : Step Unit := do
  let leg ← lift (okOr g.legs[index]? .bounds)
  let s ← get
  let data ← lift (economicLegData a g clock s.ledger (a.key wallet) leg budget)
  invokeLeg venues index (legInstruction a g s.ledger leg data)

variable (lamports : ℕ)

/-- What is checked and recorded after the first CPI of a path, with what it delivered. -/
def recordFirst (ledger : Ledger) (index budget : ℕ) (leg : Leg n g.assetCount)
    (run : EconomicRun natives g.assetCount) : Outcome (EconomicRun natives g.assetCount × ℕ) := do
  need ((ledger (a.key wallet)).lamports = lamports) .conservation
  let current ← readEach fun i => balance ledger (tokenKey a g i)
  let spent ← checkedSub (run.current g.first) (current g.first) .conservation
  let received ← checkedSub (current leg.destination) (run.current leg.destination) .conservation
  need (0 < spent ∧ spent ≤ budget ∧ 0 < received) .conservation
  let used ← checkedSum (run.used index) spent .conservation
  need (∀ i, i ≠ g.first → i ≠ leg.destination → current i = run.current i) .conservation
  .ok ({ run with
    current
    used := Function.update run.used index used
    executed := run.executed + 1 }, received)

/-- What is checked and recorded after the second CPI. It has spent what the first one delivered, and the
product in transit is back where it was before the path. -/
def recordSecond (ledger : Ledger) (index received : ℕ) (previous : Fin g.assetCount → ℕ)
    (second : Leg n g.assetCount) (run : EconomicRun natives g.assetCount) :
    Outcome (EconomicRun natives g.assetCount) := do
  need ((ledger (a.key wallet)).lamports = lamports) .conservation
  let current ← readEach fun i => balance ledger (tokenKey a g i)
  let spent ← checkedSub (run.current second.source) (current second.source) .conservation
  let delivered ← checkedSub (current second.destination) (run.current second.destination) .conservation
  need (spent = received ∧ 0 < delivered ∧ current second.source = previous second.source ∧
    current g.first = run.current g.first) .conservation
  need (∀ i, i ≠ g.first → i ≠ second.source → i ≠ second.destination → current i = run.current i)
    .conservation
  let used ← checkedSum (run.used index) spent .conservation
  .ok { run with
    current
    used := Function.update run.used index used
    executed := run.executed + 1 }

variable (maximum : ℕ)

/-- The second CPI of a path, if it has one. -/
def executeSecond (terminal : Fin g.assetCount) (leg : Leg n g.assetCount) (received : ℕ)
    (previous : Fin g.assetCount → ℕ) (run : EconomicRun natives g.assetCount) :
    Option ℕ → Step (EconomicRun natives g.assetCount)
  | none => pure run
  | some index => do
    let second ← lift (okOr g.legs[index]? .bounds)
    lift (need (second.source = leg.destination ∧ second.destination = terminal ∧
      run.executed < maximum) .bounds)
    invokeEconomicLeg a g clock venues wallet index received
    let s ← get
    lift (recordSecond a g wallet lamports s.ledger index received previous second run)

variable (converters : ℕ → Option Converter) (paths : List (EconomicPath g.assetCount))
  (before : Fin g.assetCount → ℕ)

/-- One round; `none` when the input is spent. -/
def economicRound (run : EconomicRun natives g.assetCount) :
    Step (Option (EconomicRun natives g.assetCount)) := do
  let remaining ← lift (remainingInput g before run.current)
  if remaining = 0 then pure none else
  let s ← get
  let remainingCpis ← lift (checkedSub maximum run.executed .bounds)
  let choice ← lift (selectEconomicPath s.ledger a g clock run.oracle run.used converters remainingCpis
    paths remaining)
  let path := choice.1.1
  let leg ← lift (okOr g.legs[path.first]? .bounds)
  let budget := min (min remaining leg.budget) choice.1.2
  lift (need (0 < budget) .adapter)
  invokeEconomicLeg a g clock venues wallet path.first budget
  let s ← get
  let next ← lift (recordFirst a g wallet lamports s.ledger path.first budget leg
    { run with oracle := choice.2 })
  let next ← executeSecond a g clock venues wallet lamports maximum path.terminal leg next.2 run.current
    next.1 path.second
  pure (some next)

/-- The loop over the rounds. -/
def runEconomic : ℕ → EconomicRun natives g.assetCount → Step (EconomicRun natives g.assetCount)
  | 0, run => pure run
  | rounds + 1, run => do
    let next ← economicRound a g clock venues wallet lamports maximum converters paths before run
    match next with
    | none => pure run
    | some run => runEconomic rounds run

/-- The exposure of a product's gain; an asset that is no product has none. -/
def gainOf (converter : Option Converter) (before current exposure : ℕ) : Outcome ℕ := do
  let raw ← checkedSub current before .conservation
  match converter with
  | none => do
    need (raw = 0 ∧ current = before) .conservation
    .ok exposure
  | some converter =>
    if raw = 0 then .ok exposure else do
      let gain ← converter.convert raw
      checkedSum exposure gain .bounds

/-- One asset of the last check. -/
def addExposure (ledger : Ledger) (current : Fin g.assetCount → ℕ) (exposure : ℕ)
    (i : Fin g.assetCount) : Outcome ℕ := do
  let exposure ← gainOf (converters i) (before i) (current i) exposure
  let after ← asset ledger a g (a.key wallet) i false
  need (after = current i) .identity
  .ok exposure

/-- The checks after the loop. -/
def finishEconomic (ledger : Ledger) (run : EconomicRun natives g.assetCount) :
    Outcome EconomicOutcome := do
  let actualIn ← checkedSub (before g.first) (run.current g.first) .conservation
  need (actualIn = g.input) .conservation
  let exposureQ32 ← (List.finRange g.assetCount).tail.foldlM
    (addExposure a g wallet converters before ledger run.current) 0
  need (g.minOut ≤ exposureQ32) .minOut
  .ok { sequence := g.sequence, actualIn, exposureQ32, executed := run.executed }

variable (natives) in
/-- `execute_preflighted_economic_reflow_for` on a decoded graph. -/
def executeEconomicGraph : Step EconomicOutcome := do
  lift (need (0 < g.reflowCalls ∧ 1 ≤ maximum ∧ maximum ≤ 4) .bounds)
  let paths ← lift (economicPaths g converters)
  let s ← get
  let before ← lift (readEach fun i => asset s.ledger a g (a.key wallet) i false)
  lift (need (g.input ≤ before g.first) .bounds)
  let oracle ← lift (Oracle.new natives s.ledger a g clock)
  let run ← runEconomic a g clock venues wallet (s.ledger (a.key wallet)).lamports maximum converters paths
    before maximum { oracle, current := before }
  let s ← get
  lift (finishEconomic a g wallet converters before s.ledger run)

end Execute

/-- `execute_preflighted_economic_reflow_for`. -/
def executeEconomicReflowFor (natives : Natives) {n : ℕ} (a : Accounts n) (clock : Clock)
    {program : ProgramId} (venues : Venues program) (d : Buffer) (wallet : Fin n)
    (converters : ℕ → Option Converter) (maximum : ℕ) : Step EconomicOutcome := do
  let g ← lift (ad (Graph.decode d n))
  executeEconomicGraph natives a g clock venues wallet maximum converters

end StockMesh.Settle

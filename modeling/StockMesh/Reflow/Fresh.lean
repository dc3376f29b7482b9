import StockMesh.Optimizer.TapeRefinement
import StockMesh.Reflow.Execute
import Mathlib.Logic.Relation

/-! # The executor without caches

`executeFresh` is `execute` with nothing carried from one turn to the next: every available venue is
compiled from the snapshot just read, and the tape is built for the venues of this turn. The caches of
`execute` are transparent when the two cannot be told apart from outside. `Covered` is the condition
for that: a turn that compiles nothing stays within the venues the tape was built for. -/

namespace StockMesh

open Budgeted Stateful Function

/-- A receipt without the counters of the work done. -/
def Receipt.uncounted (receipt : Receipt) : Receipt :=
  { receipt with
    workUnits := 0
    curvesCompiled := 0
    tapeBuilds := 0 }

/-- Most work one turn may charge. -/
def roundCost : ℕ :=
  maxEdges * (1 + maxSegments * maxSegments) + buildCost + searchCost allocateCost + 1

/-- Work that no execution exceeds. -/
def sufficientWork : ℕ := (maxLegs + 1) * roundCost

section Fresh

variable {σ : Type} (host : ExecutionHost σ) (pins : List EdgePin) (intent : Intent)
  (limits : Limits) (slot : ℕ)

/-- Read one pinned venue and compile it if it is available. -/
def readPinFresh (used : Mask) (usedResources : ℕ) (scan : PinScan) (i : Edge) :
    Exec σ PinScan := do
  work (charge 1)
  let s ← readSnapshot host i.val
  lift (rejectIf (Mismatched intent (pinAt pins i) s) .identity)
  if used.has i = true ∨ usedResources &&& s.writableResources ≠ 0 then
    pure scan
  else if Unavailable intent slot (pinAt pins i) s then
    pure scan
  else do
    let curve ← work (compile s intent.amountIn)
    pure
      { snapshots := update scan.snapshots i s
        curves := update scan.curves i curve
        curvesCompiled := scan.curvesCompiled + 1
        dirty := true
        eligible := scan.eligible ||| Mask.bit i }

/-- Read all pinned venues, compiling the available ones. -/
def readPinsFresh (st : Progress) : Exec σ PinScan :=
  (venues pins.length).foldlM (readPinFresh host pins intent slot st.used st.usedResources)
    { snapshots := st.snapshots
      curves := st.curves
      curvesCompiled := st.receipt.curvesCompiled
      dirty := true
      eligible := 0 }

/-- Read, compile, build the tape and plan. -/
def planTurnFresh (st : Progress) : Exec σ (Progress × PinScan × Allocation) := do
  let receipt ← lift (countRound limits st.receipt)
  let current ← readSlot host
  lift (rejectIf (current ≠ slot) .stale)
  let scan ← readPinsFresh host pins intent slot st
  lift (rejectIf (scan.eligible = 0) .capacity)
  let t ← work (ResidualTape.build (slice pins.length scan.curves) scan.eligible)
  let receipt :=
    { receipt with
      curvesCompiled := scan.curvesCompiled
      tapeBuilds := receipt.tapeBuilds + 1 }
  let report ← work (searchTape (slice pins.length scan.snapshots)
    (slice pins.length scan.curves) t st.remaining scan.eligible (legBudget limits receipt))
  let receipt := if receipt.legs = 0 then { receipt with initial := report } else receipt
  pure ({ st with receipt := receipt, tape := some t }, scan, report.plan)

/-- One turn of the loop. -/
def roundFresh (st : Progress) : Exec σ Progress := do
  let (st, scan, plan) ← planTurnFresh host pins intent limits slot st
  executeLeg host pins st scan plan

/-- The loop, with the bound on its turns that `rounds` has. -/
def roundsFresh : ℕ → Progress → Exec σ Progress
  | 0, _ => fail .overflow
  | k + 1, st => do
    let st ← roundFresh host pins intent limits slot st
    if st.remaining = 0 then pure st else roundsFresh k st

end Fresh

/-- `execute` with every curve and the tape made anew in every turn. -/
def executeFresh {σ : Type} (host : ExecutionHost σ) (pins : List EdgePin) (intent : Intent)
    (limits : Limits) : Exec σ Receipt := do
  let (slot, start, st) ← opening host pins intent limits
  let st ← roundsFresh host pins intent limits slot (maxLegs + 1) st
  finish intent start st

/-! ## Turns -/

section Turns

variable {σ : Type} (host : ExecutionHost σ)

/-- The host, asked for the snapshots of some venues one after the other, gives these answers. -/
inductive Answered (s : σ) : List (Edge × Snapshot) → σ → Prop
  | nil : Answered s [] s
  | snoc {reads : List (Edge × Snapshot)} {s' s'' : σ} {i : Edge} {a : Snapshot}
      (prev : Answered s reads s') (h : host.snapshot i.val s' = (.ok a, s'')) :
      Answered s (reads ++ [(i, a)]) s''

variable (pins : List EdgePin) (intent : Intent) (limits : Limits) (slot : ℕ)

/-- In host state `s` a turn finds the slot unchanged and reads these snapshots of the pins. -/
structure Surveyed (s : σ) (reads : List (Edge × Snapshot)) : Prop where
  slot_eq : (host.slot s).1 = slot
  answered : ∃ s', Answered host (host.slot s).2 reads s'
  venues_eq : reads.map Prod.fst = venues pins.length
  matched : ∀ p ∈ reads, ¬Mismatched intent (pinAt pins p.1) p.2

/-- A venue that neither was invoked nor shares a resource with one that was, and is available. -/
def Candidate (st : Progress) (i : Edge) (s : Snapshot) : Prop :=
  ¬(st.used.has i = true ∨ st.usedResources &&& s.writableResources ≠ 0) ∧
    ¬Unavailable intent slot (pinAt pins i) s

/-- The cache has no curve for this snapshot of the venue. -/
def Uncached (st : Progress) (i : Edge) (s : Snapshot) : Prop :=
  (st.curves i).len = 0 ∨ st.snapshots i ≠ s

/-- Some candidate has to be compiled, or the tape was built for every candidate. -/
def Covered (st : Progress) (reads : List (Edge × Snapshot)) : Prop :=
  (∃ p ∈ reads, Candidate pins intent slot st p.1 p.2 ∧ Uncached st p.1 p.2) ∨
    ∀ t, st.tape = some t → ∀ p ∈ reads, Candidate pins intent slot st p.1 p.2 →
      t.compiledMask.has p.1 = true

/-- One turn that leaves input to be sold. -/
def Turned (before after : Progress × World σ) : Prop :=
  round host pins intent limits slot before.1 before.2 = (.ok after.1, after.2) ∧
    after.1.remaining ≠ 0

/-- The states in which a turn of the execution from host state `s` starts. -/
def TurnStart (s : σ) (slot : ℕ) (st : Progress) (w : World σ) : Prop :=
  ∃ start st₀ w₀, opening host pins intent limits (World.start s) = (.ok (slot, start, st₀), w₀) ∧
    Relation.ReflTransGen (Turned host pins intent limits slot) (st₀, w₀) (st, w)

/-- A turn that reads these snapshots goes on to search the tape `t`. -/
structure Searches (st : Progress) (w : World σ) (reads : List (Edge × Snapshot)) (scan : PinScan)
    (t : ResidualTape) : Prop where
  surveyed : Surveyed host pins intent slot w.host reads
  reached : ∃ receipt w₁ w₂ w₃ builds, countRound limits st.receipt = .ok receipt ∧
    readSlot host w = (.ok slot, w₁) ∧ readPins host pins intent slot st w₁ = (.ok scan, w₂) ∧
    scan.eligible ≠ 0 ∧
    refreshTape pins scan st.tape receipt.tapeBuilds w₂ = (.ok (some t, builds), w₃)

end Turns

/-! ## Transparency -/

/-- The curve is what compiling the snapshot gives. -/
def CompiledFrom (intent : Intent) (s : Snapshot) (c : Curve) : Prop :=
  RunsTo (compile s intent.amountIn) (maxSegments * maxSegments) (.ok c)

/-- Two executions make the same calls and return the same, but for the counters of work. -/
structure SameRun {σ : Type} (r r' : Result Receipt × World σ) : Prop where
  result_eq : r.1.map Receipt.uncounted = r'.1.map Receipt.uncounted
  calls_eq : r.2.calls = r'.2.calls

/-- The caches of an execution cannot be told from outside: it behaves as the executor without them,
it searches only tapes that match, and every curve it searches was compiled from the snapshot read in
the same turn. -/
structure Transparent {σ : Type} (host : ExecutionHost σ) (pins : List EdgePin) (intent : Intent)
    (limits : Limits) (s : σ) : Prop where
  same : SameRun (execute host pins intent limits (World.start s))
    (executeFresh host pins intent limits (World.start s))
  searched : ∀ slot st w reads scan t, TurnStart host pins intent limits s slot st w →
    Searches host pins intent limits slot st w reads scan t →
    t.matchesCurves (slice pins.length scan.curves) scan.eligible = true ∧
      ∀ i, scan.eligible.has i = true → (i, scan.snapshots i) ∈ reads ∧
        CompiledFrom intent (scan.snapshots i) (scan.curves i)

end StockMesh

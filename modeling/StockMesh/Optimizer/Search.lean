import StockMesh.Compiler.Compile
import StockMesh.Optimizer.Tape

/-! # The cardinality-constrained search

`searchWith` enumerates the admissible subsets of the eligible venues, asks `query` for a conservative
allocation over each, keeps the four best distinct ones and evaluates these with the venues' own
models. `searchTape` answers the queries from a residual tape, `searchReference` by water filling.
`searchSpec` is the same search over results without a meter; `searchWith_runs` relates the two. -/

namespace StockMesh

open Budgeted Stateful

/-- Most allocations evaluated exactly (`MAX_FINALISTS`). -/
def maxFinalists : ℕ := 4

/-- Counters of one search. -/
structure SearchStats where
  masksConsidered : ℕ := 0
  feasibleAllocations : ℕ := 0
  exactSimulations : ℕ := 0
  deriving DecidableEq

/-- What the search proves about its plan. -/
structure Certificate where
  upperOutput : ℕ
  achievedOutput : ℕ
  gapAtoms : ℕ
  deriving DecidableEq

/-- The result of a search. -/
structure SearchReport where
  plan : Allocation
  certificate : Certificate
  stats : SearchStats
  deriving DecidableEq

/-- `&snapshots[i]`. -/
def snapshotAt (snapshots : List Snapshot) (i : Edge) : Snapshot := snapshots.getD i.val default

/-- One venue of `exact_output`. -/
def addExact (snapshots : List Snapshot) (inputs : Edge → ℕ) (out : ℕ) (i : Edge) : Result ℕ :=
  if inputs i = 0 then .ok out
  else do
    let quote ← (snapshotAt snapshots i).exactQuote (inputs i)
    checkedAdd out quote

/-- `exact_output`. -/
def exactOutput (snapshots : List Snapshot) (plan : Allocation) : Result ℕ :=
  (venues snapshots.length).foldlM (addExact snapshots plan.inputs) 0

/-- The loop of `independent`. -/
def independentLoop (snapshots : List Snapshot) (mask : Mask) : List Edge → ℕ → Bool
  | [], _ => true
  | i :: rest, resources =>
    if mask.has i = false then independentLoop snapshots mask rest resources
    else if resources &&& (snapshotAt snapshots i).writableResources ≠ 0 then false
    else independentLoop snapshots mask rest
      (resources ||| (snapshotAt snapshots i).writableResources)

/-- `independent`: no two selected venues write a common resource. -/
def independent (snapshots : List Snapshot) (mask : Mask) : Bool :=
  independentLoop snapshots mask (venues snapshots.length) 0

/-- The checks on one eligible snapshot; the state is the pair of mints seen so far. -/
def admitStep (snapshots : List Snapshot) (curves : List Curve) (eligible : Mask)
    (pair : Option (Key × Key)) (i : Edge) : Result (Option (Key × Key)) :=
  if eligible.has i = false then .ok pair
  else do
    let s := snapshotAt snapshots i
    rejectIf (s.inputMint = s.outputMint ∨ s.atomic = false ∨ s.enabled = false) .unsupported
    let current := (s.inputMint, s.outputMint)
    rejectIf (pair ≠ none ∧ pair ≠ some current) .identity
    rejectIf (s.capacity < (curveAt curves i).capacity) .capacity
    rejectIf (∃ j ∈ venues i.val, eligible.has j = true ∧
      ((snapshotAt snapshots j).market = s.market ∨
        (snapshotAt snapshots j).liquidityId = s.liquidityId)) .aliasedLiquidity
    .ok (some current)

/-- The admission loop. -/
def admitAll (snapshots : List Snapshot) (curves : List Curve) (eligible : Mask) :
    Result (Option (Key × Key)) :=
  (venues snapshots.length).foldlM (admitStep snapshots curves eligible) none

/-- The relaxed output plus every eligible envelope error. -/
def upperOutput (curves : List Curve) (eligible : Mask) (relaxed : ℕ) : Result ℕ :=
  (venues curves.length).foldlM (fun upper i =>
    if eligible.has i then checkedAdd upper (curveAt curves i).upperErrorAtoms else .ok upper)
    relaxed

/-- Insert into the shortlist: duplicates by inputs are dropped, the order is by descending output
with earlier entries first, and only the best four stay. -/
def shortlist (finalists : List Allocation) (p : Allocation) : List Allocation :=
  if finalists.any fun f => decide (f.inputs = p.inputs) then finalists
  else
    let pos := finalists.findIdx fun f => decide (f.output < p.output)
    if maxFinalists ≤ pos then finalists else (finalists.insertIdx pos p).take maxFinalists

/-- The shortlist and the counters. -/
structure Shortlist where
  finalists : List Allocation := []
  stats : SearchStats := {}

/-- The subset of the loop index, `m as u8`. -/
def maskOf (m : ℕ) : Mask := BitVec.ofNat 8 m

/-- The tests that skip a subset before it is counted. -/
def Skipped (eligible : Mask) (legLimit : ℕ) (mask : Mask) : Prop :=
  ¬mask.Within eligible ∨ legLimit < mask.countOnes

instance (eligible : Mask) (legLimit : ℕ) (mask : Mask) :
    Decidable (Skipped eligible legLimit mask) := inferInstanceAs (Decidable (_ ∨ _))

/-- The shortlist after counting a subset. -/
def Shortlist.count (sl : Shortlist) : Shortlist :=
  { sl with stats := { sl.stats with masksConsidered := sl.stats.masksConsidered + 1 } }

/-- The shortlist after a feasible allocation. -/
def Shortlist.add (sl : Shortlist) (p : Allocation) : Shortlist :=
  { finalists := shortlist sl.finalists p
    stats := { sl.stats with feasibleAllocations := sl.stats.feasibleAllocations + 1 } }

/-- What a query's outcome does to the shortlist: `Capacity` skips the subset, another error ends
the search. -/
def Shortlist.absorb (sl : Shortlist) : Result Allocation → Result Shortlist
  | .ok p => .ok (sl.count.add p)
  | .error .capacity => .ok sl.count
  | .error e => .error e

/-- One subset of the enumeration. -/
def considerMask (snapshots : List Snapshot) (eligible : Mask) (legLimit : ℕ)
    (query : Mask → Bool → Metered Allocation) (sl : Shortlist) (m : ℕ) : Metered Shortlist := do
  charge 1
  let mask := maskOf m
  if Skipped eligible legLimit mask then
    pure sl
  else if independent snapshots mask = false then
    pure sl.count
  else
    let outcome ← attempt (query mask true)
    lift (sl.absorb outcome)

/-- The better of the best plan so far and a candidate evaluated exactly. -/
def betterPlan (best : Allocation) (candidate : Allocation) (exact : ℕ) : Allocation :=
  if best.mask = 0 ∨ best.output < exact then { candidate with output := exact } else best

/-- One exact evaluation. -/
def evaluate (snapshots : List Snapshot) (best : Allocation) (candidate : Allocation) :
    Metered Allocation := do
  charge snapshots.length
  let exact ← lift (exactOutput snapshots candidate)
  pure (betterPlan best candidate exact)

/-- The report on the best plan. -/
def report (upper : ℕ) (sl : Shortlist) (best : Allocation) : SearchReport :=
  { plan := best
    certificate :=
      { upperOutput := upper, achievedOutput := best.output, gapAtoms := upper - best.output }
    stats := { sl.stats with exactSimulations := sl.finalists.length } }

/-- `search_with`. -/
def searchWith (snapshots : List Snapshot) (curves : List Curve) (amount : ℕ) (eligible : Mask)
    (legLimit : ℕ) (query : Mask → Bool → Metered Allocation) : Metered SearchReport := do
  lift (rejectIf (snapshots.length ≠ curves.length ∨ snapshots.length = 0 ∨
    maxEdges < snapshots.length ∨ legLimit = 0 ∨ maxLegs < legLimit) .bounds)
  lift (rejectIf (amount = 0 ∨ maxAtoms < amount) .invalidAmount)
  let _ ← lift (admitAll snapshots curves eligible)
  let relaxed ← query eligible false
  let upper ← lift (upperOutput curves eligible relaxed.output)
  let sl ← (List.range' 1 (2 ^ curves.length - 1)).foldlM
    (considerMask snapshots eligible legLimit query) {}
  lift (rejectIf (sl.finalists.length = 0) .capacity)
  let best ← sl.finalists.foldlM (evaluate snapshots) {}
  lift (rejectIf (upper < best.output) .invalidCurve)
  pure (report upper sl best)

/-- `search_tape`. -/
def searchTape (snapshots : List Snapshot) (curves : List Curve) (tape : ResidualTape)
    (amount : ℕ) (eligible : Mask) (legLimit : ℕ) : Metered SearchReport := do
  lift (rejectIf (tape.matchesCurves curves eligible = false) .identity)
  searchWith snapshots curves amount eligible legLimit fun mask lower =>
    if lower then tape.allocateLower amount mask curves else tape.allocate amount mask

/-- `search`. -/
def search (snapshots : List Snapshot) (curves : List Curve) (amount : ℕ) (eligible : Mask)
    (legLimit : ℕ) : Metered SearchReport := do
  let tape ← ResidualTape.build curves eligible
  searchTape snapshots curves tape amount eligible legLimit

/-- One venue of the conservative output of the reference query. -/
def addLower (curves : List Curve) (inputs : Edge → ℕ) (out : ℕ) (i : Edge) : Result ℕ :=
  if 0 < inputs i then do
    let quote ← (curveAt curves i).lowerQuote (inputs i)
    checkedAdd out quote
  else .ok out

/-- The query of `search_reference`. -/
def referenceQuery (curves : List Curve) (amount : ℕ) (mask : Mask) (lower : Bool) :
    Metered Allocation := do
  let p ← waterfill curves amount mask
  if lower then
    let output ← lift ((venues curves.length).foldlM (addLower curves p.inputs) 0)
    pure { p with output := output }
  else
    pure p

/-- `search_reference`. -/
def searchReference (snapshots : List Snapshot) (curves : List Curve) (amount : ℕ)
    (eligible : Mask) (legLimit : ℕ) : Metered SearchReport :=
  searchWith snapshots curves amount eligible legLimit (referenceQuery curves amount)

/-! ## The search without a meter -/

/-- One subset, on results. -/
def considerSpec (snapshots : List Snapshot) (eligible : Mask) (legLimit : ℕ)
    (q : Mask → Bool → Result Allocation) (sl : Shortlist) (m : ℕ) : Result Shortlist :=
  if Skipped eligible legLimit (maskOf m) then .ok sl
  else if independent snapshots (maskOf m) = false then .ok sl.count
  else sl.absorb (q (maskOf m) true)

/-- One exact evaluation, on results. -/
def evaluateSpec (snapshots : List Snapshot) (best : Allocation) (candidate : Allocation) :
    Result Allocation := do
  let exact ← exactOutput snapshots candidate
  .ok (betterPlan best candidate exact)

/-- The enumeration and the choice of the plan, on results. -/
def planSpec (snapshots : List Snapshot) (curves : List Curve) (eligible : Mask) (legLimit : ℕ)
    (q : Mask → Bool → Result Allocation) (upper : ℕ) : Result SearchReport := do
  let sl ← (List.range' 1 (2 ^ curves.length - 1)).foldlM
    (considerSpec snapshots eligible legLimit q) {}
  rejectIf (sl.finalists.length = 0) .capacity
  let best ← sl.finalists.foldlM (evaluateSpec snapshots) {}
  rejectIf (upper < best.output) .invalidCurve
  .ok (report upper sl best)

/-- The whole search, on results. -/
def searchSpec (snapshots : List Snapshot) (curves : List Curve) (amount : ℕ) (eligible : Mask)
    (legLimit : ℕ) (q : Mask → Bool → Result Allocation) : Result SearchReport := do
  rejectIf (snapshots.length ≠ curves.length ∨ snapshots.length = 0 ∨
    maxEdges < snapshots.length ∨ legLimit = 0 ∨ maxLegs < legLimit) .bounds
  rejectIf (amount = 0 ∨ maxAtoms < amount) .invalidAmount
  let _ ← admitAll snapshots curves eligible
  let relaxed ← q eligible false
  let upper ← upperOutput curves eligible relaxed.output
  planSpec snapshots curves eligible legLimit q upper

/-- A shortlist never grows past four. -/
theorem length_shortlist_le {finalists : List Allocation} (h : finalists.length ≤ maxFinalists)
    (p : Allocation) : (shortlist finalists p).length ≤ maxFinalists := by
  unfold shortlist
  split
  · exact h
  · dsimp only
    split
    · exact h
    · exact List.length_take_le _ _

/-- The subset of a loop index is one of the non-empty subsets. -/
theorem maskOf_ne_zero {n m : ℕ} (hn : n ≤ maxEdges) (hm : m ∈ List.range' 1 (2 ^ n - 1)) :
    maskOf m ≠ 0 ∧ (maskOf m).toNat = m := by
  rw [List.mem_range'_1] at hm
  have hpow : 2 ^ n ≤ 2 ^ 8 := Nat.pow_le_pow_right (by decide) hn
  have htoNat : (maskOf m).toNat = m := by
    rw [maskOf, BitVec.toNat_ofNat]
    exact Nat.mod_eq_of_lt (by omega)
  refine ⟨fun hzero => ?_, htoNat⟩
  rw [hzero] at htoNat
  have : (0 : Mask).toNat = 0 := rfl
  omega

/-- Work of one search when each query takes at most `k`. -/
def searchCost (k : ℕ) : ℕ := k + (1 + k) * 255 + maxEdges * maxFinalists

section Runs

variable {snapshots : List Snapshot} {curves : List Curve} {eligible : Mask} {legLimit k : ℕ}
  {query : Mask → Bool → Metered Allocation} {q : Mask → Bool → Result Allocation}

theorem considerMask_runs {m : ℕ}
    (hquery : ¬Skipped eligible legLimit (maskOf m) →
      RunsTo (query (maskOf m) true) k (q (maskOf m) true)) (sl : Shortlist) :
    RunsTo (considerMask snapshots eligible legLimit query sl m) (1 + k)
      (considerSpec snapshots eligible legLimit q sl m) := by
  unfold considerMask considerSpec
  refine runsTo_charge_bind (n := k) ?_ le_rfl
  dsimp only
  split
  · exact (Runs.pure sl).mono (Nat.zero_le _)
  · rename_i hskip
    split
    · exact (Runs.pure sl.count).mono (Nat.zero_le _)
    · exact (Runs.attempt_bind (l := 0) (f := fun outcome => lift (sl.absorb outcome))
        (hquery hskip) (Runs.lift _) rfl).mono le_rfl

theorem evaluate_runs (hlen : snapshots.length ≤ maxEdges) (best candidate : Allocation) :
    RunsTo (evaluate snapshots best candidate) maxEdges (evaluateSpec snapshots best candidate) := by
  unfold evaluate evaluateSpec
  refine runsTo_charge_bind (n := 0) ?_ (by omega)
  rcases exactOutput snapshots candidate with e | exact
  · exact Runs.fail e
  · exact Runs.pure _

/-- The enumeration keeps at most four finalists. -/
theorem considerSpec_length {ms : List ℕ} {sl sl' : Shortlist}
    (h : ms.foldlM (considerSpec snapshots eligible legLimit q) sl = .ok sl')
    (hsl : sl.finalists.length ≤ maxFinalists) : sl'.finalists.length ≤ maxFinalists := by
  refine foldlM_inv (P := fun sl => sl.finalists.length ≤ maxFinalists)
    (fun sl₀ m sl₁ h₀ hstep => ?_) hsl h
  unfold considerSpec at hstep
  split at hstep
  · cases hstep
    exact h₀
  · split at hstep
    · cases hstep
      exact h₀
    · unfold Shortlist.absorb at hstep
      split at hstep
      · cases hstep
        exact length_shortlist_le h₀ _
      · cases hstep
        exact h₀
      · cases hstep

/-- A metered search ends like the search over the results of its queries. -/
theorem searchWith_runs {amount : ℕ}
    (hrelaxed : 0 < amount → amount ≤ maxAtoms → RunsTo (query eligible false) k (q eligible false))
    (hquery : 0 < amount → amount ≤ maxAtoms → ∀ mask, mask ≠ 0 → mask.Within eligible →
      RunsTo (query mask true) k (q mask true)) :
    RunsTo (searchWith snapshots curves amount eligible legLimit query) (searchCost k)
      (searchSpec snapshots curves amount eligible legLimit q) := by
  unfold searchWith searchSpec
  by_cases hbounds : snapshots.length ≠ curves.length ∨ snapshots.length = 0 ∨
      maxEdges < snapshots.length ∨ legLimit = 0 ∨ maxLegs < legLimit
  · rw [rejectIf_of _ hbounds]
    exact (Runs.bind_error (Runs.lift _)).mono (Nat.zero_le _)
  rw [rejectIf_of_not _ hbounds, lift_ok, pure_bind, ok_bind]
  by_cases hamount : amount = 0 ∨ maxAtoms < amount
  · rw [rejectIf_of _ hamount]
    exact (Runs.bind_error (Runs.lift _)).mono (Nat.zero_le _)
  rw [rejectIf_of_not _ hamount, lift_ok, pure_bind, ok_bind]
  have hlen : snapshots.length ≤ maxEdges := by omega
  have hcurves : curves.length ≤ maxEdges := by omega
  refine ((Runs.lift (admitAll snapshots curves eligible)).bind_result (l := searchCost k)
    fun _ _ => ?_).mono (by omega)
  refine ((hrelaxed (by omega) (by omega)).bind_result (l := (1 + k) * 255 + maxEdges * maxFinalists)
    fun relaxed _ => ?_).mono (by unfold searchCost; omega)
  refine ((Runs.lift (upperOutput curves eligible relaxed.output)).bind_result
    (l := (1 + k) * 255 + maxEdges * maxFinalists) fun upper _ => ?_).mono (by omega)
  have hloop : RunsTo ((List.range' 1 (2 ^ curves.length - 1)).foldlM
      (considerMask snapshots eligible legLimit query) ({} : Shortlist))
      ((1 + k) * (List.range' 1 (2 ^ curves.length - 1)).length)
      ((List.range' 1 (2 ^ curves.length - 1)).foldlM
        (considerSpec snapshots eligible legLimit q) {}) := by
    refine Runs.foldlM (fun sl m hm => considerMask_runs (fun hskip => ?_) sl) _
    unfold Skipped at hskip
    rw [not_or, not_not] at hskip
    exact hquery (by omega) (by omega) (maskOf m) (maskOf_ne_zero hcurves hm).1 hskip.1
  unfold planSpec
  refine (hloop.bind_result (l := maxEdges * maxFinalists) fun sl hsl => ?_).mono ?_
  · have hcount := considerSpec_length hsl (Nat.zero_le _)
    refine ((Runs.lift _).bind_result (l := maxEdges * maxFinalists) fun _ _ => ?_).mono (by omega)
    have hbest : RunsTo (sl.finalists.foldlM (evaluate snapshots) ({} : Allocation))
        (maxEdges * sl.finalists.length) (sl.finalists.foldlM (evaluateSpec snapshots) {}) :=
      Runs.foldlM (fun best p _ => evaluate_runs hlen best p) _
    refine (hbest.bind_result (l := 0) fun best _ => ?_).mono
      (by rw [Nat.add_zero]; exact Nat.mul_le_mul_left _ hcount)
    exact ((Runs.lift _).bind_result (l := 0) fun _ _ => Runs.pure _).mono le_rfl
  · have hpow : 2 ^ curves.length ≤ 2 ^ 8 := Nat.pow_le_pow_right (by decide) hcurves
    rw [List.length_range']
    have : (1 + k) * (2 ^ curves.length - 1) ≤ (1 + k) * 255 := Nat.mul_le_mul_left _ (by omega)
    omega

end Runs

end StockMesh

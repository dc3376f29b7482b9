import StockMesh.Optimizer.OracleTrace

/-! # A search with an oracle that keeps a state

The oracle of a search may change a state with every answer, as a closure over a memo does. The search once
more, with that state. If in all states of an invariant the answers for the edges are those of a function,
and the answers keep the invariant, then the search has the result it has with the function
(`refineBoundedLegs_follows`). -/

namespace StockMesh.ExactOracle

open Stateful

/-- A search with the calls so far and the state of the oracle. -/
abbrev StateSearch (σ : Type) := Comp Error (ℕ × σ)

namespace Held

variable {σ : Type} (oracle : ℕ → ℕ → σ → Result (ℕ × ℕ) × σ) (limit : ℕ)

/-- `quote`. -/
def ask (edge amount : ℕ) : StateSearch σ (Result (ℕ × ℕ)) := do
  let s ← get
  if amount = 0 then pure (.ok (0, 0))
  else if s.1 = limit then pure (.error .workLimit)
  else do
    modify fun s => (s.1 + 1, (oracle edge amount s.2).2)
    pure (oracle edge amount s.2).1

/-- The loop over the edges of a mask. -/
def seed (mask : ℕ) : List ℕ → ExactPlan → ℕ → ℕ → StateSearch σ (Option ExactPlan)
  | [], candidate, _, _ => pure (some candidate)
  | i :: rest, candidate, left, remaining =>
    if mask.testBit i then do
      let input := left / remaining
      match ← ask oracle limit i input with
      | .ok (output, cost) => do
        let total ← lift (checkedAdd candidate.cost cost)
        let out ← lift (checkedAdd candidate.output output)
        seed mask rest { candidate with
          inputs := Function.update candidate.inputs i input
          outputs := Function.update candidate.outputs i output
          output := out
          costs := Function.update candidate.costs i cost
          cost := total } (left - input) (remaining - 1)
      | .error _ => pure none
    else seed mask rest candidate left remaining

/-- The loop over the masks. -/
def seeds (edges amount costLimit maxLegs : ℕ) : List ℕ → ExactPlan → StateSearch σ ExactPlan
  | [], best => pure best
  | mask :: rest, best =>
    let count := countOnes edges mask
    if maxLegs < count ∨ amount < count then seeds edges amount costLimit maxLegs rest best
    else do
      let candidate ← seed oracle limit mask (List.range edges) {} amount count
      let s ← get
      let best := better costLimit best candidate
      if s.1 = limit then pure best
      else seeds edges amount costLimit maxLegs rest best

/-- One exchange. -/
def exchange (costLimit : ℕ) (best next : ExactPlan) (source target take : ℕ) :
    StateSearch σ ExactPlan := do
  let a := best.inputs source - take
  let b ← lift (checkedAdd (best.inputs target) take)
  let qa ← ask oracle limit source a
  let qb ← ask oracle limit target b
  match qa, qb with
  | .ok (oa, ca), .ok (ob, cb) => do
    let cost ← lift (replaced best.cost (best.costs source) (best.costs target) ca cb)
    if costLimit < cost then pure next else do
    let output ← lift (replaced best.output (best.outputs source) (best.outputs target) oa ob)
    if next.output < output then
      pure { best with
        inputs := Function.update (Function.update best.inputs source a) target b
        outputs := Function.update (Function.update best.outputs source oa) target ob
        costs := Function.update (Function.update best.costs source ca) target cb
        cost := cost
        output := output
        exchanges := best.exchanges + 1 }
    else pure next
  | _, _ => pure next

/-- One scan over the pairs. -/
def sweep (costLimit maxLegs step : ℕ) (best : ExactPlan) :
    List (ℕ × ℕ) → ExactPlan → StateSearch σ (Option ExactPlan)
  | [], next => pure (some next)
  | (source, target) :: rest, next => do
    let s ← get
    let take := min (best.inputs source) step
    if best.inputs source = 0 ∨ source = target ∨
        (best.inputs target = 0 ∧ take < best.inputs source ∧ best.active = maxLegs) then
      sweep costLimit maxLegs step best rest next
    else if limit < min (s.1 + 2) (u32Size - 1) then pure none
    else do
      let next ← exchange oracle limit costLimit best next source target take
      sweep costLimit maxLegs step best rest next

/-- The scans at one step. -/
def refineStep (edges costLimit maxLegs step : ℕ) : ℕ → ExactPlan → StateSearch σ (ExactPlan × Bool)
  | 0, best => pure (best, true)
  | fuel + 1, best => do
    match ← sweep oracle limit costLimit maxLegs step best (pairs edges) best with
    | none => pure (best, false)
    | some next =>
      if next.output = best.output then pure (best, true)
      else refineStep edges costLimit maxLegs step fuel next

/-- The loop over halving steps. -/
def refineSteps (edges costLimit maxLegs : ℕ) : ℕ → ℕ → ExactPlan → StateSearch σ ExactPlan
  | 0, _, best => pure best
  | fuel + 1, step, best => do
    let (best, more) ← refineStep oracle limit edges costLimit maxLegs step 32
      { best with finalStep := step }
    if !more then pure best
    else if step = 1 then pure { best with finalStep := 0 }
    else refineSteps edges costLimit maxLegs fuel (step / 2) best

/-- `refine_bounded_legs`. -/
def refineBoundedLegs (edges amount limit costLimit maxLegs : ℕ)
    (oracle : ℕ → ℕ → σ → Result (ℕ × ℕ) × σ) : StateSearch σ ExactPlan := do
  lift (rejectIf (edges = 0 ∨ maxEdges < edges ∨ amount = 0 ∨ maxAtoms < amount) .bounds)
  lift (rejectIf (maxLegs = 0 ∨ StockMesh.maxLegs < maxLegs) .bounds)
  let best ← seeds oracle limit edges amount costLimit maxLegs (List.range' 1 (2 ^ edges - 1)) {}
  let s ← get
  lift (rejectIf (best.output = 0) (if s.1 = limit then .workLimit else .capacity))
  let step := max (amount / 2) 1
  let best ← refineSteps oracle limit edges costLimit maxLegs step step best
  let s ← get
  pure { best with oracleCalls := s.1, exhausted := decide (best.finalStep ≠ 0) }

/-- `refine`: no costs. What a search leaves behind is the state of the oracle. -/
def refine (edges amount limit : ℕ) (oracle : ℕ → ℕ → σ → Result ℕ × σ) (s : σ) :
    Result ExactPlan × σ :=
  let free := fun i q s => ((oracle i q s).1.map fun out => (out, 0), (oracle i q s).2)
  let (plan, after) := refineBoundedLegs edges amount limit (u64Size - 1) StockMesh.maxLegs free (0, s)
  (plan, after.2)

end Held

/-! ## The state changes nothing -/

section Following

variable {σ α β : Type} {I : σ → Prop}

/-- From a number of calls and a state of the invariant, a search with a state has the result of a plain
one, which counts the calls itself, and leaves a state of the invariant. -/
def Follows (I : σ → Prop) (x : StateSearch σ α) (calls : ℕ) (r : Result (α × ℕ)) : Prop :=
  ∀ s, I s → ∃ calls' s', I s' ∧ x (calls, s) = (r.map Prod.fst, (calls', s')) ∧
    ∀ p, r = .ok p → p.2 = calls'

namespace Follows

variable {x : StateSearch σ α} {calls : ℕ} {r : Result (α × ℕ)}

theorem pure (a : α) : Follows I (pure a) calls (.ok (a, calls)) :=
  fun s hs => ⟨calls, s, hs, rfl, fun _ h => by cases h; rfl⟩

theorem bind {f : α → StateSearch σ β} {g : α × ℕ → Result (β × ℕ)} (hx : Follows I x calls r)
    (hf : ∀ a calls', Follows I (f a) calls' (g (a, calls'))) : Follows I (x >>= f) calls (r >>= g) := by
  intro s hs
  obtain ⟨calls', s', hs', hrun, hcalls⟩ := hx s hs
  rcases r with e | ⟨a, c⟩
  · exact ⟨calls', s', hs', Comp.bind_apply_error hrun, fun p h => by cases h⟩
  · obtain rfl : c = calls' := hcalls _ rfl
    obtain ⟨calls'', s'', hs'', hrun', hcalls'⟩ := hf a c s' hs'
    exact ⟨calls'', s'', hs'', (Comp.bind_apply_ok hrun).trans hrun', hcalls'⟩

/-- A plain search may have its result in another form. -/
theorem bind_of_map {γ : Type} {r : Result γ} {k : γ → α × ℕ} {f : α → StateSearch σ β}
    {g : γ → Result (β × ℕ)} (hx : Follows I x calls (r.map k))
    (hf : ∀ c, Follows I (f (k c).1) (k c).2 (g c)) : Follows I (x >>= f) calls (r >>= g) := by
  cases r with
  | error e =>
    intro s hs
    obtain ⟨calls', s', hs', hrun, -⟩ := hx s hs
    exact ⟨calls', s', hs', Comp.bind_apply_error hrun, fun p h => by cases h⟩
  | ok c =>
    intro s hs
    obtain ⟨calls', s', hs', hrun, hcalls⟩ := hx s hs
    obtain ⟨calls'', s'', hs'', hrun', hcalls'⟩ := hf c s' hs'
    rw [hcalls _ rfl] at hrun'
    exact ⟨calls'', s'', hs'', (Comp.bind_apply_ok hrun).trans hrun', hcalls'⟩

/-- What does not ask does not count. -/
theorem lift_bind {r : Result α} {f : α → StateSearch σ β} {g : α → Result (β × ℕ)}
    (hf : ∀ a, r = .ok a → Follows I (f a) calls (g a)) : Follows I (lift r >>= f) calls (r >>= g) := by
  cases r with
  | error e => exact fun s hs => ⟨calls, s, hs, rfl, fun p h => by cases h⟩
  | ok a => exact hf a rfl

/-- Reading the number of calls. -/
theorem get_bind {f : ℕ × σ → StateSearch σ β} {r : Result (β × ℕ)}
    (hf : ∀ s, I s → Follows I (f (calls, s)) calls r) : Follows I (get >>= f) calls r :=
  fun s hs => hf s hs s hs

end Follows

variable {oracle : ℕ → ℕ → σ → Result (ℕ × ℕ) × σ} {answer : ℕ → ℕ → Result (ℕ × ℕ)}
  {limit edges costLimit legs : ℕ}

/-- In all states of the invariant the oracle answers for the edges as a function does, and keeps the
invariant. -/
def AnswersAs {γ : Type} (I : σ → Prop) (edges : ℕ) (oracle : ℕ → ℕ → σ → γ × σ) (answer : ℕ → ℕ → γ) :
    Prop :=
  ∀ edge < edges, ∀ amount s, I s →
    (oracle edge amount s).1 = answer edge amount ∧ I (oracle edge amount s).2

/-- A question of the search with a state is that of the plain one. -/
theorem ask_follows (h : AnswersAs I edges oracle answer) {edge : ℕ} (hedge : edge < edges)
    (amount calls : ℕ) :
    Follows I (Held.ask oracle limit edge amount) calls (.ok (ask answer limit calls edge amount)) := by
  refine Follows.get_bind fun s hs => ?_
  unfold ask
  split
  · exact Follows.pure _
  split
  · exact Follows.pure _
  · intro s' hs'
    refine ⟨calls + 1, _, (h edge hedge amount s' hs').2, ?_, fun p hp => by cases hp; rfl⟩
    rw [← (h edge hedge amount s hs).1]
    rfl

/-- A search that begins with a question goes on with the answer of the function. -/
theorem ask_bind (h : AnswersAs I edges oracle answer) {edge amount calls : ℕ} (hedge : edge < edges)
    {f : Result (ℕ × ℕ) → StateSearch σ β} {r : Result (β × ℕ)}
    (hf : ∀ q calls', ask answer limit calls edge amount = (q, calls') → Follows I (f q) calls' r) :
    Follows I (Held.ask oracle limit edge amount >>= f) calls r := by
  intro s hs
  obtain ⟨calls', s', hs', hrun, hcalls⟩ := @ask_follows _ _ _ _ limit edges h edge hedge amount calls s hs
  obtain ⟨calls'', s'', hs'', hrun', hcalls'⟩ := hf _ calls' (Prod.ext rfl (hcalls _ rfl)) s' hs'
  exact ⟨calls'', s'', hs'', (Comp.bind_apply_ok hrun).trans hrun', hcalls'⟩

theorem seed_follows (h : AnswersAs I edges oracle answer) {mask : ℕ} {rest : List ℕ}
    (hrest : ∀ i ∈ rest, i < edges) (candidate : ExactPlan) (left remaining calls : ℕ) :
    Follows I (Held.seed oracle limit mask rest candidate left remaining) calls
      (seed answer limit mask rest candidate left remaining calls) := by
  induction rest generalizing candidate left remaining calls with
  | nil => exact Follows.pure _
  | cons i rest ih =>
    obtain ⟨hi, hrest⟩ := List.forall_mem_cons.mp hrest
    by_cases hbit : mask.testBit i
    · rw [Held.seed, if_pos hbit, seed, if_pos hbit]
      refine ask_bind h hi fun q calls' hask => ?_
      rcases q with e | ⟨output, cost⟩
      · simp only [hask]
        exact Follows.pure _
      · simp only [hask]
        refine Follows.lift_bind fun total _ => Follows.lift_bind fun out _ => ?_
        exact ih hrest _ _ _ calls'
    · rw [Held.seed, if_neg hbit, seed, if_neg hbit]
      exact ih hrest candidate left remaining calls

theorem seeds_follows (h : AnswersAs I edges oracle answer) {amount : ℕ} {masks : List ℕ} (best : ExactPlan)
    (calls : ℕ) :
    Follows I (Held.seeds oracle limit edges amount costLimit legs masks best) calls
      (seeds answer limit edges amount costLimit legs masks best calls) := by
  induction masks generalizing best calls with
  | nil => exact Follows.pure _
  | cons mask masks ih =>
    rw [Held.seeds, seeds]
    dsimp only
    split
    · exact ih best calls
    · refine (seed_follows h (fun i => List.mem_range.mp) {} amount (countOnes edges mask) calls).bind
        fun candidate calls' => ?_
      refine Follows.get_bind fun s hs => ?_
      dsimp only
      split
      · exact Follows.pure _
      · exact ih _ calls'

theorem exchange_follows (h : AnswersAs I edges oracle answer) {source target take : ℕ} (hs : source < edges)
    (ht : target < edges) (best next : ExactPlan) (calls : ℕ) :
    Follows I (Held.exchange oracle limit costLimit best next source target take) calls
      (exchange answer limit costLimit best next source target take calls) := by
  rw [Held.exchange, exchange]
  refine Follows.lift_bind fun b _ => ask_bind h hs fun qa calls₁ hqa =>
    ask_bind h ht fun qb calls₂ hqb => ?_
  simp only [hqa, hqb]
  rcases qa with ea | ⟨oa, ca⟩
  · exact Follows.pure _
  rcases qb with eb | ⟨ob, cb⟩
  · exact Follows.pure _
  dsimp only
  rw [← replaced_bind]
  refine Follows.lift_bind fun cost _ => ?_
  split
  · exact Follows.pure _
  rw [← replaced_bind]
  refine Follows.lift_bind fun output _ => ?_
  split
  · exact Follows.pure _
  · exact Follows.pure _

theorem sweep_follows (h : AnswersAs I edges oracle answer) {step : ℕ} {best : ExactPlan}
    {todo : List (ℕ × ℕ)} (htodo : ∀ p ∈ todo, p.1 < edges ∧ p.2 < edges) (next : ExactPlan) (calls : ℕ) :
    Follows I (Held.sweep oracle limit costLimit legs step best todo next) calls
      (sweep answer limit costLimit legs step best todo next calls) := by
  induction todo generalizing next calls with
  | nil => exact Follows.pure _
  | cons p todo ih =>
    obtain ⟨source, target⟩ := p
    obtain ⟨⟨hs, ht⟩, htodo⟩ := List.forall_mem_cons.mp htodo
    rw [Held.sweep, sweep]
    refine Follows.get_bind fun s _ => ?_
    dsimp only
    split
    · exact ih htodo next calls
    split
    · exact Follows.pure _
    · exact (exchange_follows h hs ht best next calls).bind fun next' calls' => ih htodo next' calls'

theorem refineStep_follows (h : AnswersAs I edges oracle answer) {step fuel : ℕ} (best : ExactPlan)
    (calls : ℕ) :
    Follows I (Held.refineStep oracle limit edges costLimit legs step fuel best) calls
      ((refineStep answer limit edges costLimit legs step fuel best calls).map
        fun r => ((r.1, r.2.2), r.2.1)) := by
  induction fuel generalizing best calls with
  | zero => exact Follows.pure _
  | succ fuel ih =>
    rw [Held.refineStep, refineStep]
    change Follows I _ calls ((fun r : ExactPlan × ℕ × Bool => ((r.1, r.2.2), r.2.1)) <$> _)
    rw [map_bind]
    refine (sweep_follows h (fun _ => mem_pairs) best calls).bind fun found calls' => ?_
    cases found with
    | none => exact Follows.pure _
    | some next =>
      dsimp only
      split
      · exact Follows.pure _
      · exact ih next calls'

theorem refineSteps_follows (h : AnswersAs I edges oracle answer) {step fuel : ℕ} (best : ExactPlan)
    (calls : ℕ) :
    Follows I (Held.refineSteps oracle limit edges costLimit legs fuel step best) calls
      (refineSteps answer limit edges costLimit legs fuel step best calls) := by
  induction fuel generalizing step best calls with
  | zero => exact Follows.pure _
  | succ fuel ih =>
    rw [Held.refineSteps, refineSteps]
    have hstep := @refineStep_follows _ _ _ _ limit edges costLimit legs h step 32
      { best with finalStep := step } calls
    refine hstep.bind_of_map fun found => ?_
    obtain ⟨best', calls', more⟩ := found
    dsimp only
    split
    · exact Follows.pure _
    split
    · exact Follows.pure _
    · exact ih best' calls'

/-- If the oracle answers as a function does, the search with its state has the result of the search with
the function. -/
theorem refineBoundedLegs_follows (h : AnswersAs I edges oracle answer) {amount : ℕ} :
    Follows I (Held.refineBoundedLegs edges amount limit costLimit legs oracle) 0
      ((refineBoundedLegs edges amount limit costLimit legs answer).map
        fun plan => (plan, plan.oracleCalls)) := by
  rw [Held.refineBoundedLegs, refineBoundedLegs]
  change Follows I _ 0 ((fun plan : ExactPlan => (plan, plan.oracleCalls)) <$> _)
  simp only [map_bind]
  refine Follows.lift_bind fun _ _ => Follows.lift_bind fun _ _ => ?_
  refine (seeds_follows h {} 0).bind fun best calls => Follows.get_bind fun s _ => ?_
  refine Follows.lift_bind fun _ _ => ?_
  refine (refineSteps_follows h best calls).bind fun best' calls' => Follows.get_bind fun s' _ => ?_
  exact Follows.pure _

/-- The same for the search without costs. -/
theorem refine_follows {oracle : ℕ → ℕ → σ → Result ℕ × σ} {answer : ℕ → ℕ → Result ℕ}
    (h : AnswersAs I edges oracle answer) {amount : ℕ} {s : σ} (hs : I s) :
    (Held.refine edges amount limit oracle s).1 = refine edges amount limit answer ∧
      I (Held.refine edges amount limit oracle s).2 := by
  have hfree : AnswersAs I edges
      (fun i q s => ((oracle i q s).1.map fun out => (out, 0), (oracle i q s).2))
      (fun i q => (answer i q).map fun out => (out, 0)) := by
    intro edge hedge amount s hs
    obtain ⟨hanswer, hnext⟩ := h edge hedge amount s hs
    exact ⟨congrArg (Except.map fun out => (out, 0)) hanswer, hnext⟩
  obtain ⟨calls, s', hs', hrun, -⟩ :=
    @refineBoundedLegs_follows _ _ _ _ limit edges (u64Size - 1) StockMesh.maxLegs hfree amount s hs
  have hplan : ∀ r : Result ExactPlan,
      (r.map fun plan => (plan, plan.oracleCalls)).map Prod.fst = r := by
    intro r
    cases r <;> rfl
  rw [hplan] at hrun
  rw [Held.refine]
  dsimp only
  rw [hrun]
  exact ⟨rfl, hs'⟩

/-- More edges than the search takes are refused before the oracle is asked. -/
theorem refine_of_crowded (h : maxEdges < edges) (oracle : ℕ → ℕ → σ → Result ℕ × σ)
    (answer : ℕ → ℕ → Result ℕ) (amount limit : ℕ) (s : σ) :
    Held.refine edges amount limit oracle s = (.error .bounds, s) ∧
      refine edges amount limit answer = .error .bounds := by
  have hbounds : rejectIf (edges = 0 ∨ maxEdges < edges ∨ amount = 0 ∨ maxAtoms < amount) .bounds =
      .error .bounds := if_pos (.inr (.inl h))
  constructor
  · simp only [Held.refine, Held.refineBoundedLegs, hbounds]
    rfl
  · simp only [refine, refineBounded, refineBoundedLegs, hbounds]
    rfl

end Following

end StockMesh.ExactOracle

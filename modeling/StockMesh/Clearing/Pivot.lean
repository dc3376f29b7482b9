import StockMesh.Clearing.Cycle

/-! # The pivot loop

A pivot pushes the smallest room around the cycle: it never fails on a cycle that
`improvingCycle` returns, keeps the flows a circulation within the capacities and raises their total
(`pivot_of_positiveCycle`). By induction over the pivots `circulate` ends with a circulation whose
flag says whether it can still be improved (`circulate_runs`). -/

namespace StockMesh

open Budgeted Stateful BellmanFord

variable {orders : List FlowIntent} {capacities flows : ℕ → ℕ}

/-- The flows are an integer circulation within the capacities. -/
structure Circulates (orders : List FlowIntent) (capacities flows : ℕ → ℕ) : Prop where
  le : ∀ i < orders.length, flows i ≤ capacities i
  balanced : Circulation.Balanced (indices orders) (sellOf orders) (buyOf orders) flows

/-- The total flow. -/
def totalFlow (orders : List FlowIntent) (flows : ℕ → ℕ) : ℕ := ∑ i ∈ indices orders, flows i

/-- A certificate bounds every circulation. -/
theorem Certifies.totalFlow_le {p : ℕ → ℤ} (h : Certifies orders capacities flows p) {g : ℕ → ℕ}
    (hf : Circulates orders capacities flows) (hg : Circulates orders capacities g) :
    totalFlow orders g ≤ totalFlow orders flows :=
  h.sum_le hf.balanced hg.balanced fun i hi => hg.le i (Finset.mem_range.mp hi)

/-! ## One pivot -/

theorem arcKey_injective : Function.Injective arcKey := by
  intro i j h
  simp only [arcKey, Prod.mk.injEq, decide_eq_decide] at h
  omega

variable (orders) in
/-- What the first loop of a pivot adds up. -/
theorem addArc_fold (hle : ∀ i, flows i ≤ capacities i) (js : List ℕ) (c : CycleSums)
    (hroom : ∀ j ∈ js, HasRoom capacities flows j) (hc : 0 < c.delta) :
    ∃ c', js.foldlM (addArc orders capacities flows) c = .ok c' ∧
      c'.cost = c.cost + cost (arcEdge orders) js ∧ 0 < c'.delta ∧ c'.delta ≤ c.delta ∧
      ∀ j ∈ js, c'.delta ≤ Circulation.room capacities flows (arcKey j) := by
  induction js generalizing c with
  | nil => exact ⟨c, rfl, by simp, hc, Nat.le_refl _, by simp⟩
  | cons j js ih =>
    have hj : 0 < Circulation.room capacities flows (arcKey j) := hroom j List.mem_cons_self
    obtain ⟨c', hfold, hcost, hpos, hdelta, hrooms⟩ := ih
      { delta := min c.delta (Circulation.room capacities flows (arcKey j))
        cost := c.cost + (arcEdge orders j).cost
        reverse := c.reverse || (arcKey j).2 }
      (fun i hi => hroom i (List.mem_cons_of_mem j hi)) (lt_min hc hj)
    refine ⟨c', ?_, ?_, hpos, le_trans hdelta (min_le_left _ _), ?_⟩
    · rw [List.foldlM_cons, addArc, arc_eq hle, ok_bind, ok_bind]
      exact hfold
    · rw [hcost, cost_cons]
      ring
    · rintro i hi
      rcases List.mem_cons.mp hi with rfl | hi
      · exact le_trans hdelta (min_le_right _ _)
      · exact hrooms i hi

/-- One arc of the second loop of a pivot is a push. -/
theorem pushArc_eq {δ : ℕ} (hle : ∀ i, flows i ≤ capacities i) (hcap : ∀ i, capacities i < u128Size)
    {j : ℕ} (hδ : δ ≤ Circulation.room capacities flows (arcKey j)) :
    pushArc orders capacities δ flows j = .ok (Circulation.push δ flows (arcKey j)) := by
  rw [pushArc, arc_eq hle, ok_bind]
  rcases hk : arcKey j with ⟨i, _ | _⟩
  · rw [hk] at hδ
    have hδ' : δ ≤ capacities i - flows i := hδ
    have := hle i
    have := hcap i
    simp only [Bool.false_eq_true, if_false, Circulation.push]
    rw [addU128_of_lt (by omega), ok_bind]
  · rw [hk] at hδ
    simp only [if_true, Circulation.push]
    rw [subUint_of_le (show δ ≤ flows i from hδ), ok_bind]

/-- The second loop of a pivot pushes along every arc of the cycle. -/
theorem pushArc_fold {δ : ℕ} (hcap : ∀ i, capacities i < u128Size) {js : List ℕ}
    (hnodup : js.Nodup) (hle : ∀ i, flows i ≤ capacities i)
    (hroom : ∀ j ∈ js, δ ≤ Circulation.room capacities flows (arcKey j)) :
    js.foldlM (pushArc orders capacities δ) flows =
      .ok ((js.map arcKey).foldl (Circulation.push δ) flows) := by
  induction js generalizing flows with
  | nil => rfl
  | cons j js ih =>
    obtain ⟨hnew, hnodup⟩ := List.nodup_cons.mp hnodup
    have hj := hroom j List.mem_cons_self
    rw [List.foldlM_cons, pushArc_eq hle hcap hj, ok_bind, List.map_cons, List.foldl_cons]
    refine ih hnodup (fun i => Circulation.push_le (hle _) hj (hle i)) fun i hi => ?_
    exact Circulation.le_room_push (hroom i (List.mem_cons_of_mem j hi))
      fun h => hnew (arcKey_injective h ▸ hi)

/-- A pivot on a positive cycle succeeds, keeps a circulation and raises its total. -/
theorem pivot_of_positiveCycle {p : Pivots} (hle : ∀ i, p.flows i ≤ capacities i)
    (hcap : ∀ i, capacities i < u128Size) (hp : Circulates orders capacities p.flows) {js : List ℕ}
    (hjs : PositiveCycle orders capacities p.flows js) :
    ∃ p', pivot orders capacities p js = .ok p' ∧ (∀ i, p'.flows i ≤ capacities i) ∧
      Circulates orders capacities p'.flows ∧
      totalFlow orders p.flows < totalFlow orders p'.flows ∧ p'.optimal = p.optimal := by
  have hconst := constants
  obtain ⟨c, hfold, hcost, hpos, -, hrooms⟩ := addArc_fold orders hle js {} hjs.room
    (show 0 < u128Size - 1 by omega)
  have hcost' : c.cost = cost (arcEdge orders) js := by simpa using hcost
  have hcostpos : 0 < c.cost := hcost' ▸ hjs.cost_pos
  have hpush : ∀ a ∈ js.map arcKey, a.1 ∈ indices orders ∧
      c.delta ≤ Circulation.room capacities p.flows a := by
    intro a ha
    obtain ⟨j, hj, rfl⟩ := List.mem_map.mp ha
    exact ⟨Finset.mem_range.mpr (mem_arcIndices.mp (hjs.mem j hj)), hrooms j hj⟩
  obtain ⟨hle', hbal', hsum⟩ := Circulation.push_cycle
    (SimpleCycle.map (Circulation.residual (sellOf orders) (buyOf orders)) arcKey hjs.cycle) hpush hle
    hp.balanced
  refine ⟨{ p with
    flows := (js.map arcKey).foldl (Circulation.push c.delta) p.flows
    pivots := p.pivots + 1
    reverseEdgePivots := p.reverseEdgePivots + if c.reverse then 1 else 0 },
    ?_, hle', ⟨fun i _ => hle' i, hbal'⟩, ?_, rfl⟩
  · rw [pivot, hfold, ok_bind, rejectIf_of_not _ (by omega), ok_bind,
      pushArc_fold hcap hjs.cycle.nodup hle hrooms, ok_bind]
  · -- `δ` and the cost of the cycle are positive
    have hgain : 0 < (c.delta : ℤ) * c.cost := mul_pos (by exact_mod_cast hpos) hcostpos
    rw [cost_map, show (fun j => Circulation.residual (sellOf orders) (buyOf orders) (arcKey j)) =
      arcEdge orders from rfl, ← hcost'] at hsum
    unfold totalFlow
    zify
    rw [hsum]
    omega

/-! ## The loop -/

/-- Flows that the pivot loop may hold: within the capacities and balanced, and certified if the
flag says so. -/
structure Pivoted (orders : List FlowIntent) (capacities : ℕ → ℕ) (p : Pivots) : Prop where
  le : ∀ i, p.flows i ≤ capacities i
  circulates : Circulates orders capacities p.flows
  optimal : p.optimal = true → ∃ w, Certifies orders capacities p.flows w

/-- Before the first pivot nothing flows. -/
theorem Pivoted.start : Pivoted orders capacities {} where
  le _ := Nat.zero_le _
  circulates := ⟨fun _ _ => Nat.zero_le _, Circulation.balanced_zero⟩
  optimal h := by cases h

/-- The pivots keep the flows a circulation. -/
theorem pivotLoop_runs {assets : ℕ} (h : Tradable orders assets) (hassets : 0 < assets)
    (hcap : ∀ i, capacities i < u128Size) (n : ℕ) {p : Pivots} (hp : Pivoted orders capacities p) :
    ∃ p', RunsTo (pivotLoop orders capacities assets n p) (n * cycleCost orders assets) (.ok p') ∧
      Pivoted orders capacities p' := by
  induction n generalizing p with
  | zero => exact ⟨p, (Runs.pure p).mono (Nat.zero_le _), hp⟩
  | succ n ih =>
    obtain ⟨r, hruns, hr⟩ := improvingCycle_runs h hassets hp.le
    rw [pivotLoop, show (n + 1) * cycleCost orders assets =
      cycleCost orders assets + n * cycleCost orders assets by ring]
    rcases r with - | js
    · refine ⟨{ p with optimal := true }, ?_, ⟨hp.le, hp.circulates, fun _ => hr⟩⟩
      exact hruns.bind ((Runs.pure _).mono (Nat.zero_le _))
    · obtain ⟨p₁, hpivot, hle, hcirc, -, hflag⟩ := pivot_of_positiveCycle hp.le hcap hp.circulates hr
      have hopt : p.optimal = true → False := fun hopt => by
        obtain ⟨w, hw⟩ := hp.optimal hopt
        exact hw.not_walk hr.walk
      obtain ⟨p', hrest, hp'⟩ := ih (p := p₁)
        ⟨hle, hcirc, fun hopt' => absurd (hflag ▸ hopt') hopt⟩
      refine ⟨p', hruns.bind ?_, hp'⟩
      simp only [hpivot, lift_ok, pure_bind]
      exact hrest

/-- What the optimality flag says: no circulation within the capacities carries more, or one does. -/
structure Flagged (orders : List FlowIntent) (capacities flows : ℕ → ℕ) (optimal : Bool) :
    Prop where
  maximum : optimal = true → ∀ g, Circulates orders capacities g →
    totalFlow orders g ≤ totalFlow orders flows
  improvable : optimal = false → ∃ g, Circulates orders capacities g ∧
    totalFlow orders flows < totalFlow orders g

/-- The pivot loop and the last search end with a circulation and a flag that is right about it. -/
theorem circulate_runs {assets : ℕ} (h : Tradable orders assets) (hassets : 0 < assets)
    (hcap : ∀ i, capacities i < u128Size) (bound : ℕ) :
    ∃ p, RunsTo (circulate orders capacities assets bound)
        ((bound + 1) * cycleCost orders assets) (.ok p) ∧
      Circulates orders capacities p.flows ∧ Flagged orders capacities p.flows p.optimal := by
  obtain ⟨p, hloop, hp⟩ := pivotLoop_runs h hassets hcap bound Pivoted.start
  rw [Nat.succ_mul]
  by_cases hopt : p.optimal = true
  · obtain ⟨w, hw⟩ := hp.optimal hopt
    refine ⟨p, hloop.bind ?_, hp.circulates, fun _ g hg => hw.totalFlow_le hp.circulates hg,
      fun hf => absurd (hopt.symm.trans hf) (by decide)⟩
    rw [if_pos hopt]
    exact (Runs.pure p).mono (Nat.zero_le _)
  · obtain ⟨r, hruns, hr⟩ := improvingCycle_runs h hassets hp.le
    refine ⟨{ p with optimal := r.isNone }, hloop.bind ?_, hp.circulates, ?_⟩
    · rw [if_neg hopt]
      exact hruns.bind_pure fun r => { p with optimal := r.isNone }
    · rcases r with - | js
      · obtain ⟨w, hw⟩ := hr
        exact ⟨fun _ g hg => hw.totalFlow_le hp.circulates hg, by rintro ⟨⟩⟩
      · obtain ⟨p', -, -, hcirc, hlt, -⟩ := pivot_of_positiveCycle hp.le hcap hp.circulates hr
        exact ⟨by rintro ⟨⟩, fun _ => ⟨p'.flows, hcirc, hlt⟩⟩

end StockMesh

import StockMesh.Clearing.FoldSound
import Mathlib.Tactic.IntervalCases

/-! # Soundness and optimality of flow folding

On validated input with enough work both folds return a report that conserves every asset, respects
every order and passes its own validation (`flow_folding_sound`). The optimality flag of a report is
exact, and `improving_cycle` finds a cycle whenever there is one (`flow_folding_optimal`). -/

namespace StockMesh

open Budgeted Stateful BellmanFord

variable {orders : List FlowIntent} {slot bound : ℕ}

/-- Fills that conserve every asset and respect every order. -/
structure SoundFills (orders : List FlowIntent) (fills : ℕ → FoldFill) : Prop where
  /-- Of every asset the orders sell what they buy. -/
  conserved : ∀ a, tally (sellOf orders) (fun i => (fills i).input) orders.length a =
    tally (buyOf orders) (fun i => (fills i).output) orders.length a
  /-- No order sells more than its amount. -/
  input_le : ∀ i < orders.length, (fills i).input ≤ (intentAt orders i).amount
  /-- Every fill is at the order's proportional limit or better. -/
  limit : ∀ i < orders.length, (fills i).input * (intentAt orders i).minOut ≤
    (fills i).output * (intentAt orders i).amount

theorem tally_congr {key value value' : ℕ → ℕ} {k : ℕ} (h : ∀ i < k, value i = value' i) (a : ℕ) :
    tally key value k a = tally key value' k a :=
  Finset.sum_congr rfl fun i hi => by rw [h i (Finset.mem_range.mp hi)]

namespace Folded

variable {capacities unit flows : ℕ → ℕ} {fills : ℕ → FoldFill} {optimal : Bool}

theorem fill_eq (h : Folded orders capacities unit flows fills optimal) {i : ℕ}
    (hi : i < orders.length) : fills i = fillOf orders unit flows i := by
  rw [h.fills_eq, upTo_of_lt _ _ hi]

theorem sound (h : Folded orders capacities unit flows fills optimal) : SoundFills orders fills where
  conserved a := by
    rw [tally_congr (fun i hi => congrArg FoldFill.input (h.fill_eq hi)),
      tally_congr (fun i hi => congrArg FoldFill.output (h.fill_eq hi))]
    exact tally_eq_of_balanced h.circulates.balanced a
  input_le i hi := h.fill_eq hi ▸ h.fillable.input_le i hi
  limit i hi := h.fill_eq hi ▸ h.fillable.limit i hi

/-- An order without capacity stays unfilled. -/
theorem unfilled (h : Folded orders capacities unit flows fills optimal) {i : ℕ}
    (hi : i < orders.length) (hzero : capacities i = 0) : fills i = {} := by
  have hflow : flows i = 0 := Nat.le_zero.mp (hzero ▸ h.circulates.le i hi)
  simp [h.fill_eq hi, fillOf, hflow]

/-- The report passes `validate_fold`. -/
theorem validate {report : FoldReport} (h : Folded orders capacities unit flows report.fills optimal)
    (hbad : ∀ i < orders.length, ¬BadIntent (intentAt orders i)) :
    validateFold orders report = .ok () := by
  obtain ⟨t, ht, hentered⟩ : ∃ t, (List.range orders.length).foldlM (validateFill orders report) {} =
      .ok t ∧ Entered orders (fillOf orders unit flows) (fun _ => 0) orders.length t := by
    refine foldlM_range_ok (P := Entered orders (fillOf orders unit flows) fun _ => 0) ?_
      (Entered.start _ _)
    rintro k hk t ht
    refine ⟨_, ?_, ht.replay⟩
    have hle := h.fillable.input_le k hk
    have hlimit := h.fillable.limit k hk
    have hzero := h.fillable.output_eq_zero hk
    simp only [validateFill, h.fill_eq hk]
    rw [rejectIf_of_not _ (by
      simp only [not_or, not_and, not_not, not_lt]
      exact ⟨not_or.mp (hbad k hk) |>.imp id fun h => by simpa only [not_or] using h, hle, hzero,
        hlimit⟩), ok_bind]
    rfl
  rw [validateFold, rejectIf_of_not _ (not_lt.mpr h.fillable.length_le), ok_bind, ht, ok_bind]
  exact rejectIf_of_not _ (not_not.mpr (hentered.sameTotals h.fillable))

/-- The report passes `validate_lot_fold`. -/
theorem validateLots {report : LotFoldReport}
    (h : Folded orders capacities report.lotSizes flows report.fills optimal)
    (hbad : ∀ i < orders.length, ¬BadIntent (intentAt orders i))
    (hcleared : report.internallyClearedLots = totalFlow orders flows) :
    validateLotFold orders report = .ok () := by
  have hconst := constants
  have hlen : orders.length ≤ 32 := h.fillable.length_le
  have hflow : ∀ k < orders.length, flows k ≤ maxAtoms := fun k hk => calc
    flows k ≤ flows k * report.lotSizes (sellOf orders k) :=
      Nat.le_mul_of_pos_right _ (h.fillable.unit_pos k hk).1
    _ ≤ maxAtoms := le_trans (h.fillable.input_le k hk) (h.fillable.amount_le k hk)
  obtain ⟨t, ht, -, hentered⟩ : ∃ t, (List.range orders.length).foldlM
      (validateLotFill orders report) {} = .ok t ∧ t.cleared ≤ orders.length * maxAtoms ∧
        Entered orders (fillOf orders report.lotSizes flows) flows orders.length t := by
    refine foldlM_range_ok (P := fun k (t : Tally) => t.cleared ≤ k * maxAtoms ∧
      Entered orders (fillOf orders report.lotSizes flows) flows k t) ?_
      ⟨by simp, Entered.start _ _⟩
    rintro k hk t ⟨hle, ht⟩
    obtain ⟨hsell, hbuy⟩ := h.fillable.unit_pos k hk
    have hsum : t.cleared + flows k ≤ (k + 1) * maxAtoms := by
      rw [Nat.succ_mul]
      exact Nat.add_le_add hle (hflow k hk)
    have hbig : (k + 1) * maxAtoms < u128Size := by
      rw [hconst.2.2.2.2.2.1]
      omega
    have hin : (fillOf orders report.lotSizes flows k).input /
        report.lotSizes (intentAt orders k).sell = flows k := Nat.mul_div_cancel _ hsell
    have hout : (fillOf orders report.lotSizes flows k).output /
        report.lotSizes (intentAt orders k).buy = flows k := Nat.mul_div_cancel _ hbuy
    have hinmod : (fillOf orders report.lotSizes flows k).input %
        report.lotSizes (intentAt orders k).sell = 0 := Nat.mul_mod_left _ _
    have houtmod : (fillOf orders report.lotSizes flows k).output %
        report.lotSizes (intentAt orders k).buy = 0 := Nat.mul_mod_left _ _
    refine ⟨_, ?_, hsum, ht.replay⟩
    simp only [validateLotFill, h.fill_eq hk]
    rw [rejectIf_of_not _ (hbad k hk), ok_bind, rejectIf_of_not _ (by
      simp only [not_or, not_and, not_not, not_lt]
      exact ⟨hsell.ne', hbuy.ne', h.fillable.input_le k hk, h.fillable.output_eq_zero hk, hinmod,
        houtmod, hin.trans hout.symm, h.fillable.limit k hk⟩), ok_bind, hin,
      fits_of_lt _ (Nat.lt_of_le_of_lt hsum hbig), ok_bind]
  rw [validateLotFold, rejectIf_of_not _ (not_lt.mpr h.fillable.length_le), ok_bind, ht, ok_bind]
  refine rejectIf_of_not _ ?_
  rw [not_or, not_not, not_not]
  exact ⟨hentered.sameTotals h.fillable, hentered.cleared.trans hcleared.symm⟩

end Folded

/-- On validated input and with enough work `fold` and `fold_lots` return a report: no internal
rejection is reachable. Its fills are sound, orders whose limit is not met stay unfilled, and it
passes the validation of reports. -/
theorem flow_folding_sound :
    (∀ (orders : List FlowIntent) (prices : List ℕ) (slot bound : ℕ) (m : WorkMeter),
      FoldInput orders prices slot bound →
      m.used + foldCost orders prices.length bound ≤ m.limit → m.limit < u32Size →
      ∃ report m', fold orders prices slot bound m = (.ok report, m') ∧
        SoundFills orders report.fills ∧
        (∀ i < orders.length, ¬PriceMeets orders prices i → report.fills i = {}) ∧
        validateFold orders report = .ok ()) ∧
    (∀ (orders : List FlowIntent) (lotSizes : List ℕ) (slot bound : ℕ) (m : WorkMeter),
      LotInput orders lotSizes slot bound →
      m.used + foldCost orders lotSizes.length bound ≤ m.limit → m.limit < u32Size →
      ∃ report m', foldLots orders lotSizes slot bound m = (.ok report, m') ∧
        SoundFills orders report.fills ∧
        (∀ i < orders.length, ¬LotMeets orders lotSizes i → report.fills i = {}) ∧
        validateLotFold orders report = .ok ()) := by
  constructor
  · rintro orders prices slot bound m h hwork hwidth
    obtain ⟨report, flows, hruns, hfolded, -, -⟩ := fold_runs h
    obtain ⟨k, -, hrun⟩ := hruns.enough m hwork hwidth
    exact ⟨report, m.spend k, hrun, hfolded.sound,
      fun i hi hmeets => hfolded.unfilled hi (if_neg hmeets),
      hfolded.validate fun i hi => h.toAdmitted.not_badIntent hi⟩
  · rintro orders lotSizes slot bound m h hwork hwidth
    obtain ⟨report, flows, hruns, hfolded, hlots, hcleared⟩ := foldLots_runs h
    obtain ⟨k, -, hrun⟩ := hruns.enough m hwork hwidth
    exact ⟨report, m.spend k, hrun, hfolded.sound,
      fun i hi hmeets => hfolded.unfilled hi (if_neg hmeets),
      (hlots ▸ hfolded).validateLots (fun i hi => h.toAdmitted.not_badIntent hi) hcleared⟩

/-- Two crossing orders. -/
def sampleIntents : List FlowIntent :=
  [{ nonce := 1, sell := 0, buy := 1, amount := 10, minOut := 15 },
    { nonce := 2, sell := 1, buy := 0, amount := 30, minOut := 10 }]

/-- Asset 0 is worth twice asset 1. -/
theorem sampleIntents_foldInput : FoldInput sampleIntents [2, 1] 0 4 where
  ne_nil := by decide
  length_le := by decide
  two_le := by decide
  assets_le := by decide
  bound_le := by decide
  intents := by
    intro i hi
    rw [checkIntent_eq_ok]
    have hi' : i < 2 := hi
    interval_cases i <;> decide
  bounds := by decide
  lcm_lt := by decide

theorem sampleIntents_lotInput : LotInput sampleIntents [1, 2] 0 4 where
  toAdmitted := sampleIntents_foldInput.toAdmitted
  lots := by decide

theorem flow_folding_sound_sample :
    (∃ report m', fold sampleIntents [2, 1] 0 4 ⟨0, 100⟩ = (.ok report, m') ∧
      SoundFills sampleIntents report.fills ∧ validateFold sampleIntents report = .ok ()) ∧
    ∃ report m', foldLots sampleIntents [1, 2] 0 4 ⟨0, 100⟩ = (.ok report, m') ∧
      SoundFills sampleIntents report.fills ∧ validateLotFold sampleIntents report = .ok () := by
  obtain ⟨hfold, hlots⟩ := flow_folding_sound
  obtain ⟨r, m', hr, hsound, -, hvalid⟩ := hfold sampleIntents [2, 1] 0 4 ⟨0, 100⟩
    sampleIntents_foldInput (by decide) (by decide)
  obtain ⟨r', m'', hr', hsound', -, hvalid'⟩ := hlots sampleIntents [1, 2] 0 4 ⟨0, 100⟩
    sampleIntents_lotInput (by decide) (by decide)
  exact ⟨⟨r, m', hr, hsound, hvalid⟩, r', m'', hr', hsound', hvalid'⟩

/-! ## What a returned report says -/

/-- `fold` returns only on what it accepts. -/
theorem foldInput_of_ok {prices : List ℕ} {m m' : WorkMeter} {report : FoldReport}
    (h : fold orders prices slot bound m = (.ok report, m')) :
    FoldInput orders prices slot bound := by
  unfold fold at h
  obtain ⟨u, m₁, hbounds, h⟩ := Comp.bind_eq_ok.mp h
  obtain ⟨quantum, m₂, hquantum, h⟩ := Comp.bind_eq_ok.mp h
  obtain ⟨l, m₃, hload, h⟩ := Comp.bind_eq_ok.mp h
  have hbounds' := rejectIf_eq_ok.mp (lift_eq_ok.mp hbounds).1
  simp only [not_or, not_lt] at hbounds'
  obtain ⟨hne, hlen, htwo, hassets, hbound⟩ := hbounds'
  obtain ⟨hprices, hlcm, -⟩ := (quantum_eq_ok Nat.one_pos).mp (lift_eq_ok.mp hquantum).1
  have hlcm' : lcmOf prices < u128Size := by
    refine hlcm.resolve_left ?_
    rintro rfl
    simp at htwo
  refine ⟨⟨hne, hlen, htwo, hassets, hbound, fun i hi => ?_⟩, ⟨hprices, hlcm'⟩⟩
  -- every order has passed its tests in the capacity loop
  obtain ⟨l₁, l₂, hstep⟩ := foldlM_step_ok (lift_eq_ok.mp hload).1 (List.mem_range.mpr hi)
  rw [loadValue, bind_eq_ok] at hstep
  obtain ⟨u, hcheck, hstep⟩ := hstep
  exact hcheck

/-- `fold_lots` returns only on what it accepts. -/
theorem lotInput_of_ok {lotSizes : List ℕ} {m m' : WorkMeter} {report : LotFoldReport}
    (h : foldLots orders lotSizes slot bound m = (.ok report, m')) :
    LotInput orders lotSizes slot bound := by
  unfold foldLots at h
  obtain ⟨u, m₁, hbounds, h⟩ := Comp.bind_eq_ok.mp h
  obtain ⟨l, m₃, hload, h⟩ := Comp.bind_eq_ok.mp h
  have hbounds' := rejectIf_eq_ok.mp (lift_eq_ok.mp hbounds).1
  simp only [not_or, not_lt, not_exists, not_and] at hbounds'
  obtain ⟨hne, hlen, htwo, hassets, hbound, hlots⟩ := hbounds'
  refine ⟨⟨hne, hlen, htwo, hassets, hbound, fun i hi => ?_⟩, fun lot hlot => ?_⟩
  · obtain ⟨l₁, l₂, hstep⟩ := foldlM_step_ok (lift_eq_ok.mp hload).1 (List.mem_range.mpr hi)
    rw [loadLots, bind_eq_ok] at hstep
    obtain ⟨u, hcheck, hstep⟩ := hstep
    exact hcheck
  · obtain ⟨hpos, hle⟩ := hlots lot hlot
    exact ⟨Nat.pos_of_ne_zero hpos, hle⟩

/-- A search that returns has found a cycle exactly if there is a closed walk of positive cost, and
what it has found is simple. -/
theorem improvingCycle_exact {capacities flows : ℕ → ℕ} {assets : ℕ} (h : Tradable orders assets)
    (hassets : 0 < assets) (hle : ∀ i, flows i ≤ capacities i) {m m' : WorkMeter}
    {r : Option (List ℕ)} (hrun : improvingCycle orders capacities flows assets m = (.ok r, m')) :
    (r.isSome = true ↔ ∃ js, PositiveWalk orders capacities flows js) ∧
      ∀ js, r = some js → PositiveCycle orders capacities flows js := by
  have hr := improvingCycle_ok h hassets hle hrun
  rcases r with - | js
  · obtain ⟨p, hp⟩ := hr
    refine ⟨⟨by rintro ⟨⟩, ?_⟩, by rintro js ⟨⟩⟩
    rintro ⟨js, hjs⟩
    exact absurd hjs hp.not_walk
  · refine ⟨⟨fun _ => ⟨js, hr.walk⟩, fun _ => rfl⟩, ?_⟩
    rintro js' ⟨⟩
    exact hr

/-- The optimality flags are exact: the cleared total of a report whose flag is set is the greatest
over all integer circulations within the orders' capacities, and otherwise some circulation clears
more. `improving_cycle` returns a cycle exactly when the residual graph has a closed walk of positive
cost; the cycle is simple, its cost is positive and every arc has room, so the pivot on it succeeds
and raises the total. -/
theorem flow_folding_optimal :
    (∀ (orders : List FlowIntent) (prices : List ℕ) (slot bound : ℕ) (m m' : WorkMeter)
        (report : FoldReport), fold orders prices slot bound m = (.ok report, m') →
      ∃ flows, Circulates orders (valueCapacity orders prices report.valueQuantum) flows ∧
        report.internallyClearedValue = report.valueQuantum * totalFlow orders flows ∧
        (report.optimalAtFixedPrices = true →
          ∀ g, Circulates orders (valueCapacity orders prices report.valueQuantum) g →
            report.valueQuantum * totalFlow orders g ≤ report.internallyClearedValue) ∧
        (report.optimalAtFixedPrices = false →
          ∃ g, Circulates orders (valueCapacity orders prices report.valueQuantum) g ∧
            report.internallyClearedValue < report.valueQuantum * totalFlow orders g)) ∧
    (∀ (orders : List FlowIntent) (lotSizes : List ℕ) (slot bound : ℕ) (m m' : WorkMeter)
        (report : LotFoldReport), foldLots orders lotSizes slot bound m = (.ok report, m') →
      ∃ flows, Circulates orders (lotCapacity orders lotSizes) flows ∧
        report.internallyClearedLots = totalFlow orders flows ∧
        (report.optimalAtFixedLots = true →
          ∀ g, Circulates orders (lotCapacity orders lotSizes) g →
            totalFlow orders g ≤ report.internallyClearedLots) ∧
        (report.optimalAtFixedLots = false →
          ∃ g, Circulates orders (lotCapacity orders lotSizes) g ∧
            report.internallyClearedLots < totalFlow orders g)) ∧
    (∀ (orders : List FlowIntent) (capacities flows : ℕ → ℕ) (assets : ℕ) (m : WorkMeter),
      Tradable orders assets → 0 < assets → (∀ i, flows i ≤ capacities i) →
      (m.used + cycleCost orders assets ≤ m.limit → m.limit < u32Size →
        ∃ r m', improvingCycle orders capacities flows assets m = (.ok r, m')) ∧
      ∀ r m', improvingCycle orders capacities flows assets m = (.ok r, m') →
        (r.isSome = true ↔ ∃ js, PositiveWalk orders capacities flows js) ∧
        ∀ js, r = some js → PositiveCycle orders capacities flows js) ∧
    (∀ (orders : List FlowIntent) (capacities : ℕ → ℕ) (p : Pivots) (js : List ℕ),
      (∀ i, p.flows i ≤ capacities i) → (∀ i, capacities i < u128Size) →
      Circulates orders capacities p.flows → PositiveCycle orders capacities p.flows js →
      ∃ p', pivot orders capacities p js = .ok p' ∧ Circulates orders capacities p'.flows ∧
        totalFlow orders p.flows < totalFlow orders p'.flows) := by
  refine ⟨?_, ?_, ?_, ?_⟩
  · rintro orders prices slot bound m m' report hrun
    have h := foldInput_of_ok hrun
    obtain ⟨report', flows, hruns, hfolded, hquantum, hcleared⟩ := fold_runs h
    obtain rfl : report' = report := by simpa using hruns.eq_of_ok hrun
    rw [hquantum, hcleared]
    refine ⟨flows, hfolded.circulates, rfl, fun hopt g hg => ?_, fun hopt => ?_⟩
    · exact Nat.mul_le_mul_left _ (hfolded.flagged.maximum hopt g hg)
    · obtain ⟨g, hg, hlt⟩ := hfolded.flagged.improvable hopt
      exact ⟨g, hg, Nat.mul_lt_mul_of_pos_left hlt h.toPriced.lcm_pos⟩
  · rintro orders lotSizes slot bound m m' report hrun
    have h := lotInput_of_ok hrun
    obtain ⟨report', flows, hruns, hfolded, -, hcleared⟩ := foldLots_runs h
    obtain rfl : report' = report := by simpa using hruns.eq_of_ok hrun
    rw [hcleared]
    exact ⟨flows, hfolded.circulates, rfl, hfolded.flagged.maximum, hfolded.flagged.improvable⟩
  · rintro orders capacities flows assets m h hassets hle
    refine ⟨fun hwork hwidth => ?_, fun r m' hrun => improvingCycle_exact h hassets hle hrun⟩
    obtain ⟨r, hruns, -⟩ := improvingCycle_runs h hassets hle
    obtain ⟨k, -, hrun⟩ := hruns.enough m hwork hwidth
    exact ⟨r, m.spend k, hrun⟩
  · rintro orders capacities p js hle hcap hp hjs
    obtain ⟨p', hpivot, -, hcirc, hlt, -⟩ := pivot_of_positiveCycle hle hcap hp hjs
    exact ⟨p', hpivot, hcirc, hlt⟩

theorem flow_folding_optimal_sample :
    (∃ report m', fold sampleIntents [2, 1] 0 4 ⟨0, 100⟩ = (.ok report, m') ∧
      ∃ flows, Circulates sampleIntents
        (valueCapacity sampleIntents [2, 1] report.valueQuantum) flows ∧
        report.internallyClearedValue = report.valueQuantum * totalFlow sampleIntents flows) ∧
    ∃ r m', improvingCycle sampleIntents (fun _ => 5) (fun _ => 0) 2 ⟨0, 100⟩ = (.ok r, m') ∧
      (r.isSome = true ↔ ∃ js, PositiveWalk sampleIntents (fun _ => 5) (fun _ => 0) js) := by
  obtain ⟨hfold, -, hcycle, -⟩ := flow_folding_optimal
  obtain ⟨report, -, hruns, -⟩ := fold_runs sampleIntents_foldInput
  obtain ⟨k, -, hrun⟩ := hruns.enough ⟨0, 100⟩ (by decide) (by decide)
  obtain ⟨flows, hcirc, hcleared, -⟩ := hfold _ _ _ _ _ _ report hrun
  obtain ⟨henough, hexact⟩ := hcycle sampleIntents (fun _ => 5) (fun _ => 0) 2 ⟨0, 100⟩
    sampleIntents_foldInput.toAdmitted.tradable (by decide) fun _ => Nat.zero_le _
  obtain ⟨r, m', hr⟩ := henough (by decide) (by decide)
  exact ⟨⟨report, _, hrun, flows, hcirc, hcleared⟩, r, m', hr, (hexact r m' hr).1⟩

end StockMesh

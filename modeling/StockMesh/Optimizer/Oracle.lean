import StockMesh.Basic
import Mathlib.Algebra.BigOperators.Group.Finset.Basic
import Mathlib.Algebra.BigOperators.Intervals
import Mathlib.Logic.Function.Basic

/-! # Refinement against an exact quote oracle

Evenly funded subsets of the edges are feasibility seeds; exchanges of a halving step between two edges
refine the best one. The oracle is asked at most `limit` times and the step and sweep counts are
bounded, so a result is the best allocation observed, not an optimum. What a result does guarantee is
`Served`: the inputs sum to the amount and every input was quoted. -/

namespace StockMesh.ExactOracle

/-- The best allocation observed (`ExactPlan`). -/
structure ExactPlan where
  inputs : ℕ → ℕ := fun _ => 0
  outputs : ℕ → ℕ := fun _ => 0
  output : ℕ := 0
  costs : ℕ → ℕ := fun _ => 0
  cost : ℕ := 0
  oracleCalls : ℕ := 0
  exchanges : ℕ := 0
  finalStep : ℕ := 0
  exhausted : Bool := false

section Search

/-- `quote`: nothing costs nothing, anything else uses up one call. -/
def ask (oracle : ℕ → ℕ → Result (ℕ × ℕ)) (limit calls edge amount : ℕ) : Result (ℕ × ℕ) × ℕ :=
  if amount = 0 then (.ok (0, 0), calls)
  else if calls = limit then (.error .workLimit, calls)
  else (oracle edge amount, calls + 1)

variable (oracle : ℕ → ℕ → Result (ℕ × ℕ)) (limit : ℕ)

/-- Fund the edges of a mask evenly; `none` when a quote failed. -/
def seed (mask : ℕ) :
    List ℕ → ExactPlan → ℕ → ℕ → ℕ → Result (Option ExactPlan × ℕ)
  | [], candidate, _, _, calls => .ok (some candidate, calls)
  | i :: rest, candidate, left, remaining, calls =>
    if mask.testBit i then
      let input := left / remaining
      match ask oracle limit calls i input with
      | (.ok (output, cost), calls) => do
        let total ← checkedAdd candidate.cost cost
        let out ← checkedAdd candidate.output output
        seed mask rest { candidate with
          inputs := Function.update candidate.inputs i input
          outputs := Function.update candidate.outputs i output
          output := out
          costs := Function.update candidate.costs i cost
          cost := total } (left - input) (remaining - 1) calls
      | (.error _, calls) => .ok (none, calls)
    else seed mask rest candidate left remaining calls

/-- `mask.count_ones()` of a mask over the edges. -/
def countOnes (edges mask : ℕ) : ℕ := (List.range edges).countP mask.testBit

/-- The better of two plans within the cost limit. -/
def better (costLimit : ℕ) (best : ExactPlan) : Option ExactPlan → ExactPlan
  | some candidate =>
    if candidate.cost ≤ costLimit ∧ best.output < candidate.output then candidate else best
  | none => best

/-- The best seed over the masks. -/
def seeds (edges amount costLimit maxLegs : ℕ) :
    List ℕ → ExactPlan → ℕ → Result (ExactPlan × ℕ)
  | [], best, calls => .ok (best, calls)
  | mask :: rest, best, calls =>
    let count := countOnes edges mask
    if maxLegs < count ∨ amount < count then seeds edges amount costLimit maxLegs rest best calls
    else do
      let (candidate, calls) ← seed oracle limit mask (List.range edges) {} amount count calls
      let best := better costLimit best candidate
      if calls = limit then .ok (best, calls)
      else seeds edges amount costLimit maxLegs rest best calls

/-- Move `take` atoms from one edge of `best` to another, if that beats `next`. -/
def exchange (costLimit : ℕ) (best next : ExactPlan) (source target take calls : ℕ) :
    Result (ExactPlan × ℕ) := do
  let a := best.inputs source - take
  let b ← checkedAdd (best.inputs target) take
  let (qa, calls) := ask oracle limit calls source a
  let (qb, calls) := ask oracle limit calls target b
  match qa, qb with
  | .ok (oa, ca), .ok (ob, cb) =>
    let kept ← subUint best.cost (best.costs source)
    let kept ← subUint kept (best.costs target)
    let cost ← checkedAdd kept ca
    let cost ← checkedAdd cost cb
    if costLimit < cost then .ok (next, calls) else
    let kept ← subUint best.output (best.outputs source)
    let kept ← subUint kept (best.outputs target)
    let output ← checkedAdd kept oa
    let output ← checkedAdd output ob
    if next.output < output then
      .ok ({ best with
        inputs := Function.update (Function.update best.inputs source a) target b
        outputs := Function.update (Function.update best.outputs source oa) target ob
        costs := Function.update (Function.update best.costs source ca) target cb
        cost := cost
        output := output
        exchanges := best.exchanges + 1 }, calls)
    else .ok (next, calls)
  | _, _ => .ok (next, calls)

/-- Edges a plan uses. -/
def ExactPlan.active (plan : ExactPlan) : ℕ :=
  (List.range maxEdges).countP fun i => decide (0 < plan.inputs i)

/-- The best exchange of one sweep over all pairs; `none` when the calls run out. -/
def sweep (costLimit maxLegs step : ℕ) (best : ExactPlan) :
    List (ℕ × ℕ) → ExactPlan → ℕ → Result (Option ExactPlan × ℕ)
  | [], next, calls => .ok (some next, calls)
  | (source, target) :: rest, next, calls =>
    let take := min (best.inputs source) step
    if best.inputs source = 0 ∨ source = target ∨
        (best.inputs target = 0 ∧ take < best.inputs source ∧ best.active = maxLegs) then
      sweep costLimit maxLegs step best rest next calls
    else if limit < min (calls + 2) (u32Size - 1) then .ok (none, calls)
    else do
      let (next, calls) ← exchange oracle limit costLimit best next source target take calls
      sweep costLimit maxLegs step best rest next calls

/-- All ordered pairs of edges. -/
def pairs (edges : ℕ) : List (ℕ × ℕ) :=
  (List.range edges).flatMap fun i => (List.range edges).map fun j => (i, j)

/-- Sweeps at one step, at most `fuel`; the flag says whether the calls lasted. -/
def refineStep (edges costLimit maxLegs step : ℕ) :
    ℕ → ExactPlan → ℕ → Result (ExactPlan × ℕ × Bool)
  | 0, best, calls => .ok (best, calls, true)
  | fuel + 1, best, calls => do
    let (next, calls) ← sweep oracle limit costLimit maxLegs step best (pairs edges) best calls
    match next with
    | none => .ok (best, calls, false)
    | some next =>
      if next.output = best.output then .ok (best, calls, true)
      else refineStep edges costLimit maxLegs step fuel next calls

/-- The loop over halving steps. As many rounds as the first step are enough to halve it down to
one. -/
def refineSteps (edges costLimit maxLegs : ℕ) :
    ℕ → ℕ → ExactPlan → ℕ → Result (ExactPlan × ℕ)
  | 0, _, best, calls => .ok (best, calls)
  | fuel + 1, step, best, calls => do
    let (best, calls, more) ← refineStep oracle limit edges costLimit maxLegs step 32
      { best with finalStep := step } calls
    if !more then .ok (best, calls)
    else if step = 1 then .ok ({ best with finalStep := 0 }, calls)
    else refineSteps edges costLimit maxLegs fuel (step / 2) best calls

/-- `refine_bounded_legs`. -/
def refineBoundedLegs (edges amount limit costLimit maxLegs : ℕ)
    (oracle : ℕ → ℕ → Result (ℕ × ℕ)) : Result ExactPlan := do
  rejectIf (edges = 0 ∨ maxEdges < edges ∨ amount = 0 ∨ maxAtoms < amount) .bounds
  rejectIf (maxLegs = 0 ∨ StockMesh.maxLegs < maxLegs) .bounds
  let (best, calls) ← seeds oracle limit edges amount costLimit maxLegs
    (List.range' 1 (2 ^ edges - 1)) {} 0
  rejectIf (best.output = 0) (if calls = limit then .workLimit else .capacity)
  let step := max (amount / 2) 1
  let (best, calls) ← refineSteps oracle limit edges costLimit maxLegs step step best calls
  .ok { best with oracleCalls := calls, exhausted := decide (best.finalStep ≠ 0) }

/-- `refine_bounded`. -/
def refineBounded (edges amount limit costLimit : ℕ) (oracle : ℕ → ℕ → Result (ℕ × ℕ)) :
    Result ExactPlan :=
  refineBoundedLegs edges amount limit costLimit StockMesh.maxLegs oracle

/-- `refine`: no costs. -/
def refine (edges amount limit : ℕ) (oracle : ℕ → ℕ → Result ℕ) : Result ExactPlan :=
  refineBounded edges amount limit (u64Size - 1) fun i q => do
    let out ← oracle i q
    .ok (out, 0)

end Search

/-! ## What a plan guarantees -/

variable {oracle : ℕ → ℕ → Result (ℕ × ℕ)} {limit edges amount : ℕ}

/-- The inputs of a plan sum to the amount and each was quoted. -/
structure Served (oracle : ℕ → ℕ → Result (ℕ × ℕ)) (edges amount : ℕ) (plan : ExactPlan) : Prop where
  quoted : ∀ i, plan.inputs i ≠ 0 → ∃ r, oracle i (plan.inputs i) = .ok r
  outside : ∀ i, edges ≤ i → plan.inputs i = 0
  sum : ∑ i ∈ Finset.range edges, plan.inputs i = amount

/-- An answered question is about nothing or was quoted. -/
theorem ask_ok {calls calls' edge q : ℕ} {r : ℕ × ℕ}
    (h : ask oracle limit calls edge q = (.ok r, calls')) : q ≠ 0 → oracle edge q = .ok r := by
  intro hq
  unfold ask at h
  rw [if_neg hq] at h
  split at h
  · cases h
  · exact (Prod.mk.injEq _ _ _ _ ▸ h).1

/-- Changing one entry changes the sum by the difference. -/
theorem sum_update (f : ℕ → ℕ) {i : ℕ} (hi : i < edges) (x : ℕ) :
    ∑ j ∈ Finset.range edges, Function.update f i x j + f i
      = ∑ j ∈ Finset.range edges, f j + x := by
  have hmem : i ∈ Finset.range edges := Finset.mem_range.mpr hi
  rw [Finset.sum_update_of_mem hmem, ← Finset.add_sum_erase _ f hmem,
    Finset.sdiff_singleton_eq_erase]
  omega

/-- What a partly funded seed keeps: what is handed out and what is left make up the amount. -/
structure Seeding (oracle : ℕ → ℕ → Result (ℕ × ℕ)) (edges amount mask : ℕ) (rest : List ℕ)
    (candidate : ExactPlan) (left remaining : ℕ) : Prop where
  nodup : rest.Nodup
  below : ∀ i ∈ rest, i < edges
  fresh : ∀ i ∈ rest, candidate.inputs i = 0
  quoted : ∀ i, candidate.inputs i ≠ 0 → ∃ r, oracle i (candidate.inputs i) = .ok r
  outside : ∀ i, edges ≤ i → candidate.inputs i = 0
  sum : ∑ i ∈ Finset.range edges, candidate.inputs i + left = amount
  remaining_eq : remaining = rest.countP mask.testBit
  drained : remaining = 0 → left = 0

/-- A seed that was quoted hands out the whole amount. -/
theorem seed_served {mask : ℕ} {rest : List ℕ} {candidate : ExactPlan} {left remaining calls : ℕ}
    {plan : ExactPlan} {calls' : ℕ}
    (hinv : Seeding oracle edges amount mask rest candidate left remaining)
    (h : seed oracle limit mask rest candidate left remaining calls = .ok (some plan, calls')) :
    Served oracle edges amount plan := by
  induction rest generalizing candidate left remaining calls with
  | nil =>
    cases h
    have hleft := hinv.drained (by simpa using hinv.remaining_eq)
    exact ⟨hinv.quoted, hinv.outside, by simpa [hleft] using hinv.sum⟩
  | cons i rest ih =>
    have hnodup := List.nodup_cons.mp hinv.nodup
    rw [seed] at h
    by_cases hbit : mask.testBit i
    · rw [if_pos hbit] at h
      have hcount := hinv.remaining_eq
      rw [List.countP_cons_of_pos hbit] at hcount
      -- the edge receives its even part of what is left
      have hle : left / remaining ≤ left := Nat.div_le_self _ _
      rcases hask : ask oracle limit calls i (left / remaining) with ⟨e | ⟨output, cost⟩, calls₁⟩
      · simp only [hask] at h
        cases h
      · simp only [hask] at h
        obtain ⟨total, -, h⟩ := bind_eq_ok.mp h
        obtain ⟨out, -, h⟩ := bind_eq_ok.mp h
        refine ih ?_ h
        have hi : i < edges := hinv.below i List.mem_cons_self
        constructor
        · exact hnodup.2
        · exact fun j hj => hinv.below j (List.mem_cons_of_mem _ hj)
        · intro j hj
          have hne : j ≠ i := fun heq => hnodup.1 (heq ▸ hj)
          simpa [hne] using hinv.fresh j (List.mem_cons_of_mem _ hj)
        · intro j
          by_cases hij : j = i
          · subst hij
            intro hne
            simp only [Function.update_self] at hne ⊢
            exact ⟨_, ask_ok hask hne⟩
          · simpa [hij] using hinv.quoted j
        · intro j hj
          have hne : j ≠ i := by omega
          simpa [hne] using hinv.outside j hj
        · have hupdate := sum_update candidate.inputs hi (left / remaining)
          rw [hinv.fresh i List.mem_cons_self] at hupdate
          have hsum := hinv.sum
          show ∑ j ∈ Finset.range edges, Function.update candidate.inputs i _ j + _ = _
          omega
        · omega
        · intro hzero
          have hone : remaining = 1 := by omega
          rw [hone, Nat.div_one]
          omega
    · rw [if_neg hbit] at h
      refine ih ?_ h
      exact {
        nodup := hnodup.2
        below := fun j hj => hinv.below j (List.mem_cons_of_mem _ hj)
        fresh := fun j hj => hinv.fresh j (List.mem_cons_of_mem _ hj)
        quoted := hinv.quoted
        outside := hinv.outside
        sum := hinv.sum
        remaining_eq := by rw [hinv.remaining_eq, List.countP_cons_of_neg hbit]
        drained := hinv.drained }

/-- Some edge below `edges` is in a mask below `2 ^ edges`. -/
theorem countOnes_pos {mask : ℕ} (hpos : 0 < mask) (hlt : mask < 2 ^ edges) :
    0 < countOnes edges mask := by
  obtain ⟨i, hi⟩ := Nat.exists_testBit_of_ne_zero (by omega : mask ≠ 0)
  refine List.countP_pos_iff.mpr ⟨i, List.mem_range.mpr ?_, hi⟩
  by_contra hge
  have hle : 2 ^ edges ≤ 2 ^ i := Nat.pow_le_pow_right Nat.two_pos (not_lt.mp hge)
  rw [Nat.testBit_lt_two_pow (hlt.trans_le hle)] at hi
  cases hi

/-- A plan of some output is served. -/
def Best (oracle : ℕ → ℕ → Result (ℕ × ℕ)) (edges amount : ℕ) (plan : ExactPlan) : Prop :=
  plan.output ≠ 0 → Served oracle edges amount plan

theorem better_best (costLimit : ℕ) {best : ExactPlan} (candidate : Option ExactPlan)
    (hbest : Best oracle edges amount best)
    (hcandidate : ∀ c, candidate = some c → Served oracle edges amount c) :
    Best oracle edges amount (better costLimit best candidate) := by
  cases candidate with
  | none => exact hbest
  | some c =>
    rw [better]
    split
    · exact fun _ => hcandidate c rfl
    · exact hbest

/-- The loop over the masks keeps the best plan served. -/
theorem seeds_best {costLimit legs : ℕ} {masks : List ℕ} {best plan : ExactPlan} {calls calls' : ℕ}
    (hmasks : ∀ m ∈ masks, 0 < m ∧ m < 2 ^ edges) (hbest : Best oracle edges amount best)
    (h : seeds oracle limit edges amount costLimit legs masks best calls = .ok (plan, calls')) :
    Best oracle edges amount plan := by
  induction masks generalizing best calls with
  | nil =>
    cases h
    exact hbest
  | cons mask masks ih =>
    have hrest : ∀ m ∈ masks, 0 < m ∧ m < 2 ^ edges := fun m hm =>
      hmasks m (List.mem_cons_of_mem _ hm)
    rw [seeds] at h
    dsimp only at h
    split at h
    · exact ih hrest hbest h
    · obtain ⟨⟨candidate, calls₁⟩, hseed, h⟩ := bind_eq_ok.mp h
      obtain ⟨hpos, hlt⟩ := hmasks mask List.mem_cons_self
      have hcount := countOnes_pos hpos hlt
      have hinv : Seeding oracle edges amount mask (List.range edges) {} amount
          (countOnes edges mask) :=
        { nodup := List.nodup_range
          below := fun i hi => List.mem_range.mp hi
          fresh := fun _ _ => rfl
          quoted := fun _ hne => absurd rfl hne
          outside := fun _ _ => rfl
          sum := by simp
          remaining_eq := rfl
          drained := by omega }
      have hnext := better_best costLimit candidate hbest fun c hc =>
        seed_served hinv (hc ▸ hseed)
      dsimp only at h
      split at h
      · cases h
        exact hnext
      · exact ih hrest hnext h

/-- An exchange keeps the plan served. -/
theorem exchange_served {costLimit source target take calls calls' : ℕ}
    {best next plan : ExactPlan} (hbest : Served oracle edges amount best)
    (hnext : Served oracle edges amount next) (hne : source ≠ target)
    (htake : take ≤ best.inputs source) (hsource : source < edges) (htarget : target < edges)
    (h : exchange oracle limit costLimit best next source target take calls = .ok (plan, calls')) :
    Served oracle edges amount plan := by
  rw [exchange, bind_eq_ok] at h
  obtain ⟨b, hb, h⟩ := h
  obtain ⟨-, rfl⟩ := fits_eq_ok.mp hb
  rcases hqa : ask oracle limit calls source (best.inputs source - take) with ⟨ea | ⟨oa, ca⟩, calls₁⟩
  · simp only [hqa] at h
    cases h
    exact hnext
  rcases hqb : ask oracle limit calls₁ target (best.inputs target + take) with
    ⟨eb | ⟨ob, cb⟩, calls₂⟩
  · simp only [hqa, hqb] at h
    cases h
    exact hnext
  simp only [hqa, hqb] at h
  obtain ⟨_, -, h⟩ := bind_eq_ok.mp h
  obtain ⟨_, -, h⟩ := bind_eq_ok.mp h
  obtain ⟨_, -, h⟩ := bind_eq_ok.mp h
  obtain ⟨_, -, h⟩ := bind_eq_ok.mp h
  split at h
  · cases h
    exact hnext
  obtain ⟨_, -, h⟩ := bind_eq_ok.mp h
  obtain ⟨_, -, h⟩ := bind_eq_ok.mp h
  obtain ⟨_, -, h⟩ := bind_eq_ok.mp h
  obtain ⟨_, -, h⟩ := bind_eq_ok.mp h
  split at h
  · cases h
    constructor
    · -- both changed inputs were quoted just now
      intro i
      by_cases hit : i = target
      · subst hit
        intro hi
        simp only [Function.update_self] at hi ⊢
        exact ⟨_, ask_ok hqb hi⟩
      · by_cases his : i = source
        · subst his
          intro hi
          simp only [Function.update_of_ne hit, Function.update_self] at hi ⊢
          exact ⟨_, ask_ok hqa hi⟩
        · simpa [hit, his] using hbest.quoted i
    · intro i hi
      have hit : i ≠ target := by omega
      have his : i ≠ source := by omega
      simpa [hit, his] using hbest.outside i hi
    · have hfirst := sum_update best.inputs hsource (best.inputs source - take)
      have hsecond := sum_update (Function.update best.inputs source (best.inputs source - take))
        htarget (best.inputs target + take)
      rw [Function.update_of_ne hne.symm] at hsecond
      have hsum := hbest.sum
      show ∑ j ∈ Finset.range edges, Function.update (Function.update _ _ _) _ _ j = _
      omega
  · cases h
    exact hnext

/-- A sweep keeps the plan served. -/
theorem sweep_served {costLimit legs step : ℕ} {best next plan : ExactPlan}
    {todo : List (ℕ × ℕ)} {calls calls' : ℕ} (hbest : Served oracle edges amount best)
    (hnext : Served oracle edges amount next) (htodo : ∀ p ∈ todo, p.1 < edges ∧ p.2 < edges)
    (h : sweep oracle limit costLimit legs step best todo next calls = .ok (some plan, calls')) :
    Served oracle edges amount plan := by
  induction todo generalizing next calls with
  | nil =>
    cases h
    exact hnext
  | cons p todo ih =>
    obtain ⟨source, target⟩ := p
    have hrest : ∀ p ∈ todo, p.1 < edges ∧ p.2 < edges := fun p hp =>
      htodo p (List.mem_cons_of_mem _ hp)
    obtain ⟨hsource, htarget⟩ := htodo _ List.mem_cons_self
    rw [sweep] at h
    dsimp only at h
    split at h
    · exact ih hnext hrest h
    · next hskip =>
      rw [not_or, not_or] at hskip
      split at h
      · cases h
      · obtain ⟨⟨next', calls₁⟩, hexchange, h⟩ := bind_eq_ok.mp h
        exact ih (exchange_served hbest hnext hskip.2.1 (Nat.min_le_left _ _) hsource htarget
          hexchange) hrest h

theorem mem_pairs {p : ℕ × ℕ} (h : p ∈ pairs edges) : p.1 < edges ∧ p.2 < edges := by
  simp only [pairs, List.mem_flatMap, List.mem_map, List.mem_range] at h
  obtain ⟨i, hi, j, hj, rfl⟩ := h
  exact ⟨hi, hj⟩

theorem refineStep_served {costLimit legs step fuel : ℕ} {best plan : ExactPlan}
    {calls calls' : ℕ} {more : Bool} (hbest : Served oracle edges amount best)
    (h : refineStep oracle limit edges costLimit legs step fuel best calls
      = .ok (plan, calls', more)) : Served oracle edges amount plan := by
  induction fuel generalizing best calls with
  | zero =>
    cases h
    exact hbest
  | succ fuel ih =>
    rw [refineStep, bind_eq_ok] at h
    obtain ⟨⟨next, calls₁⟩, hsweep, h⟩ := h
    cases next with
    | none =>
      cases h
      exact hbest
    | some next =>
      dsimp only at h
      split at h
      · cases h
        exact hbest
      · exact ih (sweep_served hbest hbest (fun _ => mem_pairs) hsweep) h

/-- Bookkeeping fields do not matter. -/
theorem Served.of_inputs {plan plan' : ExactPlan} (h : Served oracle edges amount plan)
    (heq : plan'.inputs = plan.inputs) : Served oracle edges amount plan' :=
  ⟨heq ▸ h.quoted, heq ▸ h.outside, heq ▸ h.sum⟩

theorem refineSteps_served {costLimit legs fuel step : ℕ} {best plan : ExactPlan}
    {calls calls' : ℕ} (hbest : Served oracle edges amount best)
    (h : refineSteps oracle limit edges costLimit legs fuel step best calls = .ok (plan, calls')) :
    Served oracle edges amount plan := by
  induction fuel generalizing step best calls with
  | zero =>
    cases h
    exact hbest
  | succ fuel ih =>
    rw [refineSteps, bind_eq_ok] at h
    obtain ⟨⟨best', calls₁, more⟩, hstep, h⟩ := h
    have hstart : Served oracle edges amount { best with finalStep := step } :=
      hbest.of_inputs rfl
    have hbest' := refineStep_served hstart hstep
    dsimp only at h
    split at h
    · cases h
      exact hbest'
    · split at h
      · cases h
        exact hbest'.of_inputs rfl
      · exact ih hbest' h

/-- A plan the search returns is served. -/
theorem refineBoundedLegs_served {costLimit legs : ℕ} {plan : ExactPlan}
    (h : refineBoundedLegs edges amount limit costLimit legs oracle = .ok plan) :
    Served oracle edges amount plan := by
  rw [refineBoundedLegs, bind_eq_ok] at h
  obtain ⟨_, -, h⟩ := h
  obtain ⟨_, -, h⟩ := bind_eq_ok.mp h
  obtain ⟨⟨best, calls⟩, hseeds, h⟩ := bind_eq_ok.mp h
  obtain ⟨_, hzero, h⟩ := bind_eq_ok.mp h
  obtain ⟨⟨best', calls'⟩, hsteps, h⟩ := bind_eq_ok.mp h
  cases h
  have hmasks : ∀ m ∈ List.range' 1 (2 ^ edges - 1), 0 < m ∧ m < 2 ^ edges := by
    intro m hm
    have hpow : 0 < 2 ^ edges := Nat.two_pow_pos edges
    rw [List.mem_range'_1] at hm
    omega
  have hbest := seeds_best hmasks (fun hne => absurd rfl hne) hseeds
  exact (refineSteps_served (hbest (rejectIf_eq_ok.mp hzero)) hsteps).of_inputs rfl

/-- Without costs: the inputs sum to the amount and each was quoted. -/
theorem refine_served {quote : ℕ → ℕ → Result ℕ} {plan : ExactPlan}
    (h : refine edges amount limit quote = .ok plan) :
    (∀ i, plan.inputs i ≠ 0 → ∃ out, quote i (plan.inputs i) = .ok out) ∧
    (∀ i, edges ≤ i → plan.inputs i = 0) ∧ ∑ i ∈ Finset.range edges, plan.inputs i = amount := by
  have hserved := refineBoundedLegs_served h
  refine ⟨fun i hi => ?_, hserved.outside, hserved.sum⟩
  obtain ⟨r, hr⟩ := hserved.quoted i hi
  obtain ⟨out, hout, -⟩ := bind_eq_ok.mp hr
  exact ⟨out, hout⟩

end StockMesh.ExactOracle

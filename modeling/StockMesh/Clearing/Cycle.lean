import StockMesh.Clearing.Fold

/-! # What an improving cycle is and when there is one

`improvingCycle` runs the library's search on the residual graph of the flows
(`improvingCycle_runs`): with enough work it returns a simple residual cycle of positive cost with
room on every arc, or nothing, and then a potential shows that the flows are the best circulation. -/

namespace StockMesh

open Budgeted Stateful BellmanFord

variable (orders : List FlowIntent)

/-- The asset an order sells. -/
def sellOf (i : ℕ) : ℕ := (intentAt orders i).sell

/-- The asset an order buys. -/
def buyOf (i : ℕ) : ℕ := (intentAt orders i).buy

/-- The indices of the orders. -/
def indices : Finset ℕ := Finset.range orders.length

/-- The order of an arc index and whether the arc is its reverse. -/
def arcKey (j : ℕ) : Circulation.Arc ℕ := (j / 2, decide (j % 2 = 1))

/-- The residual edge of an arc index. -/
def arcEdge (j : ℕ) : Edge ℕ := Circulation.residual (sellOf orders) (buyOf orders) (arcKey j)

/-- The arc indices, in the order of a sweep. -/
def arcIndices : List ℕ := List.range (orders.length * 2)

/-- The arc has room. -/
def HasRoom (capacities flows : ℕ → ℕ) (j : ℕ) : Prop :=
  0 < Circulation.room capacities flows (arcKey j)

instance (capacities flows : ℕ → ℕ) : DecidablePred (HasRoom capacities flows) := fun _ =>
  inferInstanceAs (Decidable (_ < _))

/-- A simple residual cycle of positive cost with room on every arc. -/
structure PositiveCycle (capacities flows : ℕ → ℕ) (js : List ℕ) : Prop where
  cycle : SimpleCycle (arcEdge orders) js
  mem : ∀ j ∈ js, j ∈ arcIndices orders
  room : ∀ j ∈ js, HasRoom capacities flows j
  cost_pos : 0 < cost (arcEdge orders) js

/-- A closed residual walk of positive cost with room on every arc. -/
structure PositiveWalk (capacities flows : ℕ → ℕ) (js : List ℕ) : Prop where
  closed : ∃ v, Leads (arcEdge orders) v js v
  mem : ∀ j ∈ js, j ∈ arcIndices orders
  room : ∀ j ∈ js, HasRoom capacities flows j
  cost_pos : 0 < cost (arcEdge orders) js

/-- No arc with room is improvable: the potential certifies the flows. -/
def Certifies (capacities flows : ℕ → ℕ) (p : ℕ → ℤ) : Prop :=
  ∀ j ∈ arcIndices orders, HasRoom capacities flows j →
    p (arcEdge orders j).tail + (arcEdge orders j).cost ≤ p (arcEdge orders j).head

/-- Orders between two different assets of the given number. -/
def Tradable (assets : ℕ) : Prop :=
  ∀ i < orders.length, sellOf orders i ≠ buyOf orders i ∧ sellOf orders i < assets ∧
    buyOf orders i < assets

variable {orders} {capacities flows : ℕ → ℕ}

/-- The cycle that is found is a walk. -/
theorem PositiveCycle.walk {js : List ℕ} (h : PositiveCycle orders capacities flows js) :
    PositiveWalk orders capacities flows js :=
  ⟨h.cycle.closed, h.mem, h.room, h.cost_pos⟩

/-- A certificate excludes closed walks of positive cost. -/
theorem Certifies.not_walk {p : ℕ → ℤ} (h : Certifies orders capacities flows p) {js : List ℕ} :
    ¬PositiveWalk orders capacities flows js := by
  rintro ⟨⟨v, hv⟩, hmem, hroom, hpos⟩
  have hle := cost_le_zero_of_settled (s := { distance := p }) hv fun j hj =>
    not_lt.mpr (h j (hmem j hj) (hroom j hj))
  omega

theorem mem_arcIndices {j : ℕ} : j ∈ arcIndices orders ↔ (arcKey j).1 < orders.length := by
  simp only [arcIndices, List.mem_range, arcKey]
  omega

/-- Every arc of the residual graph has an index. -/
theorem exists_arcKey (a : Circulation.Arc ℕ) : ∃ j, arcKey j = a := by
  obtain ⟨i, _ | _⟩ := a
  · exact ⟨2 * i, by simp [arcKey]⟩
  · refine ⟨2 * i + 1, ?_⟩
    simp only [arcKey, Prod.mk.injEq, decide_eq_true_eq]
    omega

/-! ## The source's search is the library's -/

/-- The arc at an index, while flows are within the capacities. -/
theorem arc_eq (hle : ∀ i, flows i ≤ capacities i) (j : ℕ) :
    arc orders capacities flows j = .ok
      { arcEdge orders j with
        order := (arcKey j).1
        reverse := (arcKey j).2
        cap := Circulation.room capacities flows (arcKey j) } := by
  by_cases hj : j % 2 = 1
  · simp [arc, hj, arcEdge, arcKey, Circulation.residual, Circulation.room, sellOf, buyOf]
  · simp [arc, hj, arcEdge, arcKey, Circulation.residual, Circulation.room, sellOf, buyOf,
      subUint_of_le (hle (j / 2))]

variable (orders) in
/-- One relaxation of the source is one of the library. -/
theorem relaxArc_runs (hle : ∀ i, flows i ≤ capacities i) (s : Labels ℕ ℕ) (j : ℕ) :
    RunsTo (relaxArc orders capacities flows s j) 1
      (.ok (relax (arcEdge orders) (HasRoom capacities flows) s j)) := by
  rw [relaxArc, arc_eq hle]
  refine runsTo_charge_bind (n := 0) ?_ (Nat.le_refl 1)
  rw [lift_ok, pure_bind, relax]
  unfold HasRoom Improves
  split
  · exact Runs.pure _
  · exact Runs.pure _

theorem foldlM_ok {α β : Type} (f : β → α → β) (xs : List α) (b : β) :
    xs.foldlM (fun b a => (.ok (f b a) : Result β)) b = .ok (xs.foldl f b) := by
  induction xs generalizing b with
  | nil => rfl
  | cons x xs ih =>
    rw [List.foldlM_cons, ok_bind, List.foldl_cons]
    exact ih (f b x)

variable (orders) in
/-- The sweeps of the source are those of the library. -/
theorem relaxSweeps_runs (hle : ∀ i, flows i ≤ capacities i) (n : ℕ) (s : Labels ℕ ℕ) :
    RunsTo (relaxSweeps orders capacities flows n s) (n * (orders.length * 2))
      (.ok (search (arcEdge orders) (HasRoom capacities flows) (arcIndices orders) n s)) := by
  induction n generalizing s with
  | zero => exact (Runs.pure _).mono (Nat.zero_le _)
  | succ n ih =>
    have hsweep : RunsTo ((List.range (orders.length * 2)).foldlM
        (relaxArc orders capacities flows) { s with updated := none }) (orders.length * 2)
        (.ok (sweep (arcEdge orders) (HasRoom capacities flows) (arcIndices orders) s)) := by
      have hrun : RunsTo ((List.range (orders.length * 2)).foldlM
          (relaxArc orders capacities flows) { s with updated := none })
          (1 * (List.range (orders.length * 2)).length) _ :=
        Runs.foldlM (fun b a _ => relaxArc_runs orders hle b a) _
      rw [List.length_range, Nat.one_mul, foldlM_ok] at hrun
      exact hrun
    rw [relaxSweeps, search, Nat.succ_mul, Nat.add_comm]
    refine hsweep.bind ?_
    split
    · exact (Runs.pure _).mono (Nat.zero_le _)
    · exact ih _

theorem stepBack_eq (hle : ∀ i, flows i ≤ capacities i) (s : Labels ℕ ℕ) (n v : ℕ) :
    stepBack orders capacities flows s n v =
      orError .arithmetic (backtrack (arcEdge orders) s n v) := by
  induction n generalizing v with
  | zero => rfl
  | succ n ih =>
    rw [stepBack, backtrack]
    rcases s.previous v with - | j
    · rfl
    · rw [orError, ok_bind, arc_eq hle, ok_bind]
      exact ih _

theorem cycleArcs_eq (hle : ∀ i, flows i ≤ capacities i) (s : Labels ℕ ℕ) (start n v : ℕ) :
    cycleArcs orders capacities flows s start n v =
      orError .arithmetic (collect (arcEdge orders) s start n v) := by
  induction n generalizing v with
  | zero => rfl
  | succ n ih =>
    rw [cycleArcs, collect]
    rcases s.previous v with - | j
    · rfl
    · rw [orError, ok_bind, arc_eq hle, ok_bind, Option.bind_some]
      split
      · rfl
      · rw [ih]
        rcases collect (arcEdge orders) s start n (arcEdge orders j).tail with - | js <;> rfl

/-! ## The outcome -/

/-- What `improving_cycle` returns: a positive cycle, or nothing under a certificate. -/
def Searched (orders : List FlowIntent) (capacities flows : ℕ → ℕ) : Option (List ℕ) → Prop
  | some js => PositiveCycle orders capacities flows js
  | none => ∃ p, Certifies orders capacities flows p

theorem Tradable.loop {assets : ℕ} (h : Tradable orders assets) :
    ∀ j ∈ arcIndices orders, (arcEdge orders j).tail ≠ (arcEdge orders j).head := by
  intro j hj
  have hne := (h (arcKey j).1 (mem_arcIndices.mp hj)).1
  rcases hk : arcKey j with ⟨i, _ | _⟩
  · simpa [arcEdge, hk, Circulation.residual] using (show i = (arcKey j).1 by rw [hk]) ▸ hne
  · simpa [arcEdge, hk, Circulation.residual] using ((show i = (arcKey j).1 by rw [hk]) ▸ hne).symm

theorem Tradable.mem {assets : ℕ} (h : Tradable orders assets) :
    ∀ j ∈ arcIndices orders, (arcEdge orders j).tail ∈ Finset.range assets ∧
      (arcEdge orders j).head ∈ Finset.range assets := by
  intro j hj
  obtain ⟨-, hsell, hbuy⟩ := h (arcKey j).1 (mem_arcIndices.mp hj)
  rw [Finset.mem_range, Finset.mem_range]
  rcases hk : arcKey j with ⟨i, _ | _⟩
  · rw [hk] at hsell hbuy
    simp only [arcEdge, hk, Circulation.residual]
    exact ⟨hsell, hbuy⟩
  · rw [hk] at hsell hbuy
    simp only [arcEdge, hk, Circulation.residual]
    exact ⟨hbuy, hsell⟩

/-- The work of one search for an improving cycle. -/
def cycleCost (orders : List FlowIntent) (assets : ℕ) : ℕ := assets * (orders.length * 2)

/-- With enough work the search for an improving cycle succeeds. -/
theorem improvingCycle_runs {assets : ℕ} (h : Tradable orders assets) (hassets : 0 < assets)
    (hle : ∀ i, flows i ≤ capacities i) :
    ∃ r, RunsTo (improvingCycle orders capacities flows assets) (cycleCost orders assets) (.ok r) ∧
      Searched orders capacities flows r := by
  have hsweeps := relaxSweeps_runs orders hle assets {}
  rcases hs : search (arcEdge orders) (HasRoom capacities flows) (arcIndices orders) assets {}
    with - | s
  · obtain ⟨s', hsettled⟩ := settled_of_search hs
    refine ⟨none, ?_, s'.distance, fun j hj hroom => not_lt.mp (hsettled j hj hroom)⟩
    rw [hs] at hsweeps
    refine (hsweeps.bind (l := 0) (r := .ok none) ?_).mono (Nat.le_refl _)
    exact Runs.pure _
  · obtain ⟨v, w, js, hv, hw, hjs, hcycle, hmem, hcost, -⟩ := exists_cycle h.mem
      (Nat.le_of_eq (Finset.card_range assets)) hassets h.loop hs
    refine ⟨some js, ?_, hcycle, fun j hj => (hmem j hj).1, fun j hj => (hmem j hj).2, hcost⟩
    rw [hs] at hsweeps
    refine (hsweeps.bind (l := 0) (r := .ok (some js)) ?_).mono (Nat.le_refl _)
    simp only [hv, stepBack_eq hle, hw, cycleArcs_eq hle, hjs, orError, lift_ok, pure_bind]
    exact Runs.pure _

/-- A search that returns has found what it says. -/
theorem improvingCycle_ok {assets : ℕ} (h : Tradable orders assets) (hassets : 0 < assets)
    (hle : ∀ i, flows i ≤ capacities i) {m m' : WorkMeter} {r : Option (List ℕ)}
    (hrun : improvingCycle orders capacities flows assets m = (.ok r, m')) :
    Searched orders capacities flows r := by
  obtain ⟨r', hruns, hr'⟩ := improvingCycle_runs h hassets hle
  have heq := hruns.eq_of_ok hrun
  cases heq
  exact hr'

/-- A certificate bounds every circulation within the capacities. -/
theorem Certifies.sum_le {p : ℕ → ℤ} (h : Certifies orders capacities flows p) {g : ℕ → ℕ}
    (hf : Circulation.Balanced (indices orders) (sellOf orders) (buyOf orders) flows)
    (hg : Circulation.Balanced (indices orders) (sellOf orders) (buyOf orders) g)
    (hcap : ∀ i ∈ indices orders, g i ≤ capacities i) :
    ∑ i ∈ indices orders, g i ≤ ∑ i ∈ indices orders, flows i := by
  refine Circulation.sum_le_of_potential p hf hg hcap fun a ha hroom => ?_
  obtain ⟨j, rfl⟩ := exists_arcKey a
  exact h j (mem_arcIndices.mpr (Finset.mem_range.mp ha)) hroom

end StockMesh

import StockMesh.Compiler.PoolMath

/-! # The adaptive bisection of a pool

`Chords.Inv` is what the bisection keeps: strictly increasing boundaries from zero to the capacity,
with the cached value and tangent bound of each. Initialising, choosing an interval and splitting it
never overflow, so the whole refinement succeeds and ends with at most sixteen intervals. -/

namespace StockMesh

open Budgeted Stateful Function

/-- The caches agree with the boundaries, which increase from zero to the capacity. -/
structure Chords.Inv (r y f capacity : ℕ) (c : Chords) : Prop where
  n_pos : 0 < c.n
  n_le : c.n ≤ maxSegments
  start : c.boundaries 0 = 0
  stop : c.boundaries c.n = capacity
  step : ∀ j < c.n, c.boundaries j < c.boundaries (j + 1)
  values_eq : ∀ j ≤ c.n, c.values j = cpValue r y f (c.boundaries j)
  tangents_eq : ∀ j < c.n, c.tangents j = tangentBound r y f (c.boundaries j)

/-- What holds of a pool's parameters throughout its compilation. -/
structure Pool (r y f capacity : ℕ) : Prop extends PoolBounds r y f where
  capacity_pos : 0 < capacity
  capacity_le : capacity ≤ maxAtoms
  rate_le_maxRate : tangentBound r y f 0 ≤ maxRate

namespace Pool

variable {r y f capacity : ℕ}

/-- Every tangent bound is within the largest rate. -/
theorem tangent_le (h : Pool r y f capacity) (x : ℕ) : tangentBound r y f x ≤ maxRate :=
  (h.tangentBound_le_zero x).trans h.rate_le_maxRate

/-- A priority does not overflow. -/
theorem gap_lt (h : Pool r y f capacity) (x slope : ℕ) {width : ℕ} (hw : width ≤ maxAtoms) :
    (tangentBound r y f x - slope) * width ≤ 28147497671065600000000000000 := by
  have hmul : (tangentBound r y f x - slope) * width ≤ maxRate * maxAtoms :=
    Nat.mul_le_mul ((Nat.sub_le _ _).trans (h.tangent_le x)) hw
  exact hmul.trans_eq (by norm_num [maxRate, maxAtoms])

end Pool

namespace Chords

variable {r y f capacity : ℕ} {c : Chords}

namespace Inv

/-- Boundaries increase. -/
theorem le_of_le (hc : c.Inv r y f capacity) {i j : ℕ} (hij : i ≤ j) (hj : j ≤ c.n) :
    c.boundaries i ≤ c.boundaries j := by
  induction j, hij using Nat.le_induction with
  | base => exact le_rfl
  | succ j hij ih =>
    have := hc.step j (by omega)
    have := ih (by omega)
    omega

/-- No boundary is past the capacity. -/
theorem le_capacity (hc : c.Inv r y f capacity) {j : ℕ} (hj : j ≤ c.n) :
    c.boundaries j ≤ capacity :=
  (hc.le_of_le hj le_rfl).trans_eq hc.stop

/-- The priority of an interval is computed without overflow. -/
theorem gap_ok (h : Pool r y f capacity) {c : Chords} {j : ℕ}
    (hlt : c.boundaries j < c.boundaries (j + 1)) (hle : c.boundaries (j + 1) ≤ capacity)
    (hv : c.values j = cpValue r y f (c.boundaries j))
    (hv' : c.values (j + 1) = cpValue r y f (c.boundaries (j + 1)))
    (ht : c.tangents j = tangentBound r y f (c.boundaries j)) : ∃ g, c.gap j = .ok g := by
  have hvalues : c.values j ≤ c.values (j + 1) := by
    rw [hv, hv']
    exact h.cpValue_mono hlt.le
  have hcap := h.capacity_le
  have hc := constants
  have hgap := h.gap_lt (c.boundaries j)
    ((c.values (j + 1) - c.values j) / (c.boundaries (j + 1) - c.boundaries j))
    (show c.boundaries (j + 1) - c.boundaries j ≤ maxAtoms by omega)
  refine ⟨(tangentBound r y f (c.boundaries j) - (c.values (j + 1) - c.values j)
    / (c.boundaries (j + 1) - c.boundaries j)) * (c.boundaries (j + 1) - c.boundaries j), ?_⟩
  rw [Chords.gap, subUint_of_le hlt.le, ok_bind, subUint_of_le hvalues, ok_bind,
    divU128_of_pos (by omega), ok_bind, ht, mulU128_of_lt (by omega)]

end Inv

/-- The bisection starts from one interval. -/
theorem init_ok (h : Pool r y f capacity) :
    ∃ c, init r y f capacity (tangentBound r y f 0) = .ok c ∧ c.Inv r y f capacity ∧ c.n = 1 := by
  have hcap := h.capacity_pos
  have hle := h.capacity_le
  have hc := constants
  have hgap := h.gap_lt 0 (cpValue r y f capacity / capacity) hle
  let c : Chords :=
    { n := 1
      boundaries := update (fun _ => 0) 1 capacity
      values := update (fun _ => 0) 1 (cpValue r y f capacity)
      tangents := update (fun _ => 0) 0 (tangentBound r y f 0)
      gaps := update (fun _ => 0) 0
        ((tangentBound r y f 0 - cpValue r y f capacity / capacity) * capacity) }
  refine ⟨c, ?_, ?_, rfl⟩
  · rw [init, h.cpFp_eq hle, ok_bind, divU128_of_pos hcap, ok_bind, mulU128_of_lt (by omega), ok_bind]
  · refine ⟨Nat.one_pos, (by decide : 1 ≤ maxSegments), by simp [c], by simp [c],
      fun j hj => ?_, fun j hj => ?_, fun j hj => ?_⟩
    · obtain rfl : j = 0 := Nat.lt_one_iff.mp hj
      simpa [c] using hcap
    · have hj : j ≤ 1 := hj
      rcases (by omega : j = 0 ∨ j = 1) with rfl | rfl
      · simp [c, cpValue]
      · simp [c]
    · obtain rfl : j = 0 := Nat.lt_one_iff.mp hj
      simp [c]

/-! ## Choosing the interval to split -/

/-- What the search has found: nothing, or an interval of at least two atoms. -/
def Splittable (c : Chords) (best : Option ℕ × ℕ) : Prop :=
  ∀ i, best.1 = some i → i < c.n ∧ 2 ≤ c.boundaries (i + 1) - c.boundaries i

/-- One comparison keeps the choice splittable. -/
theorem Inv.pickStep_ok (hc : c.Inv r y f capacity) {i : ℕ} (hi : i < c.n)
    {best : Option ℕ × ℕ} (hbest : c.Splittable best) :
    ∃ best', RunsTo (c.pickStep best i) 1 (.ok best') ∧ c.Splittable best' := by
  have hlt := hc.step i hi
  unfold pickStep
  rw [subUint_of_le hlt.le, lift_ok]
  simp only [pure_bind]
  by_cases hwidth : c.boundaries (i + 1) - c.boundaries i ≤ 1
  · rw [if_pos hwidth]
    exact ⟨best, runsTo_charge_bind (Runs.pure best) le_rfl, hbest⟩
  · rw [if_neg hwidth]
    split
    · refine ⟨(some i, c.gaps i), runsTo_charge_bind (Runs.pure (some i, c.gaps i)) le_rfl, fun k hk => ?_⟩
      cases hk
      exact ⟨hi, by omega⟩
    · exact ⟨best, runsTo_charge_bind (Runs.pure best) le_rfl, hbest⟩

/-- The search ends with a splittable choice. -/
theorem Inv.pick_ok (hc : c.Inv r y f capacity) :
    ∃ best, RunsTo c.pick maxSegments (.ok best) ∧ c.Splittable best := by
  obtain ⟨best, hrun, hbest⟩ := Runs.foldlM_range (P := fun _ => c.Splittable)
    (fun i hi b hb => hc.pickStep_ok hi hb) (b := ((none, 0) : Option ℕ × ℕ))
    (fun i hi => by cases hi)
  exact ⟨best, hrun.mono (by have := hc.n_le; omega), hbest⟩

/-! ## Splitting it -/

/-- The arrays after a split: entries up to `i` stay, the new one goes to `i + 1`, later ones
move up. -/
def insertAt (a : ℕ → ℕ) (i n v : ℕ) : ℕ → ℕ := update (shiftUp a (i + 2) (n + 1)) (i + 1) v

theorem insertAt_left (a : ℕ → ℕ) {i n j : ℕ} (v : ℕ) (hj : j ≤ i) : insertAt a i n v j = a j := by
  rw [insertAt, update_of_ne (by omega), shiftUp, if_neg (by omega)]

theorem insertAt_self (a : ℕ → ℕ) (i n v : ℕ) : insertAt a i n v (i + 1) = v := update_self _ _ _

theorem insertAt_right (a : ℕ → ℕ) {i n j : ℕ} (v : ℕ) (hi : i < j) (hj : j ≤ n) :
    insertAt a i n v (j + 1) = a j := by
  rw [insertAt, update_of_ne (by omega), shiftUp, if_pos (by omega), Nat.add_sub_cancel]

/-- A pointwise relation between two arrays survives inserting a related pair. -/
theorem insertAt_rel {a b : ℕ → ℕ} {i n v w : ℕ} {R : ℕ → ℕ → Prop} (hi : i < n)
    (hab : ∀ j ≤ n, R (a j) (b j)) (hvw : R v w) :
    ∀ j ≤ n + 1, R (insertAt a i n v j) (insertAt b i n w j) := by
  intro j hj
  rcases Nat.lt_trichotomy j (i + 1) with hlt | rfl | hgt
  · rw [insertAt_left a v (by omega), insertAt_left b w (by omega)]
    exact hab j (by omega)
  · rw [insertAt_self, insertAt_self]
    exact hvw
  · obtain ⟨k, rfl⟩ : ∃ k, j = k + 1 := ⟨j - 1, by omega⟩
    rw [insertAt_right a v (by omega) (by omega), insertAt_right b w (by omega) (by omega)]
    exact hab k (by omega)

/-- Splitting an interval of at least two atoms keeps the invariant. -/
theorem Inv.split_ok (h : Pool r y f capacity) (hc : c.Inv r y f capacity) {i : ℕ} (hi : i < c.n)
    (hwidth : 2 ≤ c.boundaries (i + 1) - c.boundaries i) (hn : c.n < maxSegments) :
    ∃ c', c.split r y f i = .ok c' ∧ c'.Inv r y f capacity ∧ c'.n = c.n + 1 := by
  have hcap := h.capacity_le
  have hconst := constants
  have hnext := hc.le_capacity (show i + 1 ≤ c.n from hi)
  obtain ⟨middle, hmiddle⟩ : ∃ m, m
      = c.boundaries i + (c.boundaries (i + 1) - c.boundaries i) / 2 := ⟨_, rfl⟩
  have hleft : c.boundaries i < middle := by omega
  have hright : middle < c.boundaries (i + 1) := by omega
  -- the arrays after the split, and the facts of the invariant about them
  have hstep : ∀ j < c.n + 1, insertAt c.boundaries i c.n middle j
      < insertAt c.boundaries i c.n middle (j + 1) := by
    intro j hj
    rcases Nat.lt_trichotomy j i with hlt | rfl | hgt
    · rw [insertAt_left _ _ hlt.le, insertAt_left _ _ (by omega)]
      exact hc.step j (by omega)
    · rw [insertAt_left _ _ le_rfl, insertAt_self]
      exact hleft
    · rcases (by omega : j = i + 1 ∨ i + 1 < j) with rfl | hgt
      · rw [insertAt_self, insertAt_right _ _ (by omega) (by omega)]
        exact hright
      · obtain ⟨k, rfl⟩ : ∃ k, j = k + 1 := ⟨j - 1, by omega⟩
        rw [insertAt_right _ _ (by omega) (by omega), insertAt_right _ _ (by omega) (by omega)]
        exact hc.step k (by omega)
  have hvalues := insertAt_rel (R := fun v b => v = cpValue r y f b) hi hc.values_eq
    (rfl : cpValue r y f middle = _)
  have htangents : ∀ j < c.n + 1, insertAt c.tangents i c.n (tangentBound r y f middle) j
      = tangentBound r y f (insertAt c.boundaries i c.n middle j) := by
    intro j hj
    rcases Nat.lt_trichotomy j (i + 1) with hlt | rfl | hgt
    · rw [insertAt_left _ _ (by omega), insertAt_left _ _ (by omega)]
      exact hc.tangents_eq j (by omega)
    · rw [insertAt_self, insertAt_self]
    · obtain ⟨k, rfl⟩ : ∃ k, j = k + 1 := ⟨j - 1, by omega⟩
      rw [insertAt_right _ _ (by omega) (by omega), insertAt_right _ _ (by omega) (by omega)]
      exact hc.tangents_eq k (by omega)
  have hbound : insertAt c.boundaries i c.n middle (i + 2) ≤ capacity := by
    rw [insertAt_right _ _ (by omega) (by omega)]
    exact hnext
  let d : Chords :=
    { n := c.n
      boundaries := insertAt c.boundaries i c.n middle
      values := insertAt c.values i c.n (cpValue r y f middle)
      tangents := insertAt c.tangents i c.n (tangentBound r y f middle)
      gaps := shiftUp c.gaps (i + 2) c.n }
  obtain ⟨left, hgapLeft⟩ : ∃ g, d.gap i = .ok g :=
    gap_ok h (hstep i (by omega)) (by
        have := hstep (i + 1) (by omega)
        exact this.le.trans hbound)
      (hvalues i (by omega)) (hvalues (i + 1) (by omega)) (htangents i (by omega))
  obtain ⟨right, hgapRight⟩ : ∃ g, d.gap (i + 1) = .ok g :=
    gap_ok h (hstep (i + 1) (by omega)) hbound (hvalues (i + 1) (by omega))
      (hvalues (i + 2) (by omega)) (htangents (i + 1) (by omega))
  refine ⟨{ d with n := c.n + 1, gaps := update (update d.gaps i left) (i + 1) right }, ?_, ?_, rfl⟩
  · have hi2 : shiftUp c.boundaries (i + 2) (c.n + 1) (i + 2) = c.boundaries (i + 1) := by
      rw [shiftUp, if_pos (by omega)]
      rfl
    have hi0 : shiftUp c.boundaries (i + 2) (c.n + 1) i = c.boundaries i := by
      rw [shiftUp, if_neg (by omega)]
    have e1 : subUint (c.boundaries (i + 1)) (c.boundaries i)
        = .ok (c.boundaries (i + 1) - c.boundaries i) := subUint_of_le (by omega)
    have e2 : addU64 (c.boundaries i) ((c.boundaries (i + 1) - c.boundaries i) / 2)
        = .ok middle := by
      rw [hmiddle]
      exact addU64_of_lt (by omega)
    have e3 : cpFp r y f middle = .ok (cpValue r y f middle) := h.cpFp_eq (by omega)
    have e4 : derivativeUpper r y f middle = .ok (tangentBound r y f middle) :=
      h.derivativeUpper_eq (by omega)
    unfold split
    dsimp only
    rw [hi2, hi0, e1, ok_bind, e2, ok_bind, e3, ok_bind, e4, ok_bind]
    change (d.gap i >>= fun left => d.gap (i + 1) >>= fun right => _) = _
    rw [hgapLeft, ok_bind, hgapRight, ok_bind]
    rfl
  · refine ⟨Nat.succ_pos _, hn, ?_, ?_, hstep, hvalues, htangents⟩
    · exact (insertAt_left (n := c.n) c.boundaries middle (Nat.zero_le i)).trans hc.start
    · exact (insertAt_right c.boundaries middle hi le_rfl).trans hc.stop

/-- The refinement ends with the invariant, within one search for each possible split. -/
theorem Inv.refine_ok (h : Pool r y f capacity) (k : ℕ) {c : Chords} (hc : c.Inv r y f capacity)
    (hk : c.n + k ≤ maxSegments) :
    ∃ c', RunsTo (c.refine r y f k) (maxSegments * k) (.ok c') ∧ c'.Inv r y f capacity := by
  induction k generalizing c with
  | zero => exact ⟨c, Runs.pure c, hc⟩
  | succ k ih =>
    obtain ⟨best, hpick, hbest⟩ := hc.pick_ok
    unfold refine
    rcases hchoice : best.1 with _ | i
    · refine ⟨c, ?_, hc⟩
      refine (hpick.bind (l := maxSegments * k) ?_).mono (by rw [Nat.mul_succ]; omega)
      rw [hchoice]
      exact (Runs.pure c).mono (by omega)
    · obtain ⟨hi, hwidth⟩ := hbest i hchoice
      obtain ⟨d, hsplit, hd, hdn⟩ := hc.split_ok h hi hwidth (by omega)
      obtain ⟨c', hrun, hc'⟩ := ih hd (by omega)
      refine ⟨c', ?_, hc'⟩
      refine (hpick.bind (l := maxSegments * k) ?_).mono (by rw [Nat.mul_succ]; omega)
      rw [hchoice]
      change RunsTo (lift (c.split r y f i) >>= _) _ _
      rw [hsplit, lift_ok, pure_bind]
      exact hrun

end Chords

end StockMesh

import StockMesh.Compiler.Curve
import StockMesh.Foundation.Merge
import StockMesh.Optimizer.Mask
import Mathlib.Algebra.Order.BigOperators.Group.Finset

/-! # Water filling

`waterfill` merges the marginal streams of the selected curves and takes bands in merge order until
the amount is used. `Merged` is the list of those bands with their venues, and `Merged.allocation`
what filling an amount from it gives; `waterfill_runs` says the loop computes exactly that. -/

namespace StockMesh

open Budgeted Stateful Function

/-- An allocation of the input over the edges. -/
structure Allocation where
  inputs : Edge → ℕ := fun _ => 0
  output : ℕ := 0
  mask : Mask := 0
  deriving DecidableEq

/-- `&curves[i]`. -/
def curveAt (curves : List Curve) (i : Edge) : Curve := curves.getD i.val default

/-- `&c.segments[k]`. -/
def bandAt (c : Curve) (k : ℕ) : Segment := c.segments.toList.getD k default

/-- The indices of `iter().enumerate()` over `n` venues. -/
def venues (n : ℕ) : List Edge := (List.finRange maxEdges).filter fun i => decide (i.val < n)

/-- The variables of the filling loop. -/
structure WaterState where
  cursor : Edge → ℕ
  inputs : Edge → ℕ
  mask : Mask
  remaining : ℕ
  score : ℕ

/-- One comparison of the scan for the largest marginal rate: a strictly larger one wins. -/
def scanStep (curves : List Curve) (mask : Mask) (cursor : Edge → ℕ) (best : Option Edge)
    (i : Edge) : Metered (Option Edge) := do
  charge 1
  if mask.has i = false ∨ (curveAt curves i).len ≤ cursor i then
    pure best
  else
    match best with
    | none => pure (some i)
    | some j =>
      if (bandAt (curveAt curves j) (cursor j)).marginalQ32
          < (bandAt (curveAt curves i) (cursor i)).marginalQ32 then
        pure (some i)
      else
        pure best

/-- The loop `while remaining > 0`. Every turn consumes a band, so the first argument bounds the
turns by the number of bands. -/
def waterfillLoop (curves : List Curve) (mask : Mask) : ℕ → WaterState → Metered WaterState
  | 0, _ => fail .overflow
  | k + 1, st => do
    if st.remaining = 0 then
      pure st
    else
      match ← (venues curves.length).foldlM (scanStep curves mask st.cursor) none with
      | none => fail .capacity
      | some i => do
        let s := bandAt (curveAt curves i) (st.cursor i)
        let take := min st.remaining s.inputCapacity
        waterfillLoop curves mask k
          { cursor := update st.cursor i (st.cursor i + 1)
            inputs := update st.inputs i (st.inputs i + take)
            mask := st.mask ||| Mask.bit i
            remaining := st.remaining - take
            score := st.score + take * s.marginalQ32 }

/-- Turns of the filling loop: at most one for each stored band, and the last test. -/
def waterfillTurns : ℕ := maxEdges * maxSegments + 1

/-- `waterfill`. -/
def waterfill (curves : List Curve) (amount : ℕ) (mask : Mask) : Metered Allocation := do
  lift (rejectIf (curves.length = 0 ∨ maxEdges < curves.length ∨ amount = 0 ∨ maxAtoms < amount)
    .invalidAmount)
  lift (rejectIf (mask = 0 ∨ 2 ^ curves.length ≤ mask.toNat) .bounds)
  lift ((venues curves.length).forM fun i =>
    if mask.has i then (curveAt curves i).validate else .ok ())
  let st ← waterfillLoop curves mask waterfillTurns
    { cursor := fun _ => 0, inputs := fun _ => 0, mask := 0, remaining := amount, score := 0 }
  let output ← lift (asU64 (st.score / scale))
  pure { inputs := st.inputs, output := output, mask := st.mask }

/-! ## The merged book -/

/-- Bands of several venues in merge order. -/
abbrev Merged := List (Edge × Segment)

namespace Merged

/-- Input atoms of all bands. -/
def total (L : Merged) : ℕ := Bands.total (fun p => p.2.inputCapacity) L

/-- Atoms of the first `x` that go to venue `i`. -/
def fill (L : Merged) (x : ℕ) (i : Edge) : ℕ :=
  Bands.fill Prod.fst (fun p => p.2.inputCapacity) L x i

/-- Q32 output of the first `x` atoms. -/
def area (L : Merged) (x : ℕ) : ℕ :=
  Bands.area (fun p => p.2.inputCapacity) (fun p => p.2.marginalQ32) L x

@[simp] theorem total_nil : total [] = 0 := rfl

@[simp] theorem fill_nil (x : ℕ) (i : Edge) : fill [] x i = 0 := rfl

@[simp] theorem area_nil (x : ℕ) : area [] x = 0 := rfl

@[simp] theorem total_cons (p : Edge × Segment) (L : Merged) :
    total (p :: L) = p.2.inputCapacity + total L := Bands.total_cons _ _ _

@[simp] theorem fill_zero (L : Merged) (i : Edge) : fill L 0 i = 0 := Bands.fill_zero _ _ _

@[simp] theorem area_zero (L : Merged) : area L 0 = 0 := Bands.area_zero _ _ _

theorem fill_cons (p : Edge × Segment) (L : Merged) (x : ℕ) (i : Edge) :
    fill (p :: L) x i = (if p.1 = i then min x p.2.inputCapacity else 0)
      + fill L (x - p.2.inputCapacity) i := rfl

theorem area_cons (p : Edge × Segment) (L : Merged) (x : ℕ) :
    area (p :: L) x = min x p.2.inputCapacity * p.2.marginalQ32
      + area L (x - p.2.inputCapacity) := rfl

/-- Filling `amount` in merge order. -/
def allocation (L : Merged) (amount : ℕ) : Allocation :=
  { inputs := L.fill amount
    output := L.area amount / scale
    mask := Mask.support (L.fill amount) }

/-- The conservative output: the venues' outputs, each rounded and less its error field. -/
def lowerOutput (L : Merged) (curves : List Curve) (amount : ℕ) : ℕ :=
  ∑ i : Edge, if 0 < L.fill amount i then
    Curve.integral (Merge.stream L i) (L.fill amount i) / scale
      - (curveAt curves i).lowerErrorAtoms else 0

/-- The result of filling `amount`, `Capacity` when the bands do not reach it. -/
def result (L : Merged) (amount : ℕ) : Result Allocation :=
  if L.total < amount then .error .capacity else .ok (L.allocation amount)

/-- The result with its output replaced by the conservative one on request. -/
def answer (L : Merged) (curves : List Curve) (lower : Bool) (amount : ℕ) : Result Allocation := do
  let p ← L.result amount
  .ok (if lower then { p with output := L.lowerOutput curves amount } else p)

theorem answer_false (L : Merged) (curves : List Curve) (amount : ℕ) :
    L.answer curves false amount = L.result amount := by
  unfold answer
  rcases L.result amount with e | p
  · rfl
  · rfl

end Merged

/-- The streams left under `cursor`: the bands of each selected venue that are not yet consumed. -/
def streamsAt (curves : List Curve) (mask : Mask) (cursor : Edge → ℕ) (i : Edge) : List Segment :=
  if mask.has i then (curveAt curves i).bands.drop (cursor i) else []

/-- `L` is the merged book of the selected venues. -/
abbrev IsBook (curves : List Curve) (mask : Mask) (L : Merged) : Prop :=
  Merge.IsMerge Segment.marginalQ32 (streamsAt curves mask fun _ => 0) L

/-- The selected curves exist and are valid. -/
structure Selected (curves : List Curve) (mask : Mask) : Prop where
  length_le : curves.length ≤ maxEdges
  lt_length : ∀ i, mask.has i = true → i.val < curves.length
  valid : ∀ i, mask.has i = true → (curveAt curves i).Valid

/-- A selected venue needs a curve. -/
theorem Selected.length_pos {curves : List Curve} {mask : Mask} (h : Selected curves mask)
    (hmask : mask ≠ 0) : 0 < curves.length := by
  by_contra hzero
  refine hmask (Mask.eq_zero_iff.mpr fun i => ?_)
  rw [← Bool.not_eq_true]
  intro hi
  have := h.lt_length i hi
  omega

@[simp] theorem mem_venues {n : ℕ} {i : Edge} : i ∈ venues n ↔ i.val < n := by
  rw [venues, List.mem_filter]
  simp [List.mem_finRange]

theorem length_venues_le (n : ℕ) : (venues n).length ≤ maxEdges :=
  (List.length_filter_le _ _).trans (by simp)

theorem venues_nodup (n : ℕ) : (venues n).Nodup := (List.nodup_finRange maxEdges).filter _

/-- The venues are listed in ascending order. -/
theorem venues_sorted (n : ℕ) : (venues n).Pairwise (· < ·) :=
  (List.pairwise_lt_finRange maxEdges).filter _

/-- The band under the cursor is the first unconsumed one. -/
theorem bands_drop {c : Curve} (hc : c.Valid) {k : ℕ} (hk : k < c.len) :
    c.bands.drop k = bandAt c k :: c.bands.drop (k + 1) := by
  have hlen : k < c.bands.length := by rwa [hc.length_bands]
  rw [List.drop_eq_getElem_cons hlen]
  congr 1
  have hlist : k < c.segments.toList.length := by
    have := hc.len_le
    rw [Vector.length_toList]
    omega
  rw [bandAt, List.getD_eq_getElem?_getD, List.getElem?_eq_getElem hlist]
  exact List.getElem_take

theorem bands_drop_of_le {c : Curve} {k : ℕ} (hk : c.len ≤ k) : c.bands.drop k = [] := by
  rw [List.drop_eq_nil_iff, Curve.length_bands]
  omega

section Scan

variable {curves : List Curve} {mask : Mask} {cursor : Edge → ℕ}

/-- Streams of valid curves are sorted. -/
theorem streamsAt_sorted (h : Selected curves mask) (cursor : Edge → ℕ) (i : Edge) :
    (streamsAt curves mask cursor i).Pairwise fun b c => c.marginalQ32 ≤ b.marginalQ32 := by
  unfold streamsAt
  split
  · rename_i hi
    exact (h.valid i hi).sorted.sublist (List.drop_sublist _ _)
  · exact List.Pairwise.nil

/-- The head of an unfinished stream. -/
theorem streamsAt_eq_cons (h : Selected curves mask) {i : Edge} (hi : mask.has i = true)
    (hlt : cursor i < (curveAt curves i).len) :
    streamsAt curves mask cursor i = bandAt (curveAt curves i) (cursor i)
      :: (curveAt curves i).bands.drop (cursor i + 1) := by
  rw [streamsAt, if_pos hi, bands_drop (h.valid i hi) hlt]

/-- A stream without a head is not selected or finished. -/
theorem streamsAt_eq_nil {i : Edge} (hi : mask.has i = false ∨ (curveAt curves i).len ≤ cursor i) :
    streamsAt curves mask cursor i = [] := by
  unfold streamsAt
  rcases hi with hi | hi
  · rw [if_neg (by simp [hi])]
  · split
    · exact bands_drop_of_le hi
    · rfl

/-- Consuming a band advances one stream. -/
theorem streamsAt_update (i : Edge) :
    streamsAt curves mask (update cursor i (cursor i + 1))
      = update (streamsAt curves mask cursor) i ((streamsAt curves mask cursor i).drop 1) := by
  funext j
  by_cases hj : j = i
  · subst hj
    rw [update_self, streamsAt, streamsAt, update_self]
    split
    · rw [List.drop_drop]
    · rfl
  · rw [update_of_ne hj, streamsAt, streamsAt, update_of_ne hj]

/-- What the scan knows after the venues `done`: no head among them, or the best of them. -/
def ScanInv (curves : List Curve) (mask : Mask) (cursor : Edge → ℕ) (done : List Edge) :
    Option Edge → Prop
  | none => ∀ j ∈ done, streamsAt curves mask cursor j = []
  | some i => i ∈ done ∧ mask.has i = true ∧ cursor i < (curveAt curves i).len ∧
      ∀ j ∈ done, ∀ c, (streamsAt curves mask cursor j).head? = some c →
        Merge.Before Segment.marginalQ32 (i, bandAt (curveAt curves i) (cursor i)) (j, c)

/-- One comparison keeps the best head. -/
theorem scanStep_runs (h : Selected curves mask) {done : List Edge} {best : Option Edge} {i : Edge}
    (hbest : ScanInv curves mask cursor done best) (hlt : ∀ j ∈ done, j < i) :
    ∃ best', RunsTo (scanStep curves mask cursor best i) 1 (.ok best') ∧
      ScanInv curves mask cursor (done ++ [i]) best' := by
  unfold scanStep
  by_cases hi : mask.has i = false ∨ (curveAt curves i).len ≤ cursor i
  · refine ⟨best, runsTo_charge_bind (n := 0) ?_ le_rfl, ?_⟩
    · rw [if_pos hi]
      exact Runs.pure best
    · have hnil := streamsAt_eq_nil hi
      cases best with
      | none =>
        intro j hj
        rcases List.mem_append.mp hj with hj | hj
        · exact hbest j hj
        · rw [List.mem_singleton.mp hj, hnil]
      | some k =>
        obtain ⟨hmem, hk, hcur, hbefore⟩ := hbest
        refine ⟨List.mem_append_left _ hmem, hk, hcur, fun j hj c hc => ?_⟩
        rcases List.mem_append.mp hj with hj | hj
        · exact hbefore j hj c hc
        · rw [List.mem_singleton.mp hj, hnil] at hc
          cases hc
  · have hhas : mask.has i = true := by
      rw [← Bool.not_eq_false]
      exact fun hf => hi (Or.inl hf)
    have hcur : cursor i < (curveAt curves i).len := by
      by_contra hge
      exact hi (Or.inr (by omega))
    have hcons := streamsAt_eq_cons h hhas hcur
    have hself : ∀ c, (streamsAt curves mask cursor i).head? = some c →
        c = bandAt (curveAt curves i) (cursor i) := by
      intro c hc
      rw [hcons] at hc
      exact (Option.some.inj hc).symm
    cases best with
    | none =>
      refine ⟨some i, runsTo_charge_bind (n := 0) ?_ le_rfl, by simp, hhas, hcur, ?_⟩
      · rw [if_neg hi]
        exact Runs.pure (some i)
      · intro j hj c hc
        rcases List.mem_append.mp hj with hj | hj
        · rw [hbest j hj] at hc
          cases hc
        · obtain rfl := List.mem_singleton.mp hj
          rw [hself c hc]
          exact Or.inr ⟨rfl, le_rfl⟩
    | some k =>
      obtain ⟨hmem, hk, hkcur, hbefore⟩ := hbest
      by_cases hrate : (bandAt (curveAt curves k) (cursor k)).marginalQ32
          < (bandAt (curveAt curves i) (cursor i)).marginalQ32
      · refine ⟨some i, runsTo_charge_bind (n := 0) ?_ le_rfl, by simp, hhas, hcur, ?_⟩
        · rw [if_neg hi]
          dsimp only
          rw [if_pos hrate]
          exact Runs.pure (some i)
        · intro j hj c hc
          rcases List.mem_append.mp hj with hj | hj
          · -- every earlier head is no better than the old best, which loses strictly
            rcases hbefore j hj c hc with hlt' | ⟨heq, -⟩
            · exact Or.inl (hlt'.trans hrate)
            · exact Or.inl (heq.trans_lt hrate)
          · obtain rfl := List.mem_singleton.mp hj
            rw [hself c hc]
            exact Or.inr ⟨rfl, le_rfl⟩
      · refine ⟨some k, runsTo_charge_bind (n := 0) ?_ le_rfl, List.mem_append_left _ hmem, hk,
          hkcur, ?_⟩
        · rw [if_neg hi]
          dsimp only
          rw [if_neg hrate]
          exact Runs.pure (some k)
        · intro j hj c hc
          rcases List.mem_append.mp hj with hj | hj
          · exact hbefore j hj c hc
          · obtain rfl := List.mem_singleton.mp hj
            rw [hself c hc]
            rcases (Nat.not_lt.mp hrate).lt_or_eq with hlt' | heq
            · exact Or.inl hlt'
            · exact Or.inr ⟨heq, (hlt k hmem).le⟩

/-- The scan ends with the best head of all venues. -/
theorem scan_runs (h : Selected curves mask) (cursor : Edge → ℕ) :
    ∃ best, RunsTo ((venues curves.length).foldlM (scanStep curves mask cursor) none) maxEdges
        (.ok best) ∧ ScanInv curves mask cursor (venues curves.length) best := by
  suffices hgen : ∀ (rest done : List Edge) (best : Option Edge),
      ScanInv curves mask cursor done best → (done ++ rest).Pairwise (· < ·) →
      ∃ best', RunsTo (rest.foldlM (scanStep curves mask cursor) best) rest.length (.ok best') ∧
        ScanInv curves mask cursor (done ++ rest) best' by
    obtain ⟨best, hrun, hbest⟩ := hgen (venues curves.length) [] none
      (fun j hj => by cases hj) (venues_sorted _)
    exact ⟨best, hrun.mono (length_venues_le _), hbest⟩
  intro rest
  induction rest with
  | nil =>
    intro done best hbest _
    exact ⟨best, Runs.pure best, by simpa using hbest⟩
  | cons i rest ih =>
    intro done best hbest hsorted
    have hlt : ∀ j ∈ done, j < i := fun j hj =>
      (List.pairwise_append.mp hsorted).2.2 j hj i List.mem_cons_self
    obtain ⟨best', hrun, hbest'⟩ := scanStep_runs h hbest hlt
    obtain ⟨best'', hrun', hbest''⟩ := ih (done ++ [i]) best' hbest' (by simpa using hsorted)
    refine ⟨best'', ?_, by simpa using hbest''⟩
    rw [List.foldlM_cons]
    exact (hrun.bind hrun').mono (by rw [List.length_cons]; omega)

/-- The best of a group that holds every selected venue heads the merged book. -/
theorem ScanInv.head (h : Selected curves mask) {L : Merged} {done : List Edge}
    {best : Option Edge} (hbest : ScanInv curves mask cursor done best)
    (hall : ∀ i, mask.has i = true → i ∈ done)
    (hL : Merge.IsMerge Segment.marginalQ32 (streamsAt curves mask cursor) L) :
    best = L.head?.map Prod.fst := by
  have hout : ∀ j, j ∉ done → streamsAt curves mask cursor j = [] := by
    intro j hj
    apply streamsAt_eq_nil
    left
    rw [← Bool.not_eq_true]
    exact fun hj' => hj (hall j hj')
  cases best with
  | none =>
    have hnil : L = [] := hL.nil_iff.mpr fun j => by
      by_cases hj : j ∈ done
      · exact hbest j hj
      · exact hout j hj
    rw [hnil]
    rfl
  | some i =>
    obtain ⟨-, hi, hcur, hbefore⟩ := hbest
    have hhead : Merge.IsHead Segment.marginalQ32 (streamsAt curves mask cursor) i
        (bandAt (curveAt curves i) (cursor i)) ((curveAt curves i).bands.drop (cursor i + 1)) := by
      refine ⟨streamsAt_eq_cons h hi hcur, fun j c hc => ?_⟩
      by_cases hj : j ∈ done
      · exact hbefore j hj c hc
      · rw [hout j hj] at hc
        cases hc
    rcases L with _ | ⟨⟨j, b⟩, L⟩
    · have hnil := hL.nil_iff.mp rfl i
      rw [hhead.stream_eq] at hnil
      cases hnil
    · obtain ⟨rest, hhead', -⟩ := hL.uncons
      rw [hhead.owner_eq hhead']
      rfl

/-- The scan finds the head of the merged book. -/
theorem scan_runs_book (h : Selected curves mask) {L : Merged}
    (hL : Merge.IsMerge Segment.marginalQ32 (streamsAt curves mask cursor) L) :
    RunsTo ((venues curves.length).foldlM (scanStep curves mask cursor) none) maxEdges
      (.ok (L.head?.map Prod.fst)) := by
  obtain ⟨best, hrun, hbest⟩ := scan_runs h cursor
  rw [← hbest.head h (fun i hi => mem_venues.mpr (h.lt_length i hi)) hL]
  exact hrun

end Scan

/-! ## The loop fills the merged book -/

/-- Filling from `L` until nothing remains, or `Capacity` when `L` is too short. -/
theorem waterfillLoop_runs {curves : List Curve} {mask : Mask} (h : Selected curves mask)
    {L : Merged} {st : WaterState} {k : ℕ}
    (hL : Merge.IsMerge Segment.marginalQ32 (streamsAt curves mask st.cursor) L)
    (hwidth : ∀ p ∈ L, 0 < p.2.inputCapacity) (hk : L.length < k) :
    (L.total < st.remaining → RunsTo (waterfillLoop curves mask k st) (maxEdges * k)
      (.error .capacity)) ∧
    (st.remaining ≤ L.total → ∃ st', RunsTo (waterfillLoop curves mask k st) (maxEdges * k)
        (.ok st') ∧ (∀ i, st'.inputs i = st.inputs i + L.fill st.remaining i) ∧
      (∀ i, st'.mask.has i = (st.mask.has i || decide (0 < L.fill st.remaining i))) ∧
      st'.score = st.score + L.area st.remaining) := by
  induction L generalizing st k with
  | nil =>
    obtain ⟨k, rfl⟩ : ∃ j, k = j + 1 := ⟨k - 1, by rw [List.length_nil] at hk; omega⟩
    rw [Merged.total_nil]
    refine ⟨fun hshort => ?_, fun hdone => ⟨st, ?_, by simp, by simp, by simp⟩⟩
    · unfold waterfillLoop
      rw [if_neg (by omega)]
      refine ((scan_runs_book h hL).bind (l := 0) ?_).mono (by rw [Nat.mul_succ]; omega)
      exact Runs.fail _
    · unfold waterfillLoop
      rw [if_pos (by omega)]
      exact (Runs.pure st).mono (by omega)
  | cons p L ih =>
    obtain ⟨i, b⟩ := p
    obtain ⟨k, rfl⟩ : ∃ j, k = j + 1 := ⟨k - 1, by rw [List.length_cons] at hk; omega⟩
    obtain ⟨rest, hhead, hrest⟩ := hL.uncons
    have hb : 0 < b.inputCapacity := hwidth (i, b) List.mem_cons_self
    rw [Merged.total_cons]
    dsimp only
    by_cases hzero : st.remaining = 0
    · -- nothing remains, the loop is over
      refine ⟨fun hshort => by omega, fun _ => ⟨st, ?_, ?_, ?_, ?_⟩⟩
      · unfold waterfillLoop
        rw [if_pos hzero]
        exact (Runs.pure st).mono (by omega)
      all_goals simp [hzero]
    -- the band under the cursor of the chosen venue is `b`
    have hi : mask.has i = true := by
      by_contra hi
      have hnil : streamsAt curves mask st.cursor i = [] :=
        streamsAt_eq_nil (Or.inl (by simpa using hi))
      rw [hhead.stream_eq] at hnil
      cases hnil
    have hcur : st.cursor i < (curveAt curves i).len := by
      by_contra hge
      have hnil : streamsAt curves mask st.cursor i = [] :=
        streamsAt_eq_nil (Or.inr (by omega))
      rw [hhead.stream_eq] at hnil
      cases hnil
    have hcons := streamsAt_eq_cons h hi hcur
    obtain ⟨hband, hrestEq⟩ := List.cons.inj (hhead.stream_eq.symm.trans hcons)
    let st' : WaterState :=
      { cursor := update st.cursor i (st.cursor i + 1)
        inputs := update st.inputs i (st.inputs i + min st.remaining b.inputCapacity)
        mask := st.mask ||| Mask.bit i
        remaining := st.remaining - min st.remaining b.inputCapacity
        score := st.score + min st.remaining b.inputCapacity * b.marginalQ32 }
    have hloop : ∀ r, RunsTo (waterfillLoop curves mask k st') (maxEdges * k) r →
        RunsTo (waterfillLoop curves mask (k + 1) st) (maxEdges * (k + 1)) r := by
      intro r hr
      rw [waterfillLoop, if_neg hzero]
      refine ((scan_runs_book h hL).bind (l := maxEdges * k) ?_).mono (by rw [Nat.mul_succ]; omega)
      change RunsTo (waterfillLoop curves mask k _) _ _
      rw [← hband]
      exact hr
    have hL' : Merge.IsMerge Segment.marginalQ32 (streamsAt curves mask st'.cursor) L := by
      rw [streamsAt_update, hhead.stream_eq]
      exact hrest
    have hsub : st'.remaining = st.remaining - b.inputCapacity := by
      change st.remaining - min st.remaining b.inputCapacity = _
      omega
    obtain ⟨hshort, hfull⟩ := ih hL' (fun p hp => hwidth p (List.mem_cons_of_mem _ hp))
      (show L.length < k by rw [List.length_cons] at hk; omega)
    constructor
    · intro hlt
      exact hloop _ (hshort (by rw [hsub]; omega))
    · intro hle
      obtain ⟨st'', hrun, hinputs, hmask, hscore⟩ := hfull (by rw [hsub]; omega)
      refine ⟨st'', hloop _ hrun, fun j => ?_, fun j => ?_, ?_⟩
      · rw [hinputs, hsub, Merged.fill_cons]
        by_cases hj : i = j
        · subst hj
          simp only [st', update_self, if_true]
          omega
        · simp only [st', update_of_ne (Ne.symm hj), if_neg hj]
          omega
      · rw [hmask, hsub, Merged.fill_cons, Mask.has_or, Mask.has_bit,
          Bool.or_assoc]
        congr 1
        by_cases hj : i = j
        · have hpos : 0 < min st.remaining b.inputCapacity := by omega
          simp [hj]
          omega
        · simp [hj]
      · rw [hscore, hsub, Merged.area_cons, Nat.add_assoc]

section Book

variable {curves : List Curve} {mask : Mask} {L : Merged}

/-- The bands of a book belong to selected venues. -/
theorem IsBook.has (hL : IsBook curves mask L) {p : Edge × Segment} (hp : p ∈ L) :
    mask.has p.1 = true := by
  have hmem : p.2 ∈ streamsAt curves mask (fun _ => 0) p.1 := hL.mem hp
  unfold streamsAt at hmem
  split at hmem
  · assumption
  · cases hmem

/-- A venue's stream in the book is its whole curve. -/
theorem IsBook.stream_eq_bands (hL : IsBook curves mask L) {i : Edge} (hi : mask.has i = true) :
    Merge.stream L i = (curveAt curves i).bands := by
  rw [hL.stream_eq, streamsAt, if_pos hi, List.drop_zero]

theorem IsBook.mem_bands (hL : IsBook curves mask L) {p : Edge × Segment} (hp : p ∈ L) :
    p.2 ∈ (curveAt curves p.1).bands := by
  rw [← hL.stream_eq_bands (hL.has hp)]
  exact Merge.mem_stream.mpr hp

theorem IsBook.width_pos (h : Selected curves mask) (hL : IsBook curves mask L) :
    ∀ p ∈ L, 0 < p.2.inputCapacity := fun p hp =>
  (h.valid p.1 (hL.has hp)).nonempty p.2 (hL.mem_bands hp)

theorem IsBook.rate_le (h : Selected curves mask) (hL : IsBook curves mask L) :
    ∀ p ∈ L, p.2.marginalQ32 ≤ maxRate := fun p hp =>
  (h.valid p.1 (hL.has hp)).rate_le p.2 (hL.mem_bands hp)

/-- A book has at most sixteen bands of each of the eight venues. -/
theorem IsBook.length_le (hL : IsBook curves mask L) : L.length ≤ maxEdges * maxSegments := by
  rw [Merge.length_eq_sum]
  calc ∑ i, (Merge.stream L i).length ≤ ∑ _i : Edge, maxSegments := by
        refine Finset.sum_le_sum fun i _ => ?_
        rw [hL.stream_eq]
        unfold streamsAt
        split
        · rw [List.drop_zero, Curve.length_bands]
          omega
        · exact Nat.zero_le _
    _ = maxEdges * maxSegments := by simp

/-- The integral over a book stays within the `u64` output range. -/
theorem IsBook.area_div_lt (h : Selected curves mask) (hL : IsBook curves mask L) {x : ℕ}
    (hx : x ≤ maxAtoms) : L.area x / scale < u64Size := by
  have harea : L.area x ≤ x * maxRate := Bands.area_le _ _ L (hL.rate_le h) x
  have hbound : x * maxRate ≤ maxAtoms * maxRate := Nat.mul_le_mul_right _ hx
  rw [Nat.div_lt_iff_lt_mul (by decide)]
  calc L.area x ≤ maxAtoms * maxRate := harea.trans hbound
    _ < u64Size * scale := by decide

/-- Checking valid curves succeeds. -/
theorem validateAll_ok (h : Selected curves mask) :
    ((venues curves.length).forM fun i =>
      if mask.has i then (curveAt curves i).validate else (.ok () : Result Unit)) = .ok () := by
  have hgen : ∀ l : List Edge, (l.forM fun i =>
      if mask.has i then (curveAt curves i).validate else (.ok () : Result Unit)) = .ok () := by
    intro l
    induction l with
    | nil => rfl
    | cons i l ih =>
      show ((if mask.has i then (curveAt curves i).validate else .ok ()) >>= fun _ => l.forM _) = _
      by_cases hi : mask.has i = true
      · rw [if_pos hi, Curve.validate_eq_ok.mpr (h.valid i hi), ok_bind]
        exact ih
      · rw [if_neg hi, ok_bind]
        exact ih
  exact hgen _

/-- Work that always suffices to fill an amount. -/
def waterfillCost : ℕ := maxEdges * waterfillTurns

/-- Water filling takes the amount from the merged book. -/
theorem waterfill_runs (h : Selected curves mask) (hL : IsBook curves mask L) {amount : ℕ}
    (hpos : 0 < amount) (hle : amount ≤ maxAtoms) (hmask : mask ≠ 0) :
    RunsTo (waterfill curves amount mask) waterfillCost (L.result amount) := by
  have hlength := h.length_pos hmask
  have hlen := h.length_le
  have hbits := Mask.toNat_lt_iff.mpr h.lt_length
  have hcount := hL.length_le
  unfold waterfill
  rw [rejectIf_of_not _ (by omega), lift_ok, pure_bind,
    rejectIf_of_not _ (by rw [not_or]; exact ⟨hmask, by omega⟩), lift_ok, pure_bind,
    validateAll_ok h, lift_ok, pure_bind]
  obtain ⟨hshort, hfull⟩ := waterfillLoop_runs h
    (show Merge.IsMerge Segment.marginalQ32 (streamsAt curves mask
      (⟨fun _ => 0, fun _ => 0, 0, amount, 0⟩ : WaterState).cursor) L from hL)
    (hL.width_pos h) (show L.length < waterfillTurns by unfold waterfillTurns; omega)
  unfold Merged.result
  by_cases hcap : L.total < amount
  · rw [if_pos hcap]
    exact (hshort hcap).bind_error
  · rw [if_neg hcap]
    obtain ⟨st, hrun, hinputs, hfilled, hscore⟩ := hfull (Nat.not_lt.mp hcap)
    refine (hrun.bind (l := 0) ?_).mono le_rfl
    have hscore : st.score = L.area amount := by rw [hscore, Nat.zero_add]
    rw [hscore, asU64_of_lt (hL.area_div_lt h hle), lift_ok, pure_bind]
    have hplan : (⟨st.inputs, L.area amount / scale, st.mask⟩ : Allocation)
        = L.allocation amount := by
      unfold Merged.allocation
      congr 1
      · funext i
        rw [hinputs, Nat.zero_add]
      · apply Mask.ext
        intro i
        rw [hfilled, Mask.has_support, Mask.has_zero, Bool.false_or]
    rw [hplan]
    exact Runs.pure _

end Book

end StockMesh

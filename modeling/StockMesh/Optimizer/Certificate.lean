import StockMesh.Compiler.Envelope
import StockMesh.Optimizer.TapeRefinement

/-! # The certificate of a search

Filling the merged book is optimal for the integrals of its bands, and each compiled curve is within
its error field of the venue's own quote. So no split of the amount over the eligible venues, over
any number of legs, quotes more than the relaxed output plus the error fields, which is the upper
bound a search reports; and the plan it reports is an executable split quoted exactly. -/

namespace StockMesh

open Budgeted Stateful

/-- The curves of the eligible venues are compiled from their snapshots. -/
def Compiled (snapshots : List Snapshot) (curves : List Curve) (horizon : ℕ) (eligible : Mask) :
    Prop :=
  ∀ i : Edge, i.val < snapshots.length → eligible.has i = true →
    ∃ m m', compile (snapshotAt snapshots i) horizon m = (.ok (curveAt curves i), m')

/-- A venue's exact quote, zero where there is none. -/
def quoteOf (snapshots : List Snapshot) (x : Edge → ℕ) (i : Edge) : ℕ :=
  ((snapshotAt snapshots i).exactQuote (x i)).toOption.getD 0

section Bound

variable {snapshots : List Snapshot} {curves : List Curve} {horizon amount : ℕ} {eligible : Mask}
  {M : Merged}

/-- The envelopes of the eligible venues. -/
def Enclosed (snapshots : List Snapshot) (curves : List Curve) (horizon : ℕ) (eligible : Mask) :
    Prop :=
  ∀ i, eligible.has i = true → Envelope (snapshotAt snapshots i) horizon (curveAt curves i)

theorem Compiled.enclosed (h : Compiled snapshots curves horizon eligible)
    (hlt : ∀ i, eligible.has i = true → i.val < snapshots.length) :
    Enclosed snapshots curves horizon eligible := by
  intro i hi
  obtain ⟨m, m', hc⟩ := h i (hlt i hi) hi
  exact compile_envelope hc

/-- Within its curve a venue quotes, and no more than its bands and its error field. -/
theorem Enclosed.quote (h : Enclosed snapshots curves horizon eligible) {i : Edge}
    (hi : eligible.has i = true) {x : Edge → ℕ} (hx : x i ≤ (curveAt curves i).capacity) :
    (snapshotAt snapshots i).exactQuote (x i) = .ok (quoteOf snapshots x i) ∧
      quoteOf snapshots x i ≤ Curve.integral (curveAt curves i).bands (x i) / scale
        + (curveAt curves i).upperErrorAtoms := by
  obtain ⟨exact, hexact, -, hle⟩ := (h i hi).encloses (x i) hx
  have hquote : quoteOf snapshots x i = exact := by
    unfold quoteOf
    rw [hexact]
    rfl
  rw [hquote]
  exact ⟨hexact, hle⟩

/-- No split of an amount quotes more than the filled book and the error fields. -/
theorem Enclosed.sum_quote_le (h : Enclosed snapshots curves horizon eligible)
    (hM : IsBook curves eligible M) {x : Edge → ℕ}
    (hx : ∀ i, eligible.has i = true → x i ≤ (curveAt curves i).capacity)
    (hsum : ∑ i ∈ Merged.owners eligible, x i = amount) :
    ∑ i ∈ Merged.owners eligible, quoteOf snapshots x i
      ≤ M.area amount / scale
        + ∑ i ∈ Merged.owners eligible, (curveAt curves i).upperErrorAtoms := by
  have hsorted : M.Pairwise fun p q => q.2.marginalQ32 ≤ p.2.marginalQ32 := by
    refine hM.sorted.imp fun hbefore => ?_
    rcases hbefore with hlt | ⟨heq, -⟩
    · exact hlt.le
    · exact heq.le
  -- splitting the amount by hand gains nothing over filling the book
  have hsplit : ∑ i ∈ Merged.owners eligible, Curve.integral (curveAt curves i).bands (x i)
      ≤ M.area amount := by
    rw [← hsum]
    refine le_trans (Finset.sum_le_sum fun i hi => ?_)
      (Bands.sum_area_filter_le Prod.fst hsorted (Merged.owners eligible) x)
    rw [Merged.area_owner, hM.stream_eq_bands (Merged.mem_owners.mp hi)]
  calc ∑ i ∈ Merged.owners eligible, quoteOf snapshots x i
      ≤ ∑ i ∈ Merged.owners eligible, (Curve.integral (curveAt curves i).bands (x i) / scale
          + (curveAt curves i).upperErrorAtoms) :=
        Finset.sum_le_sum fun i hi =>
          (h.quote (Merged.mem_owners.mp hi) (hx i (Merged.mem_owners.mp hi))).2
    _ = ∑ i ∈ Merged.owners eligible, Curve.integral (curveAt curves i).bands (x i) / scale
          + ∑ i ∈ Merged.owners eligible, (curveAt curves i).upperErrorAtoms :=
        Finset.sum_add_distrib
    _ ≤ M.area amount / scale
          + ∑ i ∈ Merged.owners eligible, (curveAt curves i).upperErrorAtoms :=
        Nat.add_le_add_right ((Merged.sum_div_le _ _ _).trans (Nat.div_le_div_right hsplit)) _

end Bound

/-! ## The loops of the search -/

section Loops

variable {snapshots : List Snapshot} {curves : List Curve} {amount : ℕ} {eligible : Mask}

/-- The reported upper bound is the relaxed output plus the eligible error fields, and fits. -/
theorem upperOutput_eq (hlt : ∀ i, eligible.has i = true → i.val < curves.length)
    {relaxed upper : ℕ} (h : upperOutput curves eligible relaxed = .ok upper) :
    upper = relaxed + ∑ i ∈ Merged.owners eligible, (curveAt curves i).upperErrorAtoms ∧
      (relaxed < u64Size → upper < u64Size) := by
  have hgen : ∀ (l : List Edge) (a b : ℕ), l.foldlM (fun upper i =>
      if eligible.has i then checkedAdd upper (curveAt curves i).upperErrorAtoms else .ok upper) a
        = (.ok b : Result ℕ) →
      b = a + (l.map fun i =>
        if eligible.has i then (curveAt curves i).upperErrorAtoms else 0).sum ∧
      (a < u64Size → b < u64Size) := by
    intro l
    induction l with
    | nil =>
      intro a b hab
      cases hab
      exact ⟨rfl, id⟩
    | cons i l ih =>
      intro a b hab
      rw [List.foldlM_cons, bind_eq_ok] at hab
      obtain ⟨c, hstep, hrest⟩ := hab
      obtain ⟨hsum, hfits⟩ := ih c b hrest
      rw [hsum, List.map_cons, List.sum_cons]
      by_cases hi : eligible.has i = true
      · rw [if_pos hi] at hstep ⊢
        obtain ⟨hlt, rfl⟩ := fits_eq_ok.mp hstep
        refine ⟨by omega, fun _ => ?_⟩
        rw [← hsum]
        exact hfits hlt
      · rw [if_neg hi] at hstep ⊢
        cases hstep
        refine ⟨by omega, fun ha => ?_⟩
        rw [← hsum]
        exact hfits ha
  obtain ⟨heq, hfits⟩ := hgen _ _ _ h
  refine ⟨?_, hfits⟩
  rw [heq, ← List.sum_toFinset _ (venues_nodup _)]
  congr 1
  rw [Finset.sum_ite, Finset.sum_const_zero, Nat.add_zero]
  refine Finset.sum_congr ?_ fun i _ => rfl
  ext i
  simp only [Finset.mem_filter, List.mem_toFinset, mem_venues, Merged.mem_owners]
  exact and_iff_right_of_imp (hlt i)

/-- Independence of a subset: no two of its venues share a resource. -/
theorem independent_sound {mask : Mask} (h : independent snapshots mask = true) {i j : Edge}
    (hij : i ≠ j) (hi : mask.has i = true) (hj : mask.has j = true)
    (hilt : i.val < snapshots.length) (hjlt : j.val < snapshots.length) :
    (snapshotAt snapshots i).writableResources &&& (snapshotAt snapshots j).writableResources
      = 0 := by
  have hloop : ∀ (l : List Edge) (resources : ℕ),
      independentLoop snapshots mask l resources = true →
      (∀ k ∈ l, mask.has k = true →
        resources &&& (snapshotAt snapshots k).writableResources = 0) ∧
      l.Pairwise fun k k' => mask.has k = true → mask.has k' = true →
        (snapshotAt snapshots k).writableResources
          &&& (snapshotAt snapshots k').writableResources = 0 := by
    intro l
    induction l with
    | nil => exact fun _ _ => ⟨fun k hk => by simp at hk, List.Pairwise.nil⟩
    | cons k l ih =>
      intro resources hrun
      unfold independentLoop at hrun
      split at hrun
      · rename_i hk
        obtain ⟨hfree, hpair⟩ := ih resources hrun
        refine ⟨fun k' hk' hhas => ?_, List.pairwise_cons.mpr ⟨fun k' _ hhas => ?_, hpair⟩⟩
        · rcases List.mem_cons.mp hk' with rfl | hk'
          · rw [hk] at hhas
            cases hhas
          · exact hfree k' hk' hhas
        · rw [hk] at hhas
          cases hhas
      · split at hrun
        · cases hrun
        · rename_i hzero
          rw [not_not] at hzero
          obtain ⟨hfree, hpair⟩ := ih _ hrun
          have hboth : ∀ k' ∈ l, mask.has k' = true →
              resources &&& (snapshotAt snapshots k').writableResources = 0 ∧
              (snapshotAt snapshots k).writableResources
                &&& (snapshotAt snapshots k').writableResources = 0 := by
            intro k' hk' hhas
            have hor := hfree k' hk' hhas
            rw [Nat.and_or_distrib_right] at hor
            exact Nat.or_eq_zero_iff.mp hor
          refine ⟨fun k' hk' hhas => ?_, List.pairwise_cons.mpr ⟨fun k' hk' _ hhas => ?_, hpair⟩⟩
          · rcases List.mem_cons.mp hk' with rfl | hk'
            · exact hzero
            · exact (hboth k' hk' hhas).1
          · exact (hboth k' hk' hhas).2
  have hpair := (hloop _ 0 h).2
  have hsymm : Std.Symm fun k k' : Edge => mask.has k = true → mask.has k' = true →
      (snapshotAt snapshots k).writableResources
        &&& (snapshotAt snapshots k').writableResources = 0 := by
    refine ⟨fun k k' hkk' hk' hk => ?_⟩
    rw [Nat.and_comm]
    exact hkk' hk hk'
  exact hpair.forall (mem_venues.mpr hilt) (mem_venues.mpr hjlt) hij hi hj

/-- A finalist: a fill of the book over an admissible subset, up to its output field. -/
def Finalist (snapshots : List Snapshot) (eligible : Mask) (legLimit : ℕ) (L : Merged)
    (amount : ℕ) (p : Allocation) : Prop :=
  ∃ mask : Mask, mask.Within eligible ∧ mask.countOnes ≤ legLimit ∧
    independent snapshots mask = true ∧ amount ≤ (L.restrict mask).total ∧
    p.inputs = (L.restrict mask).fill amount ∧ p.mask = Mask.support p.inputs

/-- Every entry of a shortlist was inserted. -/
theorem mem_shortlist {finalists : List Allocation} {p f : Allocation}
    (h : f ∈ shortlist finalists p) : f = p ∨ f ∈ finalists := by
  unfold shortlist at h
  split at h
  · exact Or.inr h
  · dsimp only at h
    split at h
    · exact Or.inr h
    · have hmem := List.mem_of_mem_take h
      by_cases hpos : (finalists.findIdx fun f => decide (f.output < p.output)) ≤ finalists.length
      · exact (List.mem_insertIdx hpos).mp hmem
      · exact absurd List.findIdx_le_length hpos

/-- One subset adds a finalist or nothing. -/
theorem considerSpec_finalist {legLimit : ℕ} {L : Merged} {sl sl' : Shortlist} {m : ℕ}
    (hsl : ∀ p ∈ sl.finalists, Finalist snapshots eligible legLimit L amount p)
    (h : considerSpec snapshots eligible legLimit (bookAnswer curves eligible L amount) sl m
      = .ok sl') : ∀ p ∈ sl'.finalists, Finalist snapshots eligible legLimit L amount p := by
  unfold considerSpec at h
  split at h
  · cases h
    exact hsl
  rename_i hskip
  unfold Skipped at hskip
  rw [not_or, not_not, Nat.not_lt] at hskip
  split at h
  · cases h
    exact hsl
  rename_i hind
  unfold Shortlist.absorb at h
  split at h
  · rename_i p hanswer
    cases h
    intro f hf
    rcases mem_shortlist hf with rfl | hf
    · -- the query answered with a fill of the restricted book
      unfold bookAnswer at hanswer
      split at hanswer
      · cases hanswer
      · unfold Merged.answer Merged.result at hanswer
        split at hanswer
        · cases hanswer
        · rename_i hcap
          rw [ok_bind, if_pos rfl] at hanswer
          cases hanswer
          exact ⟨maskOf m, hskip.1, hskip.2, by simpa using hind, Nat.not_lt.mp hcap, rfl, rfl⟩
    · exact hsl f hf
  · cases h
    exact hsl
  · cases h

/-- A query over a book has the shared domain errors only. -/
theorem bookAnswer_ne_invalidCurve {L : Merged} {mask : Mask} {lower : Bool} :
    bookAnswer curves eligible L amount mask lower ≠ .error .invalidCurve := by
  unfold bookAnswer
  split
  · exact fun h => by cases h
  · refine bind_ne_error ?_ fun _ h => by cases h
    unfold Merged.result
    split
    · exact fun h => by cases h
    · exact fun h => by cases h

/-- One subset never ends the search with a rejected curve. -/
theorem considerSpec_ne_invalidCurve {legLimit : ℕ} {L : Merged} (sl : Shortlist) (m : ℕ) :
    considerSpec snapshots eligible legLimit (bookAnswer curves eligible L amount) sl m
      ≠ .error .invalidCurve := by
  unfold considerSpec
  split
  · exact fun h => by cases h
  split
  · exact fun h => by cases h
  rcases hanswer : bookAnswer curves eligible L amount (maskOf m) true with e | p
  · intro h
    unfold Shortlist.absorb at h
    split at h
    · cases h
    · cases h
    · rename_i heq
      cases heq
      cases h
      exact bookAnswer_ne_invalidCurve hanswer
  · exact fun h => by cases h

/-- The relaxed query fills the whole book. -/
theorem relaxed_output {L : Merged} (hL : IsBook curves eligible L) {relaxed : Allocation}
    (h : bookAnswer curves eligible L amount eligible false = .ok relaxed) :
    relaxed.output = L.area amount / scale := by
  have hself : eligible.Within eligible := Mask.within_iff.mpr fun i hi => hi
  have hrestrict : L.restrict eligible = L := (hL.restrict hself).unique hL
  unfold bookAnswer at h
  split at h
  · cases h
  · rw [Merged.answer_false, hrestrict, Merged.result] at h
    split at h
    · cases h
    · cases h
      rfl

/-- The sum of the exact quotes over the legs of a split. -/
def legsQuote (snapshots : List Snapshot) (x : Edge → ℕ) : ℕ :=
  ∑ i with 0 < x i, quoteOf snapshots x i

/-- Quoting every leg exactly. -/
theorem addExact_ok {x : Edge → ℕ} {l : List Edge} {out : ℕ}
    (hquote : ∀ i, 0 < x i →
      (snapshotAt snapshots i).exactQuote (x i) = .ok (quoteOf snapshots x i))
    (hfits : out + (l.map fun i => if 0 < x i then quoteOf snapshots x i else 0).sum < u64Size) :
    l.foldlM (addExact snapshots x) out
      = .ok (out + (l.map fun i => if 0 < x i then quoteOf snapshots x i else 0).sum) := by
  induction l generalizing out with
  | nil => rfl
  | cons i l ih =>
    rw [List.map_cons, List.sum_cons] at hfits
    rw [List.foldlM_cons, List.map_cons, List.sum_cons, ← Nat.add_assoc]
    rcases Nat.eq_zero_or_pos (x i) with hzero | hpos
    · rw [if_neg (by omega)] at hfits ⊢
      rw [addExact, if_pos hzero, ok_bind, Nat.add_zero]
      exact ih (by omega)
    · rw [if_pos hpos] at hfits ⊢
      rw [addExact, if_neg hpos.ne', hquote i hpos, ok_bind, checkedAdd_of_lt (by omega), ok_bind]
      exact ih (by omega)

/-- The exact output of a plan whose legs all quote is the sum of its quotes, if that fits. -/
theorem exactOutput_eq {p : Allocation} (hout : ∀ i, 0 < p.inputs i → i.val < snapshots.length)
    (hquote : ∀ i, 0 < p.inputs i →
      (snapshotAt snapshots i).exactQuote (p.inputs i) = .ok (quoteOf snapshots p.inputs i))
    (hfits : legsQuote snapshots p.inputs < u64Size) :
    exactOutput snapshots p = .ok (legsQuote snapshots p.inputs) := by
  have hsum : ((venues snapshots.length).map fun i =>
      if 0 < p.inputs i then quoteOf snapshots p.inputs i else 0).sum
        = legsQuote snapshots p.inputs := by
    rw [← List.sum_toFinset _ (venues_nodup _), legsQuote, Finset.sum_filter]
    apply Finset.sum_subset (Finset.subset_univ _)
    intro i _ hi
    rw [List.mem_toFinset, mem_venues] at hi
    exact if_neg fun hpos => hi (hout i hpos)
  unfold exactOutput
  rw [addExact_ok hquote (by omega), Nat.zero_add, hsum]

/-- The chosen plan is one of the candidates, quoted exactly. -/
theorem evaluateSpec_sound {f : Allocation → ℕ} {l : List Allocation} (best : Allocation)
    (hexact : ∀ p ∈ l, exactOutput snapshots p = .ok (f p)) :
    ∃ best', l.foldlM (evaluateSpec snapshots) best = .ok best' ∧
      (best' = best ∨ ∃ p ∈ l, best' = { p with output := f p }) ∧
      (best.mask = 0 → l ≠ [] → ∃ p ∈ l, best' = { p with output := f p }) := by
  induction l generalizing best with
  | nil => exact ⟨best, rfl, Or.inl rfl, fun _ h => absurd rfl h⟩
  | cons p l ih =>
    have hstep : evaluateSpec snapshots best p = .ok (betterPlan best p (f p)) := by
      rw [evaluateSpec, hexact p List.mem_cons_self, ok_bind]
    obtain ⟨best', hrun, hor, -⟩ := ih (betterPlan best p (f p))
      fun p' hp' => hexact p' (List.mem_cons_of_mem p hp')
    have hlater : (∃ p' ∈ l, best' = { p' with output := f p' }) →
        ∃ p' ∈ p :: l, best' = { p' with output := f p' } := by
      rintro ⟨p', hp', heq⟩
      exact ⟨p', List.mem_cons_of_mem p hp', heq⟩
    refine ⟨best', by rw [List.foldlM_cons, hstep, ok_bind, hrun], ?_, ?_⟩
    · rcases hor with rfl | hor
      · unfold betterPlan
        split
        · exact Or.inr ⟨p, List.mem_cons_self, rfl⟩
        · exact Or.inl rfl
      · exact Or.inr (hlater hor)
    · -- the initial plan has no legs, so the first candidate replaces it
      intro hzero _
      rcases hor with rfl | hor
      · exact ⟨p, List.mem_cons_self, by rw [betterPlan, if_pos (Or.inl hzero)]⟩
      · exact hlater hor

/-- Admission has its own errors. -/
theorem admitAll_ne_invalidCurve : admitAll snapshots curves eligible ≠ .error .invalidCurve := by
  apply foldlM_ne_error
  intro pair i h
  unfold admitStep at h
  split at h
  · cases h
  · revert h
    refine bind_ne_error (rejectIf_ne_error (by decide)) fun _ => ?_
    refine bind_ne_error (rejectIf_ne_error (by decide)) fun _ => ?_
    refine bind_ne_error (rejectIf_ne_error (by decide)) fun _ => ?_
    exact bind_ne_error (rejectIf_ne_error (by decide)) fun _ h => by cases h

/-- Adding up the error fields can only overflow. -/
theorem upperOutput_ne_invalidCurve (relaxed : ℕ) :
    upperOutput curves eligible relaxed ≠ .error .invalidCurve := by
  apply foldlM_ne_error
  intro upper i
  split
  · exact fits_ne_error (by decide)
  · exact fun h => by cases h

end Loops

/-! ## The certificate -/

/-- What a report promises: an executable split of the amount, quoted exactly, and an upper bound on
every split. -/
structure Certified (snapshots : List Snapshot) (amount : ℕ) (eligible : Mask) (legLimit : ℕ)
    (report : SearchReport) : Prop where
  sum_inputs : ∑ i, report.plan.inputs i = amount
  supported : ∀ i, 0 < report.plan.inputs i → eligible.has i = true ∧ i.val < snapshots.length
  legs_le : (Finset.univ.filter fun i => 0 < report.plan.inputs i).card ≤ legLimit
  disjoint : ∀ i j, i ≠ j → 0 < report.plan.inputs i → 0 < report.plan.inputs j →
    (snapshotAt snapshots i).writableResources &&& (snapshotAt snapshots j).writableResources = 0
  quoted : ∀ i, 0 < report.plan.inputs i →
    (snapshotAt snapshots i).exactQuote (report.plan.inputs i)
      = .ok (quoteOf snapshots report.plan.inputs i)
  output_eq : report.plan.output = legsQuote snapshots report.plan.inputs
  optimal : ∀ x : Edge → ℕ,
    (∀ i, eligible.has i = true → x i ≤ (snapshotAt snapshots i).capacity) →
    ∑ i with eligible.has i, x i = amount →
    (∀ i, eligible.has i = true →
      (snapshotAt snapshots i).exactQuote (x i) = .ok (quoteOf snapshots x i)) ∧
    ∑ i with eligible.has i, quoteOf snapshots x i ≤ report.certificate.upperOutput
  gap_eq : report.certificate.upperOutput = report.plan.output + report.certificate.gapAtoms

section Finalists

variable {snapshots : List Snapshot} {curves : List Curve} {horizon amount legLimit : ℕ}
  {eligible : Mask} {L : Merged} {p : Allocation}

/-- A split of an amount below the horizon stays within the compiled curves. -/
theorem Enclosed.le_capacity (h : Enclosed snapshots curves horizon eligible)
    (hhorizon : amount ≤ horizon) {x : Edge → ℕ}
    (hx : ∀ i, eligible.has i = true → x i ≤ (snapshotAt snapshots i).capacity)
    (hsum : ∑ i ∈ Merged.owners eligible, x i = amount) :
    ∀ i, eligible.has i = true → x i ≤ (curveAt curves i).capacity := by
  intro i hi
  have hone : x i ≤ amount := by
    rw [← hsum]
    exact Finset.single_le_sum (f := x) (fun j _ => Nat.zero_le _) (Merged.mem_owners.mpr hi)
  rw [(h i hi).capacity_eq]
  exact le_min (hx i hi) (hone.trans hhorizon)

/-- Only venues of the subset have a share. -/
theorem Finalist.supported (hp : Finalist snapshots eligible legLimit L amount p) :
    ∃ mask : Mask, mask.Within eligible ∧ mask.countOnes ≤ legLimit ∧
      independent snapshots mask = true ∧ ∀ i, 0 < p.inputs i → mask.has i = true := by
  obtain ⟨mask, hwithin, hcount, hind, -, hinputs, -⟩ := hp
  refine ⟨mask, hwithin, hcount, hind, fun i hpos => ?_⟩
  by_contra hi
  have hzero : (L.restrict mask).fill amount i = 0 := by
    apply Merged.fill_eq_zero
    rintro q hq rfl
    exact hi (Merged.mem_owners.mp (Merged.owner_mem L mask q hq))
  rw [hinputs, hzero] at hpos
  exact lt_irrefl 0 hpos

theorem Finalist.sum_inputs (hp : Finalist snapshots eligible legLimit L amount p) :
    ∑ i, p.inputs i = amount := by
  obtain ⟨mask, -, -, -, hcap, hinputs, -⟩ := hp
  rw [hinputs]
  have hsum : ∑ i, (L.restrict mask).fill amount i = min amount (L.restrict mask).total :=
    Bands.sum_fill Prod.fst (fun q _ => Finset.mem_univ q.1) amount
  rw [hsum, min_eq_left hcap]

/-- A finalist splits the amount over the eligible venues, within their curves. -/
theorem Finalist.feasible (hsel : Selected curves eligible) (hL : IsBook curves eligible L)
    (hp : Finalist snapshots eligible legLimit L amount p) :
    (∀ i, eligible.has i = true → p.inputs i ≤ (curveAt curves i).capacity) ∧
      ∑ i ∈ Merged.owners eligible, p.inputs i = amount := by
  obtain ⟨mask, hwithin, -, -, hsupp⟩ := hp.supported
  have hzero : ∀ i, eligible.has i ≠ true → p.inputs i = 0 := by
    intro i hi
    by_contra hne
    exact hi (Mask.within_iff.mp hwithin i (hsupp i (Nat.pos_of_ne_zero hne)))
  constructor
  · obtain ⟨mask', hwithin', -, -, -, hinputs, -⟩ := id hp
    intro i hi
    by_cases hm : mask'.has i = true
    · rw [hinputs]
      exact fill_le_capacity (hsel.within hwithin') (hL.restrict hwithin') hm amount
    · rw [hinputs, Merged.fill_eq_zero_of_not_has (hL.restrict hwithin') (by simpa using hm)]
      exact Nat.zero_le _
  · rw [← hp.sum_inputs]
    apply Finset.sum_subset (Finset.subset_univ _)
    intro i _ hi
    exact hzero i fun hhas => hi (Merged.mem_owners.mpr hhas)

/-- The legs of a finalist quote, in total no more than the upper bound. -/
theorem Finalist.quoted (h : Enclosed snapshots curves horizon eligible)
    (hsel : Selected curves eligible) (hL : IsBook curves eligible L)
    (hp : Finalist snapshots eligible legLimit L amount p) :
    (∀ i, 0 < p.inputs i → eligible.has i = true ∧
      (snapshotAt snapshots i).exactQuote (p.inputs i) = .ok (quoteOf snapshots p.inputs i)) ∧
    legsQuote snapshots p.inputs ≤ L.area amount / scale
      + ∑ i ∈ Merged.owners eligible, (curveAt curves i).upperErrorAtoms := by
  obtain ⟨hcap, hsum⟩ := hp.feasible hsel hL
  obtain ⟨mask, hwithin, -, -, hsupp⟩ := hp.supported
  have heligible : ∀ i, 0 < p.inputs i → eligible.has i = true := fun i hpos =>
    Mask.within_iff.mp hwithin i (hsupp i hpos)
  constructor
  · intro i hpos
    have hi := heligible i hpos
    exact ⟨hi, (h.quote hi (hcap i hi)).1⟩
  · refine le_trans (Finset.sum_le_sum_of_subset fun i hi => ?_) (h.sum_quote_le hL hcap hsum)
    rw [Finset.mem_filter] at hi
    exact Merged.mem_owners.mpr (heligible i hi.2)

/-- Reporting a finalist, quoted exactly, under the upper bound. -/
theorem Finalist.certified (h : Enclosed snapshots curves horizon eligible)
    (hsel : Selected curves eligible) (hL : IsBook curves eligible L) (hhorizon : amount ≤ horizon)
    (hlen : snapshots.length = curves.length)
    (hp : Finalist snapshots eligible legLimit L amount p) {upper : ℕ}
    (hupper : upper = L.area amount / scale
      + ∑ i ∈ Merged.owners eligible, (curveAt curves i).upperErrorAtoms) (sl : Shortlist) :
    Certified snapshots amount eligible legLimit
      (report upper sl { p with output := legsQuote snapshots p.inputs }) := by
  obtain ⟨hquoted, hle⟩ := hp.quoted h hsel hL
  obtain ⟨mask, hwithin, hcount, hind, hsupp⟩ := hp.supported
  have hlt : ∀ i, 0 < p.inputs i → i.val < snapshots.length := by
    intro i hpos
    rw [hlen]
    exact hsel.lt_length i (hquoted i hpos).1
  refine ⟨hp.sum_inputs, fun i hpos => ⟨(hquoted i hpos).1, hlt i hpos⟩, ?_, ?_,
    fun i hpos => (hquoted i hpos).2, rfl, ?_, ?_⟩
  · refine le_trans (Finset.card_le_card (t := mask.edges.toFinset) fun i hi => ?_) ?_
    · rw [Finset.mem_filter] at hi
      exact List.mem_toFinset.mpr (Mask.mem_edges.mpr (hsupp i hi.2))
    · rw [List.toFinset_card_of_nodup (Mask.edges_nodup mask), Mask.length_edges]
      exact hcount
  · intro i j hij hi hj
    exact independent_sound hind hij (hsupp i hi) (hsupp j hj) (hlt i hi) (hlt j hj)
  · intro x hx hsum
    have howners : (Finset.univ.filter fun i => eligible.has i = true) = Merged.owners eligible := by
      ext i
      rw [Finset.mem_filter, Merged.mem_owners]
      exact and_iff_right (Finset.mem_univ i)
    rw [howners] at hsum ⊢
    have hcap := h.le_capacity hhorizon hx hsum
    refine ⟨fun i hi => (h.quote hi (hcap i hi)).1, ?_⟩
    change _ ≤ upper
    rw [hupper]
    exact h.sum_quote_le hL hcap hsum
  · change upper = legsQuote snapshots p.inputs + (upper - legsQuote snapshots p.inputs)
    omega

end Finalists

section Search

variable {snapshots : List Snapshot} {curves : List Curve} {horizon amount : ℕ} {eligible : Mask}
  {L : Merged}

/-- Once the enumeration has kept a finalist, one of the finalists is reported. -/
theorem planSpec_eq_ok (h : Enclosed snapshots curves horizon eligible)
    (hsel : Selected curves eligible) (hL : IsBook curves eligible L)
    (hlen : snapshots.length = curves.length) {legLimit upper : ℕ} (hfits : upper < u64Size)
    (hupper : upper = L.area amount / scale
      + ∑ i ∈ Merged.owners eligible, (curveAt curves i).upperErrorAtoms) {sl : Shortlist}
    (hloop : (List.range' 1 (2 ^ curves.length - 1)).foldlM (considerSpec snapshots eligible legLimit
      (bookAnswer curves eligible L amount)) {} = .ok sl) (hne : sl.finalists.length ≠ 0) :
    ∃ p, Finalist snapshots eligible legLimit L amount p ∧
      planSpec snapshots curves eligible legLimit (bookAnswer curves eligible L amount) upper
        = .ok (report upper sl { p with output := legsQuote snapshots p.inputs }) := by
  have hfinal : ∀ p ∈ sl.finalists, Finalist snapshots eligible legLimit L amount p :=
    foldlM_inv (P := fun sl => ∀ p ∈ sl.finalists, Finalist snapshots eligible legLimit L amount p)
      (fun _ _ _ hsl hstep => considerSpec_finalist hsl hstep) (fun p hp => by cases hp) hloop
  have hexact : ∀ p ∈ sl.finalists, exactOutput snapshots p = .ok (legsQuote snapshots p.inputs) := by
    intro p hp
    obtain ⟨hquoted, hle⟩ := (hfinal p hp).quoted h hsel hL
    refine exactOutput_eq (fun i hpos => ?_) (fun i hpos => (hquoted i hpos).2) (by omega)
    rw [hlen]
    exact hsel.lt_length i (hquoted i hpos).1
  obtain ⟨best, hbest, -, hchosen⟩ := evaluateSpec_sound {} hexact
  obtain ⟨p, hp, rfl⟩ := hchosen rfl (by simpa using hne)
  have hle := ((hfinal p hp).quoted h hsel hL).2
  have hkeep : ¬upper < legsQuote snapshots p.inputs := by omega
  refine ⟨p, hfinal p hp, ?_⟩
  unfold planSpec
  rw [hloop, ok_bind, rejectIf_of_not _ hne, ok_bind, hbest, ok_bind, rejectIf_of_not _ hkeep,
    ok_bind]

/-- The enumeration and the choice over a compiled book certify their report and never reject the
plan against the bound. -/
theorem planSpec_certified (h : Enclosed snapshots curves horizon eligible)
    (hsel : Selected curves eligible) (hL : IsBook curves eligible L) (hhorizon : amount ≤ horizon)
    (hlen : snapshots.length = curves.length) (legLimit : ℕ) {upper : ℕ} (hfits : upper < u64Size)
    (hupper : upper = L.area amount / scale
      + ∑ i ∈ Merged.owners eligible, (curveAt curves i).upperErrorAtoms) :
    (∀ report, planSpec snapshots curves eligible legLimit
        (bookAnswer curves eligible L amount) upper = .ok report →
      Certified snapshots amount eligible legLimit report) ∧
    planSpec snapshots curves eligible legLimit (bookAnswer curves eligible L amount) upper
      ≠ .error .invalidCurve := by
  rcases hloop : (List.range' 1 (2 ^ curves.length - 1)).foldlM
    (considerSpec snapshots eligible legLimit (bookAnswer curves eligible L amount)) {} with e | sl
  · have hplan : planSpec snapshots curves eligible legLimit (bookAnswer curves eligible L amount)
        upper = .error e := by
      unfold planSpec
      rw [hloop, error_bind]
    rw [hplan]
    refine ⟨fun _ hok => (by cases hok), fun herr => ?_⟩
    cases herr
    exact foldlM_ne_error considerSpec_ne_invalidCurve _ _ hloop
  by_cases hempty : sl.finalists.length = 0
  · have hplan : planSpec snapshots curves eligible legLimit (bookAnswer curves eligible L amount)
        upper = .error .capacity := by
      unfold planSpec
      rw [hloop, ok_bind, rejectIf_of _ hempty, error_bind]
    rw [hplan]
    exact ⟨fun _ hok => (by cases hok), fun herr => (by cases herr)⟩
  obtain ⟨p, hp, hplan⟩ := planSpec_eq_ok h hsel hL hlen hfits hupper hloop hempty
  rw [hplan]
  refine ⟨fun report hreport => ?_, fun herr => by cases herr⟩
  cases hreport
  exact hp.certified h hsel hL hhorizon hlen hupper sl

/-- Whatever the curves, a plan has legs at eligible venues only. -/
theorem searchSpec_supported {legLimit : ℕ} {report : SearchReport}
    (h : searchSpec snapshots curves amount eligible legLimit (bookAnswer curves eligible L amount)
      = .ok report) {i : Edge} (hi : 0 < report.plan.inputs i) : eligible.has i = true := by
  unfold searchSpec planSpec at h
  simp only [bind_eq_ok] at h
  obtain ⟨_, -, _, -, _, -, relaxed, -, upper, -, sl, hloop, _, -, best, hbest, _, -, hreport⟩ := h
  have hfinal : ∀ p ∈ sl.finalists, Finalist snapshots eligible legLimit L amount p :=
    foldlM_inv (P := fun sl => ∀ p ∈ sl.finalists, Finalist snapshots eligible legLimit L amount p)
      (fun _ _ _ hsl hstep => considerSpec_finalist hsl hstep) (fun p hp => by cases hp) hloop
  have hchosen : ∀ (l : List Allocation) (b b' : Allocation), (∀ p ∈ l, p ∈ sl.finalists) →
      (0 < b.inputs i → eligible.has i = true) → l.foldlM (evaluateSpec snapshots) b = .ok b' →
      0 < b'.inputs i → eligible.has i = true := by
    intro l
    induction l with
    | nil =>
      intro b b' _ hb hrun
      cases hrun
      exact hb
    | cons p l ih =>
      intro b b' hmem hb hrun
      rw [List.foldlM_cons, bind_eq_ok] at hrun
      obtain ⟨c, hstep, hrest⟩ := hrun
      refine ih c b' (fun q hq => hmem q (List.mem_cons_of_mem p hq)) ?_ hrest
      unfold evaluateSpec at hstep
      rw [bind_eq_ok] at hstep
      obtain ⟨exact, -, hbetter⟩ := hstep
      cases hbetter
      unfold betterPlan
      split
      · -- the candidate is a finalist
        intro hpos
        obtain ⟨mask, hwithin, -, -, hsupp⟩ := (hfinal p (hmem p List.mem_cons_self)).supported
        exact Mask.within_iff.mp hwithin i (hsupp i hpos)
      · exact hb
  cases hreport
  exact hchosen sl.finalists {} best (fun _ hp => hp) (fun hpos => by cases hpos) hbest hi

/-- A search that returns from a tape has planned legs at eligible venues only. -/
theorem searchTape_supported {curves₀ : List Curve} {built : Mask} {t : ResidualTape}
    (ht : t.Spec curves₀ built L) {legLimit : ℕ} {m m' : WorkMeter} {report : SearchReport}
    (h : searchTape snapshots curves t amount eligible legLimit m = (.ok report, m')) {i : Edge}
    (hi : 0 < report.plan.inputs i) : eligible.has i = true := by
  have hmatch : t.matchesCurves curves eligible = true := by
    unfold searchTape at h
    obtain ⟨_, _, hcheck, -⟩ := Comp.bind_eq_ok.mp h
    have hkeep := rejectIf_eq_ok.mp (congrArg Prod.fst hcheck)
    simpa using hkeep
  exact searchSpec_supported ((search_runs ht hmatch snapshots amount legLimit).1.eq_of_ok h) hi

/-- The search over the answers of a compiled book certifies its report and never rejects a curve. -/
theorem searchSpec_certified (h : Enclosed snapshots curves horizon eligible)
    (hsel : Selected curves eligible) (hL : IsBook curves eligible L) (hhorizon : amount ≤ horizon)
    (legLimit : ℕ) :
    (∀ report, searchSpec snapshots curves amount eligible legLimit
        (bookAnswer curves eligible L amount) = .ok report →
      Certified snapshots amount eligible legLimit report) ∧
    searchSpec snapshots curves amount eligible legLimit (bookAnswer curves eligible L amount)
      ≠ .error .invalidCurve := by
  unfold searchSpec
  by_cases hbounds : snapshots.length ≠ curves.length ∨ snapshots.length = 0 ∨
      maxEdges < snapshots.length ∨ legLimit = 0 ∨ maxLegs < legLimit
  · rw [rejectIf_of _ hbounds]
    exact ⟨fun _ hok => (by cases hok), fun herr => (by cases herr)⟩
  rw [rejectIf_of_not _ hbounds, ok_bind]
  by_cases hamount : amount = 0 ∨ maxAtoms < amount
  · rw [rejectIf_of _ hamount]
    exact ⟨fun _ hok => (by cases hok), fun herr => (by cases herr)⟩
  rw [rejectIf_of_not _ hamount, ok_bind]
  rcases hadmitted : admitAll snapshots curves eligible with e | pair
  · refine ⟨fun _ hok => (by cases hok), fun herr => ?_⟩
    cases herr
    exact admitAll_ne_invalidCurve hadmitted
  rw [ok_bind]
  rcases hrelaxed : bookAnswer curves eligible L amount eligible false with e | relaxed
  · refine ⟨fun _ hok => (by cases hok), fun herr => ?_⟩
    cases herr
    exact bookAnswer_ne_invalidCurve hrelaxed
  rw [ok_bind]
  rcases hupper : upperOutput curves eligible relaxed.output with e | upper
  · refine ⟨fun _ hok => (by cases hok), fun herr => ?_⟩
    cases herr
    exact upperOutput_ne_invalidCurve _ hupper
  rw [ok_bind]
  have houtput := relaxed_output hL hrelaxed
  obtain ⟨heq, hfits⟩ := upperOutput_eq hsel.lt_length hupper
  rw [houtput] at heq hfits
  exact planSpec_certified h hsel hL hhorizon (by omega) legLimit
    (hfits (hL.area_div_lt hsel (by omega))) heq

/-- A build rejects its arguments or selects compiled curves. -/
theorem build_either (hcompiled : Compiled snapshots curves horizon eligible)
    (hcurves : curves.length = snapshots.length) :
    (∀ m, (ResidualTape.build curves eligible m).1 = .error .bounds) ∨
      (eligible ≠ 0 ∧ Selected curves eligible ∧ Enclosed snapshots curves horizon eligible) := by
  by_cases hbounds : curves.length = 0 ∨ maxEdges < curves.length ∨ eligible = 0 ∨
      2 ^ curves.length ≤ eligible.toNat
  · left
    intro m
    unfold ResidualTape.build
    rw [rejectIf_of _ hbounds]
    rfl
  · right
    simp only [not_or] at hbounds
    obtain ⟨-, hlen, hzero, hbits⟩ := hbounds
    have hlt := Mask.toNat_lt_iff.mp (Nat.not_le.mp hbits)
    have henclosed := hcompiled.enclosed fun i hi => hcurves ▸ hlt i hi
    exact ⟨hzero, ⟨by omega, hlt, fun i hi => (henclosed i hi).valid⟩, henclosed⟩

/-- The certificate of a search: over compiled curves every report is certified, and the comparison
of the plan with the upper bound never fails. -/
theorem search_certified (snapshots : List Snapshot) (curves : List Curve) (horizon amount : ℕ)
    (eligible : Mask) (legLimit : ℕ) (hcurves : curves.length = snapshots.length)
    (hhorizon : amount ≤ horizon) (hcompiled : Compiled snapshots curves horizon eligible) :
    (∀ m m' report, search snapshots curves amount eligible legLimit m = (.ok report, m') →
      Certified snapshots amount eligible legLimit report) ∧
    ∀ m, (search snapshots curves amount eligible legLimit m).1 ≠ .error .invalidCurve := by
  have hstop : ∀ {m m₁ e}, ResidualTape.build curves eligible m = (.error e, m₁) →
      search snapshots curves amount eligible legLimit m = (.error e, m₁) := fun hbuild =>
    Comp.bind_apply_error hbuild
  rcases build_either hcompiled hcurves with hreject | ⟨hzero, hsel, henclosed⟩
  · have hbuild : ∀ m, ∃ m₁, search snapshots curves amount eligible legLimit m
        = (.error .bounds, m₁) := by
      intro m
      exact ⟨_, hstop (Prod.ext (hreject m) rfl)⟩
    constructor
    · intro m m' report hok
      obtain ⟨m₁, hm₁⟩ := hbuild m
      rw [hm₁] at hok
      cases hok
    · intro m herr
      obtain ⟨m₁, hm₁⟩ := hbuild m
      rw [hm₁] at herr
      cases herr
  obtain ⟨L, hL⟩ := Merge.exists_merge (streamsAt_sorted hsel fun _ => 0)
  obtain ⟨t, hrun, hspec⟩ := build_runs hsel hzero hL
  obtain ⟨hcertified, hne⟩ := searchSpec_certified henclosed hsel hL hhorizon legLimit
  -- the tape of the build answers every query from the book
  have hsearch : ∀ m m₁, ResidualTape.build curves eligible m = (.ok t, m₁) →
      (search snapshots curves amount eligible legLimit m).1 = searchSpec snapshots curves amount
        eligible legLimit (bookAnswer curves eligible L amount) ∨
      (search snapshots curves amount eligible legLimit m).1 = .error .workLimit ∨
      (search snapshots curves amount eligible legLimit m).1 = .error .identity := by
    intro m m₁ hbuild
    have hthen : search snapshots curves amount eligible legLimit m
        = searchTape snapshots curves t amount eligible legLimit m₁ := Comp.bind_apply_ok hbuild
    rw [hthen]
    by_cases hmatch : t.matchesCurves curves eligible = true
    · rcases (search_runs hspec hmatch snapshots amount legLimit).1.either m₁ with h | h
      · exact Or.inl h
      · exact Or.inr (Or.inl h)
    · right
      right
      unfold searchTape
      rw [rejectIf_of _ (by simpa using hmatch)]
      rfl
  constructor
  · intro m m' report hok
    rcases hbuild : ResidualTape.build curves eligible m with ⟨e | t', m₁⟩
    · rw [hstop hbuild] at hok
      cases hok
    · cases hrun.eq_of_ok hbuild
      rcases hsearch m m₁ hbuild with h | h | h <;> rw [hok] at h
      · exact hcertified report h.symm
      · cases h
      · cases h
  · intro m herr
    rcases hbuild : ResidualTape.build curves eligible m with ⟨e | t', m₁⟩
    · rw [hstop hbuild] at herr
      rcases hrun.either m with h | h <;> rw [hbuild] at h
      · cases h
      · cases h
        cases herr
    · cases hrun.eq_of_ok hbuild
      rcases hsearch m m₁ hbuild with h | h | h <;> rw [herr] at h
      · exact hne h.symm
      · cases h
      · cases h

end Search

/-- Splitting fifteen atoms over the sample books is certified. -/
theorem search_certified_sample :
    ∃ report m', search sampleBooks sampleCurves 15 3 2 ⟨0, 2000⟩ = (.ok report, m') ∧
      Certified sampleBooks 15 3 2 report := by
  have hcompiled : Compiled sampleBooks sampleCurves 20 3 := by
    intro i _ hi
    have hcases : i = 0 ∨ i = 1 := by
      revert i
      decide
    rcases hcases with rfl | rfl
    · exact ⟨⟨0, 1000⟩, _, Prod.ext (by decide) rfl⟩
    · exact ⟨⟨0, 1000⟩, _, Prod.ext (by decide) rfl⟩
  obtain ⟨report, m', hrun⟩ := Comp.exists_of_isOk (show (search sampleBooks sampleCurves 15 3 2
    ⟨0, 2000⟩).1.isOk = true by decide)
  exact ⟨report, m', hrun, (search_certified sampleBooks sampleCurves 20 15 3 2 rfl (by decide)
    hcompiled).1 _ m' report hrun⟩

end StockMesh

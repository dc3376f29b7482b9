import StockMesh.Optimizer.Search
import StockMesh.Optimizer.TapeAllocate

/-! # Searching a tape refines the reference search

Whatever curves a tape was built from, `matchesCurves` makes the eligible curves at hand carry the
same bands. Every query of the search then has the same answer from the tape and from water filling
over the current curves, errors included, and so has the search itself. -/

namespace StockMesh

open Budgeted Stateful Function

section Matching

variable {curves curves₀ : List Curve} {built eligible : Mask} {L : Merged} {t : ResidualTape}

/-- Bands that match an indexed curve are the bands of that curve. -/
theorem matchBands_eq_some {c : Curve} (hc : c.Valid) {ix : IndexedCurve} (hix : Indexed c ix)
    {bs : List Segment} {j k : ℕ} (hlen : j + bs.length = c.len)
    (h : ResidualTape.matchBands ix bs j (ix.capacity j) = some k) :
    bs = c.bands.drop j ∧ k = Bands.total Segment.inputCapacity c.bands := by
  induction bs generalizing j with
  | nil =>
    have hj : j = c.len := by simpa using hlen
    rw [ResidualTape.matchBands, hix.capacity_eq j hj.le, List.take_of_length_le
      (by rw [hc.length_bands]; omega)] at h
    exact ⟨(bands_drop_of_le hj.ge).symm, (Option.some.inj h).symm⟩
  | cons s bs ih =>
    rw [List.length_cons] at hlen
    have hj : j < c.len := by omega
    have hsum : ix.capacity (j + 1) = ix.capacity j + (bandAt c j).inputCapacity := by
      rw [hix.capacity_eq (j + 1) hj, hix.capacity_eq j hj.le, bands_take_succ hc hj,
        Bands.total_append]
      simp
    unfold ResidualTape.matchBands at h
    dsimp only at h
    split at h
    · cases h
    · split at h
      · cases h
      · rename_i hagree
        rw [not_or, not_not, not_not, hix.rates_eq j hj] at hagree
        rw [hagree.1] at h
        obtain ⟨hbs, hk⟩ := ih (by omega) h
        refine ⟨?_, hk⟩
        have hcap : s.inputCapacity = (bandAt c j).inputCapacity := by omega
        rw [bands_drop hc hj, ← hbs]
        congr 1
        cases s
        simp_all

/-- What `matches` establishes about the curves at hand. -/
structure Matched (curves curves₀ : List Curve) (eligible built : Mask) : Prop where
  length_eq : curves.length = curves₀.length
  within : eligible.Within built
  bands_eq : ∀ i, eligible.has i = true → (curveAt curves i).bands = (curveAt curves₀ i).bands
  valid : ∀ i, eligible.has i = true → (curveAt curves i).Valid

/-- A passed test binds the eligible curves to the bands of the tape. -/
theorem matchesCurves_sound (ht : t.Spec curves₀ built L)
    (h : t.matchesCurves curves eligible = true) : Matched curves curves₀ eligible built := by
  unfold ResidualTape.matchesCurves at h
  obtain ⟨hlength, hwithin, hvenues⟩ := of_decide_eq_true h
  rw [ht.edges_eq] at hlength
  rw [ht.mask_eq] at hwithin
  have hone : ∀ i, eligible.has i = true → (curveAt curves i).bands = (curveAt curves₀ i).bands ∧
      (curveAt curves i).Valid := by
    intro i hi
    have hbuilt := Mask.within_iff.mp hwithin i hi
    have hvalid := ht.selected.valid i hbuilt
    have hix := ht.indexed i hbuilt
    have hmem : i ∈ venues curves.length := by
      rw [mem_venues, hlength]
      exact ht.selected.lt_length i hbuilt
    have hmatch := hvenues i hmem hi
    unfold ResidualTape.matchesVenue at hmatch
    obtain ⟨hlen, hle, hbands⟩ := of_decide_eq_true hmatch
    rw [hix.len_eq] at hlen
    have hcount : (curveAt curves i).bands.length = (curveAt curves i).len := by
      rw [Curve.length_bands, min_eq_left hle]
    have hzero : (0 : ℕ) = (t.curves i).capacity 0 := by
      rw [hix.capacity_eq 0 (Nat.zero_le _)]
      rfl
    have hbands' : ResidualTape.matchBands (t.curves i) (curveAt curves i).bands 0
        ((t.curves i).capacity 0) = some (curveAt curves i).capacity := by
      rw [← hzero]
      exact hbands
    obtain ⟨heq, hcap⟩ := matchBands_eq_some hvalid hix (by omega) hbands'
    rw [List.drop_zero] at heq
    refine ⟨heq, ⟨?_, hle, ?_, ?_, ?_, ?_, ?_⟩⟩
    · rw [hlen]
      exact hvalid.len_pos
    · rw [heq]
      exact hvalid.nonempty
    · rw [heq]
      exact hvalid.sorted
    · rw [heq]
      exact hvalid.rate_le
    · rw [heq]
      exact hcap
    · rw [hcap, ← hvalid.capacity_eq]
      exact hvalid.capacity_le
  exact ⟨hlength, hwithin, fun i hi => (hone i hi).1, fun i hi => (hone i hi).2⟩

/-- The restricted book of the tape is the book of the current curves. -/
theorem Matched.isBook (h : Matched curves curves₀ eligible built) (hL : IsBook curves₀ built L)
    {m : Mask} (hm : m.Within eligible) : IsBook curves m (L.restrict m) := by
  have hmb : m.Within built := Mask.within_iff.mpr fun i hi =>
    Mask.within_iff.mp h.within i (Mask.within_iff.mp hm i hi)
  have hbook := hL.restrict hmb
  have hstreams : streamsAt curves m (fun _ => 0) = streamsAt curves₀ m fun _ => 0 := by
    funext i
    unfold streamsAt
    by_cases hi : m.has i = true
    · rw [if_pos hi, if_pos hi, h.bands_eq i (Mask.within_iff.mp hm i hi)]
    · rw [if_neg hi, if_neg hi]
  unfold IsBook
  rw [hstreams]
  exact hbook

theorem Matched.selected (h : Matched curves curves₀ eligible built)
    (hsel : Selected curves₀ built) : Selected curves eligible := by
  refine ⟨?_, fun i hi => ?_, h.valid⟩
  · rw [h.length_eq]
    exact hsel.length_le
  · rw [h.length_eq]
    exact hsel.lt_length i (Mask.within_iff.mp h.within i hi)

end Matching

/-! ## The reference query -/

section Reference

variable {curves : List Curve} {mask : Mask} {M : Merged} {amount : ℕ}

/-- A venue is never filled past its curve's capacity. -/
theorem fill_le_capacity (hsel : Selected curves mask) (hM : IsBook curves mask M) {i : Edge}
    (hi : mask.has i = true) (x : ℕ) : M.fill x i ≤ (curveAt curves i).capacity := by
  have hle : M.fill x i ≤ Bands.total (fun p : Edge × Segment => p.2.inputCapacity)
      (M.filter fun p => decide (p.1 = i)) := Bands.fill_le_total _ M x i
  rw [Merged.total_owner, hM.stream_eq_bands hi, ← (hsel.valid i hi).capacity_eq] at hle
  exact hle

/-- The loop of the conservative output. -/
theorem addLower_ok (hsel : Selected curves mask) (hM : IsBook curves mask M) {l : List Edge}
    {out : ℕ} (hfits : out + (l.map fun i => Curve.integral (Merge.stream M i) (M.fill amount i)
      / scale).sum < u64Size) :
    l.foldlM (addLower curves (M.fill amount)) out = .ok (out + (l.map fun i =>
      if 0 < M.fill amount i then Curve.integral (Merge.stream M i) (M.fill amount i) / scale
        - (curveAt curves i).lowerErrorAtoms else 0).sum) := by
  induction l generalizing out with
  | nil => rfl
  | cons i l ih =>
    rw [List.map_cons, List.sum_cons] at hfits
    have hdiv := Nat.zero_le (Curve.integral (Merge.stream M i) (M.fill amount i) / scale)
    rw [List.foldlM_cons, List.map_cons, List.sum_cons, ← Nat.add_assoc]
    by_cases hpos : 0 < M.fill amount i
    · have hi : mask.has i = true := by
        by_contra hi
        rw [Merged.fill_eq_zero_of_not_has hM (by simpa using hi)] at hpos
        exact lt_irrefl 0 hpos
      have hone : addLower curves (M.fill amount) out i
          = .ok (out + (Curve.integral (Merge.stream M i) (M.fill amount i) / scale
            - (curveAt curves i).lowerErrorAtoms)) := by
        unfold addLower
        rw [if_pos hpos, (hsel.valid i hi).lowerQuote_eq (fill_le_capacity hsel hM hi amount),
          ok_bind, ← hM.stream_eq_bands hi, checkedAdd_of_lt (by omega)]
      rw [hone, ok_bind, if_pos hpos, ih (by omega)]
    · have hone : addLower curves (M.fill amount) out i = .ok out := by
        unfold addLower
        rw [if_neg hpos]
      rw [hone, ok_bind, if_neg hpos, Nat.add_zero, ih (by omega)]

/-- The reference query answers with the allocation of the book. -/
theorem referenceQuery_runs (hsel : Selected curves mask) (hM : IsBook curves mask M)
    (hpos : 0 < amount) (hle : amount ≤ maxAtoms) (hmask : mask ≠ 0) (lower : Bool) :
    RunsTo (referenceQuery curves amount mask lower) waterfillCost
      (M.answer curves lower amount) := by
  have hfill := waterfill_runs hsel hM hpos hle hmask
  unfold referenceQuery Merged.answer
  rcases hresult : M.result amount with e | p <;> rw [hresult] at hfill
  · exact hfill.bind_error
  rw [ok_bind]
  refine (hfill.bind (l := 0) ?_).mono le_rfl
  have hp : p = M.allocation amount := by
    unfold Merged.result at hresult
    split at hresult
    · cases hresult
    · cases hresult
      rfl
  cases lower with
  | false => exact Runs.pure p
  | true =>
    -- venues without a share count for nothing, so the sum may run over all edges
    have hall : ∀ f : Edge → ℕ, (∀ i, i ∉ Merged.owners mask → f i = 0) →
        ((venues curves.length).map f).sum = ∑ i, f i := by
      intro f hf
      rw [← List.sum_toFinset f (venues_nodup _)]
      apply Finset.sum_subset (Finset.subset_univ _)
      intro i _ hi
      refine hf i fun hmem => hi ?_
      rw [List.mem_toFinset, mem_venues]
      exact hsel.lt_length i (Merged.mem_owners.mp hmem)
    have hzero : ∀ i, i ∉ Merged.owners mask → M.fill amount i = 0 := by
      intro i hi
      rw [Merged.mem_owners, Bool.not_eq_true] at hi
      exact Merged.fill_eq_zero_of_not_has hM hi amount
    have hsum : ((venues curves.length).map fun i =>
        Curve.integral (Merge.stream M i) (M.fill amount i) / scale).sum < u64Size := by
      rw [← List.sum_toFinset _ (venues_nodup _)]
      calc ∑ i ∈ (venues curves.length).toFinset,
            Curve.integral (Merge.stream M i) (M.fill amount i) / scale
          ≤ ∑ i : Edge, Curve.integral (Merge.stream M i) (M.fill amount i) / scale :=
            Finset.sum_le_sum_of_subset (Finset.subset_univ _)
        _ = ∑ i ∈ Merged.owners mask,
              Curve.integral (Merge.stream M i) (M.fill amount i) / scale := by
            symm
            apply Finset.sum_subset (Finset.subset_univ _)
            intro i _ hi
            rw [hzero i hi, Curve.integral, Bands.area_zero, Nat.zero_div]
        _ ≤ (∑ i ∈ Merged.owners mask,
              Curve.integral (Merge.stream M i) (M.fill amount i)) / scale :=
            Merged.sum_div_le _ _ _
        _ = M.area amount / scale := by
            rw [Merged.area_eq_sum M (Merged.owner_mem_of_book hM)]
        _ < u64Size := hM.area_div_lt hsel hle
    have hinputs : p.inputs = M.fill amount := by rw [hp]; rfl
    rw [if_pos rfl, hinputs, addLower_ok hsel hM (by omega), lift_ok, pure_bind, Nat.zero_add,
      hall _ (fun i hi => by rw [hzero i hi, if_neg (lt_irrefl 0)])]
    exact Runs.pure _

end Reference

/-! ## The refinement -/

/-- A build that returns has selected valid curves. -/
theorem build_selected {curves : List Curve} {mask : Mask} {t : ResidualTape} {m m' : WorkMeter}
    (h : ResidualTape.build curves mask m = (.ok t, m')) :
    mask ≠ 0 ∧ Selected curves mask := by
  unfold ResidualTape.build at h
  obtain ⟨_, m₁, hcheck, h⟩ := Comp.bind_eq_ok.mp h
  obtain ⟨heads, m₂, hindex, -⟩ := Comp.bind_eq_ok.mp h
  have hok := congrArg Prod.fst hcheck
  have hbounds := rejectIf_eq_ok.mp hok
  simp only [not_or] at hbounds
  obtain ⟨-, hlen, hmask, hbits⟩ := hbounds
  have hlt := Mask.toNat_lt_iff.mp (Nat.not_le.mp hbits)
  refine ⟨hmask, by omega, hlt, fun i hi => ?_⟩
  obtain ⟨b₁, m₃, b₂, m₄, hstep⟩ := Comp.foldlM_step_ok hindex (mem_venues.mpr (hlt i hi))
  unfold ResidualTape.indexVenue at hstep
  rw [if_neg (by simp [hi])] at hstep
  obtain ⟨_, m₅, hvalidate, -⟩ := Comp.bind_eq_ok.mp hstep
  exact Curve.validate_eq_ok.mp (congrArg Prod.fst hvalidate)

/-- The tape a build returns is the tape of a merged book. -/
theorem build_spec {curves : List Curve} {mask : Mask} {t : ResidualTape} {m m' : WorkMeter}
    (h : ResidualTape.build curves mask m = (.ok t, m')) : ∃ L, t.Spec curves mask L := by
  obtain ⟨hmask, hsel⟩ := build_selected h
  obtain ⟨L, hL⟩ := Merge.exists_merge (streamsAt_sorted hsel fun _ => 0)
  obtain ⟨t', hrun, hspec⟩ := build_runs hsel hmask hL
  have heq := hrun.eq_of_ok h
  cases heq
  exact ⟨L, hspec⟩

/-- The answer of a query over a merged book, with the domain errors both implementations share. -/
def bookAnswer (curves : List Curve) (eligible : Mask) (L : Merged) (amount : ℕ) (mask : Mask)
    (lower : Bool) : Result Allocation :=
  if mask = 0 ∨ ¬mask.Within eligible then .error .bounds
  else (L.restrict mask).answer curves lower amount

/-- Every query of a matching tape answers from the book. -/
theorem tapeQuery_runs {curves curves₀ : List Curve} {built eligible : Mask} {L : Merged}
    {t : ResidualTape} (ht : t.Spec curves₀ built L) (h : Matched curves curves₀ eligible built)
    {amount : ℕ} (hpos : 0 < amount) (hle : amount ≤ maxAtoms) {mask : Mask}
    (hm : mask.Within eligible) (lower : Bool) :
    RunsTo (if lower then t.allocateLower amount mask curves else t.allocate amount mask)
      allocateCost (bookAnswer curves eligible L amount mask lower) := by
  have hmb : mask.Within built := Mask.within_iff.mpr fun i hi =>
    Mask.within_iff.mp h.within i (Mask.within_iff.mp hm i hi)
  unfold bookAnswer
  by_cases hzero : mask = 0
  · have hreject : ∀ flag errors, RunsTo (t.allocateInner flag amount mask errors) allocateCost
        (.error .bounds) := by
      intro flag errors
      unfold ResidualTape.allocateInner
      rw [rejectIf_of_not _ (by omega), lift_ok, pure_bind, rejectIf_of _ (Or.inl hzero)]
      exact (Runs.bind_error (Runs.lift _)).mono (Nat.zero_le _)
    rw [if_pos (Or.inl hzero)]
    cases lower
    · exact hreject _ _
    · exact hreject _ _
  · have hdomain : ¬(mask = 0 ∨ ¬mask.Within eligible) := by
      rw [not_or, not_not]
      exact ⟨hzero, hm⟩
    rw [if_neg hdomain]
    cases lower
    · exact allocateInner_runs ht hmb hpos hle hzero false []
    · exact allocateInner_runs ht hmb hpos hle hzero true curves

/-- Every query of the reference answers from the same book. -/
theorem referenceQuery_runs_book {curves curves₀ : List Curve} {built eligible : Mask} {L : Merged}
    {t : ResidualTape} (ht : t.Spec curves₀ built L) (h : Matched curves curves₀ eligible built)
    {amount : ℕ} (hpos : 0 < amount) (hle : amount ≤ maxAtoms) {mask : Mask}
    (hm : mask.Within eligible) (lower : Bool) :
    RunsTo (referenceQuery curves amount mask lower) waterfillCost
      (bookAnswer curves eligible L amount mask lower) := by
  unfold bookAnswer
  by_cases hzero : mask = 0
  · rw [if_pos (Or.inl hzero)]
    have hlen : 0 < curves.length := by
      rw [h.length_eq]
      exact ht.selected.length_pos ht.mask_ne_zero
    have hle' : curves.length ≤ maxEdges := by
      rw [h.length_eq]
      exact ht.selected.length_le
    unfold referenceQuery waterfill
    rw [rejectIf_of_not _ (by omega), lift_ok, pure_bind, rejectIf_of _ (Or.inl hzero)]
    exact (Runs.bind_error (Runs.bind_error (Runs.lift _))).mono (Nat.zero_le _)
  · rw [if_neg (by rw [not_or, not_not]; exact ⟨hzero, hm⟩)]
    exact referenceQuery_runs ((h.selected ht.selected).within hm) (h.isBook ht.book hm) hpos hle
      hzero lower

/-- A search over a matching tape and the reference search end alike. -/
theorem search_runs {curves curves₀ : List Curve} {built eligible : Mask} {L : Merged}
    {t : ResidualTape} (ht : t.Spec curves₀ built L)
    (h : t.matchesCurves curves eligible = true) (snapshots : List Snapshot) (amount legLimit : ℕ) :
    RunsTo (searchTape snapshots curves t amount eligible legLimit) (searchCost allocateCost)
        (searchSpec snapshots curves amount eligible legLimit
          (bookAnswer curves eligible L amount)) ∧
      RunsTo (searchReference snapshots curves amount eligible legLimit) (searchCost waterfillCost)
        (searchSpec snapshots curves amount eligible legLimit
          (bookAnswer curves eligible L amount)) := by
  have hmatched := matchesCurves_sound ht h
  have hself : eligible.Within eligible := Mask.within_iff.mpr fun i hi => hi
  constructor
  · unfold searchTape
    rw [rejectIf_of_not _ (by rw [h]; simp), lift_ok, pure_bind]
    exact searchWith_runs
      (fun hpos hle => tapeQuery_runs ht hmatched hpos hle hself false)
      (fun hpos hle mask _ hm => tapeQuery_runs ht hmatched hpos hle hm true)
  · exact searchWith_runs
      (fun hpos hle => referenceQuery_runs_book ht hmatched hpos hle hself false)
      (fun hpos hle mask _ hm => referenceQuery_runs_book ht hmatched hpos hle hm true)

/-- The residual tape refines water filling: over valid curves a build succeeds, every sub-mask and
amount get the same allocation or the same error from both, and searching any tape that matches the
curves at hand is the reference search. -/
theorem tape_refines_waterfill :
    (∀ (curves : List Curve) (built : Mask), 1 ≤ curves.length → curves.length ≤ maxEdges →
      (∀ c ∈ curves, c.validate = .ok ()) →
      (built ≠ 0 → built.toNat < 2 ^ curves.length →
        ∃ t, RunsTo (ResidualTape.build curves built) buildCost (.ok t)) ∧
      ∀ t m m', ResidualTape.build curves built m = (.ok t, m') →
        ∀ (mask : Mask) (amount : ℕ), mask.Within built →
          ∃ r, RunsTo (t.allocate amount mask) allocateCost r ∧
            RunsTo (waterfill curves amount mask) waterfillCost r) ∧
    ∀ (curves₀ : List Curve) (built : Mask) (t : ResidualTape) (m m' : WorkMeter),
      ResidualTape.build curves₀ built m = (.ok t, m') →
      ∀ (snapshots : List Snapshot) (curves : List Curve) (amount : ℕ) (eligible : Mask)
        (legLimit : ℕ), t.matchesCurves curves eligible = true →
        ∃ r, RunsTo (searchTape snapshots curves t amount eligible legLimit)
            (searchCost allocateCost) r ∧
          RunsTo (searchReference snapshots curves amount eligible legLimit)
            (searchCost waterfillCost) r := by
  refine ⟨fun curves built hpos hlen hvalid => ⟨fun hmask hbits => ?_, ?_⟩, ?_⟩
  · have hat : ∀ i : Edge, built.has i = true → (curveAt curves i).Valid := by
      intro i hi
      have hlt := Mask.toNat_lt_iff.mp hbits i hi
      apply Curve.validate_eq_ok.mp
      apply hvalid
      rw [curveAt, List.getD_eq_getElem?_getD, List.getElem?_eq_getElem hlt]
      exact List.getElem_mem hlt
    have hsel : Selected curves built := ⟨hlen, Mask.toNat_lt_iff.mp hbits, hat⟩
    obtain ⟨L, hL⟩ := Merge.exists_merge (streamsAt_sorted hsel fun _ => 0)
    obtain ⟨t, hrun, -⟩ := build_runs hsel hmask hL
    exact ⟨t, hrun⟩
  · intro t m m' hbuild mask amount hwithin
    obtain ⟨L, ht⟩ := build_spec hbuild
    have hcount := ht.selected.length_pos ht.mask_ne_zero
    by_cases hamount : amount = 0 ∨ maxAtoms < amount
    · -- both reject the amount first
      refine ⟨.error .invalidAmount, ?_, ?_⟩
      · unfold ResidualTape.allocate ResidualTape.allocateInner
        rw [rejectIf_of _ hamount]
        exact (Runs.bind_error (Runs.lift _)).mono (Nat.zero_le _)
      · unfold waterfill
        rw [rejectIf_of _ (by omega)]
        exact (Runs.bind_error (Runs.lift _)).mono (Nat.zero_le _)
    by_cases hzero : mask = 0
    · refine ⟨.error .bounds, ?_, ?_⟩
      · unfold ResidualTape.allocate ResidualTape.allocateInner
        rw [rejectIf_of_not _ hamount, lift_ok, pure_bind, rejectIf_of _ (Or.inl hzero)]
        exact (Runs.bind_error (Runs.lift _)).mono (Nat.zero_le _)
      · unfold waterfill
        rw [rejectIf_of_not _ (by omega), lift_ok, pure_bind, rejectIf_of _ (Or.inl hzero)]
        exact (Runs.bind_error (Runs.lift _)).mono (Nat.zero_le _)
    refine ⟨(L.restrict mask).result amount, ?_, ?_⟩
    · rw [← Merged.answer_false _ []]
      exact allocateInner_runs ht hwithin (by omega) (by omega) hzero false []
    · exact waterfill_runs (ht.selected.within hwithin) (ht.book.restrict hwithin) (by omega)
        (by omega) hzero
  · intro curves₀ built t m m' hbuild snapshots curves amount eligible legLimit hmatch
    obtain ⟨L, ht⟩ := build_spec hbuild
    obtain ⟨htape, hreference⟩ := search_runs ht hmatch snapshots amount legLimit
    exact ⟨_, htape, hreference⟩

/-- A curve of one band of ten atoms. -/
def sampleCurve (rate : ℕ) : Curve :=
  { segments := (Vector.replicate maxSegments ⟨0, 0⟩).set 0 ⟨10, rate⟩
    len := 1
    capacity := 10 }

/-- A book of one level of ten atoms, on its own market and resource. -/
def sampleBook (id : UInt8) (resource rate : ℕ) : Snapshot :=
  { market := .replicate 32 id
    program := .replicate 32 0
    inputMint := .replicate 32 1
    outputMint := .replicate 32 2
    liquidityId := .replicate 32 id
    writableResources := resource
    slot := 0
    generation := 0
    expiresAtSlot := 0
    capacity := 10
    atomic := true
    enabled := true
    model := .book ((Vector.replicate maxSegments ⟨0, 0⟩).set 0 ⟨10, rate⟩) 1 }

/-- Two curves of equal rate, so that the order of venues decides. -/
def sampleCurves : List Curve := [sampleCurve scale, sampleCurve scale]

/-- The books of these curves. -/
def sampleBooks : List Snapshot := [sampleBook 3 1 scale, sampleBook 4 2 scale]

/-- The tape built from both sample curves. -/
def sampleTape : Result ResidualTape := (ResidualTape.build sampleCurves 3 ⟨0, 1000⟩).1

/-- On the sample curves tape and reference agree, for both venues and for a search over one. -/
theorem tape_refines_waterfill_sample : ∃ t m',
    ResidualTape.build sampleCurves 3 ⟨0, 1000⟩ = (.ok t, m') ∧
      (∃ r, RunsTo (t.allocate 15 3) allocateCost r ∧
        RunsTo (waterfill sampleCurves 15 3) waterfillCost r) ∧
      ∃ r, RunsTo (searchTape sampleBooks sampleCurves t 5 1 2) (searchCost allocateCost) r ∧
        RunsTo (searchReference sampleBooks sampleCurves 5 1 2) (searchCost waterfillCost) r := by
  obtain ⟨⟨t, hrun⟩, hallocate⟩ := (tape_refines_waterfill.1 sampleCurves 3 (by decide) (by decide)
    (by decide)).imp_left fun h => h (by decide) (by decide)
  obtain ⟨k, -, hbuild⟩ := hrun.enough ⟨0, 1000⟩ (by decide) (by decide)
  have ht : sampleTape = .ok t := congrArg Prod.fst hbuild
  have hmatch : t.matchesCurves sampleCurves 1 = true := by
    have hall : (match sampleTape with
        | .ok t => t.matchesCurves sampleCurves 1
        | .error _ => false) = true := by decide
    rw [ht] at hall
    exact hall
  exact ⟨t, _, hbuild, hallocate t _ _ hbuild 3 15 (by decide),
    tape_refines_waterfill.2 sampleCurves 3 t _ _ hbuild sampleBooks sampleCurves 5 1 2 hmatch⟩

end StockMesh

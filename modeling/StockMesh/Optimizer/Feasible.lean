import StockMesh.Optimizer.Certificate

/-! # A search with a feasible split succeeds

Admission and the upper bound only get easier on fewer venues and a smaller amount. So when a first
search has succeeded, a later one over some of its venues succeeds as soon as there is a split of the
smaller amount that fits the curves, the leg limit and the resources. -/

namespace StockMesh

open Budgeted Stateful

section Tape

variable {curves : List Curve} {built eligible : Mask} {L : Merged} {t : ResidualTape}

/-- The bands of an indexed curve match it. -/
theorem matchBands_drop {c : Curve} (hc : c.Valid) {ix : IndexedCurve} (hix : Indexed c ix) (n : ℕ)
    {j : ℕ} (hn : j + n = c.len) :
    ResidualTape.matchBands ix (c.bands.drop j) j (ix.capacity j) = some c.capacity := by
  induction n generalizing j with
  | zero =>
    rw [bands_drop_of_le (by omega), ResidualTape.matchBands, hix.capacity_eq j (by omega),
      List.take_of_length_le (by rw [hc.length_bands]; omega), hc.capacity_eq]
  | succ n ih =>
    have hj : j < c.len := by omega
    have hsum : ix.capacity (j + 1) = ix.capacity j + (bandAt c j).inputCapacity := by
      rw [hix.capacity_eq (j + 1) hj, hix.capacity_eq j hj.le, bands_take_succ hc hj,
        Bands.total_append]
      simp
    have hfits : ix.capacity (j + 1) < u64Size := by
      have hle : ix.capacity (j + 1) ≤ c.capacity := by
        have hsplit := congrArg (Bands.total Segment.inputCapacity)
          (List.take_append_drop (j + 1) c.bands)
        rw [Bands.total_append] at hsplit
        rw [hix.capacity_eq (j + 1) hj, hc.capacity_eq, ← hsplit]
        exact Nat.le_add_right _ _
      have := hc.capacity_le
      have := constants
      omega
    rw [bands_drop hc hj, ResidualTape.matchBands, ← hsum, if_neg (by omega), if_neg (by rw [hix.rates_eq j hj]; simp)]
    exact ih (by omega)

/-- A tape matches the curves it was built from, on every sub-mask. -/
theorem matchesCurves_self (ht : t.Spec curves built L) (heligible : eligible.Within built) :
    t.matchesCurves curves eligible = true := by
  unfold ResidualTape.matchesCurves
  refine decide_eq_true ⟨ht.edges_eq.symm, by rwa [ht.mask_eq], fun i _ hi => ?_⟩
  have hbuilt := Mask.within_iff.mp heligible i hi
  have hvalid := ht.selected.valid i hbuilt
  have hix := ht.indexed i hbuilt
  have hzero : (t.curves i).capacity 0 = 0 := by
    rw [hix.capacity_eq 0 (Nat.zero_le _)]
    rfl
  have hmatch := matchBands_drop hvalid hix (curveAt curves i).len (Nat.zero_add _)
  rw [hzero, List.drop_zero] at hmatch
  unfold ResidualTape.matchesVenue
  exact decide_eq_true ⟨hix.len_eq.symm, hvalid.len_le, hmatch⟩

end Tape

section Search

variable {snapshots : List Snapshot} {curves : List Curve} {horizon amount amount' legLimit : ℕ}
  {eligible eligible' : Mask} {L : Merged}

/-- What the admission of a venue checks. -/
theorem admitStep_eq_ok {i : Edge} (hi : eligible.has i = true) {pair c : Option (Key × Key)} :
    admitStep snapshots curves eligible pair i = .ok c ↔
      ¬((snapshotAt snapshots i).inputMint = (snapshotAt snapshots i).outputMint ∨
        (snapshotAt snapshots i).atomic = false ∨ (snapshotAt snapshots i).enabled = false) ∧
      ¬(pair ≠ none ∧
        pair ≠ some ((snapshotAt snapshots i).inputMint, (snapshotAt snapshots i).outputMint)) ∧
      ¬(snapshotAt snapshots i).capacity < (curveAt curves i).capacity ∧
      (¬∃ j ∈ venues i.val, eligible.has j = true ∧
        ((snapshotAt snapshots j).market = (snapshotAt snapshots i).market ∨
          (snapshotAt snapshots j).liquidityId = (snapshotAt snapshots i).liquidityId)) ∧
      some ((snapshotAt snapshots i).inputMint, (snapshotAt snapshots i).outputMint) = c := by
  unfold admitStep
  rw [if_neg (by simp [hi])]
  simp only [bind_eq_ok, rejectIf_eq_ok]
  constructor
  · rintro ⟨_, hkind, _, hpair, _, hcap, _, halias, hc⟩
    exact ⟨hkind, hpair, hcap, halias, Except.ok.inj hc⟩
  · rintro ⟨hkind, hpair, hcap, halias, rfl⟩
    exact ⟨(), hkind, (), hpair, (), hcap, (), halias, rfl⟩

theorem admitStep_of_not {i : Edge} (hi : ¬eligible.has i = true) (pair : Option (Key × Key)) :
    admitStep snapshots curves eligible pair i = .ok pair := if_pos (by simpa using hi)

/-- Admission of fewer venues. -/
theorem admitAll_within (h' : eligible'.Within eligible) {pair : Option (Key × Key)}
    (h : admitAll snapshots curves eligible = .ok pair) :
    ∃ pair', admitAll snapshots curves eligible' = .ok pair' := by
  have hloop : ∀ (l : List Edge) (p p' q : Option (Key × Key)), (p' = none ∨ p' = p) →
      l.foldlM (admitStep snapshots curves eligible) p = .ok q →
      ∃ q', l.foldlM (admitStep snapshots curves eligible') p' = .ok q' := by
    intro l
    induction l with
    | nil => exact fun p p' q _ _ => ⟨p', rfl⟩
    | cons i l ih =>
      intro p p' q hp hrun
      rw [List.foldlM_cons, bind_eq_ok] at hrun
      obtain ⟨c, hstep, hrest⟩ := hrun
      rw [List.foldlM_cons]
      by_cases hi : eligible.has i = true
      · obtain ⟨hkind, hpair, hcap, halias, rfl⟩ := (admitStep_eq_ok hi).mp hstep
        by_cases hi' : eligible'.has i = true
        · -- the venue passes the checks it passed before
          have hagain : admitStep snapshots curves eligible' p' i = .ok _ := (admitStep_eq_ok hi').mpr
            ⟨hkind, fun hp' => hpair (by rcases hp with rfl | rfl; exacts [absurd rfl hp'.1, hp']),
              hcap, fun ⟨j, hj, hhas, hshare⟩ =>
                halias ⟨j, hj, Mask.within_iff.mp h' j hhas, hshare⟩, rfl⟩
          rw [hagain, ok_bind]
          exact ih _ _ q (Or.inr rfl) hrest
        · rw [admitStep_of_not hi', ok_bind]
          refine ih _ p' q ?_ hrest
          rcases hp with rfl | rfl
          · exact Or.inl rfl
          · by_cases hnone : p' = none
            · exact Or.inl hnone
            · right
              by_contra hne
              exact hpair ⟨hnone, hne⟩
      · have hi' : ¬eligible'.has i = true := fun hhas => hi (Mask.within_iff.mp h' i hhas)
        rw [admitStep_of_not hi] at hstep
        rw [admitStep_of_not hi', ok_bind]
        cases hstep
        exact ih p p' q hp hrest
  exact hloop _ none none pair (Or.inl rfl) h

/-- Adding up error fields that fit. -/
theorem upperOutput_eq_ok {relaxed : ℕ} (hlt : ∀ i, eligible.has i = true → i.val < curves.length)
    (hfits : relaxed + ∑ i ∈ Merged.owners eligible, (curveAt curves i).upperErrorAtoms < u64Size) :
    ∃ upper, upperOutput curves eligible relaxed = .ok upper := by
  have hsum : ((venues curves.length).map fun i =>
      if eligible.has i then (curveAt curves i).upperErrorAtoms else 0).sum
        = ∑ i ∈ Merged.owners eligible, (curveAt curves i).upperErrorAtoms := by
    rw [← List.sum_toFinset _ (venues_nodup _), Finset.sum_ite, Finset.sum_const_zero, Nat.add_zero]
    refine Finset.sum_congr ?_ fun i _ => rfl
    ext i
    simp only [Finset.mem_filter, List.mem_toFinset, mem_venues, Merged.mem_owners]
    exact and_iff_right_of_imp (hlt i)
  have hloop : ∀ (l : List Edge) (a : ℕ), a + (l.map fun i =>
      if eligible.has i then (curveAt curves i).upperErrorAtoms else 0).sum < u64Size →
      ∃ b, l.foldlM (fun upper i => if eligible.has i then
        checkedAdd upper (curveAt curves i).upperErrorAtoms else .ok upper) a
          = (.ok b : Result ℕ) := by
    intro l
    induction l with
    | nil => exact fun a _ => ⟨a, rfl⟩
    | cons i l ih =>
      intro a ha
      rw [List.map_cons, List.sum_cons] at ha
      rw [List.foldlM_cons]
      by_cases hi : eligible.has i = true
      · rw [if_pos hi] at ha ⊢
        rw [checkedAdd_of_lt (by omega), ok_bind]
        exact ih _ (by omega)
      · rw [if_neg hi] at ha ⊢
        rw [ok_bind]
        exact ih _ (by omega)
  exact hloop _ relaxed (by rw [hsum]; exact hfits)

/-- A subset that the enumeration keeps. -/
structure Feasible (snapshots : List Snapshot) (eligible : Mask) (legLimit : ℕ) (L : Merged)
    (amount : ℕ) (mask : Mask) : Prop where
  ne_zero : mask ≠ 0
  within : mask.Within eligible
  count_le : mask.countOnes ≤ legLimit
  independent : independent snapshots mask = true
  capacity : amount ≤ (L.restrict mask).total

/-- A kept list does not become empty. -/
theorem shortlist_ne_nil (finalists : List Allocation) (p : Allocation) :
    (shortlist finalists p).length ≠ 0 := by
  unfold shortlist
  split
  · rename_i hany
    obtain ⟨f, hf, -⟩ := List.any_eq_true.mp hany
    exact (List.length_pos_of_mem hf).ne'
  · dsimp only
    split
    · rename_i hpos
      have hle := hpos.trans List.findIdx_le_length
      have := constants
      unfold maxFinalists at hle
      omega
    · rw [List.length_take, List.length_insertIdx, if_pos List.findIdx_le_length]
      unfold maxFinalists
      omega

variable (snapshots curves eligible legLimit L amount) in
/-- Every subset is considered without an error, and a feasible one is kept. -/
theorem considerSpec_eq_ok (sl : Shortlist) {m : ℕ} (hm : maskOf m ≠ 0) :
    ∃ sl', considerSpec snapshots eligible legLimit (bookAnswer curves eligible L amount) sl m
        = .ok sl' ∧
      (Feasible snapshots eligible legLimit L amount (maskOf m) ∨ sl.finalists.length ≠ 0 →
        sl'.finalists.length ≠ 0) := by
  unfold considerSpec
  split
  · rename_i hskip
    refine ⟨sl, rfl, fun h => h.resolve_left fun hfeasible => ?_⟩
    rcases hskip with hout | hcount
    · exact hout hfeasible.within
    · exact absurd hfeasible.count_le (Nat.not_le.mpr hcount)
  rename_i hskip
  unfold Skipped at hskip
  rw [not_or, not_not] at hskip
  split
  · rename_i hdep
    refine ⟨sl.count, rfl, fun h => h.resolve_left fun hfeasible => ?_⟩
    rw [hfeasible.independent] at hdep
    cases hdep
  · unfold bookAnswer
    rw [if_neg (by rw [not_or, not_not]; exact ⟨hm, hskip.1⟩)]
    unfold Merged.answer Merged.result
    split
    · rename_i hshort
      refine ⟨sl.count, rfl, fun h => h.resolve_left fun hfeasible => ?_⟩
      exact absurd hfeasible.capacity (Nat.not_le.mpr hshort)
    · exact ⟨_, rfl, fun _ => shortlist_ne_nil _ _⟩

/-- The enumeration keeps a finalist if one of its subsets is feasible. -/
theorem enumerate_eq_ok {mask : Mask} (hcurves : curves.length ≤ maxEdges)
    (hfeasible : Feasible snapshots eligible legLimit L amount mask)
    (hbits : mask.toNat < 2 ^ curves.length) :
    ∃ sl, (List.range' 1 (2 ^ curves.length - 1)).foldlM (considerSpec snapshots eligible legLimit
      (bookAnswer curves eligible L amount)) {} = .ok sl ∧ sl.finalists.length ≠ 0 := by
  have hloop : ∀ (ms : List ℕ) (sl : Shortlist), (∀ m ∈ ms, maskOf m ≠ 0) →
      ∃ sl', ms.foldlM (considerSpec snapshots eligible legLimit
          (bookAnswer curves eligible L amount)) sl = .ok sl' ∧
        ((∃ m ∈ ms, Feasible snapshots eligible legLimit L amount (maskOf m)) ∨
          sl.finalists.length ≠ 0 → sl'.finalists.length ≠ 0) := by
    intro ms
    induction ms with
    | nil =>
      refine fun sl _ => ⟨sl, rfl, fun h => h.resolve_left ?_⟩
      rintro ⟨m, hm, -⟩
      cases hm
    | cons m ms ih =>
      intro sl hms
      obtain ⟨sl₁, hstep, hkeep⟩ := considerSpec_eq_ok snapshots curves amount legLimit eligible L
        sl (hms m List.mem_cons_self)
      obtain ⟨sl', hrest, hkeep'⟩ := ih sl₁ fun m' hm' => hms m' (List.mem_cons_of_mem m hm')
      refine ⟨sl', by rw [List.foldlM_cons, hstep, ok_bind, hrest], fun h => hkeep' ?_⟩
      rcases h with ⟨m', hm', hf⟩ | hne
      · rcases List.mem_cons.mp hm' with rfl | hm'
        · exact Or.inr (hkeep (Or.inl hf))
        · exact Or.inl ⟨m', hm', hf⟩
      · exact Or.inr (hkeep (Or.inr hne))
  obtain ⟨sl, hrun, hne⟩ := hloop _ {} fun m hm => (maskOf_ne_zero hcurves hm).1
  refine ⟨sl, hrun, hne (Or.inl ⟨mask.toNat, ?_, ?_⟩)⟩
  · have hpos : 0 < mask.toNat := by
      rw [Nat.pos_iff_ne_zero]
      intro hzero
      exact hfeasible.ne_zero (BitVec.eq_of_toNat_eq hzero)
    rw [List.mem_range'_1]
    omega
  · have hmask : maskOf mask.toNat = mask := by
      apply BitVec.eq_of_toNat_eq
      rw [maskOf, BitVec.toNat_ofNat]
      exact Nat.mod_eq_of_lt mask.isLt
    rw [hmask]
    exact hfeasible

/-- Venues without a common resource pass the independence test. -/
theorem independent_complete {mask : Mask} (h : ∀ i j : Edge, i ≠ j → mask.has i = true →
    mask.has j = true → (snapshotAt snapshots i).writableResources
      &&& (snapshotAt snapshots j).writableResources = 0) : independent snapshots mask = true := by
  have hloop : ∀ (l : List Edge) (resources : ℕ), l.Nodup →
      (∀ k ∈ l, mask.has k = true →
        resources &&& (snapshotAt snapshots k).writableResources = 0) →
      independentLoop snapshots mask l resources = true := by
    intro l
    induction l with
    | nil => exact fun _ _ _ => rfl
    | cons k l ih =>
      intro resources hnodup hfree
      obtain ⟨hk, hnodup⟩ := List.nodup_cons.mp hnodup
      unfold independentLoop
      by_cases hhas : mask.has k = true
      · rw [if_neg (by simp [hhas]), if_neg (not_not.mpr (hfree k List.mem_cons_self hhas))]
        refine ih _ hnodup fun k' hk' hhas' => ?_
        rw [Nat.and_or_distrib_right, Nat.or_eq_zero_iff]
        exact ⟨hfree k' (List.mem_cons_of_mem k hk') hhas',
          h k k' (fun heq => hk (heq ▸ hk')) hhas hhas'⟩
      · rw [if_pos (by simpa using hhas)]
        exact ih _ hnodup fun k' hk' => hfree k' (List.mem_cons_of_mem k hk')
  exact hloop _ 0 (venues_nodup _) fun _ _ _ => Nat.zero_and _

/-- Restricting twice is restricting to the smaller mask. -/
theorem restrict_restrict {mask : Mask} (h : mask.Within eligible) :
    (L.restrict eligible).restrict mask = L.restrict mask := by
  unfold Merged.restrict
  rw [List.filter_filter]
  refine List.filter_congr fun p _ => ?_
  by_cases hp : mask.has p.1 = true
  · rw [hp, Mask.within_iff.mp h p.1 hp, Bool.and_self]
  · rw [Bool.not_eq_true] at hp
    rw [hp, Bool.false_and]

/-- Queries within the eligible venues only see their bands. -/
theorem bookAnswer_restrict :
    bookAnswer curves eligible (L.restrict eligible) amount = bookAnswer curves eligible L amount := by
  funext mask lower
  unfold bookAnswer
  split
  · rfl
  · rename_i h
    rw [not_or, not_not] at h
    rw [restrict_restrict h.2]

/-- The bands of some venues are no more than those of all. -/
theorem total_restrict_le {mask : Mask} (h : mask.Within eligible) :
    (L.restrict mask).total ≤ (L.restrict eligible).total := by
  rw [Merged.total_restrict, Merged.total_restrict]
  refine Finset.sum_le_sum_of_subset fun i hi => ?_
  rw [Merged.mem_owners] at hi ⊢
  exact Mask.within_iff.mp h i hi

/-- A split that fits the curves, the leg limit and the resources is a feasible subset. -/
theorem feasible_support (hsel : Selected curves eligible) (hL : IsBook curves eligible L)
    {x : Edge → ℕ} (hamount : 0 < amount) (hsum : ∑ i, x i = amount)
    (hsupp : ∀ i, 0 < x i → eligible.has i = true)
    (hcap : ∀ i, 0 < x i → x i ≤ (curveAt curves i).capacity)
    (hlegs : (Finset.univ.filter fun i => 0 < x i).card ≤ legLimit)
    (hfree : ∀ i j, i ≠ j → 0 < x i → 0 < x j → (snapshotAt snapshots i).writableResources
      &&& (snapshotAt snapshots j).writableResources = 0) :
    Feasible snapshots eligible legLimit L amount (Mask.support x) := by
  have hhas : ∀ i, (Mask.support x).has i = true ↔ 0 < x i := by
    intro i
    rw [Mask.has_support, decide_eq_true_eq]
  refine ⟨?_, ?_, ?_, ?_, ?_⟩
  · intro hzero
    have hnone : ∀ i, x i = 0 := by
      intro i
      have hi := Mask.eq_zero_iff.mp hzero i
      rw [Mask.has_support, decide_eq_false_iff_not] at hi
      omega
    rw [Finset.sum_eq_zero fun i _ => hnone i] at hsum
    omega
  · exact Mask.within_iff.mpr fun i hi => hsupp i ((hhas i).mp hi)
  · rw [← Mask.length_edges, ← List.toFinset_card_of_nodup (Mask.edges_nodup _)]
    refine le_trans (Finset.card_le_card fun i hi => ?_) hlegs
    rw [List.mem_toFinset, Mask.mem_edges, hhas] at hi
    exact Finset.mem_filter.mpr ⟨Finset.mem_univ i, hi⟩
  · exact independent_complete fun i j hij hi hj => hfree i j hij ((hhas i).mp hi) ((hhas j).mp hj)
  · rw [Merged.total_restrict, ← hsum]
    calc ∑ i, x i = ∑ i ∈ Merged.owners (Mask.support x), x i := by
          symm
          apply Finset.sum_subset (Finset.subset_univ _)
          intro i _ hi
          rw [Merged.mem_owners, hhas] at hi
          omega
      _ ≤ ∑ i ∈ Merged.owners (Mask.support x),
            Bands.total Segment.inputCapacity (Merge.stream L i) := by
          refine Finset.sum_le_sum fun i hi => ?_
          have hpos := (hhas i).mp (Merged.mem_owners.mp hi)
          rw [hL.stream_eq_bands (hsupp i hpos),
            ← (hsel.valid i (hsupp i hpos)).capacity_eq]
          exact hcap i hpos

/-- With a feasible subset the search succeeds. -/
theorem searchSpec_eq_ok (h : Enclosed snapshots curves horizon eligible)
    (hsel : Selected curves eligible) (hL : IsBook curves eligible L)
    (hlen : snapshots.length = curves.length) (hpos : 0 < snapshots.length) (hlegs : 0 < legLimit)
    (hlegsLe : legLimit ≤ maxLegs) (hamount : 0 < amount) (hamountLe : amount ≤ maxAtoms)
    {pair : Option (Key × Key)} (hadmitted : admitAll snapshots curves eligible = .ok pair)
    (hupper : L.area amount / scale
      + ∑ i ∈ Merged.owners eligible, (curveAt curves i).upperErrorAtoms < u64Size)
    {mask : Mask} (hfeasible : Feasible snapshots eligible legLimit L amount mask) :
    ∃ report, searchSpec snapshots curves amount eligible legLimit
      (bookAnswer curves eligible L amount) = .ok report := by
  have hself : eligible.Within eligible := Mask.within_iff.mpr fun i hi => hi
  have hrestrict : L.restrict eligible = L := (hL.restrict hself).unique hL
  have hne : eligible ≠ 0 := by
    rintro rfl
    refine hfeasible.ne_zero (Mask.eq_zero_iff.mpr fun i => ?_)
    by_contra hi
    have hzero := Mask.within_iff.mp hfeasible.within i (by simpa using hi)
    rw [Mask.has_zero] at hzero
    cases hzero
  have hcap : amount ≤ L.total := by
    have hle := hfeasible.capacity.trans (total_restrict_le hfeasible.within)
    rwa [hrestrict] at hle
  have hrelaxed : bookAnswer curves eligible L amount eligible false = .ok (L.allocation amount) := by
    unfold bookAnswer
    rw [if_neg (by rw [not_or, not_not]; exact ⟨hne, hself⟩), Merged.answer_false, hrestrict,
      Merged.result, if_neg (by omega)]
  obtain ⟨upper, hup⟩ := upperOutput_eq_ok hsel.lt_length hupper
  obtain ⟨heq, hfits⟩ := upperOutput_eq hsel.lt_length hup
  have hbits : mask.toNat < 2 ^ curves.length := Mask.toNat_lt_iff.mpr fun i hi =>
    hsel.lt_length i (Mask.within_iff.mp hfeasible.within i hi)
  obtain ⟨sl, hloop, hkept⟩ := enumerate_eq_ok hsel.length_le hfeasible hbits
  obtain ⟨p, -, hplan⟩ := planSpec_eq_ok h hsel hL hlen
    (hfits ((Nat.le_add_right _ _).trans_lt hupper)) heq hloop hkept
  have hlenLe := hsel.length_le
  refine ⟨report upper sl { p with output := legsQuote snapshots p.inputs }, ?_⟩
  unfold searchSpec
  rw [rejectIf_of_not _ (by omega), ok_bind, rejectIf_of_not _ (by omega), ok_bind, hadmitted,
    ok_bind, hrelaxed, ok_bind, Merged.allocation]
  dsimp only
  rw [hup, ok_bind, hplan]

end Search

end StockMesh

import StockMesh.Optimizer.TapeSelect

/-! # A tape allocates what water filling does

`allocateInner_runs`: over every sub-mask of the compiled one, a tape answers with the allocation of
the restricted book, which is what `waterfill` computes from the same curves. The branch for one
venue searches that venue's own bands; the general branch collects the complete bands before the
selected row and gives the rest to the owner of the marginal band. -/

namespace StockMesh

open Budgeted Stateful Function

section Spec

variable {curves : List Curve} {built m : Mask} {L : Merged} {t : ResidualTape}

/-- The restricted book is the book of the sub-mask. -/
theorem IsBook.restrict (hL : IsBook curves built L) (hm : m.Within built) :
    IsBook curves m (L.restrict m) := by
  have hmerge := Merge.IsMerge.restrict hL m.has
  have hstreams : (fun i => if m.has i then streamsAt curves built (fun _ => 0) i else [])
      = streamsAt curves m fun _ => 0 := by
    funext i
    unfold streamsAt
    by_cases hi : m.has i = true
    · rw [if_pos hi, if_pos hi, if_pos (Mask.within_iff.mp hm i hi)]
    · rw [if_neg hi, if_neg hi]
  rw [hstreams] at hmerge
  exact hmerge

/-- A sub-mask of selected curves selects. -/
theorem Selected.within (h : Selected curves built) (hm : m.Within built) : Selected curves m :=
  ⟨h.length_le, fun i hi => h.lt_length i (Mask.within_iff.mp hm i hi),
    fun i hi => h.valid i (Mask.within_iff.mp hm i hi)⟩

namespace Merged

variable {M : Merged} {errors : List Curve} {amount : ℕ}

/-- Venues outside the mask take nothing. -/
theorem fill_eq_zero_of_not_has (hM : IsBook curves m M) {i : Edge} (hi : m.has i = false) (x : ℕ) :
    M.fill x i = 0 := by
  apply fill_eq_zero
  rintro p hp rfl
  rw [hM.has hp] at hi
  cases hi

theorem owner_mem_of_book (hM : IsBook curves m M) : ∀ p ∈ M, p.1 ∈ owners m := fun _ hp =>
  mem_owners.mpr (hM.has hp)

/-- The shares of the selected venues add up to the amount. -/
theorem sum_fill (hM : IsBook curves m M) {x : ℕ} (hx : x ≤ M.total) :
    ∑ i ∈ owners m, M.fill x i = x :=
  (Bands.sum_fill Prod.fst (owner_mem_of_book hM) x).trans (min_eq_left hx)

/-- Rounding every venue down loses no less than rounding the sum. -/
theorem sum_div_le (s : Finset Edge) (f : Edge → ℕ) (d : ℕ) : ∑ i ∈ s, f i / d ≤ (∑ i ∈ s, f i) / d := by
  rcases Nat.eq_zero_or_pos d with rfl | hd
  · simp
  · rw [Nat.le_div_iff_mul_le hd, Finset.sum_mul]
    exact Finset.sum_le_sum fun i _ => Nat.div_mul_le_self _ _

/-- The conservative output only counts the selected venues. -/
theorem lowerOutput_eq (hM : IsBook curves m M) : M.lowerOutput errors amount
    = ∑ i ∈ owners m, if 0 < M.fill amount i then
        Curve.integral (Merge.stream M i) (M.fill amount i) / scale
          - (curveAt errors i).lowerErrorAtoms else 0 := by
  unfold lowerOutput
  symm
  apply Finset.sum_subset (Finset.subset_univ _)
  intro i _ hi
  rw [mem_owners, Bool.not_eq_true] at hi
  rw [fill_eq_zero_of_not_has hM hi, if_neg (lt_irrefl 0)]

end Merged

/-! ## One venue -/

/-- The integral of a curve inside one of its bands. -/
theorem integral_inside {c : Curve} (hc : c.Valid) {k x : ℕ} (hk : k < c.len)
    (hbefore : Bands.total Segment.inputCapacity (c.bands.take k) ≤ x)
    (hreach : x ≤ Bands.total Segment.inputCapacity (c.bands.take (k + 1))) :
    Curve.integral c.bands x = ((c.bands.take k).map fun s => s.inputCapacity * s.marginalQ32).sum
      + (x - Bands.total Segment.inputCapacity (c.bands.take k)) * (bandAt c k).marginalQ32 := by
  rw [bands_take_succ hc hk, Bands.total_append, Bands.total_cons, Bands.total_nil] at hreach
  have hrest : x - Bands.total Segment.inputCapacity (c.bands.take k)
      - (bandAt c k).inputCapacity = 0 := by omega
  conv_lhs => rw [← List.take_append_drop k c.bands, bands_drop hc hk]
  rw [Curve.integral, Bands.area_append, Bands.area_of_total_le _ _ _ hbefore, Bands.area_cons,
    min_eq_left (by omega), hrest, Bands.area_zero, Nat.add_zero]

/-- The branch for one venue. -/
theorem allocateOne_runs (ht : t.Spec curves built L) (hm : m.Within built)
    (hone : m.countOnes = 1) {amount : ℕ} (hpos : 0 < amount) (hle : amount ≤ maxAtoms)
    (lower : Bool) (errors : List Curve) :
    RunsTo (t.allocateOne lower amount m errors) (maxSegments + 1)
      ((L.restrict m).answer errors lower amount) := by
  have hM := ht.book.restrict hm
  have hsel := ht.selected.within hm
  generalize L.restrict m = M at hM ⊢
  -- the mask is the single venue `i`
  have hne : m ≠ 0 := by
    rintro rfl
    rw [← Mask.length_edges] at hone
    exact absurd hone (by decide)
  obtain ⟨i, hi⟩ : ∃ i, i = m.trailingZeros := ⟨_, rfl⟩
  have hedges : m.edges = [i] := by
    have hlen := Mask.length_edges m
    have hcons : m.edges = m.trailingZeros :: Mask.walk 7 m.clearLowest := by
      show (if m = 0 then [] else _) = _
      rw [if_neg hne]
    rw [hone, hcons, List.length_cons] at hlen
    rw [hcons, List.length_eq_zero_iff.mp (by omega : (Mask.walk 7 m.clearLowest).length = 0), hi]
  have hiff : ∀ j, m.has j = true ↔ j = i := fun j => by
    rw [← Mask.mem_edges, hedges, List.mem_singleton]
  have hhas : m.has i = true := (hiff i).mpr rfl
  have howners : Merged.owners m = {i} := by
    ext j
    rw [Merged.mem_owners, Finset.mem_singleton, hiff]
  have hvalid := hsel.valid i hhas
  have hix := ht.indexed i (Mask.within_iff.mp hm i hhas)
  have hstream := hM.stream_eq_bands hhas
  have hfull : (curveAt curves i).bands.take (curveAt curves i).len = (curveAt curves i).bands :=
    List.take_of_length_le hvalid.length_bands.le
  have htotal : M.total = Bands.total Segment.inputCapacity (curveAt curves i).bands := by
    have hsum := Merged.sum_fill hM (le_refl M.total)
    rw [howners, Finset.sum_singleton, Merged.fill_of_total_le M le_rfl, hstream] at hsum
    exact hsum.symm
  have hcapLen : (t.curves i).capacity (t.curves i).len = M.total := by
    rw [hix.len_eq, hix.capacity_eq _ le_rfl, hfull, htotal]
  unfold ResidualTape.allocateOne
  refine runsTo_charge_bind (n := maxSegments) ?_ (by omega)
  dsimp only
  rw [← hi, hcapLen]
  unfold Merged.answer Merged.result
  by_cases hcap : M.total < amount
  · rw [if_pos hcap, if_pos hcap, error_bind]
    exact (Runs.fail _).mono (Nat.zero_le _)
  rw [if_neg hcap, if_neg hcap, ok_bind]
  -- the bisection over the venue's own prefix sums
  have hmono : ∀ {a b : ℕ}, a ≤ b → Bands.total Segment.inputCapacity
      ((curveAt curves i).bands.take a) ≤ Bands.total Segment.inputCapacity
      ((curveAt curves i).bands.take b) := by
    intro a b hab
    have hsplit : (curveAt curves i).bands.take b
        = (curveAt curves i).bands.take a ++ ((curveAt curves i).bands.take b).drop a := by
      conv_lhs => rw [← List.take_append_drop a ((curveAt curves i).bands.take b)]
      rw [List.take_take, min_eq_left hab]
    rw [hsplit, Bands.total_append]
    exact Nat.le_add_right _ _
  have hreach : ∀ k ≤ (t.curves i).len, RunsTo (charge 1 >>= fun _ =>
      (pure (decide (amount ≤ (t.curves i).capacity k)) : Metered Bool)) 1
      (.ok (decide (amount ≤ Bands.total Segment.inputCapacity
        ((curveAt curves i).bands.take k)))) := by
    intro k hk
    rw [hix.len_eq] at hk
    rw [← hix.capacity_eq k hk]
    exact runsTo_charge_bind (Runs.pure _) le_rfl
  have hlen : 1 ≤ (t.curves i).len := by rw [hix.len_eq]; exact hvalid.len_pos
  obtain ⟨row, hrun, h1, hrow, hrowReach, hrowBefore⟩ := bisect_runs (n := maxSegments) hmono hreach
    hlen (by rw [hix.len_eq]; have := hvalid.len_le; omega)
    (fun k hk => by
      obtain rfl : k = 0 := by omega
      simpa using hpos)
    (by rw [hix.len_eq, hfull, ← htotal]; omega)
  obtain ⟨before, rfl⟩ : ∃ b, row = b + 1 := ⟨row - 1, by omega⟩
  have hlt : before < (curveAt curves i).len := by rw [hix.len_eq] at hrow; omega
  have hbefore := hrowBefore before (Nat.lt_succ_self before)
  have hintegral := integral_inside hvalid hlt hbefore.le hrowReach
  have hcap' := hix.capacity_eq before hlt.le
  -- the single venue's share is the whole amount
  have hfill : M.fill amount i = amount := by
    have hsum := Merged.sum_fill hM (Nat.not_lt.mp hcap)
    rwa [howners, Finset.sum_singleton] at hsum
  have hfills : M.fill amount = update (fun _ => 0) i amount := by
    funext j
    by_cases hj : j = i
    · subst hj
      rw [update_self, hfill]
    · rw [update_of_ne hj]
      apply Merged.fill_eq_zero_of_not_has hM
      rw [← Bool.not_eq_true]
      exact fun hj' => hj ((hiff j).mp hj')
  have harea : M.area amount = Curve.integral (curveAt curves i).bands amount := by
    rw [Merged.area_eq_sum M (Merged.owner_mem_of_book hM), howners, Finset.sum_singleton, hfill,
      hstream]
  have hsupport : Mask.support (M.fill amount) = m := by
    apply Mask.ext
    intro j
    rw [Mask.has_support, Bool.eq_iff_iff, decide_eq_true_iff, hiff, hfills]
    by_cases hj : j = i
    · subst hj
      rw [update_self]
      exact iff_of_true hpos rfl
    · rw [update_of_ne hj]
      exact iff_of_false (lt_irrefl 0) hj
  have hlower : M.lowerOutput errors amount = M.area amount / scale
      - (curveAt errors i).lowerErrorAtoms := by
    rw [Merged.lowerOutput_eq hM, howners, Finset.sum_singleton, hfill, if_pos hpos, hstream, harea]
  have hsum : (t.curves i).integral before + (amount - (t.curves i).capacity before)
      * (t.curves i).rates before = M.area amount := by
    rw [hix.integral_eq before hlt.le, hcap', hix.rates_eq before hlt, harea, hintegral]
  refine (hrun.bind (l := 0) ?_).mono (by omega)
  rw [Nat.add_sub_cancel, subUint_of_le (by rw [hcap']; exact hbefore.le), lift_ok, pure_bind]
  rw [hsum, asU64_of_lt (hM.area_div_lt hsel hle), lift_ok, pure_bind]
  have hplan : (⟨update (fun _ => 0) i amount, if lower then M.area amount / scale
      - (curveAt errors i).lowerErrorAtoms else M.area amount / scale, m⟩ : Allocation)
      = if lower then { M.allocation amount with output := M.lowerOutput errors amount }
        else M.allocation amount := by
    unfold Merged.allocation
    cases lower <;> simp [hlower, hfills, ← hsupport]
  rw [hplan]
  exact Runs.pure _

/-! ## Several venues -/

/-- Collecting the complete bands of the walked venues. -/
theorem takeComplete_runs (cap : Edge → ℕ) (before : ℕ) (l : List Edge) (acc : (Edge → ℕ) × ℕ)
    (hcap : ∀ i ∈ l, (t.curves i).capacity (t.prefixRows before i) = cap i) :
    ∃ f, RunsTo (l.foldlM (t.takeComplete before) acc) l.length (.ok (f, acc.2 + (l.map cap).sum)) ∧
      ∀ j, f j = if j ∈ l then cap j else acc.1 j := by
  induction l generalizing acc with
  | nil => exact ⟨acc.1, Runs.pure acc, fun j => by simp⟩
  | cons i l ih =>
    have hi := hcap i List.mem_cons_self
    obtain ⟨f, hrun, hf⟩ := ih (update acc.1 i (cap i), acc.2 + cap i)
      fun j hj => hcap j (List.mem_cons_of_mem i hj)
    refine ⟨f, ?_, fun j => ?_⟩
    · have hone : RunsTo (t.takeComplete before acc i) 1
          (.ok (update acc.1 i (cap i), acc.2 + cap i)) := by
        unfold ResidualTape.takeComplete
        rw [hi]
        exact runsTo_charge_bind (Runs.pure _) le_rfl
      rw [List.foldlM_cons, List.map_cons, List.sum_cons, ← Nat.add_assoc]
      exact (hone.bind hrun).mono (by rw [List.length_cons]; omega)
    · rw [hf]
      by_cases hjl : j ∈ l
      · simp [hjl]
      · by_cases hji : j = i
        · subst hji
          simp [hjl]
        · simp [hjl, hji]

/-- The last loop collects the support, the integrals and the conservative outputs of the walked
venues. -/
theorem addOutput_ok {lower : Bool} {errors : List Curve} {before marginal : ℕ} {last : Edge}
    {inputs venue : Edge → ℕ} (l : List Edge) (acc : ResidualTape.Outputs)
    (hvenue : ∀ i ∈ l, (t.curves i).integral (t.prefixRows before i)
      + (if i = last then marginal * (t.curves i).rates (t.prefixRows before i) else 0) = venue i)
    (hzero : ∀ i ∈ l, inputs i = 0 → venue i = 0)
    (hfits : acc.lower + (l.map fun i => venue i / scale).sum < u64Size) :
    l.foldlM (t.addOutput lower errors before last marginal inputs) acc = .ok
      { mask := l.foldl (fun m i => if 0 < inputs i then m ||| Mask.bit i else m) acc.mask
        integral := acc.integral + (l.map venue).sum
        lower := if lower then acc.lower + (l.map fun i =>
          if 0 < inputs i then venue i / scale - (curveAt errors i).lowerErrorAtoms else 0).sum
          else acc.lower } := by
  induction l generalizing acc with
  | nil => cases lower <;> rfl
  | cons i l ih =>
    have hi := hvenue i List.mem_cons_self
    have hdiv := Nat.zero_le (venue i / scale)
    rw [List.map_cons, List.sum_cons] at hfits
    rw [List.foldlM_cons]
    by_cases hpos : 0 < inputs i
    · have hone : t.addOutput lower errors before last marginal inputs acc i = .ok
          { mask := acc.mask ||| Mask.bit i
            integral := acc.integral + venue i
            lower := if lower then
              acc.lower + (venue i / scale - (curveAt errors i).lowerErrorAtoms)
              else acc.lower } := by
        unfold ResidualTape.addOutput
        rw [if_pos hpos]
        dsimp only
        rw [hi]
        cases lower with
        | false => rfl
        | true =>
          rw [if_pos rfl, asU64_of_lt (by omega), ok_bind, checkedAdd_of_lt (by omega), ok_bind]
          rfl
      rw [hone, ok_bind, ih _ (fun j hj => hvenue j (List.mem_cons_of_mem i hj))
        (fun j hj => hzero j (List.mem_cons_of_mem i hj))
        (by cases lower <;> simp only [if_true, Bool.false_eq_true, if_false] <;> omega)]
      simp only [List.foldl_cons, if_pos hpos, List.map_cons, List.sum_cons]
      cases lower <;> simp [Nat.add_assoc]
    · have hnone : t.addOutput lower errors before last marginal inputs acc i = .ok acc := by
        unfold ResidualTape.addOutput
        rw [if_neg hpos]
      have hskip : venue i = 0 := hzero i List.mem_cons_self (by omega)
      rw [hnone, ok_bind, ih _ (fun j hj => hvenue j (List.mem_cons_of_mem i hj))
        (fun j hj => hzero j (List.mem_cons_of_mem i hj)) (by omega)]
      simp [hpos, hskip]

/-- Work that always suffices to allocate from a tape. -/
def allocateCost : ℕ := maxEdges * (maxBands + 2)

/-- The branch for several venues. -/
theorem allocateMany_runs (ht : t.Spec curves built L) (hm : m.Within built)
    (hone : m.countOnes ≠ 1) {amount : ℕ} (hpos : 0 < amount) (hle : amount ≤ maxAtoms)
    (hne : m ≠ 0) (lower : Bool) (errors : List Curve) :
    RunsTo (t.allocateInner lower amount m errors) allocateCost
      ((L.restrict m).answer errors lower amount) := by
  have hM := ht.book.restrict hm
  have hsel := ht.selected.within hm
  have hbands := ht.rows.bands_eq
  have hcount : L.length ≤ maxBands := ht.book.length_le
  have hwithin : ∀ i, m.has i = true → built.has i = true := Mask.within_iff.mp hm
  have hfull : L.take L.length = L := List.take_length
  unfold ResidualTape.allocateInner
  rw [rejectIf_of_not _ (by omega), lift_ok, pure_bind,
    rejectIf_of_not _ (by rw [not_or, not_not, ht.mask_eq]; exact ⟨hne, hm⟩), lift_ok, pure_bind,
    if_neg hone]
  have htotalRun := ht.rank_runs hm (le_refl L.length)
  rw [hfull, ← hbands] at htotalRun
  refine (htotalRun.bind (l := maxEdges * (maxBands + 1)) ?_).mono
    (by unfold allocateCost; rw [Nat.mul_succ maxEdges (maxBands + 1)]; omega)
  unfold Merged.answer Merged.result
  by_cases hcap : (L.restrict m).total < amount
  · rw [if_pos hcap, if_pos hcap, error_bind]
    exact (Runs.fail _).mono (Nat.zero_le _)
  rw [if_neg hcap, if_neg hcap, ok_bind]
  -- select the first row that reaches the amount
  have hmono : ∀ {a b : ℕ}, a ≤ b → (Merged.restrict (L.take a) m).total
      ≤ (Merged.restrict (L.take b) m).total := Merged.total_restrict_take_mono L m
  have hreach : ∀ k ≤ t.bands, RunsTo (t.rank k m >>= fun sum =>
      (pure (decide (amount ≤ sum)) : Metered Bool)) maxEdges
      (.ok (decide (amount ≤ (Merged.restrict (L.take k) m).total))) := fun k hk =>
    (ht.rank_runs hm (by omega)).bind_pure _
  have hsome : 1 ≤ t.bands := by
    by_contra hzero
    have hnil : L = [] := List.length_eq_zero_iff.mp (by omega)
    rw [hnil] at hcap
    exact hcap hpos
  obtain ⟨row, hrun, h1, hrow, hrowReach, hrowBefore⟩ := bisect_runs (n := maxBands) hmono hreach
    hsome (by omega)
    (fun k hk => by
      obtain rfl : k = 0 := by omega
      exact hpos)
    (by rw [hbands, hfull]; omega)
  rw [hbands] at hrow
  obtain ⟨p, howner, hphas, hpstream, hcut⟩ := ht.cutoff h1 hrow hrowReach
    (hrowBefore (row - 1) (by omega))
  generalize hF : Merged.restrict (L.take (row - 1)) m = F at hcut
  have hFstream : ∀ i, m.has i = true → Merge.stream F i = Merge.stream (L.take (row - 1)) i := by
    intro i hi
    rw [← hF, Merged.stream_restrict, if_pos hi]
  have hFtotal : (m.edges.map fun i => Bands.total Segment.inputCapacity (Merge.stream F i)).sum
      = F.total := by
    rw [Merged.sum_edges, ← hF, Merged.total_restrict]
    refine Finset.sum_congr rfl fun i hi => ?_
    rw [Merged.stream_restrict, if_pos (Merged.mem_owners.mp hi)]
  -- the inputs are the shares of the restricted book
  obtain ⟨taken, htakenRun, htaken⟩ := takeComplete_runs (t := t)
    (fun i => Bands.total Segment.inputCapacity (Merge.stream F i)) (row - 1) m.edges
    (fun _ => 0, 0)
    (fun i hi => by
      have hi := Mask.mem_edges.mp hi
      rw [ht.capacity_row (hwithin i hi) (by omega), hFstream i hi])
  rw [Nat.zero_add, hFtotal] at htakenRun
  have hinputs : update taken p.1 (taken p.1 + (amount - F.total)) = (L.restrict m).fill amount := by
    funext i
    rw [hcut.fill_eq i]
    by_cases hi : i = p.1
    · subst hi
      rw [update_self, htaken, if_pos (Mask.mem_edges.mpr hphas), if_pos rfl]
    · rw [update_of_ne hi, htaken, if_neg (Ne.symm hi), Nat.add_zero]
      by_cases hmem : i ∈ m.edges
      · rw [if_pos hmem]
      · rw [if_neg hmem]
        have hnil : Merge.stream F i = [] := by
          rw [← hF, Merged.stream_restrict, if_neg (fun h => hmem (Mask.mem_edges.mpr h))]
        rw [hnil, Bands.total_nil]
  -- the indexed integral of each venue is its integral over its share
  obtain ⟨venue, hvenueDef⟩ : ∃ venue : Edge → ℕ, venue = fun i =>
      Curve.integral (Merge.stream (L.restrict m) i) ((L.restrict m).fill amount i) := ⟨_, rfl⟩
  have hvenue : ∀ i ∈ m.edges, (t.curves i).integral (t.prefixRows (row - 1) i)
      + (if i = p.1 then (amount - F.total) * (t.curves i).rates (t.prefixRows (row - 1) i) else 0)
      = venue i := by
    intro i hi
    have hi := Mask.mem_edges.mp hi
    rw [hvenueDef]
    dsimp only
    rw [hcut.integral_eq i, ht.integral_row (hwithin i hi) (by omega), hFstream i hi]
    by_cases hip : i = p.1
    · subst hip
      rw [if_pos rfl, if_pos rfl, ht.rate_row (hwithin _ hi) (by omega) hpstream]
    · rw [if_neg hip, if_neg (Ne.symm hip)]
  have hzero : ∀ i ∈ m.edges, (L.restrict m).fill amount i = 0 → venue i = 0 := by
    intro i _ hi
    rw [hvenueDef]
    dsimp only
    rw [hi, Curve.integral, Bands.area_zero]
  have harea : (m.edges.map venue).sum = (L.restrict m).area amount := by
    rw [Merged.sum_edges, Merged.area_eq_sum _ (Merged.owner_mem_of_book hM), hvenueDef]
  have hrange := hM.area_div_lt hsel hle
  have hsumDiv : (m.edges.map fun i => venue i / scale).sum ≤ (L.restrict m).area amount / scale := by
    rw [Merged.sum_edges, ← harea, Merged.sum_edges]
    exact Merged.sum_div_le _ _ _
  have houtputs : m.edges.foldlM (t.addOutput lower errors (row - 1) p.1 (amount - F.total)
      ((L.restrict m).fill amount)) {} = .ok
      { mask := ((L.restrict m).allocation amount).mask
        integral := (L.restrict m).area amount
        lower := if lower then (L.restrict m).lowerOutput errors amount else 0 } := by
    rw [addOutput_ok m.edges {} hvenue hzero (by rw [Nat.zero_add]; omega), Nat.zero_add, harea,
      Nat.zero_add, Merged.sum_edges, hvenueDef, Merged.lowerOutput_eq hM]
    have hmask : m.edges.foldl (fun acc i =>
        if 0 < (L.restrict m).fill amount i then acc ||| Mask.bit i else acc) 0
        = Mask.support ((L.restrict m).fill amount) := by
      apply Mask.ext
      intro i
      rw [Mask.has_foldl_bit, Mask.has_support, Mask.has_zero, Bool.false_or]
      apply Bool.decide_congr
      refine and_iff_right_of_imp fun hpos' => Mask.mem_edges.mpr ?_
      by_contra hi
      rw [Merged.fill_eq_zero_of_not_has hM (by simpa using hi)] at hpos'
      exact lt_irrefl 0 hpos'
    rw [hmask]
    rfl
  refine (hrun.bind (l := maxEdges) ?_).mono (by rw [Nat.mul_succ])
  refine (htakenRun.bind (l := 0) ?_).mono ?_
  · rw [howner, subUint_of_le hcut.before.le, lift_ok, pure_bind]
    dsimp only
    rw [hinputs, houtputs, lift_ok, pure_bind, asU64_of_lt hrange, lift_ok, pure_bind]
    have hplan : (⟨(L.restrict m).fill amount, if lower then
        (if lower then (L.restrict m).lowerOutput errors amount else 0)
        else (L.restrict m).area amount / scale, ((L.restrict m).allocation amount).mask⟩ : Allocation)
        = if lower then { (L.restrict m).allocation amount with
            output := (L.restrict m).lowerOutput errors amount }
          else (L.restrict m).allocation amount := by
      cases lower <;> rfl
    rw [← hplan]
    exact Runs.pure _
  · rw [Mask.edges_eq]
    exact (List.length_filter_le _ _).trans (by simp)

/-- A tape answers every query in the domain with the allocation of the restricted book. -/
theorem allocateInner_runs (ht : t.Spec curves built L) (hm : m.Within built) {amount : ℕ}
    (hpos : 0 < amount) (hle : amount ≤ maxAtoms) (hne : m ≠ 0) (lower : Bool)
    (errors : List Curve) :
    RunsTo (t.allocateInner lower amount m errors) allocateCost
      ((L.restrict m).answer errors lower amount) := by
  by_cases hone : m.countOnes = 1
  · unfold ResidualTape.allocateInner
    rw [rejectIf_of_not _ (by omega), lift_ok, pure_bind,
      rejectIf_of_not _ (by rw [not_or, not_not, ht.mask_eq]; exact ⟨hne, hm⟩), lift_ok, pure_bind,
      if_pos hone]
    exact (allocateOne_runs ht hm hone hpos hle lower errors).mono (by decide)
  · exact allocateMany_runs ht hm hone hpos hle hne lower errors

end Spec

end StockMesh

import StockMesh.Optimizer.Tape
import Mathlib.Tactic.IntervalCases

/-! # The builders emit the merged book

`ResidualTape.Spec` is the meaning of a tape: its rows count the bands of the merged book of the
curves it was built from. Both builders reach it, because each turn pushes the best head: the winner
of two heads and the root of the tournament both satisfy the invariant of a scan over their venues. -/

namespace StockMesh

open Budgeted Stateful Function

/-- The prefix sums of a curve. -/
structure Indexed (c : Curve) (ix : IndexedCurve) : Prop where
  len_eq : ix.len = c.len
  capacity_eq : ∀ j ≤ c.len,
    ix.capacity j = Bands.total Segment.inputCapacity (c.bands.take j)
  integral_eq : ∀ j ≤ c.len,
    ix.integral j = ((c.bands.take j).map fun s => s.inputCapacity * s.marginalQ32).sum
  rates_eq : ∀ j < c.len, ix.rates j = (bandAt c j).marginalQ32

/-- The rows of a tape count the bands of `D`. -/
structure Rows (t : ResidualTape) (D : Merged) : Prop where
  bands_eq : t.bands = D.length
  rows_eq : ∀ k ≤ D.length, ∀ i, t.prefixRows k i = (Merge.stream (D.take k) i).length
  owner_eq : ∀ (k : ℕ) (hk : k < D.length), t.owner (k + 1) = (D[k]).1

/-- The tape of the selected curves, whose merged book is `L`. -/
structure ResidualTape.Spec (curves : List Curve) (mask : Mask) (L : Merged)
    (t : ResidualTape) : Prop where
  mask_ne_zero : mask ≠ 0
  selected : Selected curves mask
  book : IsBook curves mask L
  rows : Rows t L
  indexed : ∀ i, mask.has i = true → Indexed (curveAt curves i) (t.curves i)
  edges_eq : t.edges = curves.length
  mask_eq : t.compiledMask = mask

/-! ## Indexing -/

/-- One more complete band. -/
theorem bands_take_succ {c : Curve} (hc : c.Valid) {j : ℕ} (hj : j < c.len) :
    c.bands.take (j + 1) = c.bands.take j ++ [bandAt c j] := by
  have hlen : j < c.bands.length := by rwa [hc.length_bands]
  have hdrop := bands_drop hc hj
  rw [List.drop_eq_getElem_cons hlen] at hdrop
  rw [List.take_succ_eq_append_getElem hlen, (List.cons.inj hdrop).1]

/-- The state of the indexing loop after `j` bands. -/
structure IndexInv (c : Curve) (j : ℕ) (acc : IndexedCurve × ℕ × ℕ) : Prop where
  len_eq : acc.1.len = c.len
  capacity_eq : ∀ i ≤ j, acc.1.capacity i = Bands.total Segment.inputCapacity (c.bands.take i)
  integral_eq : ∀ i ≤ j,
    acc.1.integral i = ((c.bands.take i).map fun s => s.inputCapacity * s.marginalQ32).sum
  rates_eq : ∀ i < j, acc.1.rates i = (bandAt c i).marginalQ32
  cap_eq : acc.2.1 = Bands.total Segment.inputCapacity (c.bands.take j)
  sum_eq : acc.2.2 = ((c.bands.take j).map fun s => s.inputCapacity * s.marginalQ32).sum

/-- Indexing a valid curve gives its prefix sums. -/
theorem index_runs {c : Curve} (hc : c.Valid) :
    ∃ acc, RunsTo ((List.range c.len).foldlM (ResidualTape.indexStep c) ({ len := c.len }, 0, 0))
      maxSegments (.ok acc) ∧ Indexed c acc.1 := by
  have hstep : ∀ j < c.len, ∀ acc, IndexInv c j acc →
      ∃ acc', RunsTo (ResidualTape.indexStep c acc j) 1 (.ok acc') ∧ IndexInv c (j + 1) acc' := by
    intro j hj acc hacc
    refine ⟨_, runsTo_charge_bind (Runs.pure _) le_rfl, ?_⟩
    have htake := bands_take_succ hc hj
    have hcap : acc.2.1 + (bandAt c j).inputCapacity
        = Bands.total Segment.inputCapacity (c.bands.take (j + 1)) := by
      rw [htake, Bands.total_append, hacc.cap_eq]
      simp
    have hsum : acc.2.2 + (bandAt c j).inputCapacity * (bandAt c j).marginalQ32
        = ((c.bands.take (j + 1)).map fun s => s.inputCapacity * s.marginalQ32).sum := by
      rw [htake, List.map_append, List.sum_append, hacc.sum_eq]
      simp
    refine ⟨hacc.len_eq, fun i hi => ?_, fun i hi => ?_, fun i hi => ?_, hcap, hsum⟩
    · by_cases hij : i = j + 1
      · subst hij
        exact (update_self _ _ _).trans hcap
      · exact (update_of_ne hij _ _).trans (hacc.capacity_eq i (by omega))
    · by_cases hij : i = j + 1
      · subst hij
        exact (update_self _ _ _).trans hsum
      · exact (update_of_ne hij _ _).trans (hacc.integral_eq i (by omega))
    · by_cases hij : i = j
      · subst hij
        exact update_self _ _ _
      · exact (update_of_ne hij _ _).trans (hacc.rates_eq i (by omega))
  have hinit : IndexInv c 0 ({ len := c.len }, 0, 0) :=
    ⟨rfl, fun i hi => by simp [Nat.le_zero.mp hi], fun i hi => by simp [Nat.le_zero.mp hi],
      fun i hi => absurd hi (Nat.not_lt_zero i), by simp, by simp⟩
  obtain ⟨acc, hrun, hacc⟩ := Runs.foldlM_range hstep hinit
  exact ⟨acc, hrun.mono (by have := hc.len_le; omega), hacc.len_eq, hacc.capacity_eq,
    hacc.integral_eq, hacc.rates_eq⟩

/-- The heads after indexing the venues `done`. -/
structure HeadsInv (curves : List Curve) (mask : Mask) (done : List Edge)
    (h : ResidualTape.Heads) : Prop where
  indexed : ∀ i ∈ done, mask.has i = true → Indexed (curveAt curves i) (h.curves i)
  leaf : ∀ i ∈ done, mask.has i = true → h.winners (maxEdges + i.val) = some i
  leaf_none : ∀ i, (i ∉ done ∨ mask.has i = false) → h.winners (maxEdges + i.val) = none
  rates : ∀ i ∈ done, mask.has i = true →
    h.rates i = (bandAt (curveAt curves i) 0).marginalQ32

/-- Indexing one venue. -/
theorem indexVenue_runs {curves : List Curve} {mask : Mask} (hsel : Selected curves mask)
    {done : List Edge} {h : ResidualTape.Heads} {i : Edge} (hi : i ∉ done)
    (hinv : HeadsInv curves mask done h) :
    ∃ h', RunsTo (ResidualTape.indexVenue curves mask h i) maxSegments (.ok h') ∧
      HeadsInv curves mask (done ++ [i]) h' := by
  unfold ResidualTape.indexVenue
  by_cases hhas : mask.has i = false
  · rw [if_pos hhas]
    refine ⟨h, (Runs.pure h).mono (Nat.zero_le _), ?_⟩
    have hne : ∀ j ∈ done ++ [i], mask.has j = true → j ∈ done := by
      intro j hj hjhas
      rcases List.mem_append.mp hj with hj | hj
      · exact hj
      · rw [List.mem_singleton.mp hj, hhas] at hjhas
        cases hjhas
    refine ⟨fun j hj hjhas => hinv.indexed j (hne j hj hjhas) hjhas,
      fun j hj hjhas => hinv.leaf j (hne j hj hjhas) hjhas, fun j hj => hinv.leaf_none j ?_,
      fun j hj hjhas => hinv.rates j (hne j hj hjhas) hjhas⟩
    exact hj.imp (fun hj hmem => hj (List.mem_append_left _ hmem)) id
  · rw [if_neg hhas]
    have hhas : mask.has i = true := by simpa using hhas
    obtain ⟨acc, hrun, hindexed⟩ := index_runs (hsel.valid i hhas)
    dsimp only
    rw [Curve.validate_eq_ok.mpr (hsel.valid i hhas), lift_ok, pure_bind]
    refine ⟨_, hrun.bind_pure _, ?_⟩
    have hleaf : ∀ {j : Edge}, j ≠ i → maxEdges + j.val ≠ maxEdges + i.val := by
      intro j hj heq
      exact hj (Fin.ext (by omega))
    have hcases : ∀ j ∈ done ++ [i], j = i ∨ j ∈ done ∧ j ≠ i := by
      intro j hj
      rcases List.mem_append.mp hj with hj | hj
      · exact Or.inr ⟨hj, fun heq => hi (heq ▸ hj)⟩
      · exact Or.inl (List.mem_singleton.mp hj)
    refine ⟨fun j hj hjhas => ?_, fun j hj hjhas => ?_, fun j hj => ?_, fun j hj hjhas => ?_⟩
    · rcases hcases j hj with rfl | ⟨hj, hne⟩
      · simpa using hindexed
      · simpa [update_of_ne hne] using hinv.indexed j hj hjhas
    · rcases hcases j hj with rfl | ⟨hj, hne⟩
      · exact update_self _ _ _
      · exact (update_of_ne (hleaf hne) _ _).trans (hinv.leaf j hj hjhas)
    · have hne : j ≠ i := by
        rintro rfl
        rcases hj with hj | hj
        · exact hj (by simp)
        · rw [hhas] at hj
          cases hj
      refine (update_of_ne (hleaf hne) _ _).trans (hinv.leaf_none j ?_)
      exact hj.imp (fun hj hmem => hj (List.mem_append_left _ hmem)) id
    · rcases hcases j hj with rfl | ⟨hj, hne⟩
      · exact update_self _ _ _
      · exact (update_of_ne hne _ _).trans (hinv.rates j hj hjhas)

/-- Indexing all venues. -/
theorem indexAll_runs {curves : List Curve} {mask : Mask} (hsel : Selected curves mask) :
    ∃ h, RunsTo ((venues curves.length).foldlM (ResidualTape.indexVenue curves mask)
        { curves := fun _ => {}, winners := fun _ => none, rates := fun _ => 0 })
        maxBands (.ok h) ∧
      HeadsInv curves mask (venues curves.length) h := by
  suffices hgen : ∀ (rest done : List Edge) (h : ResidualTape.Heads), (done ++ rest).Nodup →
      HeadsInv curves mask done h →
      ∃ h', RunsTo (rest.foldlM (ResidualTape.indexVenue curves mask) h)
        (maxSegments * rest.length) (.ok h') ∧ HeadsInv curves mask (done ++ rest) h' by
    have hnone : HeadsInv curves mask []
        { curves := fun _ => {}, winners := fun _ => none, rates := fun _ => 0 } := by
      refine ⟨?_, ?_, fun i _ => rfl, ?_⟩
      all_goals
        intro i hi
        cases hi
    obtain ⟨h, hrun, hinv⟩ := hgen (venues curves.length) [] _ (venues_nodup _) hnone
    refine ⟨h, hrun.mono ?_, hinv⟩
    rw [maxBands, Nat.mul_comm]
    exact Nat.mul_le_mul_right _ (length_venues_le curves.length)
  intro rest
  induction rest with
  | nil =>
    intro done h _ hinv
    exact ⟨h, Runs.pure h, by simpa using hinv⟩
  | cons i rest ih =>
    intro done h hnodup hinv
    have hi : i ∉ done := fun hmem =>
      (List.nodup_append.mp hnodup).2.2 i hmem i List.mem_cons_self rfl
    obtain ⟨h', hrun, hinv'⟩ := indexVenue_runs hsel hi hinv
    obtain ⟨h'', hrun', hinv''⟩ := ih (done ++ [i]) h' (by simpa using hnodup) hinv'
    refine ⟨h'', ?_, by simpa using hinv''⟩
    rw [List.foldlM_cons]
    exact (hrun.bind hrun').mono (by rw [List.length_cons, Nat.mul_succ]; omega)

/-! ## Pushing rows -/

/-- No row is pushed yet. -/
theorem rows_nil {t : ResidualTape} (hbands : t.bands = 0) (hrows : ∀ i, t.prefixRows 0 i = 0) :
    Rows t [] := by
  refine ⟨hbands, fun k hk i => ?_, fun k hk => absurd hk (Nat.not_lt_zero k)⟩
  obtain rfl : k = 0 := Nat.le_zero.mp hk
  rw [hrows]
  rfl

/-- Pushing a venue appends one of its bands. -/
theorem Rows.push {t : ResidualTape} {D : Merged} (h : Rows t D) (i : Edge) (b : Segment) :
    Rows (t.push i) (D ++ [(i, b)]) := by
  have hk : t.bands + 1 = D.length + 1 := by rw [h.bands_eq]
  refine ⟨?_, fun k hk' j => ?_, fun k hk' => ?_⟩
  · rw [List.length_append]
    exact hk
  · rw [List.length_append, List.length_singleton] at hk'
    by_cases heq : k = D.length + 1
    · -- the new row adds one band of venue `i` to the last one
      subst heq
      have hlast := h.rows_eq D.length le_rfl
      rw [List.take_length] at hlast
      rw [ResidualTape.push, ← hk]
      dsimp only
      rw [update_self, hk, List.take_of_length_le (by simp), Merge.stream_append, Merge.stream_cons,
        List.length_append, Merge.stream_nil, Nat.add_sub_cancel]
      by_cases hij : j = i
      · subst hij
        rw [update_self, if_pos rfl, hlast]
        rfl
      · rw [update_of_ne hij, if_neg (Ne.symm hij), hlast]
        rfl
    · rw [List.take_append_of_le_length (by omega), ← h.rows_eq k (by omega)]
      show update t.prefixRows (t.bands + 1) _ k j = _
      rw [update_of_ne (by omega)]
  · rw [List.length_append, List.length_singleton] at hk'
    show update t.owner (t.bands + 1) i (k + 1) = _
    by_cases heq : k = D.length
    · subst heq
      rw [hk, update_self]
      simp
    · rw [update_of_ne (by omega), h.owner_eq k (by omega)]
      rw [List.getElem_append_left (by omega)]

/-! ## Winners -/

section Heads

variable {curves : List Curve} {mask : Mask} {cursor : Edge → ℕ} {rates : Edge → ℕ}

/-- The cached rates are those of the unconsumed heads. -/
def Rated (curves : List Curve) (mask : Mask) (cursor rates : Edge → ℕ) : Prop :=
  ∀ i, mask.has i = true → cursor i < (curveAt curves i).len →
    rates i = (bandAt (curveAt curves i) (cursor i)).marginalQ32

/-- A head of one venue is the best of that venue alone. -/
theorem scanInv_singleton (h : Selected curves mask) {i : Edge} (hi : mask.has i = true)
    (hlt : cursor i < (curveAt curves i).len) : ScanInv curves mask cursor [i] (some i) := by
  refine ⟨by simp, hi, hlt, fun j hj c hc => ?_⟩
  obtain rfl := List.mem_singleton.mp hj
  rw [streamsAt_eq_cons h hi hlt] at hc
  rw [← Option.some.inj hc]
  exact Or.inr ⟨rfl, le_rfl⟩

/-- The winner of two groups of venues, the lower group on the left, is the best of both. -/
theorem winner_inv (hrated : Rated curves mask cursor rates) {as bs : List Edge}
    {left right : Option Edge} (hleft : ScanInv curves mask cursor as left)
    (hright : ScanInv curves mask cursor bs right) (hlt : ∀ a ∈ as, ∀ b ∈ bs, a < b) :
    ScanInv curves mask cursor (as ++ bs) (winner left right rates) := by
  cases left with
  | none =>
    -- the left group is exhausted
    show ScanInv curves mask cursor (as ++ bs) right
    cases right with
    | none =>
      intro j hj
      exact (List.mem_append.mp hj).elim (hleft j) (hright j)
    | some r =>
      obtain ⟨hmem, hr, hcur, hbefore⟩ := hright
      refine ⟨List.mem_append_right _ hmem, hr, hcur, fun j hj c hc => ?_⟩
      rcases List.mem_append.mp hj with hj | hj
      · rw [hleft j hj] at hc
        cases hc
      · exact hbefore j hj c hc
  | some l =>
    obtain ⟨hmem, hl, hcur, hbefore⟩ := hleft
    cases right with
    | none =>
      refine ⟨List.mem_append_left _ hmem, hl, hcur, fun j hj c hc => ?_⟩
      rcases List.mem_append.mp hj with hj | hj
      · exact hbefore j hj c hc
      · rw [hright j hj] at hc
        cases hc
    | some r =>
      obtain ⟨hmem', hr, hcur', hbefore'⟩ := hright
      have hl' := hrated l hl hcur
      have hr' := hrated r hr hcur'
      show ScanInv curves mask cursor (as ++ bs) (if rates r ≤ rates l then some l else some r)
      by_cases hrate : rates r ≤ rates l
      · rw [if_pos hrate]
        refine ⟨List.mem_append_left _ hmem, hl, hcur, fun j hj c hc => ?_⟩
        rcases List.mem_append.mp hj with hj | hj
        · exact hbefore j hj c hc
        · -- the left head beats the best of the right group, on a tie by its index
          rw [hl', hr'] at hrate
          rcases hbefore' j hj c hc with hlt' | ⟨heq, hle⟩
          · exact Or.inl (hlt'.trans_le hrate)
          · rcases hrate.lt_or_eq with hlt' | heq'
            · exact Or.inl (heq.trans_lt hlt')
            · exact Or.inr ⟨heq.trans heq', (hlt l hmem j hj).le⟩
      · rw [if_neg hrate]
        refine ⟨List.mem_append_right _ hmem', hr, hcur', fun j hj c hc => ?_⟩
        rw [hl', hr', Nat.not_le] at hrate
        rcases List.mem_append.mp hj with hj | hj
        · left
          rcases hbefore j hj c hc with hlt' | ⟨heq, -⟩
          · exact hlt'.trans hrate
          · exact heq.trans_lt hrate
        · exact hbefore' j hj c hc

/-- Advancing one venue does not disturb a group without it. -/
theorem ScanInv.advance {done : List Edge} {best : Option Edge}
    (hbest : ScanInv curves mask cursor done best) {i : Edge} (hi : i ∉ done) :
    ScanInv curves mask (update cursor i (cursor i + 1)) done best := by
  have hstream : ∀ j ∈ done, streamsAt curves mask (update cursor i (cursor i + 1)) j
      = streamsAt curves mask cursor j := by
    intro j hj
    have hne : j ≠ i := fun heq => hi (heq ▸ hj)
    rw [streamsAt, streamsAt, update_of_ne hne]
  cases best with
  | none =>
    intro j hj
    rw [hstream j hj]
    exact hbest j hj
  | some k =>
    obtain ⟨hmem, hk, hcur, hbefore⟩ := hbest
    have hne : k ≠ i := fun heq => hi (heq ▸ hmem)
    refine ⟨hmem, hk, by rwa [update_of_ne hne], fun j hj c hc => ?_⟩
    rw [hstream j hj] at hc
    rw [update_of_ne hne]
    exact hbefore j hj c hc

/-- The group of one venue after it advances: its next band, or nothing. -/
theorem scanInv_advanced (cursor : Edge → ℕ) (h : Selected curves mask) {i : Edge} (hi : mask.has i = true) :
    ScanInv curves mask (update cursor i (cursor i + 1)) [i]
      (if cursor i + 1 < (curveAt curves i).len then some i else none) := by
  by_cases hlt : cursor i + 1 < (curveAt curves i).len
  · rw [if_pos hlt]
    exact scanInv_singleton h hi (by rwa [update_self])
  · rw [if_neg hlt]
    intro j hj
    obtain rfl := List.mem_singleton.mp hj
    exact streamsAt_eq_nil (Or.inr (by rw [update_self]; omega))

/-- Reading the next rate of the advanced venue keeps the cache right. -/
theorem Rated.advance (hrated : Rated curves mask cursor rates) (i : Edge) :
    Rated curves mask (update cursor i (cursor i + 1))
      (if cursor i + 1 < (curveAt curves i).len then
        update rates i (bandAt (curveAt curves i) (cursor i + 1)).marginalQ32 else rates) := by
  intro j hj hlt
  by_cases hji : j = i
  · subst hji
    rw [update_self] at hlt
    rw [if_pos hlt, update_self, update_self]
  · rw [update_of_ne hji] at hlt
    rw [update_of_ne hji]
    split
    · rw [update_of_ne hji]
      exact hrated j hj hlt
    · exact hrated j hj hlt

/-- Pushing the head of the book leaves its tail to be merged. -/
theorem uncons_advance {L : Merged} {i : Edge} {b : Segment}
    (hL : Merge.IsMerge Segment.marginalQ32 (streamsAt curves mask cursor) ((i, b) :: L)) :
    mask.has i = true ∧ Merge.IsMerge Segment.marginalQ32
      (streamsAt curves mask (update cursor i (cursor i + 1))) L := by
  obtain ⟨rest, hhead, hrest⟩ := hL.uncons
  constructor
  · by_contra hi
    have hnil : streamsAt curves mask cursor i = [] :=
      streamsAt_eq_nil (Or.inl (by simpa using hi))
    rw [hhead.stream_eq] at hnil
    cases hnil
  · rw [streamsAt_update, hhead.stream_eq]
    exact hrest

/-! ## The two loops -/

/-- What a builder ends with: the rows of `D ++ L` on top of the given tape. -/
structure Extends (t t' : ResidualTape) (D : Merged) : Prop where
  rows : Rows t' D
  curves_eq : t'.curves = t.curves
  edges_eq : t'.edges = t.edges
  mask_eq : t'.compiledMask = t.compiledMask

/-- The loop over two heads emits the merged book. -/
theorem twoHeads_runs (h : Selected curves mask) {as bs : List Edge}
    (has : ∀ a ∈ as, as = [a]) (hbs : ∀ b ∈ bs, bs = [b]) (hlt : ∀ a ∈ as, ∀ b ∈ bs, a < b)
    (hall : ∀ i, mask.has i = true → i ∈ as ++ bs) {L D : Merged} {n : ℕ} {t : ResidualTape}
    {left right : Option Edge} (hL : Merge.IsMerge Segment.marginalQ32 (streamsAt curves mask cursor) L)
    (hrated : Rated curves mask cursor rates) (hleft : ScanInv curves mask cursor as left)
    (hright : ScanInv curves mask cursor bs right) (ht : Rows t D) (hn : L.length < n) :
    ∃ t', RunsTo (ResidualTape.twoHeads curves n t cursor rates left right) n (.ok t') ∧
      Extends t t' (D ++ L) := by
  induction L generalizing D n t cursor rates left right with
  | nil =>
    obtain ⟨n, rfl⟩ : ∃ k, n = k + 1 := ⟨n - 1, by omega⟩
    have hwinner := (winner_inv hrated hleft hright hlt).head h hall hL
    refine ⟨t, ?_, ⟨by simpa using ht, rfl, rfl, rfl⟩⟩
    unfold ResidualTape.twoHeads
    refine runsTo_charge_bind (n := 0) ?_ (by omega)
    rw [hwinner]
    exact Runs.pure t
  | cons p L ih =>
    obtain ⟨i, b⟩ := p
    obtain ⟨n, rfl⟩ : ∃ k, n = k + 1 := ⟨n - 1, by omega⟩
    have hbest := winner_inv hrated hleft hright hlt
    have hwinner := hbest.head h hall hL
    obtain ⟨hi, hL'⟩ := uncons_advance hL
    rw [List.length_cons] at hn
    have hrated' := hrated.advance i
    have hadvanced := scanInv_advanced cursor h hi
    have hpush := ht.push i b
    -- the emitted venue is one of the two heads
    have hside : (as = [i] ∧ left = some i ∧ i ∉ bs) ∨
        (bs = [i] ∧ left ≠ some i ∧ right = some i ∧ i ∉ as) := by
      rw [hwinner] at hbest
      rcases List.mem_append.mp hbest.1 with hmem | hmem
      · refine Or.inl ⟨has i hmem, ?_, fun hmem' => absurd (hlt i hmem i hmem') (lt_irrefl i)⟩
        unfold winner at hwinner
        rcases left with _ | l
        · have hright' : right = some i := hwinner
          rw [hright'] at hright
          exact absurd (hlt i hmem i hright.1) (lt_irrefl i)
        · have hl := hleft.1
          rw [has i hmem, List.mem_singleton] at hl
          rw [hl]
      · have hne : left ≠ some i := by
          rintro rfl
          exact absurd (hlt i hleft.1 i hmem) (lt_irrefl i)
        refine Or.inr ⟨hbs i hmem, hne, ?_, fun hmem' => absurd (hlt i hmem' i hmem) (lt_irrefl i)⟩
        rcases right with _ | r
        · rcases left with _ | l
          · cases hwinner
          · exact absurd hwinner hne
        · have hr := hright.1
          rw [hbs i hmem, List.mem_singleton] at hr
          rw [hr]
    have hstep : ∃ left' right', ScanInv curves mask (update cursor i (cursor i + 1)) as left' ∧
        ScanInv curves mask (update cursor i (cursor i + 1)) bs right' ∧
        ∀ r k, RunsTo (ResidualTape.twoHeads curves n (t.push i) (update cursor i (cursor i + 1))
          (if cursor i + 1 < (curveAt curves i).len then
            update rates i (bandAt (curveAt curves i) (cursor i + 1)).marginalQ32 else rates)
          left' right') k r →
        RunsTo (ResidualTape.twoHeads curves (n + 1) t cursor rates left right) (1 + k) r := by
      rcases hside with ⟨rfl, rfl, hni⟩ | ⟨rfl, hne, rfl, hni⟩
      · refine ⟨_, right, hadvanced, hright.advance hni, fun r k hr => ?_⟩
        unfold ResidualTape.twoHeads
        refine runsTo_charge_bind (n := k) ?_ le_rfl
        rw [hwinner]
        dsimp only [List.head?_cons, Option.map_some]
        rw [update_self]
        split
        · rename_i hopen
          rwa [if_pos hopen, if_pos hopen] at hr
        · rename_i hopen
          rw [if_pos rfl]
          rwa [if_neg hopen, if_neg hopen] at hr
      · refine ⟨left, _, hleft.advance hni, hadvanced, fun r k hr => ?_⟩
        unfold ResidualTape.twoHeads
        refine runsTo_charge_bind (n := k) ?_ le_rfl
        rw [hwinner]
        dsimp only [List.head?_cons, Option.map_some]
        rw [update_self]
        split
        · rename_i hopen
          rwa [if_pos hopen, if_pos hopen] at hr
        · rename_i hopen
          rwa [if_neg hopen, if_neg hopen] at hr
    obtain ⟨left', right', hleft', hright', hrun⟩ := hstep
    obtain ⟨t', hrun', hext⟩ := ih (n := n) hL' hrated' hleft' hright' hpush (by omega)
    refine ⟨t', (hrun _ _ hrun').mono (by omega), ?_⟩
    rw [List.append_assoc] at hext
    exact ⟨hext.rows, hext.curves_eq, hext.edges_eq, hext.mask_eq⟩

/-- The venues below a node of the tournament. -/
def under (node : ℕ) : List Edge :=
  (List.finRange maxEdges).filter fun i =>
    decide (node = maxEdges + i.val ∨ node ∈ ResidualTape.ancestors i)

theorem under_leaf (i : Edge) : under (maxEdges + i.val) = [i] := by
  revert i
  decide

/-- An inner node covers its children's venues, the left ones first. -/
theorem under_split : ∀ n ∈ ResidualTape.innerNodes, under n = under (n * 2) ++ under (n * 2 + 1) ∧
    ∀ a ∈ under (n * 2), ∀ b ∈ under (n * 2 + 1), a < b := by
  decide

theorem mem_under_root (i : Edge) : i ∈ under 1 := by
  revert i
  decide

/-- The node holds the best head below it. -/
def Played (curves : List Curve) (mask : Mask) (cursor : Edge → ℕ) (winners : ℕ → Option Edge)
    (node : ℕ) : Prop :=
  ScanInv curves mask cursor (under node) (winners node)

/-- Replaying nodes, children before parents, completes the tournament. -/
theorem replay_runs (hrated : Rated curves mask cursor rates) {nodes : List ℕ}
    {winners : ℕ → Option Edge} (hinner : ∀ n ∈ nodes, n ∈ ResidualTape.innerNodes)
    (hchild : nodes.Pairwise fun x y => y ≠ x * 2 ∧ y ≠ x * 2 + 1)
    (hplayed : ∀ n, 1 ≤ n → n < 16 → n ∉ nodes → Played curves mask cursor winners n) :
    ∃ winners', RunsTo (nodes.foldlM (ResidualTape.replay rates) winners) nodes.length
        (.ok winners') ∧ ∀ n, 1 ≤ n → n < 16 → Played curves mask cursor winners' n := by
  induction nodes generalizing winners with
  | nil => exact ⟨winners, Runs.pure winners, fun n h1 h2 => hplayed n h1 h2 (by simp)⟩
  | cons x nodes ih =>
    obtain ⟨hhead, hrest⟩ := List.pairwise_cons.mp hchild
    have hx : x ∈ ResidualTape.innerNodes := hinner x List.mem_cons_self
    have hrange : ∀ n ∈ ResidualTape.innerNodes, 1 ≤ n ∧ n < 8 := by decide
    obtain ⟨hx1, hx8⟩ := hrange x hx
    have hout : ∀ y, (y = x * 2 ∨ y = x * 2 + 1) → y ∉ x :: nodes := by
      intro y hy hmem
      rcases List.mem_cons.mp hmem with heq | hmem
      · omega
      · have := hhead y hmem
        omega
    obtain ⟨hsplit, hlt⟩ := under_split x hx
    have hnew : ScanInv curves mask cursor (under x)
        (winner (winners (x * 2)) (winners (x * 2 + 1)) rates) := by
      rw [hsplit]
      exact winner_inv hrated (hplayed _ (by omega) (by omega) (hout _ (Or.inl rfl)))
        (hplayed _ (by omega) (by omega) (hout _ (Or.inr rfl))) hlt
    have hnext : ∀ n, 1 ≤ n → n < 16 → n ∉ nodes → Played curves mask cursor
        (update winners x (winner (winners (x * 2)) (winners (x * 2 + 1)) rates)) n := by
      intro n h1 h2 hn
      unfold Played
      by_cases hnx : n = x
      · subst hnx
        rw [update_self]
        exact hnew
      · rw [update_of_ne hnx]
        exact hplayed n h1 h2 fun hmem => (List.mem_cons.mp hmem).elim hnx hn
    obtain ⟨winners', hrun, hall⟩ :=
      ih (fun n hn => hinner n (List.mem_cons_of_mem _ hn)) hrest hnext
    refine ⟨winners', ?_, hall⟩
    rw [List.foldlM_cons]
    have hone : RunsTo (ResidualTape.replay rates winners x) 1 (.ok (update winners x
        (winner (winners (x * 2)) (winners (x * 2 + 1)) rates))) :=
      runsTo_charge_bind (Runs.pure _) le_rfl
    exact (hone.bind hrun).mono (by rw [List.length_cons]; omega)

/-- The tournament emits the merged book. -/
theorem tournament_runs (h : Selected curves mask) {L D : Merged} {n : ℕ} {t : ResidualTape}
    {winners : ℕ → Option Edge}
    (hL : Merge.IsMerge Segment.marginalQ32 (streamsAt curves mask cursor) L)
    (hrated : Rated curves mask cursor rates)
    (hplayed : ∀ n, 1 ≤ n → n < 16 → Played curves mask cursor winners n) (ht : Rows t D)
    (hn : L.length < n) :
    ∃ t', RunsTo (ResidualTape.tournament curves n t cursor rates winners) (3 * n) (.ok t') ∧
      Extends t t' (D ++ L) := by
  induction L generalizing D n t cursor rates winners with
  | nil =>
    obtain ⟨n, rfl⟩ : ∃ k, n = k + 1 := ⟨n - 1, by omega⟩
    have hroot := (hplayed 1 le_rfl (by omega)).head h (fun i _ => mem_under_root i) hL
    refine ⟨t, ?_, ⟨by simpa using ht, rfl, rfl, rfl⟩⟩
    unfold ResidualTape.tournament
    rw [hroot]
    exact (Runs.pure t).mono (Nat.zero_le _)
  | cons p L ih =>
    obtain ⟨i, b⟩ := p
    obtain ⟨n, rfl⟩ : ∃ k, n = k + 1 := ⟨n - 1, by omega⟩
    have hroot := (hplayed 1 le_rfl (by omega)).head h (fun i _ => mem_under_root i) hL
    obtain ⟨hi, hL'⟩ := uncons_advance hL
    rw [List.length_cons] at hn
    have hrated' := hrated.advance i
    -- the leaf of the emitted venue held that venue
    have hleaf : winners (maxEdges + i.val) = some i := by
      have hscan := hplayed (maxEdges + i.val) (by omega)
        (by have := i.isLt; have := constants; omega)
      unfold Played at hscan
      rw [under_leaf] at hscan
      rcases hw : winners (maxEdges + i.val) with _ | k <;> rw [hw] at hscan
      · obtain ⟨rest, hhead, -⟩ := hL.uncons
        have hnil := hscan i (by simp)
        rw [hhead.stream_eq] at hnil
        cases hnil
      · rw [List.mem_singleton.mp hscan.1]
    let winners₀ : ℕ → Option Edge :=
      if cursor i + 1 < (curveAt curves i).len then winners
      else update winners (maxEdges + i.val) none
    -- only the path of that leaf is stale
    have hstale : ∀ m, 1 ≤ m → m < 16 → m ∉ ResidualTape.ancestors i →
        Played curves mask (update cursor i (cursor i + 1)) winners₀ m := by
      intro m h1 h2 hm
      unfold Played
      by_cases hmi : m = maxEdges + i.val
      · subst hmi
        rw [under_leaf]
        have hnew : winners₀ (maxEdges + i.val)
            = if cursor i + 1 < (curveAt curves i).len then some i else none := by
          by_cases hopen : cursor i + 1 < (curveAt curves i).len
          · simp only [winners₀, if_pos hopen]
            exact hleaf
          · simp only [winners₀, if_neg hopen]
            exact update_self _ _ _
        rw [hnew]
        exact scanInv_advanced cursor h hi
      · have hsame : winners₀ m = winners m := by
          by_cases hopen : cursor i + 1 < (curveAt curves i).len
          · simp only [winners₀, if_pos hopen]
          · simp only [winners₀, if_neg hopen]
            exact update_of_ne hmi _ _
        rw [hsame]
        refine ScanInv.advance (hplayed m h1 h2) fun hmem => ?_
        have hor := of_decide_eq_true (List.mem_filter.mp hmem).2
        exact hor.elim hmi hm
    have hpath : ∀ j : Edge, (∀ m ∈ ResidualTape.ancestors j, m ∈ ResidualTape.innerNodes) ∧
        (ResidualTape.ancestors j).Pairwise fun x y => y ≠ x * 2 ∧ y ≠ x * 2 + 1 := by decide
    obtain ⟨winners', hreplay, hplayed'⟩ := replay_runs hrated' (hpath i).1 (hpath i).2 hstale
    obtain ⟨t', hrun, hext⟩ := ih (n := n) hL' hrated' hplayed' (ht.push i b) (by omega)
    rw [List.append_assoc] at hext
    refine ⟨t', ?_, ⟨hext.rows, hext.curves_eq, hext.edges_eq, hext.mask_eq⟩⟩
    unfold ResidualTape.tournament
    rw [hroot]
    dsimp only [List.head?_cons, Option.map_some]
    rw [update_self]
    exact (hreplay.bind hrun).mono (by rw [show (ResidualTape.ancestors i).length = 3 from rfl]; omega)

end Heads

/-! ## The build -/

/-- Work that always suffices to build a tape. -/
def buildCost : ℕ := 4 * (maxBands + 1) + 8

/-- Building over valid selected curves gives the tape of their merged book. -/
theorem build_runs {curves : List Curve} {mask : Mask} (h : Selected curves mask)
    (hmask : mask ≠ 0) {L : Merged} (hL : IsBook curves mask L) :
    ∃ t, RunsTo (ResidualTape.build curves mask) buildCost (.ok t) ∧
      t.Spec curves mask L := by
  have hlength := h.length_pos hmask
  have hlen := h.length_le
  have hbits := Mask.toNat_lt_iff.mpr h.lt_length
  have hcount := hL.length_le
  obtain ⟨heads, hindex, hinv⟩ := indexAll_runs h
  have hvenue : ∀ i, mask.has i = true → i ∈ venues curves.length := fun i hi =>
    mem_venues.mpr (h.lt_length i hi)
  have hrated : Rated curves mask (fun _ => 0) heads.rates := fun i hi _ =>
    hinv.rates i (hvenue i hi) hi
  let t₀ : ResidualTape :=
    { prefixRows := fun _ _ => 0
      owner := fun _ => 0
      curves := heads.curves
      bands := 0
      edges := curves.length
      compiledMask := mask }
  have hrows : Rows t₀ [] := rows_nil rfl fun _ => rfl
  have hfirst : ∀ i, mask.has i = true → ScanInv curves mask (fun _ => 0) [i] (some i) :=
    fun i hi => scanInv_singleton h hi (h.valid i hi).len_pos
  -- both loops start from the indexed heads, so only the emission remains
  suffices hemit : ∃ t, RunsTo (if mask.countOnes ≤ 2 then
        ResidualTape.twoHeads curves (maxBands + 1) t₀ (fun _ => 0) heads.rates
          (some mask.trailingZeros)
          (if mask.clearLowest = 0 then none else some mask.clearLowest.trailingZeros)
      else do
        let winners ← ResidualTape.innerNodes.foldlM (ResidualTape.replay heads.rates) heads.winners
        ResidualTape.tournament curves (maxBands + 1) t₀ (fun _ => 0) heads.rates winners)
      (7 + 3 * (maxBands + 1)) (.ok t) ∧ Extends t₀ t L by
    obtain ⟨t, hrun, hext⟩ := hemit
    refine ⟨t, ?_, hmask, h, hL, hext.rows, fun i hi => ?_, hext.edges_eq, hext.mask_eq⟩
    · unfold ResidualTape.build
      rw [rejectIf_of_not _ (by simp only [not_or]; exact ⟨by omega, by omega, hmask, by omega⟩),
        lift_ok, pure_bind]
      exact (hindex.bind hrun).mono (by unfold buildCost; omega)
    · rw [hext.curves_eq]
      exact hinv.indexed i (hvenue i hi) hi
  split
  · rename_i hcount2
    have hedges : mask.edges = mask.trailingZeros :: Mask.walk 7 mask.clearLowest := by
      show (if mask = 0 then [] else _) = _
      rw [if_neg hmask]
    have hall : ∀ i, mask.has i = true → i ∈ mask.edges := fun i hi => Mask.mem_edges.mpr hi
    have hsorted := Mask.edges_sorted mask
    have hwalk : Mask.walk 7 mask.clearLowest
        = if mask.clearLowest = 0 then [] else [mask.clearLowest.trailingZeros] := by
      have hlen := Mask.length_edges mask
      rw [hedges, List.length_cons] at hlen
      show (if mask.clearLowest = 0 then [] else _) = _
      split
      · rfl
      · rename_i hne
        rw [Mask.walk, if_neg hne, List.length_cons] at hlen
        have hnil : Mask.walk 6 mask.clearLowest.clearLowest = [] :=
          List.length_eq_zero_iff.mp (by omega)
        rw [hnil]
    rw [hwalk] at hedges
    have hhas : ∀ i ∈ mask.edges, mask.has i = true := fun i hi => Mask.mem_edges.mp hi
    rw [hedges] at hall hsorted hhas
    have hleft := hfirst mask.trailingZeros (hhas _ List.mem_cons_self)
    have hright : ScanInv curves mask (fun _ => 0)
        (if mask.clearLowest = 0 then [] else [mask.clearLowest.trailingZeros])
        (if mask.clearLowest = 0 then none else some mask.clearLowest.trailingZeros) := by
      split
      · intro j hj
        cases hj
      · rename_i hne
        apply hfirst
        apply hhas
        rw [if_neg hne]
        simp
    obtain ⟨t, hrun, hext⟩ := twoHeads_runs (n := maxBands + 1) h
      (by simp) (by split <;> simp)
      (fun a ha b hb => by
        rw [List.mem_singleton.mp ha]
        exact (List.pairwise_cons.mp hsorted).1 b hb)
      hall hL hrated hleft hright hrows (by unfold maxBands; omega)
    exact ⟨t, hrun.mono (by omega), hext⟩
  · -- before the first replay only the leaves are played
    have hleaves : ∀ n, 1 ≤ n → n < 16 → n ∉ ResidualTape.innerNodes →
        Played curves mask (fun _ => 0) heads.winners n := by
      intro n h1 h16 hn
      have hleafNode : ∃ i : Edge, n = maxEdges + i.val := by
        have hinner : ∀ k, 1 ≤ k → k < 8 → k ∈ ResidualTape.innerNodes := by
          intro k hk hk8
          interval_cases k <;> decide
        have h8 : 8 ≤ n := by
          by_contra hlt
          exact hn (hinner n h1 (by omega))
        exact ⟨⟨n - 8, by have := constants; omega⟩, by have := constants; simp only; omega⟩
      obtain ⟨i, rfl⟩ := hleafNode
      unfold Played
      rw [under_leaf]
      by_cases hi : mask.has i = true
      · rw [hinv.leaf i (hvenue i hi) hi]
        exact hfirst i hi
      · rw [hinv.leaf_none i (Or.inr (by simpa using hi))]
        intro j hj
        obtain rfl := List.mem_singleton.mp hj
        exact streamsAt_eq_nil (Or.inl (by simpa using hi))
    obtain ⟨winners, hreplay, hplayed⟩ := replay_runs hrated (fun n hn => hn) (by decide) hleaves
    obtain ⟨t, hrun, hext⟩ := tournament_runs (n := maxBands + 1) h hL hrated hplayed hrows
      (by unfold maxBands; omega)
    exact ⟨t, (hreplay.bind hrun).mono le_rfl, hext⟩

end StockMesh

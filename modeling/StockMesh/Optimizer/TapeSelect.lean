import StockMesh.Optimizer.TapeBuild

/-! # Rank and select over a tape

The complete bands before a row, restricted to a sub-mask, have the capacity `rank` reports. The
bisection finds the first row that reaches the amount; its band belongs to the sub-mask and takes
what is left. So a tape allocates what filling the restricted book gives, band for band. -/

namespace StockMesh

open Budgeted Stateful Function

/-! ## Bisection -/

/-- The bisection ends at the first index that reaches. -/
theorem bisect_runs {reaches : ℕ → Metered Bool} {f : ℕ → ℕ} {amount cost : ℕ}
    (hmono : ∀ {a b}, a ≤ b → f a ≤ f b) {n lo hi : ℕ}
    (hreach : ∀ k ≤ hi, RunsTo (reaches k) cost (.ok (decide (amount ≤ f k))))
    (hlo : lo ≤ hi) (hn : hi - lo ≤ n) (hbelow : ∀ k < lo, f k < amount) (hhi : amount ≤ f hi) :
    ∃ row, RunsTo (ResidualTape.bisect reaches n lo hi) (cost * n) (.ok row) ∧ lo ≤ row ∧
      row ≤ hi ∧ amount ≤ f row ∧ ∀ k < row, f k < amount := by
  induction n generalizing lo hi with
  | zero =>
    obtain rfl : lo = hi := by omega
    exact ⟨lo, Runs.pure lo, le_rfl, le_rfl, hhi, hbelow⟩
  | succ n ih =>
    unfold ResidualTape.bisect
    by_cases hlt : lo < hi
    · rw [if_pos hlt]
      dsimp only
      obtain ⟨mid, hmid⟩ : ∃ m, m = lo + (hi - lo) / 2 := ⟨_, rfl⟩
      rw [← hmid]
      have hrun := hreach mid (by omega)
      by_cases hle : amount ≤ f mid
      · obtain ⟨row, hrow, h1, h2, h3, h4⟩ := ih
          (fun k (hk : k ≤ mid) => hreach k (by omega)) (by omega) (by omega) hbelow hle
        refine ⟨row, ?_, h1, by omega, h3, h4⟩
        refine (hrun.bind (l := cost * n) ?_).mono (by rw [Nat.mul_succ]; omega)
        rw [if_pos (decide_eq_true hle)]
        exact hrow
      · obtain ⟨row, hrow, h1, h2, h3, h4⟩ := ih hreach
          (show mid + 1 ≤ hi by omega) (by omega)
          (fun k hk => (hmono (show k ≤ mid by omega)).trans_lt (Nat.not_le.mp hle)) hhi
        refine ⟨row, ?_, by omega, h2, h3, h4⟩
        refine (hrun.bind (l := cost * n) ?_).mono (by rw [Nat.mul_succ]; omega)
        rw [if_neg (by simpa using hle)]
        exact hrow
    · rw [if_neg hlt]
      obtain rfl : lo = hi := by omega
      exact ⟨lo, (Runs.pure lo).mono (Nat.zero_le _), le_rfl, le_rfl, hhi, hbelow⟩

/-! ## Restricting a book -/

namespace Merged

/-- The bands of the venues of `m`. -/
def restrict (L : Merged) (m : Mask) : Merged := L.filter fun p => m.has p.1

/-- The venues of a mask as a finite set. -/
def owners (m : Mask) : Finset Edge := m.edges.toFinset

@[simp] theorem mem_owners {m : Mask} {i : Edge} : i ∈ owners m ↔ m.has i = true := by
  rw [owners, List.mem_toFinset, Mask.mem_edges]

/-- A sum along the walk over a mask. -/
theorem sum_edges (m : Mask) (f : Edge → ℕ) : (m.edges.map f).sum = ∑ i ∈ owners m, f i :=
  (List.sum_toFinset f m.edges_nodup).symm

theorem owner_mem (L : Merged) (m : Mask) : ∀ p ∈ L.restrict m, p.1 ∈ owners m := by
  intro p hp
  rw [mem_owners]
  exact (List.mem_filter.mp hp).2

theorem stream_restrict (L : Merged) (m : Mask) (i : Edge) :
    Merge.stream (L.restrict m) i = if m.has i then Merge.stream L i else [] :=
  Merge.stream_filter m.has L i

/-- Integral over one venue's bands of a merged list. -/
theorem area_owner (L : Merged) (i : Edge) (x : ℕ) :
    Bands.area (fun p : Edge × Segment => p.2.inputCapacity) (fun p => p.2.marginalQ32)
      (L.filter fun p => decide (p.1 = i)) x = Curve.integral (Merge.stream L i) x :=
  (Bands.area_map Segment.inputCapacity Segment.marginalQ32 Prod.snd _ x).symm

/-- Capacity of one venue's bands of a merged list. -/
theorem total_owner (L : Merged) (i : Edge) :
    Bands.total (fun p : Edge × Segment => p.2.inputCapacity)
      (L.filter fun p => decide (p.1 = i))
      = Bands.total Segment.inputCapacity (Merge.stream L i) :=
  (Bands.total_map Segment.inputCapacity Prod.snd _).symm

/-- Filling past the end takes every band of a venue. -/
theorem fill_of_total_le (L : Merged) {x : ℕ} (h : L.total ≤ x) (i : Edge) :
    L.fill x i = Bands.total Segment.inputCapacity (Merge.stream L i) :=
  (Bands.fill_of_total_le _ L h i).trans (total_owner L i)

theorem fill_append (L M : Merged) (x : ℕ) (i : Edge) :
    fill (L ++ M) x i = L.fill x i + M.fill (x - L.total) i := Bands.fill_append _ L M x i

theorem total_append (L M : Merged) : total (L ++ M) = L.total + M.total :=
  Bands.total_append _ L M

/-- A restricted list is the sum of its venues. -/
theorem total_restrict (L : Merged) (m : Mask) :
    (L.restrict m).total
      = ∑ i ∈ owners m, Bands.total Segment.inputCapacity (Merge.stream L i) := by
  rw [← min_self (L.restrict m).total]
  calc min (L.restrict m).total (L.restrict m).total
      = ∑ i ∈ owners m, (L.restrict m).fill (L.restrict m).total i :=
        (Bands.sum_fill Prod.fst (owner_mem L m) _).symm
    _ = ∑ i ∈ owners m, Bands.total Segment.inputCapacity (Merge.stream L i) := by
        refine Finset.sum_congr rfl fun i hi => ?_
        rw [fill_of_total_le _ le_rfl, stream_restrict, if_pos (mem_owners.mp hi)]

/-- A venue's integral over its share is its part of the integral of the list. -/
theorem area_eq_sum (L : Merged) {m : Mask} (hL : ∀ p ∈ L, p.1 ∈ owners m) (x : ℕ) :
    L.area x = ∑ i ∈ owners m, Curve.integral (Merge.stream L i) (L.fill x i) := by
  rw [area, Bands.area_eq_sum_fill _ hL]
  exact Finset.sum_congr rfl fun i _ => area_owner L i _

/-- A venue without bands takes nothing. -/
theorem fill_eq_zero {L : Merged} {i : Edge} (h : ∀ p ∈ L, p.1 ≠ i) (x : ℕ) : L.fill x i = 0 :=
  Bands.fill_eq_zero _ h x

theorem restrict_append (L M : Merged) (m : Mask) :
    restrict (L ++ M) m = L.restrict m ++ M.restrict m := List.filter_append ..

/-- More rows hold at least as many atoms. -/
theorem total_restrict_take_mono (L : Merged) (m : Mask) {a b : ℕ} (h : a ≤ b) :
    (Merged.restrict (L.take a) m).total ≤ (Merged.restrict (L.take b) m).total := by
  have hsplit : L.take b = L.take a ++ (L.take b).drop a := by
    conv_lhs => rw [← List.take_append_drop a (L.take b)]
    rw [List.take_take, min_eq_left h]
  rw [hsplit, restrict_append, total_append]
  exact Nat.le_add_right _ _

/-! ## The marginal band -/

/-- Filling `amount` from `M` takes all of `F` and ends inside the next band `p`. -/
structure Cutoff (M F : Merged) (p : Edge × Segment) (amount : ℕ) : Prop where
  split : ∃ R, M = F ++ p :: R
  before : F.total < amount
  reach : amount ≤ F.total + p.2.inputCapacity

namespace Cutoff

variable {M F : Merged} {p : Edge × Segment} {amount : ℕ}

/-- The complete bands of a venue, and what is left to the owner of the marginal band. -/
theorem fill_eq (h : Cutoff M F p amount) (i : Edge) :
    M.fill amount i = Bands.total Segment.inputCapacity (Merge.stream F i)
      + if p.1 = i then amount - F.total else 0 := by
  obtain ⟨R, rfl⟩ := h.split
  have hreach := h.reach
  have hmin : min (amount - F.total) p.2.inputCapacity = amount - F.total := by omega
  have hrest : amount - F.total - p.2.inputCapacity = 0 := by omega
  rw [fill_append, fill_of_total_le F h.before.le, fill_cons, hmin, hrest, fill_zero, Nat.add_zero]

/-- The integral of a venue over its share. -/
theorem integral_eq (h : Cutoff M F p amount) (i : Edge) :
    Curve.integral (Merge.stream M i) (M.fill amount i)
      = ((Merge.stream F i).map fun s => s.inputCapacity * s.marginalQ32).sum
        + if p.1 = i then (amount - F.total) * p.2.marginalQ32 else 0 := by
  have hfill := h.fill_eq i
  obtain ⟨R, rfl⟩ := h.split
  have hreach := h.reach
  rw [hfill, Merge.stream_append, Curve.integral, Bands.area_append, Nat.add_sub_cancel_left,
    Bands.area_of_total_le _ _ _ (Nat.le_add_right _ _), Merge.stream_cons]
  congr 1
  split
  · -- the owner of the marginal band
    have hrest : amount - F.total - p.2.inputCapacity = 0 := by omega
    rw [Bands.area_cons, min_eq_left (by omega), hrest, Bands.area_zero, Nat.add_zero]
  · rw [Bands.area_zero]

end Cutoff

end Merged

/-! ## Rank -/

section Spec

variable {curves : List Curve} {built m : Mask} {L : Merged} {t : ResidualTape}

namespace ResidualTape.Spec

/-- The bands of a venue before a row are the first ones of its curve. -/
theorem stream_take (ht : t.Spec curves built L) {i : Edge} (hi : built.has i = true) {row : ℕ}
    (hrow : row ≤ L.length) :
    t.prefixRows row i ≤ (curveAt curves i).len ∧
      (curveAt curves i).bands.take (t.prefixRows row i) = Merge.stream (L.take row) i := by
  have hsplit : Merge.stream (L.take row) i ++ Merge.stream (L.drop row) i
      = (curveAt curves i).bands := by
    rw [← Merge.stream_append, List.take_append_drop, ht.book.stream_eq_bands hi]
  rw [ht.rows.rows_eq row hrow i]
  constructor
  · rw [← (ht.selected.valid i hi).length_bands, ← hsplit, List.length_append]
    exact Nat.le_add_right _ _
  · rw [← hsplit, List.take_left]

/-- The indexed capacity of the complete bands before a row. -/
theorem capacity_row (ht : t.Spec curves built L) {i : Edge} (hi : built.has i = true) {row : ℕ}
    (hrow : row ≤ L.length) :
    (t.curves i).capacity (t.prefixRows row i)
      = Bands.total Segment.inputCapacity (Merge.stream (L.take row) i) := by
  obtain ⟨hle, htake⟩ := ht.stream_take hi hrow
  rw [(ht.indexed i hi).capacity_eq _ hle, htake]

/-- The indexed integral of the complete bands before a row. -/
theorem integral_row (ht : t.Spec curves built L) {i : Edge} (hi : built.has i = true) {row : ℕ}
    (hrow : row ≤ L.length) :
    (t.curves i).integral (t.prefixRows row i)
      = ((Merge.stream (L.take row) i).map fun s => s.inputCapacity * s.marginalQ32).sum := by
  obtain ⟨hle, htake⟩ := ht.stream_take hi hrow
  rw [(ht.indexed i hi).integral_eq _ hle, htake]

/-- The indexed rate of the band a venue has next after a row. -/
theorem rate_row (ht : t.Spec curves built L) {i : Edge} (hi : built.has i = true) {row : ℕ}
    (hrow : row ≤ L.length) {b : Segment} {rest : List Segment}
    (hnext : Merge.stream (L.drop row) i = b :: rest) :
    (t.curves i).rates (t.prefixRows row i) = b.marginalQ32 := by
  have hvalid := ht.selected.valid i hi
  have hsplit : Merge.stream (L.take row) i ++ b :: rest = (curveAt curves i).bands := by
    rw [← hnext, ← Merge.stream_append, List.take_append_drop, ht.book.stream_eq_bands hi]
  have hrows := ht.rows.rows_eq row hrow i
  have hlt : t.prefixRows row i < (curveAt curves i).len := by
    rw [← hvalid.length_bands, ← hsplit, List.length_append, List.length_cons, hrows]
    omega
  have hdrop := bands_drop hvalid hlt
  rw [← hsplit, hrows, List.drop_left] at hdrop
  rw [(ht.indexed i hi).rates_eq _ hlt, hrows, (List.cons.inj hdrop).1]

/-- `rank` reports the capacity of the complete bands of the selected venues. -/
theorem rank_runs (ht : t.Spec curves built L) (hm : m.Within built) {row : ℕ}
    (hrow : row ≤ L.length) :
    RunsTo (t.rank row m) maxEdges (.ok (Merged.restrict (L.take row) m).total) := by
  have hgen : ∀ (l : List Edge) (sum : ℕ), (∀ i ∈ l, built.has i = true) →
      RunsTo (l.foldlM (fun sum i => do
        charge 1
        pure (sum + (t.curves i).capacity (t.prefixRows row i))) sum) l.length
        (.ok (sum + (l.map fun i =>
          Bands.total Segment.inputCapacity (Merge.stream (L.take row) i)).sum)) := by
    intro l
    induction l with
    | nil => exact fun sum _ => Runs.pure sum
    | cons i l ih =>
      intro sum hl
      rw [List.foldlM_cons, List.map_cons, List.sum_cons, ← Nat.add_assoc,
        ← ht.capacity_row (hl i List.mem_cons_self) hrow]
      have hone : RunsTo (charge 1 >>= fun _ =>
          (pure (sum + (t.curves i).capacity (t.prefixRows row i)) : Metered ℕ)) 1
          (.ok (sum + (t.curves i).capacity (t.prefixRows row i))) :=
        runsTo_charge_bind (Runs.pure _) le_rfl
      exact (hone.bind (ih _ fun j hj => hl j (List.mem_cons_of_mem i hj))).mono
        (by rw [List.length_cons]; omega)
  have hrun := hgen m.edges 0 fun i hi => Mask.within_iff.mp hm i (Mask.mem_edges.mp hi)
  rw [Nat.zero_add, Merged.sum_edges, ← Merged.total_restrict] at hrun
  exact hrun.mono (by rw [Mask.edges_eq]; exact (List.length_filter_le _ _).trans (by simp))

/-- The first row that reaches the amount splits the restricted book at its band. -/
theorem cutoff (ht : t.Spec curves built L) {row amount : ℕ} (h1 : 1 ≤ row) (hrow : row ≤ L.length)
    (hreach : amount ≤ (Merged.restrict (L.take row) m).total)
    (hbefore : (Merged.restrict (L.take (row - 1)) m).total < amount) :
    ∃ p, t.owner row = p.1 ∧ m.has p.1 = true ∧
      Merge.stream (L.drop (row - 1)) p.1 = p.2 :: Merge.stream (L.drop row) p.1 ∧
      Merged.Cutoff (L.restrict m) (Merged.restrict (L.take (row - 1)) m) p amount := by
  obtain ⟨k, rfl⟩ : ∃ k, row = k + 1 := ⟨row - 1, by omega⟩
  rw [Nat.add_sub_cancel] at hbefore ⊢
  have hk : k < L.length := by omega
  have hdrop : L.drop k = L[k] :: L.drop (k + 1) := List.drop_eq_getElem_cons hk
  have htake : L.take (k + 1) = L.take k ++ [L[k]] := List.take_succ_eq_append_getElem hk
  have hhas : m.has (L[k]).1 = true := by
    by_contra hnot
    rw [htake, Merged.restrict_append] at hreach
    have hnil : Merged.restrict [L[k]] m = [] := by simp [Merged.restrict, hnot]
    rw [hnil, List.append_nil] at hreach
    omega
  have hone : Merged.restrict [L[k]] m = [L[k]] := by simp [Merged.restrict, hhas]
  refine ⟨L[k], ht.rows.owner_eq k hk, hhas, ?_, ⟨Merged.restrict (L.drop (k + 1)) m, ?_⟩, hbefore, ?_⟩
  · rw [hdrop, Merge.stream_cons, if_pos rfl]
  · have hcons : Merged.restrict (L.drop k) m = L[k] :: Merged.restrict (L.drop (k + 1)) m := by
      rw [hdrop, Merged.restrict, List.filter_cons_of_pos (by simpa using hhas)]
      rfl
    rw [← hcons, ← Merged.restrict_append, List.take_append_drop]
  · rw [htake, Merged.restrict_append, hone, Merged.total_append] at hreach
    simpa using hreach

end ResidualTape.Spec

end Spec

end StockMesh

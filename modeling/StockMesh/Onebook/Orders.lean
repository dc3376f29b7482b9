import StockMesh.Onebook.Book

/-! # Valid order lists and the search

What the checks of `match_continuous` mean, and what one search finds: the least pair in the order of
ranks among those that cross (`pick_runs`, `picked_least`). -/

namespace StockMesh.Onebook

open Stateful Budgeted

variable {orders : List SettlementOptionalOrder} {slot : ℕ}

/-! ## Checks -/

/-- What `match_continuous` checks before it matches. -/
structure ValidOrders (orders : List SettlementOptionalOrder) (slot : ℕ) : Prop where
  count : 2 ≤ orders.length ∧ orders.length ≤ maxBookOrders
  valid : ∀ o ∈ orders, validateOrder o slot = .ok ()
  distinct : (orders.map SettlementOptionalOrder.id).Nodup
  instrument : ∀ a ∈ orders, ∀ b ∈ orders, a.instrument = b.instrument

theorem foldlM_checkOrder {first : Option SettlementOptionalOrder}
    {prior out : List SettlementOptionalOrder} :
    orders.foldlM (checkOrder first slot) prior = .ok out ↔ out = prior ++ orders ∧
      (∀ o ∈ orders, validateOrder o slot = .ok () ∧ (∀ f ∈ first, f.instrument = o.instrument) ∧
        ∀ p ∈ prior, p.id ≠ o.id) ∧ (orders.map SettlementOptionalOrder.id).Nodup := by
  induction orders generalizing prior with
  | nil => simp [pure, Except.pure, eq_comm]
  | cons o orders ih =>
    rw [List.foldlM_cons, bind_eq_ok]
    constructor
    · rintro ⟨prior', hcheck, hrest⟩
      simp only [checkOrder, bind_eq_ok, rejectIf_eq_ok] at hcheck
      obtain ⟨_, hvalid, _, hnew, _, hinstrument, hout⟩ := hcheck
      cases hout
      obtain ⟨rfl, hall, hnodup⟩ := ih.mp hrest
      simp only [not_exists, not_and, ne_eq, not_not] at hnew hinstrument
      refine ⟨by simp, fun a ha => ?_, ?_⟩
      · obtain rfl | ha := List.mem_cons.mp ha
        · exact ⟨hvalid, hinstrument, fun p hp hid =>
            hnew p hp (congrArg Prod.fst hid) (congrArg Prod.snd hid)⟩
        · obtain ⟨hvalid', hinstrument', hprior⟩ := hall a ha
          exact ⟨hvalid', hinstrument', fun p hp => hprior p (List.mem_append_left _ hp)⟩
      · rw [List.map_cons, List.nodup_cons]
        refine ⟨fun hmem => ?_, hnodup⟩
        obtain ⟨a, ha, hid⟩ := List.mem_map.mp hmem
        exact (hall a ha).2.2 o (List.mem_append_right _ List.mem_cons_self) hid.symm
    · rintro ⟨rfl, hall, hnodup⟩
      obtain ⟨⟨hvalid, hinstrument, hprior⟩, hrest⟩ := List.forall_mem_cons.mp hall
      rw [List.map_cons, List.nodup_cons] at hnodup
      refine ⟨prior ++ [o], ?_, ih.mpr ⟨by simp, fun a ha => ?_, hnodup.2⟩⟩
      · simp only [checkOrder, bind_eq_ok, rejectIf_eq_ok, not_exists, not_and, ne_eq, not_not]
        exact ⟨(), hvalid, (), fun p hp howner hnonce => hprior p hp (Prod.ext howner hnonce), (),
          hinstrument, trivial⟩
      · obtain ⟨hvalid', hinstrument', hprior'⟩ := hrest a ha
        refine ⟨hvalid', hinstrument', fun p hp => ?_⟩
        rw [List.mem_append, List.mem_singleton] at hp
        obtain hp | rfl := hp
        · exact hprior' p hp
        · exact fun hid => hnodup.1 (List.mem_map.mpr ⟨a, ha, hid.symm⟩)

theorem checkOrders_eq_ok : checkOrders orders slot = .ok () ↔ ValidOrders orders slot := by
  simp only [checkOrders, bind_eq_ok, rejectIf_eq_ok, foldlM_checkOrder, not_or, Nat.not_lt]
  constructor
  · rintro ⟨_, hcount, out, ⟨-, hall, hnodup⟩, -⟩
    refine ⟨hcount, fun o ho => (hall o ho).1, hnodup, fun a ha b hb => ?_⟩
    cases orders with
    | nil => cases ha
    | cons o orders => rw [← (hall a ha).2.1 o rfl, ← (hall b hb).2.1 o rfl]
  · intro h
    refine ⟨(), h.count, _, ⟨rfl, fun o ho => ⟨h.valid o ho, fun f hf => ?_, ?_⟩, h.distinct⟩, trivial⟩
    · exact h.instrument f (List.mem_of_mem_head? hf) o ho
    · exact fun p hp => absurd hp List.not_mem_nil

/-- The order of the list does not matter to the checks. -/
theorem ValidOrders.perm {orders' : List SettlementOptionalOrder} (h : ValidOrders orders slot)
    (hperm : orders.Perm orders') : ValidOrders orders' slot where
  count := hperm.length_eq ▸ h.count
  valid o ho := h.valid o (hperm.mem_iff.mpr ho)
  distinct := (hperm.map _).nodup_iff.mp h.distinct
  instrument a ha b hb := h.instrument a (hperm.mem_iff.mpr ha) b (hperm.mem_iff.mpr hb)

theorem ValidOrders.nodup (h : ValidOrders orders slot) : orders.Nodup := h.distinct.of_map

/-- The bounds of a valid order. -/
theorem bounds_of_valid {o : SettlementOptionalOrder} (h : validateOrder o slot = .ok ()) :
    0 < o.exposureQ32 ∧ o.exposureQ32 ≤ maxAtoms ∧ o.maxConversionBps ≤ 10000 := by
  simp only [validateOrder, bind_eq_ok, rejectIf_eq_ok, not_or, Nat.not_lt] at h
  obtain ⟨_, ⟨-, -, hexposure, hatoms, -, -, -, hbps, -⟩, -⟩ := h
  exact ⟨Nat.pos_of_ne_zero hexposure, hatoms, hbps⟩

/-- A valid buyer's test does not overflow. -/
theorem crosses_eq {b s : SettlementOptionalOrder} (h : validateOrder b slot = .ok ())
    (hbuy : b.side = .buy) (hsell : s.side = .sell) : crosses b s = .ok (decide (Compatible b s)) := by
  have hbps := (bounds_of_valid h).2.2
  have hbid : b.limitPriceQ32.toNat < 2 ^ 64 := b.limitPriceQ32.toNat_lt
  have hask : s.limitPriceQ32.toNat < 2 ^ 64 := s.limitPriceQ32.toNat_lt
  have hadjusted : s.limitPriceQ32.toNat * (10000 + b.maxConversionBps) < u128Size := by
    calc s.limitPriceQ32.toNat * (10000 + b.maxConversionBps)
        ≤ 2 ^ 64 * 20000 := Nat.mul_le_mul hask.le (by omega)
      _ < u128Size := by decide
  have hlimit : b.limitPriceQ32.toNat * 10000 < u128Size := by
    rw [u128Size]
    omega
  simp only [crosses, fits_of_lt .arithmetic hadjusted, fits_of_lt .arithmetic hlimit, ok_bind]
  by_cases hclaim : s.deliveredClaim ∈ b.claims
  · rw [if_pos hclaim]
    simp [Compatible, hbuy, hsell, hclaim]
  · rw [if_neg hclaim]
    simp [Compatible, hclaim]

/-! ## The search -/

/-- A pair that crosses with something left on both sides. -/
def Open (report : MatchReport) (p : Placed × Placed) : Prop :=
  Compatible p.1.1 p.2.1 ∧ 0 < report.residualExposureQ32 p.1.2 ∧ 0 < report.residualExposureQ32 p.2.2

instance (report : MatchReport) : DecidablePred (Open report) := fun _ =>
  inferInstanceAs (Decidable (_ ∧ _))

/-- The search after one more pair. -/
def considered (report : MatchReport) (best : Option (Placed × Placed)) (p : Placed × Placed) :
    Option (Placed × Placed) := if Open report p then some (better best p) else best

/-- What the search finds. -/
def picked (orders : List SettlementOptionalOrder) (report : MatchReport) : Option (Placed × Placed) :=
  orders.zipIdx.foldl
    (fun best buyer => orders.zipIdx.foldl (fun best seller => considered report best (buyer, seller)) best)
    none

theorem foldlM_ok {α β : Type} (f : β → α → β) (b : β) (l : List α) :
    l.foldlM (fun b a => (.ok (f b a) : Result β)) b = .ok (l.foldl f b) := by
  induction l generalizing b with
  | nil => rfl
  | cons a l ih => exact ih (f b a)

variable {report : MatchReport}

theorem consider_runs {buyer seller : Placed} (hvalid : validateOrder buyer.1 slot = .ok ())
    (hbuy : buyer.1.side = .buy) (hleft : 0 < report.residualExposureQ32 buyer.2)
    (best : Option (Placed × Placed)) :
    RunsTo (consider report buyer best seller) 1 (.ok (considered report best (buyer, seller))) := by
  refine runsTo_charge_bind (n := 0) ?_ le_rfl
  split
  · next hskip =>
    have hclosed : ¬Open report (buyer, seller) := by
      rintro ⟨hcompatible, -, hseller⟩
      exact hskip.elim (fun hside => hside hcompatible.2.1) fun hzero => hseller.ne' hzero
    rw [considered, if_neg hclosed]
    exact .pure best
  · next hkeep =>
    simp only [not_or, ne_eq, not_not] at hkeep
    have hsame : decide (Compatible buyer.1 seller.1) = decide (Open report (buyer, seller)) := by
      rw [decide_eq_decide, Open]
      simp [hleft, Nat.pos_of_ne_zero hkeep.2]
    have hrun := @Runs.lift _ _ Error.workLimit u32Size (crosses buyer.1 seller.1)
    have hcrosses := crosses_eq hvalid hbuy hkeep.1
    rw [hsame] at hcrosses
    rw [hcrosses] at hrun ⊢
    have hbind := hrun.bind_pure fun crossing =>
      if crossing = true then some (better best (buyer, seller)) else best
    simpa only [considered, decide_eq_true_eq] using hbind

theorem scanBuyer_runs {buyer : Placed} (hvalid : validateOrder buyer.1 slot = .ok ())
    (best : Option (Placed × Placed)) :
    RunsTo (scanBuyer orders report best buyer) orders.length
      (.ok (orders.zipIdx.foldl (fun best seller => considered report best (buyer, seller)) best)) := by
  unfold scanBuyer
  split
  · next hskip =>
    have hclosed : ∀ seller, ¬Open report (buyer, seller) := by
      rintro seller ⟨hcompatible, hleft, -⟩
      exact hskip.elim (fun hside => hside hcompatible.1) fun hzero => hleft.ne' hzero
    have hsame : orders.zipIdx.foldl (fun best seller => considered report best (buyer, seller)) best =
        best := by
      simp only [considered, if_neg (hclosed _)]
      exact List.foldl_fixed' (fun _ => rfl) _
    rw [hsame]
    exact (Runs.pure best).mono (Nat.zero_le _)
  · next hkeep =>
    simp only [not_or, ne_eq, not_not] at hkeep
    have hstep : ∀ best, ∀ seller ∈ orders.zipIdx, RunsTo (consider report buyer best seller) 1
        (.ok (considered report best (buyer, seller))) :=
      fun best seller _ => consider_runs hvalid hkeep.1 (Nat.pos_of_ne_zero hkeep.2) best
    have hrun := Runs.foldlM hstep best
    rw [foldlM_ok, Nat.one_mul, List.length_zipIdx] at hrun
    exact hrun

theorem pick_runs (h : ValidOrders orders slot) (report : MatchReport) :
    RunsTo (pick orders report) (orders.length * orders.length) (.ok (picked orders report)) := by
  have hstep : ∀ best, ∀ buyer ∈ orders.zipIdx, RunsTo (scanBuyer orders report best buyer) orders.length
      (.ok (orders.zipIdx.foldl (fun best seller => considered report best (buyer, seller)) best)) := by
    intro best buyer hbuyer
    exact scanBuyer_runs (h.valid _ (List.fst_mem_of_mem_zipIdx hbuyer)) best
  have hrun := Runs.foldlM hstep none
  rw [foldlM_ok, List.length_zipIdx] at hrun
  exact hrun

/-- A candidate of the search among some pairs. -/
def Least (report : MatchReport) (ps : List (Placed × Placed)) : Option (Placed × Placed) → Prop
  | none => ∀ p ∈ ps, ¬Open report p
  | some best => best ∈ ps ∧ Open report best ∧ ∀ p ∈ ps, Open report p → rank best ≤ rank p

theorem least_foldl (report : MatchReport) (ps : List (Placed × Placed)) :
    Least report ps (ps.foldl (considered report) none) := by
  induction ps using List.reverseRecOn with
  | nil => exact fun p hp => absurd hp List.not_mem_nil
  | append_singleton ps p ih =>
    rw [List.foldl_append, List.foldl_cons, List.foldl_nil]
    generalize ps.foldl (considered report) none = found at ih
    have hlast : p ∈ ps ++ [p] := List.mem_append_right _ List.mem_cons_self
    by_cases hopen : Open report p
    · rw [considered, if_pos hopen]
      cases found with
      | none =>
        refine ⟨hlast, hopen, fun q hq hqopen => ?_⟩
        obtain hq | hq := List.mem_append.mp hq
        · exact absurd hqopen (ih q hq)
        · rw [List.mem_singleton.mp hq]
          exact le_rfl
      | some best =>
        obtain ⟨hmem, hbest, hle⟩ := ih
        by_cases hlt : rank p < rank best
        · rw [show better (some best) p = p from if_pos hlt]
          refine ⟨hlast, hopen, fun q hq hqopen => ?_⟩
          obtain hq | hq := List.mem_append.mp hq
          · exact hlt.le.trans (hle q hq hqopen)
          · rw [List.mem_singleton.mp hq]
        · rw [show better (some best) p = best from if_neg hlt]
          refine ⟨List.mem_append_left _ hmem, hbest, fun q hq hqopen => ?_⟩
          obtain hq | hq := List.mem_append.mp hq
          · exact hle q hq hqopen
          · rw [List.mem_singleton.mp hq]
            exact le_of_not_gt hlt
    · rw [considered, if_neg hopen]
      cases found with
      | none =>
        intro q hq
        obtain hq | hq := List.mem_append.mp hq
        · exact ih q hq
        · rwa [List.mem_singleton.mp hq]
      | some best =>
        obtain ⟨hmem, hbest, hle⟩ := ih
        refine ⟨List.mem_append_left _ hmem, hbest, fun q hq hqopen => ?_⟩
        obtain hq | hq := List.mem_append.mp hq
        · exact hle q hq hqopen
        · rw [List.mem_singleton.mp hq] at hqopen
          exact absurd hqopen hopen

/-- The search finds the best pair that crosses. -/
theorem picked_least (orders : List SettlementOptionalOrder) (report : MatchReport) :
    Least report (orders.zipIdx.product orders.zipIdx) (picked orders report) := by
  have hfold : picked orders report =
      (orders.zipIdx.product orders.zipIdx).foldl (considered report) none := by
    simp only [picked, List.product, List.foldl_flatMap, List.foldl_map]
  rw [hfold]
  exact least_foldl report _

end StockMesh.Onebook

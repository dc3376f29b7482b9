import StockMesh.Onebook.Orders
import Mathlib.Algebra.BigOperators.Group.Finset.Piecewise

/-! # What the book matches

Each iteration fills the pair that the search finds and exhausts an order, so that the room for fills is
never used up. The report balances, and the book is left uncrossed. With distinct arrivals the fills are
those of the reference matcher, whatever the order of the list (`onebook_matching`). -/

namespace StockMesh.Onebook

open Stateful Budgeted Matching

variable {orders : List SettlementOptionalOrder} {slot : ℕ} {report report' : MatchReport}

/-! ## One fill -/

/-- The report after a fill. -/
def MatchReport.after (report : MatchReport) (b s : Placed) : MatchReport :=
  let exposure := min (report.residualExposureQ32 b.2) (report.residualExposureQ32 s.2)
  { fills := report.fills ++
      [⟨b.2, s.2, s.1.deliveredClaim, exposure, s.1.limitPriceQ32.toNat⟩]
    filledExposureQ32 := fun i =>
      if i = b.2 ∨ i = s.2 then report.filledExposureQ32 i + exposure else report.filledExposureQ32 i
    residualExposureQ32 := trade report.residualExposureQ32 b.2 s.2 }

/-- The places of the orders of a side. -/
def places (orders : List SettlementOptionalOrder) (side : Side) : Finset ℕ :=
  (Finset.range orders.length).filter fun i => ∃ o ∈ orders[i]?, o.side = side

theorem mem_places {side : Side} {i : ℕ} :
    i ∈ places orders side ↔ ∃ o, orders[i]? = some o ∧ o.side = side := by
  simp only [places, Finset.mem_filter, Finset.mem_range, Option.mem_def]
  constructor
  · exact fun h => h.2
  · rintro ⟨o, ho, hside⟩
    exact ⟨(List.getElem?_eq_some_iff.mp ho).1, o, ho, hside⟩

/-- A fill between compatible orders at the limit of the seller. -/
structure FillOk (orders : List SettlementOptionalOrder) (f : CrossClaimFill) : Prop where
  pair : ∃ b s, orders[f.buyer]? = some b ∧ orders[f.seller]? = some s ∧ Compatible b s ∧
    f.claim = s.deliveredClaim ∧ f.priceQ32 = s.limitPriceQ32.toNat
  positive : 0 < f.exposureQ32

/-- The exposure of all fills. -/
def MatchReport.volume (report : MatchReport) : ℕ := (report.fills.map CrossClaimFill.exposureQ32).sum

/-- What holds of a report while the book matches. -/
structure Sound (orders : List SettlementOptionalOrder) (report : MatchReport) : Prop where
  split : ∀ i o, orders[i]? = some o →
    report.filledExposureQ32 i + report.residualExposureQ32 i = o.exposureQ32
  fills : ∀ f ∈ report.fills, FillOk orders f
  bought : ∑ i ∈ places orders .buy, report.filledExposureQ32 i = report.volume
  sold : ∑ i ∈ places orders .sell, report.filledExposureQ32 i = report.volume

theorem Sound.start (orders : List SettlementOptionalOrder) : Sound orders (openReport orders) where
  split i o ho := by simp [openReport, ho]
  fills _ h := absurd h List.not_mem_nil
  bought := by simp [openReport, MatchReport.volume]
  sold := by simp [openReport, MatchReport.volume]

/-- The orders of an open pair and their places differ. -/
theorem Open.places_ne {b s : Placed} (h : Open report (b, s)) (hb : b ∈ orders.zipIdx)
    (hs : s ∈ orders.zipIdx) : b.2 ≠ s.2 := by
  intro heq
  have hfirst := List.mem_zipIdx_iff_getElem?.mp hb
  rw [heq, List.mem_zipIdx_iff_getElem?.mp hs, Option.some.injEq] at hfirst
  have hside := h.1.1
  rw [← hfirst, h.1.2.1] at hside
  cases hside

theorem MatchReport.fill_eq (hsound : Sound orders report) (hvalid : ValidOrders orders slot)
    {b s : Placed} (hb : b ∈ orders.zipIdx) (hs : s ∈ orders.zipIdx) (h : Open report (b, s))
    (hroom : report.fills.length < maxMatches) : report.fill b s = .ok (report.after b s) := by
  have hne := h.places_ne hb hs
  have hbound : ∀ p ∈ orders.zipIdx, report.filledExposureQ32 p.2 + report.residualExposureQ32 p.2 <
      u64Size := by
    intro p hp
    have hsplit := hsound.split p.2 p.1 (List.mem_zipIdx_iff_getElem?.mp hp)
    have hle := (bounds_of_valid (hvalid.valid p.1 (List.fst_mem_of_mem_zipIdx hp))).2.1
    rw [hsplit]
    exact hle.trans_lt (by decide)
  have hbuyer := hbound b hb
  have hseller := hbound s hs
  simp only [MatchReport.fill, rejectIf_of_not .bounds (Nat.not_le.mpr hroom), ok_bind]
  rw [checkedAdd_of_lt (by omega), ok_bind, Function.update_of_ne (Ne.symm hne),
    checkedAdd_of_lt (by omega), ok_bind]
  congr 1
  simp only [MatchReport.after, MatchReport.mk.injEq, true_and]
  constructor
  · funext i
    by_cases hi : i = s.2
    · subst hi
      simp
    · by_cases hi' : i = b.2
      · subst hi'
        simp [hi]
      · simp [hi, hi']
  · funext i
    unfold trade
    by_cases hi : i = s.2
    · subst hi
      simp [Ne.symm hne]
    · by_cases hi' : i = b.2
      · subst hi'
        simp [hi]
      · simp [hi, hi']

/-- A fill adds its exposure to one order of each side. -/
theorem sum_after {sides : Finset ℕ} {filled : ℕ → ℕ} {i j exposure : ℕ} (hi : i ∈ sides) (hj : j ∉ sides) :
    ∑ k ∈ sides, (if k = i ∨ k = j then filled k + exposure else filled k) =
      ∑ k ∈ sides, filled k + exposure := by
  calc ∑ k ∈ sides, (if k = i ∨ k = j then filled k + exposure else filled k)
      = ∑ k ∈ sides, (filled k + if k = i then exposure else 0) := by
        refine Finset.sum_congr rfl fun k hk => ?_
        have hkj : k ≠ j := fun h => hj (h ▸ hk)
        by_cases hki : k = i <;> simp [hki, hkj]
    _ = ∑ k ∈ sides, filled k + exposure := by
        rw [Finset.sum_add_distrib, Finset.sum_ite_eq' sides i, if_pos hi]

theorem Sound.after (hsound : Sound orders report) {b s : Placed} (hb : b ∈ orders.zipIdx)
    (hs : s ∈ orders.zipIdx) (h : Open report (b, s)) : Sound orders (report.after b s) := by
  have hbuyer := List.mem_zipIdx_iff_getElem?.mp hb
  have hseller := List.mem_zipIdx_iff_getElem?.mp hs
  have hother : ∀ {i o side}, orders[i]? = some o → o.side ≠ side → i ∉ places orders side := by
    intro i o side hi hside hmem
    obtain ⟨o', hi', hside'⟩ := mem_places.mp hmem
    cases hi.symm.trans hi'
    exact hside hside'
  have hvolume : (report.after b s).volume =
      report.volume + min (report.residualExposureQ32 b.2) (report.residualExposureQ32 s.2) := by
    simp [MatchReport.volume, MatchReport.after]
  have hbuy : s.2 ∉ places orders .buy := hother hseller (by rw [h.1.2.1]; decide)
  have hsell : b.2 ∉ places orders .sell := hother hbuyer (by rw [h.1.1]; decide)
  constructor
  case split =>
    intro i o ho
    have hsplit := hsound.split i o ho
    simp only [MatchReport.after, trade]
    by_cases hi : i = b.2 ∨ i = s.2
    · rw [if_pos hi, if_pos hi]
      obtain rfl | rfl := hi <;> omega
    · rwa [if_neg hi, if_neg hi]
  case fills =>
    intro f hf
    obtain hf | hf := List.mem_append.mp hf
    · exact hsound.fills f hf
    · rw [List.mem_singleton.mp hf]
      exact ⟨⟨b.1, s.1, hbuyer, hseller, h.1, rfl, rfl⟩, lt_min h.2.1 h.2.2⟩
  case bought =>
    rw [hvolume, ← hsound.bought]
    exact sum_after (mem_places.mpr ⟨b.1, hbuyer, h.1.1⟩) hbuy
  case sold =>
    rw [hvolume, ← hsound.sold]
    have hcomm : ∀ i, (i = b.2 ∨ i = s.2) = (i = s.2 ∨ i = b.2) := fun i => propext or_comm
    simp only [MatchReport.after, hcomm]
    exact sum_after (mem_places.mpr ⟨s.1, hseller, h.1.2.1⟩) hsell

/-! ## The loop -/

/-- The pair that the search finds. -/
structure Finds (orders : List SettlementOptionalOrder) (report : MatchReport) (b s : Placed) : Prop where
  buyer : b ∈ orders.zipIdx
  seller : s ∈ orders.zipIdx
  crosses : Open report (b, s)
  least : ∀ b' ∈ orders.zipIdx, ∀ s' ∈ orders.zipIdx, Open report (b', s') → rank (b, s) ≤ rank (b', s')

/-- A book that is not crossed. -/
def Uncrossed (orders : List SettlementOptionalOrder) (report : MatchReport) : Prop :=
  ∀ b ∈ orders.zipIdx, ∀ s ∈ orders.zipIdx, ¬Open report (b, s)

/-- The iterations of the loop. -/
inductive Chain (orders : List SettlementOptionalOrder) : MatchReport → MatchReport → Prop
  | done {report : MatchReport} (h : Uncrossed orders report) : Chain orders report report
  | next {report report' : MatchReport} {b s : Placed} (h : Finds orders report b s)
      (rest : Chain orders (report.after b s) report') : Chain orders report report'

theorem uncrossed_of_picked (h : picked orders report = none) : Uncrossed orders report := by
  have hleast := picked_least orders report
  rw [h] at hleast
  exact fun b hb s hs => hleast (b, s) (List.mem_product.mpr ⟨hb, hs⟩)

theorem finds_of_picked {b s : Placed} (h : picked orders report = some (b, s)) :
    Finds orders report b s := by
  have hleast := picked_least orders report
  rw [h] at hleast
  obtain ⟨hmem, hopen, hle⟩ := hleast
  obtain ⟨hb, hs⟩ := List.mem_product.mp hmem
  exact ⟨hb, hs, hopen, fun b' hb' s' hs' => hle (b', s') (List.mem_product.mpr ⟨hb', hs'⟩)⟩

/-- The orders at two places are compatible. -/
def CompatibleAt (orders : List SettlementOptionalOrder) (i j : ℕ) : Prop :=
  ∃ b s, orders[i]? = some b ∧ orders[j]? = some s ∧ Compatible b s

theorem compatibleAt_sides {i j : ℕ} (h : CompatibleAt orders i j) :
    i ≠ j ∧ i ∈ Finset.range orders.length ∧ j ∈ Finset.range orders.length := by
  obtain ⟨b, s, hb, hs, hcompatible⟩ := h
  refine ⟨?_, Finset.mem_range.mpr (List.getElem?_eq_some_iff.mp hb).1,
    Finset.mem_range.mpr (List.getElem?_eq_some_iff.mp hs).1⟩
  rintro rfl
  cases hb.symm.trans hs
  exact absurd (hcompatible.1.symm.trans hcompatible.2.1) (by decide)

theorem Finds.crosses_at {b s : Placed} (h : Finds orders report b s) :
    Crosses (CompatibleAt orders) report.residualExposureQ32 b.2 s.2 :=
  ⟨⟨b.1, s.1, List.mem_zipIdx_iff_getElem?.mp h.buyer, List.mem_zipIdx_iff_getElem?.mp h.seller,
    h.crosses.1⟩, h.crosses.2⟩

/-- The orders that have something left. -/
def left (orders : List SettlementOptionalOrder) (report : MatchReport) : ℕ :=
  live (Finset.range orders.length) report.residualExposureQ32

theorem left_le (orders : List SettlementOptionalOrder) (report : MatchReport) :
    left orders report ≤ orders.length :=
  (Finset.card_filter_le _ _).trans (Finset.card_range _).le

/-- A fill leaves fewer orders, and there were two of them. -/
theorem Finds.left {b s : Placed} (h : Finds orders report b s) :
    2 ≤ left orders report ∧ Onebook.left orders (report.after b s) < Onebook.left orders report := by
  obtain ⟨hne, hb, hs⟩ := compatibleAt_sides h.crosses_at.1
  exact ⟨two_le_live hne hb hs h.crosses_at, live_trade_lt hb hs h.crosses_at⟩

/-- The loop ends before the room is used up. -/
theorem matchLoop_runs (hvalid : ValidOrders orders slot) {room : ℕ} (hsound : Sound orders report)
    (hfills : report.fills.length + room = maxMatches) (hleft : left orders report ≤ room + 1) :
    ∃ report', RunsTo (matchLoop orders room report)
      ((room + 1) * (orders.length * orders.length)) (.ok report') ∧ Chain orders report report' := by
  induction room generalizing report with
  | zero =>
    have hpick := pick_runs hvalid report
    cases hfound : picked orders report with
    | none =>
      rw [hfound] at hpick
      exact ⟨report, (hpick.bind (.pure report)).mono (by omega), .done (uncrossed_of_picked hfound)⟩
    | some p =>
      have htwo := (finds_of_picked hfound).left.1
      omega
  | succ room ih =>
    have hpick := pick_runs hvalid report
    cases hfound : picked orders report with
    | none =>
      rw [hfound] at hpick
      refine ⟨report, (hpick.bind (.pure report)).mono ?_, .done (uncrossed_of_picked hfound)⟩
      exact Nat.le_mul_of_pos_left _ (Nat.succ_pos _)
    | some p =>
      have hfinds : Finds orders report p.1 p.2 := finds_of_picked hfound
      rw [hfound] at hpick
      have hfill := MatchReport.fill_eq hsound hvalid hfinds.buyer hfinds.seller hfinds.crosses (by omega)
      have hlength : (report.after p.1 p.2).fills.length = report.fills.length + 1 := by
        simp [MatchReport.after]
      have hlt := hfinds.left.2
      obtain ⟨report', hrun, hchain⟩ := ih (hsound.after hfinds.buyer hfinds.seller hfinds.crosses)
        (by omega) (by omega)
      refine ⟨report', ?_, .next hfinds hchain⟩
      have hnext := @Runs.lift _ _ Error.workLimit u32Size (report.fill p.1 p.2)
      rw [hfill] at hnext
      have hrest := hnext.bind (f := fun next => matchLoop orders room next) hrun
      rw [← hfill] at hrest
      refine (hpick.bind hrest).mono ?_
      rw [Nat.zero_add, Nat.succ_mul (room + 1), Nat.add_comm]

/-! ## The result -/

theorem Chain.sound (h : Chain orders report report') (hsound : Sound orders report) :
    Sound orders report' := by
  induction h with
  | done => exact hsound
  | next hfinds _ ih => exact ih (hsound.after hfinds.buyer hfinds.seller hfinds.crosses)

theorem Chain.uncrossed (h : Chain orders report report') : Uncrossed orders report' := by
  induction h with
  | done h => exact h
  | next _ _ ih => exact ih

/-- Each fill is a trade. -/
theorem Chain.trades (h : Chain orders report report') : ∃ ts,
    Trades (CompatibleAt orders) report.residualExposureQ32 ts report'.residualExposureQ32 ∧
      report'.fills.length = report.fills.length + ts.length := by
  induction h with
  | done => exact ⟨[], .nil _, rfl⟩
  | next hfinds _ ih =>
    obtain ⟨ts, htrades, hlength⟩ := ih
    refine ⟨_, .cons hfinds.crosses_at htrades, ?_⟩
    rw [hlength, List.length_cons]
    simp only [MatchReport.after, List.length_append, List.length_singleton]
    omega

/-- There are fewer fills than orders. -/
theorem Chain.length_lt (h : Chain orders (openReport orders) report') (hcount : 0 < orders.length) :
    report'.fills.length < orders.length := by
  obtain ⟨ts, htrades, hlength⟩ := h.trades
  rw [hlength, openReport, List.length_nil, Nat.zero_add]
  by_cases hnil : ts = []
  · rwa [hnil]
  · exact (htrades.length_lt (fun _ _ => compatibleAt_sides) hnil).trans_le (left_le orders _)

/-! ## Priority -/

theorem mem_bids {o : SettlementOptionalOrder} : o ∈ bids orders ↔ o ∈ orders ∧ o.side = .buy := by
  simp [bids, List.mem_insertionSort]

theorem mem_asks {o : SettlementOptionalOrder} : o ∈ asks orders ↔ o ∈ orders ∧ o.side = .sell := by
  simp [asks, List.mem_insertionSort]

/-- Sorting orders of different arrivals by a key that ends with the arrival. -/
theorem sorted_insertionSort {κ : Type} [LinearOrder κ] {key : SettlementOptionalOrder → κ}
    (hkey : ∀ a b, key a = key b → a.arrivalSequence = b.arrivalSequence)
    {l : List SettlementOptionalOrder}
    (hl : (l.map SettlementOptionalOrder.arrivalSequence).Nodup) :
    (l.insertionSort fun a b => key a ≤ key b).Pairwise fun a b => key a < key b := by
  have hle : (l.insertionSort fun a b => key a ≤ key b).Pairwise fun a b => key a ≤ key b := by
    have : Std.Total (fun a b : SettlementOptionalOrder => key a ≤ key b) := ⟨fun _ _ => le_total _ _⟩
    have : IsTrans SettlementOptionalOrder (fun a b => key a ≤ key b) := ⟨fun _ _ _ => le_trans⟩
    exact List.pairwise_insertionSort _ l
  have hne : (l.insertionSort fun a b => key a ≤ key b).Pairwise fun a b =>
      a.arrivalSequence ≠ b.arrivalSequence := by
    have hperm := (List.perm_insertionSort (fun a b => key a ≤ key b) l).map
      SettlementOptionalOrder.arrivalSequence
    exact List.pairwise_map.mp (hperm.nodup_iff.mpr hl)
  exact hle.imp₂ (fun a b hle hne => lt_of_le_of_ne hle fun h => hne (hkey a b h)) hne

theorem arrival_of_bidKey (a b : SettlementOptionalOrder) (h : bidKey a = bidKey b) :
    a.arrivalSequence = b.arrivalSequence := congrArg (fun k => (ofLex k).2) h

theorem arrival_of_askKey (a b : SettlementOptionalOrder) (h : askKey a = askKey b) :
    a.arrivalSequence = b.arrivalSequence := congrArg (fun k => (ofLex k).2) h

/-- The rank compares the buyers first and then the sellers. -/
theorem keys_of_rank {p q : Placed × Placed} (h : rank p ≤ rank q) :
    bidKey p.1.1 ≤ bidKey q.1.1 ∧ (bidKey p.1.1 = bidKey q.1.1 → askKey p.2.1 ≤ askKey q.2.1) := by
  simp only [rank, bidKey, askKey, Prod.Lex.toLex_le_toLex, Prod.mk.injEq, EmbeddingLike.apply_eq_iff_eq,
    OrderDual.toDual_lt_toDual] at h ⊢
  omega

/-- The residuals of the places are those of the orders. -/
def Matches (orders : List SettlementOptionalOrder) (report : MatchReport)
    (r : SettlementOptionalOrder → ℕ) : Prop :=
  ∀ p ∈ orders.zipIdx, r p.1 = report.residualExposureQ32 p.2

theorem Matches.crosses {r : SettlementOptionalOrder → ℕ} (h : Matches orders report r) {b s : Placed}
    (hb : b ∈ orders.zipIdx) (hs : s ∈ orders.zipIdx) :
    Crosses Compatible r b.1 s.1 ↔ Open report (b, s) := by
  rw [Crosses, Open, h b hb, h s hs]

/-- Orders are at one place. -/
theorem place_inj (hnodup : orders.Nodup) {p q : Placed} (hp : p ∈ orders.zipIdx)
    (hq : q ∈ orders.zipIdx) : p.1 = q.1 ↔ p.2 = q.2 := by
  have hp' := List.mem_zipIdx_iff_getElem?.mp hp
  have hq' := List.mem_zipIdx_iff_getElem?.mp hq
  constructor
  · intro h
    obtain ⟨hlt, -⟩ := List.getElem?_eq_some_iff.mp hp'
    exact (List.getElem?_inj hlt hnodup).mp (by rw [hp', hq', h])
  · intro h
    rw [h, hq', Option.some.injEq] at hp'
    exact hp'.symm

theorem Matches.after (hnodup : orders.Nodup) {r : SettlementOptionalOrder → ℕ}
    (h : Matches orders report r) {b s : Placed} (hb : b ∈ orders.zipIdx) (hs : s ∈ orders.zipIdx) :
    Matches orders (report.after b s) (trade r b.1 s.1) := by
  intro p hp
  simp only [MatchReport.after, trade, h p hp, h b hb, h s hs, place_inj hnodup hp hb,
    place_inj hnodup hp hs]

/-- The pair that the search finds is the first one by priority. -/
theorem Finds.best (hdistinct : (orders.map SettlementOptionalOrder.arrivalSequence).Nodup)
    {r : SettlementOptionalOrder → ℕ} (hmatches : Matches orders report r) {b s : Placed}
    (h : Finds orders report b s) : Best Compatible (bids orders) (asks orders) r b.1 s.1 := by
  have hfilter : ∀ side : Side, ((orders.filter fun o => o.side = side).map
      SettlementOptionalOrder.arrivalSequence).Nodup := fun side =>
    hdistinct.sublist (List.filter_sublist.map _)
  have hplaced : ∀ o ∈ orders, ∃ i, (o, i) ∈ orders.zipIdx := by
    intro o ho
    obtain ⟨i, hi⟩ := List.mem_iff_getElem?.mp ho
    exact ⟨i, List.mk_mem_zipIdx_iff_getElem?.mpr hi⟩
  have hb := List.fst_mem_of_mem_zipIdx h.buyer
  have hs := List.fst_mem_of_mem_zipIdx h.seller
  refine best_of_least (sorted_insertionSort arrival_of_bidKey (hfilter .buy))
    (sorted_insertionSort arrival_of_askKey (hfilter .sell)) (mem_bids.mpr ⟨hb, h.crosses.1.1⟩)
    (mem_asks.mpr ⟨hs, h.crosses.1.2.1⟩) ((hmatches.crosses h.buyer h.seller).mpr h.crosses) ?_ ?_
  · intro b' hb' s' hs' hcrosses
    obtain ⟨i, hi⟩ := hplaced b' (mem_bids.mp hb').1
    obtain ⟨j, hj⟩ := hplaced s' (mem_asks.mp hs').1
    exact (keys_of_rank (h.least _ hi _ hj ((hmatches.crosses hi hj).mp hcrosses))).1
  · intro s' hs' hcrosses
    obtain ⟨j, hj⟩ := hplaced s' (mem_asks.mp hs').1
    exact (keys_of_rank (h.least _ h.buyer _ hj ((hmatches.crosses h.buyer hj).mp hcrosses))).2 rfl

/-- A fill with its orders in place of their places. -/
def named (orders : List SettlementOptionalOrder) (f : CrossClaimFill) :
    Option SettlementOptionalOrder × Option SettlementOptionalOrder × ℕ :=
  (orders[f.buyer]?, orders[f.seller]?, f.exposureQ32)

/-- A trade of the reference in the same form. -/
def ofTrade (t : Trade SettlementOptionalOrder) :
    Option SettlementOptionalOrder × Option SettlementOptionalOrder × ℕ :=
  (some t.buyer, some t.seller, t.quantity)

/-- The iterations trade the first pair by priority. -/
theorem Chain.greedy (hvalid : ValidOrders orders slot)
    (hdistinct : (orders.map SettlementOptionalOrder.arrivalSequence).Nodup)
    (h : Chain orders report report') {r : SettlementOptionalOrder → ℕ}
    (hmatches : Matches orders report r) : ∃ ts r', Greedy Compatible (bids orders) (asks orders) r ts r' ∧
      report'.fills.map (named orders) = report.fills.map (named orders) ++ ts.map ofTrade := by
  induction h generalizing r with
  | @done report huncrossed =>
    refine ⟨[], r, .done fun b hb s hs hcrosses => ?_, by simp⟩
    obtain ⟨i, hi⟩ := List.mem_iff_getElem?.mp (mem_bids.mp hb).1
    obtain ⟨j, hj⟩ := List.mem_iff_getElem?.mp (mem_asks.mp hs).1
    have hi' : (b, i) ∈ orders.zipIdx := List.mk_mem_zipIdx_iff_getElem?.mpr hi
    have hj' : (s, j) ∈ orders.zipIdx := List.mk_mem_zipIdx_iff_getElem?.mpr hj
    exact huncrossed _ hi' _ hj' ((hmatches.crosses hi' hj').mp hcrosses)
  | @next report report' b s hfinds _ ih =>
    obtain ⟨ts, r', hgreedy, hnamed⟩ := ih (hmatches.after hvalid.nodup hfinds.buyer hfinds.seller)
    refine ⟨_, r', .trade (hfinds.best hdistinct hmatches) hgreedy, ?_⟩
    rw [hnamed, hmatches b hfinds.buyer, hmatches s hfinds.seller]
    simp [MatchReport.after, named, ofTrade, List.mem_zipIdx_iff_getElem?.mp hfinds.buyer,
      List.mem_zipIdx_iff_getElem?.mp hfinds.seller]

theorem Chain.reference (hvalid : ValidOrders orders slot)
    (hdistinct : (orders.map SettlementOptionalOrder.arrivalSequence).Nodup)
    (h : Chain orders (openReport orders) report') :
    report'.fills.map (named orders) = (reference orders).map ofTrade := by
  have hmatches : Matches orders (openReport orders) SettlementOptionalOrder.exposureQ32 := by
    intro p hp
    simp [openReport, List.mem_zipIdx_iff_getElem?.mp hp]
  obtain ⟨ts, r', hgreedy, hnamed⟩ := h.greedy hvalid hdistinct hmatches
  rw [hnamed, Onebook.reference, hgreedy.eq_sequential]
  rfl

/-- The order of the list does not matter to the reference. -/
theorem reference_perm {orders' : List SettlementOptionalOrder} (hperm : orders.Perm orders')
    (hdistinct : (orders.map SettlementOptionalOrder.arrivalSequence).Nodup) :
    reference orders = reference orders' := by
  have hdistinct' : (orders'.map SettlementOptionalOrder.arrivalSequence).Nodup :=
    (hperm.map _).nodup_iff.mp hdistinct
  have hsort : ∀ {κ : Type} [LinearOrder κ] (key : SettlementOptionalOrder → κ) (side : Side),
      (∀ a b, key a = key b → a.arrivalSequence = b.arrivalSequence) →
      ((orders.filter fun o => o.side = side).insertionSort fun a b => key a ≤ key b) =
        ((orders'.filter fun o => o.side = side).insertionSort fun a b => key a ≤ key b) := by
    intro κ _ key side hkey
    refine List.Perm.eq_of_pairwise (fun a b _ _ hab hba => absurd hab hba.asymm)
      (sorted_insertionSort hkey (hdistinct.sublist (List.filter_sublist.map _)))
      (sorted_insertionSort hkey (hdistinct'.sublist (List.filter_sublist.map _))) ?_
    exact ((List.perm_insertionSort _ _).trans (hperm.filter _)).trans (List.perm_insertionSort _ _).symm
  have hbids : bids orders = bids orders' := hsort bidKey .buy arrival_of_bidKey
  have hasks : asks orders = asks orders' := hsort askKey .sell arrival_of_askKey
  rw [reference, reference, hbids, hasks]

/-- The matcher ends with a chain of fills on a sufficient budget. -/
theorem matchContinuous_runs (hvalid : ValidOrders orders slot) : ∃ report,
    RunsTo (matchContinuous orders slot) 8448 (.ok report) ∧ Chain orders (openReport orders) report := by
  have hcount := hvalid.count
  have hleft : left orders (openReport orders) ≤ maxMatches + 1 :=
    (left_le orders _).trans (hcount.2.trans (by decide))
  obtain ⟨report, hrun, hchain⟩ :=
    @matchLoop_runs orders slot (openReport orders) hvalid maxMatches (Sound.start orders) rfl hleft
  refine ⟨report, ?_, hchain⟩
  have hcheck := @Runs.lift _ _ Error.workLimit u32Size (checkOrders orders slot)
  rw [checkOrders_eq_ok.mpr hvalid] at hcheck
  have hbind := hcheck.bind (f := fun _ => matchLoop orders maxMatches (openReport orders)) hrun
  rw [← checkOrders_eq_ok.mpr hvalid] at hbind
  refine hbind.mono ?_
  have hsquare : orders.length * orders.length ≤ 16 * 16 := Nat.mul_le_mul hcount.2 hcount.2
  show 0 + (32 + 1) * (orders.length * orders.length) ≤ 8448
  omega

/-- The matcher, on every valid list of orders and a sufficient budget. -/
theorem onebook_matching (hvalid : checkOrders orders slot = .ok ()) :
    ∃ report, RunsTo (matchContinuous orders slot) 8448 (.ok report) ∧
      report.fills.length < orders.length ∧
      (∀ i o, orders[i]? = some o →
        report.filledExposureQ32 i + report.residualExposureQ32 i = o.exposureQ32) ∧
      (∑ i ∈ places orders .buy, report.filledExposureQ32 i = report.volume ∧
        ∑ i ∈ places orders .sell, report.filledExposureQ32 i = report.volume) ∧
      (∀ f ∈ report.fills, 0 < f.exposureQ32 ∧ ∃ b s, orders[f.buyer]? = some b ∧
        orders[f.seller]? = some s ∧ b.side = .buy ∧ s.side = .sell ∧ f.claim = s.deliveredClaim ∧
        f.claim ∈ b.claims ∧ f.priceQ32 = s.limitPriceQ32.toNat ∧
        f.priceQ32 * (10000 + b.maxConversionBps) ≤ b.limitPriceQ32.toNat * 10000) ∧
      (∀ i j b s, orders[i]? = some b → orders[j]? = some s → Compatible b s →
        report.residualExposureQ32 i = 0 ∨ report.residualExposureQ32 j = 0) ∧
      ((orders.map SettlementOptionalOrder.arrivalSequence).Nodup →
        report.fills.map (named orders) = (reference orders).map ofTrade ∧
        ∀ orders', orders.Perm orders' → ∃ report',
          RunsTo (matchContinuous orders' slot) 8448 (.ok report') ∧
            report'.fills.map (named orders') = report.fills.map (named orders)) := by
  have hvalid := checkOrders_eq_ok.mp hvalid
  obtain ⟨report, hrun, hchain⟩ := matchContinuous_runs hvalid
  have hsound := hchain.sound (Sound.start orders)
  refine ⟨report, hrun, hchain.length_lt (by have := hvalid.count.1; omega), hsound.split,
    ⟨hsound.bought, hsound.sold⟩, ?_, ?_, ?_⟩
  · intro f hf
    obtain ⟨⟨b, s, hb, hs, hcompatible, hclaim, hprice⟩, hpositive⟩ := hsound.fills f hf
    refine ⟨hpositive, b, s, hb, hs, hcompatible.1, hcompatible.2.1, hclaim, ?_, hprice, ?_⟩
    · rw [hclaim]
      exact hcompatible.2.2.1
    · rw [hprice]
      exact hcompatible.2.2.2
  · intro i j b s hb hs hcompatible
    have hclosed := hchain.uncrossed (b, i) (List.mk_mem_zipIdx_iff_getElem?.mpr hb) (s, j)
      (List.mk_mem_zipIdx_iff_getElem?.mpr hs)
    by_contra hopen
    simp only [not_or] at hopen
    exact hclosed ⟨hcompatible, Nat.pos_of_ne_zero hopen.1, Nat.pos_of_ne_zero hopen.2⟩
  · intro hdistinct
    refine ⟨hchain.reference hvalid hdistinct, fun orders' hperm => ?_⟩
    have hdistinct' : (orders'.map SettlementOptionalOrder.arrivalSequence).Nodup :=
      (hperm.map _).nodup_iff.mp hdistinct
    obtain ⟨report', hrun', hchain'⟩ := matchContinuous_runs (hvalid.perm hperm)
    refine ⟨report', hrun', ?_⟩
    rw [hchain'.reference (hvalid.perm hperm) hdistinct', hchain.reference hvalid hdistinct,
      reference_perm hperm hdistinct]

/-! ## An example -/

/-- An order of one share price and some shares, with a claim in each slot that it lists. -/
def exampleOrder (side : Side) (owner arrival : ℕ) (claims : List ℕ) (price : UInt64) (shares : ℕ) :
    SettlementOptionalOrder where
  owner := Key.ofNat owner
  nonce := arrival
  instrument := Key.ofNat 9
  side := side
  exposureQ32 := shares * scale
  limitPriceQ32 := price * 4294967296
  acceptableClaims := .ofFn fun i => Key.ofNat (claims.getD i 0)
  claimCount := claims.length
  deliveredClaim := if side = .sell then Key.ofNat (claims.headD 0) else noKey
  maxConversionBps := 0
  expiresAtSlot := 110
  arrivalSequence := arrival

/-- A buyer of two claims and a seller of each. -/
def exampleOrders : List SettlementOptionalOrder :=
  [exampleOrder .buy 1 1 [3, 4] 221 10, exampleOrder .sell 2 2 [3] 219 4, exampleOrder .sell 3 3 [4] 220 8]

theorem onebook_matching_example : ∃ report, RunsTo (matchContinuous exampleOrders 100) 8448 (.ok report) ∧
    report.fills.map (named exampleOrders) = (reference exampleOrders).map ofTrade := by
  obtain ⟨report, hrun, -, -, -, -, -, hreference⟩ :=
    @onebook_matching exampleOrders 100 (by decide)
  exact ⟨report, hrun, (hreference (by decide)).1⟩

end StockMesh.Onebook

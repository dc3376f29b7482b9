import StockMesh.Foundation.Apportionment
import StockMesh.Host.StrategyRuns
import StockMesh.Host.Feed
import StockMesh.Journal.Progress
import Mathlib.Algebra.BigOperators.Group.List.Basic
import Mathlib.Algebra.BigOperators.Ring.List
import Mathlib.Algebra.Order.Floor.Div
import Mathlib.Data.String.Basic
import Mathlib.Data.Prod.Lex
import Mathlib.Order.OrderDual
import Mathlib.GroupTheory.GroupAction.Ring

/-! # Baskets

A basket spends a total on several stocks in proportion to weights. `allocateWithLimit` rounds the
parts down and hands the atoms that are left to the largest remainders, with ties in the order of the
instruments. `Document.allocations` does the same for the stocks of a strategy and its cash.

The share of a leg is a function of the total and of the set of the legs (`share`), so the order of the
legs does not matter, and the shares add up to the total. -/

namespace StockMesh.Host

open Journal (parseU64 validInstrument refuse_eq_ok)

/-- A stock with its weight in a basket. -/
structure BasketLeg where
  instrument : String
  weightBps : ℕ
  deriving DecidableEq

/-- A total to spend on weighted stocks. -/
structure BasketRequest where
  catalogRevision : String
  inputAtoms : String
  maxSlippageBps : ℕ
  legs : List BasketLeg
  deriving DecidableEq

namespace BasketRequest

/-- An entry of `remainders`. -/
structure Remainder where
  amount : ℕ
  instrument : String
  index : ℕ

/-- The order of the sort: the largest remainder first, then by instrument. -/
def Remainder.key (r : Remainder) : ℕᵒᵈ ×ₗ String := toLex (.toDual r.amount, r.instrument)

/-- What the loop over the legs collects. -/
structure Collected where
  seen : List String := []
  weights : ℕ := 0
  allocations : List ℕ := []
  remainders : List Remainder := []

/-- One leg of the loop. -/
def collect (total : ℕ) (state : Collected) (place : BasketLeg × ℕ) : Answer Collected := do
  let (leg, index) := place
  refuse (¬validInstrument leg.instrument ∨ leg.instrument ∈ state.seen ∨ leg.weightBps = 0)
    "basket duplicate or invalid leg"
  let amount := total * leg.weightBps
  .ok {
    seen := leg.instrument :: state.seen
    weights := state.weights + leg.weightBps
    allocations := state.allocations ++ [amount / 10000]
    remainders := state.remainders ++ [⟨amount % 10000, leg.instrument, index⟩] }

/-- `BasketRequest::allocate_with_limit`. -/
def allocateWithLimit (r : BasketRequest) (revision : String) (maximum : ℕ) : Answer (List ℕ) := do
  let total ← present (parseU64 r.inputAtoms) "basket input atoms"
  refuse (r.catalogRevision ≠ revision ∨ r.inputAtoms ≠ toString total ∨ total = 0 ∨
    10000000000000000 < total ∨ ¬(1 ≤ r.maxSlippageBps ∧ r.maxSlippageBps ≤ 100) ∨
    r.legs.length < 2 ∨ maximum < r.legs.length) "basket revision or input bounds"
  let state ← r.legs.zipIdx.foldlM (collect total) {}
  refuse (state.weights ≠ 10000) "basket weights must sum to 10000"
  let residual := total - state.allocations.sum
  let order := state.remainders.insertionSort fun a b => a.key ≤ b.key
  let allocations := bump state.allocations ((order.take residual).map Remainder.index)
  refuse (0 ∈ allocations) "basket amount below per-leg atom minimum"
  .ok allocations

/-- `BasketRequest::allocate`. -/
def allocate (r : BasketRequest) (revision : String) : Answer (List ℕ) := r.allocateWithLimit revision 16

end BasketRequest

/-- `Document::allocations`: the atoms of the stocks, and the atoms kept as cash. -/
def Strategy.Document.allocations (crates : Strategy.StrategyCrates) (d : Strategy.Document)
    (total : String) : Answer (List ℕ × ℕ) := do
  d.validate crates
  let legs := d.legs.map fun l => BasketLeg.mk l.instrument l.weightBps
  -- documents never name the instrument of the reserve
  let legs := if 0 < d.cashWeightBps then legs ++ [⟨"XTXCCASHRESERVE", d.cashWeightBps⟩] else legs
  let allocation ← BasketRequest.allocateWithLimit ⟨d.catalogRevision, total, 20, legs⟩ d.catalogRevision 17
  if 0 < d.cashWeightBps then do
    let reserve ← present allocation.getLast? "cash allocation"
    .ok (allocation.dropLast, reserve)
  else .ok (allocation, 0)

namespace BasketRequest

/-! ## The loop over the legs -/

/-- Legs that a basket accepts together. -/
structure ValidLegs (legs : List BasketLeg) : Prop where
  instrument : ∀ l ∈ legs, validInstrument l.instrument
  weight_pos : ∀ l ∈ legs, l.weightBps ≠ 0
  nodup : (legs.map BasketLeg.instrument).Nodup
  weights : (legs.map BasketLeg.weightBps).sum = 10000

/-- The remainders of the legs, with the places of the legs from `n` on. -/
def remainders (total : ℕ) (legs : List BasketLeg) (n : ℕ) : List Remainder :=
  (legs.zipIdx n).map fun place => ⟨total * place.1.weightBps % 10000, place.1.instrument, place.2⟩

/-- The loop accepts valid legs with new instruments, and appends what it computes. -/
theorem foldlM_collect_eq_ok {total n : ℕ} {legs : List BasketLeg} {state state' : Collected} :
    (legs.zipIdx n).foldlM (collect total) state = .ok state' ↔
      (∀ l ∈ legs, validInstrument l.instrument ∧ l.weightBps ≠ 0 ∧ l.instrument ∉ state.seen) ∧
      (legs.map BasketLeg.instrument).Nodup ∧
      state' = ⟨(legs.map BasketLeg.instrument).reverse ++ state.seen,
        state.weights + (legs.map BasketLeg.weightBps).sum,
        state.allocations ++ legs.map fun l => total * l.weightBps / 10000,
        state.remainders ++ remainders total legs n⟩ := by
  induction legs generalizing n state with
  | nil => simp [remainders, pure, Except.pure, eq_comm]
  | cons l legs ih =>
    rw [List.zipIdx_cons, List.foldlM_cons]
    simp only [collect, bind_eq_ok, refuse_eq_ok, Except.ok.injEq, ih, List.forall_mem_cons]
    constructor
    · rintro ⟨_, ⟨_, hl, rfl⟩, hrest, hnodup, rfl⟩
      simp only [not_or, not_not] at hl
      refine ⟨⟨⟨hl.1, hl.2.2, hl.2.1⟩, fun x hx => ?_⟩, ?_, ?_⟩
      · obtain ⟨hvalid, hweight, hnew⟩ := hrest x hx
        exact ⟨hvalid, hweight, fun h => hnew (List.mem_cons_of_mem _ h)⟩
      · rw [List.map_cons, List.nodup_cons]
        refine ⟨fun hmem => ?_, hnodup⟩
        obtain ⟨x, hx, heq⟩ := List.mem_map.mp hmem
        exact (hrest x hx).2.2 (heq ▸ List.mem_cons_self)
      · simp [remainders, List.zipIdx_cons, Nat.add_assoc]
    · rintro ⟨⟨⟨hvalid, hweight, hnew⟩, hrest⟩, hnodup, rfl⟩
      rw [List.map_cons, List.nodup_cons] at hnodup
      refine ⟨_, ⟨(), by simp [hvalid, hweight, hnew], rfl⟩, fun x hx => ?_, hnodup.2, ?_⟩
      · obtain ⟨hv, hw, hn⟩ := hrest x hx
        refine ⟨hv, hw, fun hmem => ?_⟩
        obtain heq | hmem := List.mem_cons.mp hmem
        · exact hnodup.1 (heq ▸ List.mem_map_of_mem hx)
        · exact hn hmem
      · simp [remainders, List.zipIdx_cons, Nat.add_assoc]

/-! ## Shares -/

/-- Where a leg stands when the atoms that are left are handed out. -/
def rankKey (total : ℕ) (l : BasketLeg) : ℕᵒᵈ ×ₗ String :=
  toLex (.toDual (total * l.weightBps % 10000), l.instrument)

/-- The atoms that are left when every part is rounded down. -/
def residual (total : ℕ) (legs : List BasketLeg) : ℕ :=
  total - (legs.map fun l => total * l.weightBps / 10000).sum

/-- The leg gets one of the atoms that are left. -/
def Favoured (total : ℕ) (legs : List BasketLeg) (l : BasketLeg) : Prop :=
  legs.countP (rankKey total · < rankKey total l) < residual total legs

instance (total : ℕ) (legs : List BasketLeg) (l : BasketLeg) : Decidable (Favoured total legs l) :=
  inferInstanceAs (Decidable (_ < _))

/-- The largest-remainder share of a leg. -/
def share (total : ℕ) (legs : List BasketLeg) (l : BasketLeg) : ℕ :=
  total * l.weightBps / 10000 + if Favoured total legs l then 1 else 0

/-- Shares do not depend on the order of the legs. -/
theorem share_perm {total : ℕ} {legs legs' : List BasketLeg} (h : legs.Perm legs') :
    share total legs = share total legs' := by
  funext l
  have hresidual : residual total legs = residual total legs' := by
    rw [residual, residual, (h.map _).sum_eq]
  refine congrArg _ (if_congr ?_ rfl rfl)
  rw [Favoured, Favoured, hresidual, h.countP_eq]

theorem rankKey_injective_of_nodup {total : ℕ} {legs : List BasketLeg}
    (h : (legs.map BasketLeg.instrument).Nodup) : (legs.map (rankKey total)).Nodup := by
  refine List.Nodup.of_map (fun k => (ofLex k).2) ?_
  rwa [List.map_map]

/-- Who stands before a leg is told by the legs, wherever they stand. -/
theorem countP_remainders (total : ℕ) (legs : List BasketLeg) (k : ℕᵒᵈ ×ₗ String) (n : ℕ) :
    (remainders total legs n).countP (·.key < k) = legs.countP (rankKey total · < k) := by
  conv_rhs => rw [← List.zipIdx_map_fst n legs]
  rw [remainders, List.countP_map, List.countP_map]
  rfl

/-- The leg at a place is favoured exactly when its place is among the first of the sort. -/
theorem count_places {total : ℕ} {legs : List BasketLeg} (h : (legs.map BasketLeg.instrument).Nodup)
    {i : ℕ} (hi : i < legs.length) :
    ((((remainders total legs 0).insertionSort fun a b => a.key ≤ b.key).take
        (residual total legs)).map Remainder.index).count i =
      if Favoured total legs legs[i] then 1 else 0 := by
  have hindex : (remainders total legs 0).map Remainder.index = List.range legs.length := by
    simp [remainders, List.map_map, Function.comp_def, List.range_eq_range']
  have hkeys : ((remainders total legs 0).map Remainder.key).Nodup := by
    have heq : (remainders total legs 0).map Remainder.key = legs.map (rankKey total) := by
      conv_rhs => rw [← List.zipIdx_map_fst 0 legs]
      rw [remainders, List.map_map, List.map_map]
      rfl
    exact heq ▸ rankKey_injective_of_nodup h
  have hnodup : ((((remainders total legs 0).insertionSort fun a b => a.key ≤ b.key).take
      (residual total legs)).map Remainder.index).Nodup := by
    refine ((List.take_sublist _ _).map _).nodup ?_
    rw [((List.perm_insertionSort _ _).map _).nodup_iff, hindex]
    exact List.nodup_range
  rw [hnodup.count]
  refine if_congr ?_ rfl rfl
  have hmem : (⟨total * legs[i].weightBps % 10000, legs[i].instrument, i⟩ : Remainder) ∈
      remainders total legs 0 :=
    List.mem_map.mpr ⟨(legs[i], i), List.mem_zipIdx_iff_getElem?.mpr (by simp [hi]), rfl⟩
  rw [List.mem_map, Favoured, ← countP_remainders total legs _ 0]
  constructor
  · rintro ⟨r, hr, rfl⟩
    have hplace := mem_take_insertionSort_iff hkeys |>.mp hr
    obtain ⟨⟨l, j⟩, hl, rfl⟩ := List.mem_map.mp hplace.1
    have hget := List.mem_zipIdx_iff_getElem?.mp hl
    simp only at hget hi ⊢
    obtain ⟨_, rfl⟩ := List.getElem?_eq_some_iff.mp hget
    exact hplace.2
  · intro hlt
    exact ⟨_, (mem_take_insertionSort_iff hkeys).mpr ⟨hmem, hlt⟩, rfl⟩

/-- The atoms handed out give every leg its share. -/
theorem bump_eq_shares {total : ℕ} {legs : List BasketLeg} (h : (legs.map BasketLeg.instrument).Nodup) :
    bump (legs.map fun l => total * l.weightBps / 10000)
      ((((remainders total legs 0).insertionSort fun a b => a.key ≤ b.key).take
        (residual total legs)).map Remainder.index) = legs.map (share total legs) := by
  refine List.ext_getElem? fun i => ?_
  by_cases hi : i < legs.length
  · rw [getElem_bump _ _ (by simpa using hi), count_places h hi]
    simp [hi, share]
  · rw [List.getElem?_eq_none (by simpa using hi), List.getElem?_eq_none (by simpa using hi)]

/-! ## Allocations -/

/-- Requests that `allocate_with_limit` takes, but for the least share. -/
structure Valid (r : BasketRequest) (revision : String) (maximum total : ℕ) : Prop where
  parse : parseU64 r.inputAtoms = some total
  canonical : r.inputAtoms = toString total
  total_pos : total ≠ 0
  total_le : total ≤ 10000000000000000
  revision_eq : r.catalogRevision = revision
  slippage : 1 ≤ r.maxSlippageBps ∧ r.maxSlippageBps ≤ 100
  two_le : 2 ≤ r.legs.length
  length_le : r.legs.length ≤ maximum
  legs : ValidLegs r.legs

variable {r : BasketRequest} {revision : String} {maximum total : ℕ}

/-- A valid request gives every leg its share, unless a share is nothing. -/
theorem Valid.allocateWithLimit_eq (h : r.Valid revision maximum total) :
    r.allocateWithLimit revision maximum =
      (refuse (0 ∈ r.legs.map (share total r.legs)) "basket amount below per-leg atom minimum" >>=
        fun _ => .ok (r.legs.map (share total r.legs))) := by
  have hfold : r.legs.zipIdx.foldlM (collect total) {} = .ok _ := foldlM_collect_eq_ok.mpr
    ⟨fun l hl => ⟨h.legs.instrument l hl, h.legs.weight_pos l hl, List.not_mem_nil⟩, h.legs.nodup, rfl⟩
  simp only [List.append_nil, List.nil_append, Nat.zero_add] at hfold
  rw [allocateWithLimit, h.parse, present, ok_bind, refuse_of_not, ok_bind, hfold, ok_bind,
    refuse_of_not, ok_bind]
  · have hbump : bump _ _ = r.legs.map (share total r.legs) := bump_eq_shares h.legs.nodup
    rw [residual] at hbump
    simp only [hbump]
  · simp [h.legs.weights]
  · simp only [not_or, not_not, not_lt]
    exact ⟨h.revision_eq, h.canonical, h.total_pos, h.total_le, h.slippage, h.two_le, h.length_le⟩

/-- Only valid requests are allocated. -/
theorem valid_of_ok {shares : List ℕ} (h : r.allocateWithLimit revision maximum = .ok shares) :
    ∃ total, r.Valid revision maximum total := by
  simp only [allocateWithLimit, bind_eq_ok, present_eq_ok, refuse_eq_ok, foldlM_collect_eq_ok] at h
  obtain ⟨total, hparse, _, hbounds, _, ⟨hlegs, hnodup, rfl⟩, _, hweights, -⟩ := h
  simp only [not_or, not_not, not_lt] at hbounds
  obtain ⟨hrevision, hcanonical, hpos, hle, hslippage, htwo, hlength⟩ := hbounds
  refine ⟨total, hparse, hcanonical, hpos, hle, hrevision, hslippage, htwo, hlength,
    fun l hl => (hlegs l hl).1, fun l hl => (hlegs l hl).2.1, hnodup, ?_⟩
  simpa using hweights

theorem Valid.perm (h : r.Valid revision maximum total) {legs : List BasketLeg} (hperm : legs.Perm r.legs) :
    ({ r with legs := legs } : BasketRequest).Valid revision maximum total where
  parse := h.parse
  canonical := h.canonical
  total_pos := h.total_pos
  total_le := h.total_le
  revision_eq := h.revision_eq
  slippage := h.slippage
  two_le := hperm.length_eq ▸ h.two_le
  length_le := hperm.length_eq ▸ h.length_le
  legs :=
    { instrument := fun l hl => h.legs.instrument l (hperm.mem_iff.mp hl)
      weight_pos := fun l hl => h.legs.weight_pos l (hperm.mem_iff.mp hl)
      nodup := (hperm.map _).nodup_iff.mpr h.legs.nodup
      weights := (hperm.map _).sum_eq.trans h.legs.weights }

/-! ## What shares are -/

/-- Shares of a total in proportion to weights, by largest remainders. -/
structure Apportioned (total : ℕ) (legs : List BasketLeg) (shares : List ℕ) : Prop where
  length_eq : shares.length = legs.length
  sum_eq : shares.sum = total
  /-- Every share is the floor or the ceiling of its part. -/
  rounded : ∀ p ∈ legs.zip shares, p.2 = total * p.1.weightBps / 10000 ∨
    p.2 = (total * p.1.weightBps) ⌈/⌉ 10000
  /-- A leg with a larger remainder is rounded up before a leg with a smaller one. -/
  larger_first : ∀ p ∈ legs.zip shares, ∀ q ∈ legs.zip shares,
    total * q.1.weightBps % 10000 < total * p.1.weightBps % 10000 →
    total * q.1.weightBps / 10000 < q.2 → total * p.1.weightBps / 10000 < p.2

section

variable {legs : List BasketLeg}

theorem ValidLegs.sum_amounts (h : ValidLegs legs) :
    (legs.map fun l => total * l.weightBps).sum = total * 10000 := by
  rw [List.sum_map_mul_left, h.weights]

/-- The larger remainder stands first. -/
theorem rankKey_lt {p q : BasketLeg} (h : total * q.weightBps % 10000 < total * p.weightBps % 10000) :
    rankKey total p < rankKey total q :=
  Prod.Lex.toLex_lt_toLex.mpr (.inl (OrderDual.toDual_lt_toDual.mpr h))

theorem Favoured.of_lt {p q : BasketLeg} (h : Favoured total legs q)
    (hlt : rankKey total p < rankKey total q) : Favoured total legs p := by
  refine (List.countP_mono_left fun l _ hl => ?_).trans_lt h
  simp only [decide_eq_true_eq] at hl ⊢
  exact hl.trans hlt

/-- A favoured leg has a remainder: all the legs with one stand before a leg without. -/
theorem Favoured.mod_ne_zero (hlegs : ValidLegs legs) {l : BasketLeg} (h : Favoured total legs l) :
    total * l.weightBps % 10000 ≠ 0 := by
  intro hzero
  have hresidual : residual total legs ≤ legs.countP (rankKey total · < rankKey total l) :=
    calc residual total legs
        ≤ legs.countP fun x => decide (total * x.weightBps % 10000 ≠ 0) :=
          residual_le_countP (by decide) hlegs.sum_amounts
      _ ≤ legs.countP (rankKey total · < rankKey total l) := by
          refine List.countP_mono_left fun x _ hx => ?_
          rw [decide_eq_true_eq] at hx ⊢
          exact rankKey_lt (hzero ▸ Nat.pos_of_ne_zero hx)
  exact absurd h (Nat.not_lt.mpr hresidual)

theorem share_of_favoured {l : BasketLeg} (h : Favoured total legs l) :
    share total legs l = total * l.weightBps / 10000 + 1 := congrArg _ (if_pos h)

theorem share_of_not_favoured {l : BasketLeg} (h : ¬Favoured total legs l) :
    share total legs l = total * l.weightBps / 10000 := congrArg _ (if_neg h)

/-- All the atoms that are left are handed out. -/
theorem ValidLegs.sum_shares (h : ValidLegs legs) : (legs.map (share total legs)).sum = total := by
  have hle : (legs.map fun l => total * l.weightBps / 10000).sum ≤ total :=
    sum_quota_le (by decide) h.sum_amounts
  have hplaces : residual total legs ≤ legs.length :=
    (residual_le_countP (by decide) h.sum_amounts).trans List.countP_le_length
  rw [← bump_eq_shares h.nodup, sum_bump]
  · rw [List.length_map, List.length_take, List.length_insertionSort, remainders, List.length_map,
      List.length_zipIdx, Nat.min_eq_left hplaces, residual]
    omega
  · intro i hi
    obtain ⟨x, hx, rfl⟩ := List.mem_map.mp hi
    have hx := (List.mem_insertionSort _).mp (List.mem_of_mem_take hx)
    obtain ⟨⟨l, j⟩, hl, rfl⟩ := List.mem_map.mp hx
    simpa using (List.mem_zipIdx hl).2.1

/-- The shares are an apportionment. -/
theorem ValidLegs.apportioned (h : ValidLegs legs) : Apportioned total legs (legs.map (share total legs)) := by
  have hzip : ∀ p ∈ legs.zip (legs.map (share total legs)), p.2 = share total legs p.1 := by
    intro p hp
    rw [← List.map_prod_left_eq_zip] at hp
    obtain ⟨l, -, rfl⟩ := List.mem_map.mp hp
    rfl
  refine ⟨List.length_map _, h.sum_shares, fun p hp => ?_, fun p hp q hq hlt hq' => ?_⟩
  · rw [hzip p hp]
    by_cases hf : Favoured total legs p.1
    · have hmod := hf.mod_ne_zero h
      rw [share_of_favoured hf, Nat.ceilDiv_eq_add_pred_div]
      omega
    · exact .inl (share_of_not_favoured hf)
  · rw [hzip q hq] at hq'
    have hf : Favoured total legs q.1 := by
      by_contra hf
      exact absurd (share_of_not_favoured hf) hq'.ne'
    rw [hzip p hp, share_of_favoured (hf.of_lt (rankKey_lt hlt))]
    exact Nat.lt_succ_self _

end

/-- A successful allocation gives the legs their shares, none of them nothing. -/
theorem Valid.allocateWithLimit_eq_ok (h : r.Valid revision maximum total) {shares : List ℕ} :
    r.allocateWithLimit revision maximum = .ok shares ↔
      shares = r.legs.map (share total r.legs) ∧ ∀ l ∈ r.legs, share total r.legs l ≠ 0 := by
  simp only [h.allocateWithLimit_eq, bind_eq_ok, refuse_eq_ok, Except.ok.injEq, List.mem_map, not_exists,
    not_and]
  constructor
  · rintro ⟨_, hne, heq⟩
    exact ⟨heq.symm, hne⟩
  · rintro ⟨heq, hne⟩
    exact ⟨(), hne, heq.symm⟩

/-- The other orders of the legs give every leg the same share. -/
theorem Valid.allocateWithLimit_perm (h : r.Valid revision maximum total) {shares : List ℕ}
    (hok : r.allocateWithLimit revision maximum = .ok shares) {legs : List BasketLeg}
    (hperm : legs.Perm r.legs) :
    ({ r with legs := legs } : BasketRequest).allocateWithLimit revision maximum =
      .ok (legs.map (share total r.legs)) := by
  refine (h.perm hperm).allocateWithLimit_eq_ok.mpr ?_
  rw [share_perm hperm]
  exact ⟨rfl, fun l hl => (h.allocateWithLimit_eq_ok.mp hok).2 l (hperm.mem_iff.mp hl)⟩

end BasketRequest

/-! ## Strategies -/

namespace Strategy.Document

open BasketRequest

variable (d : Document)

/-- The leg of the cash, when there is cash. -/
def cashLegs : List BasketLeg :=
  if 0 < d.cashWeightBps then [⟨"XTXCCASHRESERVE", d.cashWeightBps⟩] else []

/-- The stocks as legs of a basket. -/
def stockLegs : List BasketLeg := d.legs.map fun l => ⟨l.instrument, l.weightBps⟩

/-- The basket that a document allocates. -/
def basket (total : String) : BasketRequest :=
  ⟨d.catalogRevision, total, 20, d.stockLegs ++ d.cashLegs⟩

variable {d} {crates : StrategyCrates} {text : String} {total : ℕ}

/-- `addLeg` over legs with new instruments. -/
theorem foldlM_addLeg_eq_ok {legs : List Leg} {state state' : List String × ℕ} :
    legs.foldlM addLeg state = .ok state' ↔
      (∀ l ∈ legs, validInstrument l.instrument ∧ l.instrument ≠ "XTXCCASHRESERVE" ∧ l.weightBps ≠ 0 ∧
        l.instrument ∉ state.1) ∧ (legs.map Leg.instrument).Nodup ∧
      state' = ((legs.map Leg.instrument).reverse ++ state.1, state.2 + (legs.map Leg.weightBps).sum) := by
  induction legs generalizing state with
  | nil => simp [pure, Except.pure, eq_comm]
  | cons l legs ih =>
    rw [List.foldlM_cons]
    simp only [addLeg, bind_eq_ok, refuse_eq_ok, Except.ok.injEq, ih, List.forall_mem_cons]
    constructor
    · rintro ⟨_, ⟨_, hl, rfl⟩, hrest, hnodup, rfl⟩
      simp only [not_or, not_not] at hl
      refine ⟨⟨hl, fun x hx => ?_⟩, ?_, by simp [Nat.add_assoc]⟩
      · obtain ⟨hvalid, hstock, hweight, hnew⟩ := hrest x hx
        exact ⟨hvalid, hstock, hweight, fun h => hnew (List.mem_cons_of_mem _ h)⟩
      · rw [List.map_cons, List.nodup_cons]
        refine ⟨fun hmem => ?_, hnodup⟩
        obtain ⟨x, hx, heq⟩ := List.mem_map.mp hmem
        exact (hrest x hx).2.2.2 (heq ▸ List.mem_cons_self)
    · rintro ⟨⟨hl, hrest⟩, hnodup, rfl⟩
      rw [List.map_cons, List.nodup_cons] at hnodup
      refine ⟨_, ⟨(), by simpa using hl, rfl⟩, fun x hx => ?_, hnodup.2, by simp [Nat.add_assoc]⟩
      obtain ⟨hvalid, hstock, hweight, hnew⟩ := hrest x hx
      refine ⟨hvalid, hstock, hweight, fun hmem => ?_⟩
      obtain heq | hmem := List.mem_cons.mp hmem
      · exact hnodup.1 (heq ▸ List.mem_map_of_mem hx)
      · exact hnew hmem

/-- What `validate` says about the legs and the bounds. -/
theorem validate_eq_ok : d.validate crates = .ok () ↔
    (∃ key, crates.creatorKey d.creator = .ok key ∧ crates.encode58 key = d.creator ∧
      crates.verifyingKey key = some false) ∧ ¬d.OutOfBounds ∧
    (∀ l ∈ d.legs, validInstrument l.instrument ∧ l.instrument ≠ "XTXCCASHRESERVE" ∧ l.weightBps ≠ 0) ∧
    (d.legs.map Leg.instrument).Nodup ∧ d.cashWeightBps + (d.legs.map Leg.weightBps).sum = 10000 := by
  simp only [validate, bind_eq_ok, refuse_eq_ok, present_eq_ok, foldlM_addLeg_eq_ok, not_or, not_not]
  constructor
  · rintro ⟨key, hkey, _, hshown, weak, hweak, _, ⟨hstrong, hbounds⟩, _, ⟨hlegs, hnodup, rfl⟩, hweight⟩
    refine ⟨⟨key, hkey, hshown, ?_⟩, hbounds, fun l hl => ?_, hnodup, hweight⟩
    · rw [hweak, Bool.eq_false_of_not_eq_true hstrong]
    · obtain ⟨hvalid, hstock, hpos, -⟩ := hlegs l hl
      exact ⟨hvalid, hstock, hpos⟩
  · rintro ⟨⟨key, hkey, hshown, hweak⟩, hbounds, hlegs, hnodup, hweight⟩
    refine ⟨key, hkey, (), hshown, false, hweak, (), ⟨Bool.false_ne_true, hbounds⟩, _,
      ⟨fun l hl => ?_, hnodup, rfl⟩, hweight⟩
    obtain ⟨hvalid, hstock, hpos⟩ := hlegs l hl
    exact ⟨hvalid, hstock, hpos, List.not_mem_nil⟩

/-- The order of the legs does not matter to `validate`. -/
theorem validate_perm (h : d.validate crates = .ok ()) {legs : List Leg} (hperm : legs.Perm d.legs) :
    ({ d with legs := legs } : Document).validate crates = .ok () := by
  obtain ⟨hkey, hbounds, hlegs, hnodup, hweight⟩ := validate_eq_ok.mp h
  refine validate_eq_ok.mpr ⟨hkey, ?_, fun l hl => hlegs l (hperm.mem_iff.mp hl),
    (hperm.map _).nodup_iff.mpr hnodup, ?_⟩
  · simpa only [OutOfBounds, hperm.length_eq] using hbounds
  · rw [(hperm.map _).sum_eq]
    exact hweight

theorem cashLegs_cases : (d.cashWeightBps = 0 ∧ d.cashLegs = []) ∨
    (0 < d.cashWeightBps ∧ d.cashLegs = [⟨"XTXCCASHRESERVE", d.cashWeightBps⟩]) := by
  unfold cashLegs
  split
  · exact .inr ⟨‹_›, rfl⟩
  · exact .inl ⟨Nat.eq_zero_of_not_pos ‹_›, rfl⟩

theorem validLegs_stocks (h : d.validate crates = .ok ()) : ValidLegs (d.stockLegs ++ d.cashLegs) := by
  obtain ⟨-, -, hlegs, hnodup, hweight⟩ := validate_eq_ok.mp h
  have hinstruments : d.stockLegs.map BasketLeg.instrument = d.legs.map Leg.instrument := by
    simp [stockLegs, List.map_map, Function.comp_def]
  have hweights : d.stockLegs.map BasketLeg.weightBps = d.legs.map Leg.weightBps := by
    simp [stockLegs, List.map_map, Function.comp_def]
  have hstocks : ∀ l ∈ d.stockLegs, validInstrument l.instrument ∧ l.instrument ≠ "XTXCCASHRESERVE" ∧
      l.weightBps ≠ 0 := by
    intro l hl
    obtain ⟨x, hx, rfl⟩ := List.mem_map.mp hl
    exact hlegs x hx
  obtain ⟨hzero, hcash⟩ | ⟨hpos, hcash⟩ := d.cashLegs_cases
  · rw [hcash, List.append_nil]
    refine ⟨fun l hl => (hstocks l hl).1, fun l hl => (hstocks l hl).2.2, hinstruments ▸ hnodup, ?_⟩
    rw [hweights]
    omega
  · have hreserved : validInstrument "XTXCCASHRESERVE" := by decide
    rw [hcash]
    refine ⟨fun l hl => ?_, fun l hl => ?_, ?_, ?_⟩
    · obtain hl | hl := List.mem_append.mp hl
      · exact (hstocks l hl).1
      · exact List.mem_singleton.mp hl ▸ hreserved
    · obtain hl | hl := List.mem_append.mp hl
      · exact (hstocks l hl).2.2
      · exact List.mem_singleton.mp hl ▸ hpos.ne'
    · rw [List.map_append, hinstruments]
      refine hnodup.append (List.nodup_singleton _) fun i hi hmem => ?_
      obtain ⟨x, hx, rfl⟩ := List.mem_map.mp hi
      exact (hlegs x hx).2.1 (List.mem_singleton.mp hmem)
    · rw [List.map_append, List.sum_append, hweights]
      simpa [Nat.add_comm] using hweight

/-- A valid document makes a valid request of any amount. -/
theorem valid_basket (h : d.validate crates = .ok ()) (hparse : parseU64 text = some total)
    (hcanonical : text = toString total) (hpos : total ≠ 0) (hle : total ≤ 10000000000000000) :
    (d.basket text).Valid d.catalogRevision 17 total := by
  obtain ⟨-, hbounds, -⟩ := validate_eq_ok.mp h
  simp only [OutOfBounds, not_or, not_not] at hbounds
  obtain ⟨-, -, -, -, -, hcount, -⟩ := hbounds
  have hcash : d.cashLegs.length ≤ 1 := by
    obtain ⟨-, hcash⟩ | ⟨-, hcash⟩ := d.cashLegs_cases <;> simp [hcash]
  have hlength : (d.basket text).legs.length = d.legs.length + d.cashLegs.length := by
    simp [basket, stockLegs]
  exact ⟨hparse, hcanonical, hpos, hle, rfl, ⟨by simp [basket], by simp [basket]⟩, by omega, by omega,
    validLegs_stocks h⟩

/-- A valid document gives its stocks and its cash what their basket gives them. -/
theorem allocations_eq_ok {stocks : List ℕ} {reserve : ℕ} :
    d.allocations crates text = .ok (stocks, reserve) ↔ d.validate crates = .ok () ∧
      ∃ shares, (d.basket text).allocateWithLimit d.catalogRevision 17 = .ok shares ∧
        (0 < d.cashWeightBps → shares.getLast? = some reserve ∧ stocks = shares.dropLast) ∧
        (d.cashWeightBps = 0 → reserve = 0 ∧ stocks = shares) := by
  have hlegs : d.stockLegs ++ d.cashLegs =
      if 0 < d.cashWeightBps then d.stockLegs ++ [⟨"XTXCCASHRESERVE", d.cashWeightBps⟩] else d.stockLegs := by
    unfold cashLegs
    split <;> simp
  have hsplit : ∀ shares : List ℕ,
      (if 0 < d.cashWeightBps then
        present shares.getLast? "cash allocation" >>= fun reserve => .ok (shares.dropLast, reserve)
      else (.ok (shares, 0) : Answer (List ℕ × ℕ))) = .ok (stocks, reserve) ↔
        (0 < d.cashWeightBps → shares.getLast? = some reserve ∧ stocks = shares.dropLast) ∧
          (d.cashWeightBps = 0 → reserve = 0 ∧ stocks = shares) := by
    intro shares
    by_cases hcash : 0 < d.cashWeightBps
    · simp only [if_pos hcash, bind_eq_ok, present_eq_ok, Except.ok.injEq, Prod.mk.injEq]
      constructor
      · rintro ⟨_, hlast, rfl, rfl⟩
        exact ⟨fun _ => ⟨hlast, rfl⟩, fun hzero => absurd hzero hcash.ne'⟩
      · rintro ⟨hboth, -⟩
        exact ⟨reserve, (hboth hcash).1, (hboth hcash).2.symm, rfl⟩
    · simp only [if_neg hcash, Except.ok.injEq, Prod.mk.injEq]
      constructor
      · rintro ⟨rfl, rfl⟩
        exact ⟨fun hpos => absurd hpos hcash, fun _ => ⟨rfl, rfl⟩⟩
      · rintro ⟨-, hboth⟩
        obtain ⟨rfl, rfl⟩ := hboth (Nat.eq_zero_of_not_pos hcash)
        exact ⟨rfl, rfl⟩
  simp only [basket, hlegs, ← hsplit, ← bind_eq_ok]
  constructor
  · intro h
    obtain ⟨_, hvalid, h⟩ := bind_eq_ok.mp h
    exact ⟨hvalid, h⟩
  · rintro ⟨hvalid, h⟩
    rw [allocations, hvalid, ok_bind]
    exact h

/-- The shares of the stocks come first, and the reserve is the share of the cash. -/
theorem allocations_eq_ok_of_valid (h : d.validate crates = .ok ())
    (hvalid : (d.basket text).Valid d.catalogRevision 17 total) {stocks : List ℕ} {reserve : ℕ} :
    d.allocations crates text = .ok (stocks, reserve) ↔
      stocks = d.stockLegs.map (share total (d.stockLegs ++ d.cashLegs)) ∧
      reserve = (d.cashLegs.map (share total (d.stockLegs ++ d.cashLegs))).sum ∧
      ∀ l ∈ d.stockLegs ++ d.cashLegs, share total (d.stockLegs ++ d.cashLegs) l ≠ 0 := by
  have hbasket : (d.basket text).legs = d.stockLegs ++ d.cashLegs := rfl
  simp only [allocations_eq_ok, h, true_and, hvalid.allocateWithLimit_eq_ok, hbasket, List.map_append]
  obtain ⟨hzero, hcash⟩ | ⟨hpos, hcash⟩ := d.cashLegs_cases
  · simp only [hcash, List.map_nil, List.append_nil, List.sum_nil, hzero]
    constructor
    · rintro ⟨_, ⟨rfl, hne⟩, -, hboth⟩
      exact ⟨(hboth trivial).2, (hboth trivial).1, hne⟩
    · rintro ⟨rfl, rfl, hne⟩
      exact ⟨_, ⟨rfl, hne⟩, fun hpos => absurd hpos (lt_irrefl 0), fun _ => ⟨rfl, rfl⟩⟩
  · simp only [hcash, List.map_cons, List.map_nil, List.sum_singleton]
    constructor
    · rintro ⟨_, ⟨rfl, hne⟩, hboth, -⟩
      obtain ⟨hlast, rfl⟩ := hboth hpos
      rw [List.getLast?_concat, Option.some.injEq] at hlast
      exact ⟨List.dropLast_concat, hlast.symm, hne⟩
    · rintro ⟨rfl, rfl, hne⟩
      exact ⟨_, ⟨rfl, hne⟩, fun _ => ⟨List.getLast?_concat, List.dropLast_concat.symm⟩,
        fun hzero => absurd hzero hpos.ne'⟩

theorem valid_of_allocations {stocks : List ℕ} {reserve : ℕ}
    (h : d.allocations crates text = .ok (stocks, reserve)) :
    d.validate crates = .ok () ∧ ∃ total, (d.basket text).Valid d.catalogRevision 17 total := by
  obtain ⟨hvalid, _, hok, -⟩ := allocations_eq_ok.mp h
  exact ⟨hvalid, valid_of_ok hok⟩

/-- The other orders of the stocks give every stock the same share, and the same reserve. -/
theorem allocations_perm (h : d.validate crates = .ok ())
    (hvalid : (d.basket text).Valid d.catalogRevision 17 total) {stocks : List ℕ} {reserve : ℕ}
    (hok : d.allocations crates text = .ok (stocks, reserve)) {legs : List Leg} (hperm : legs.Perm d.legs) :
    ({ d with legs := legs } : Document).allocations crates text =
      .ok (legs.map fun l => share total (d.stockLegs ++ d.cashLegs) ⟨l.instrument, l.weightBps⟩, reserve) := by
  obtain ⟨-, rfl, hne⟩ := (allocations_eq_ok_of_valid h hvalid).mp hok
  have hlegs : (({ d with legs := legs } : Document).stockLegs ++
      ({ d with legs := legs } : Document).cashLegs).Perm (d.stockLegs ++ d.cashLegs) :=
    (hperm.map _).append_right _
  refine (allocations_eq_ok_of_valid (validate_perm h hperm) (hvalid.perm hlegs)).mpr ?_
  rw [share_perm hlegs]
  exact ⟨by simp [stockLegs], rfl, fun l hl => hne l (hlegs.mem_iff.mp hl)⟩

end Strategy.Document

/-! ## Conservation -/

section

open BasketRequest Strategy StrategyStore

/-- Lists of values are permuted with the list that they belong to. -/
theorem zip_map_perm {α β : Type} (f : α → β) {xs ys : List α} (h : xs.Perm ys) :
    (xs.zip (xs.map f)).Perm (ys.zip (ys.map f)) := by
  rw [← List.map_prod_left_eq_zip, ← List.map_prod_left_eq_zip]
  exact h.map _

/-- **Largest-remainder allocation.** The shares of a basket, and the stocks of a strategy with its
cash, are an apportionment of the total that does not depend on the order of the legs. A request that
is otherwise valid fails only when a share would be nothing. -/
theorem largest_remainder_allocation (crates : StrategyCrates) :
    (∀ (r : BasketRequest) (revision : String) (maximum : ℕ),
      (∀ shares, r.allocateWithLimit revision maximum = .ok shares →
        ∃ total, r.Valid revision maximum total ∧ Apportioned total r.legs shares ∧
          ∀ legs, legs.Perm r.legs → ∃ shares',
            ({ r with legs := legs } : BasketRequest).allocateWithLimit revision maximum = .ok shares' ∧
            (legs.zip shares').Perm (r.legs.zip shares)) ∧
      (∀ total, r.Valid revision maximum total → (∀ shares, r.allocateWithLimit revision maximum ≠ .ok shares) →
        ∃ l ∈ r.legs, share total r.legs l = 0)) ∧
    (∀ (d : Document) (text : String),
      (∀ stocks reserve, d.allocations crates text = .ok (stocks, reserve) →
        ∃ total, parseU64 text = some total ∧ stocks.sum + reserve = total ∧
          (d.cashWeightBps = 0 → reserve = 0 ∧ Apportioned total d.stockLegs stocks) ∧
          (0 < d.cashWeightBps → Apportioned total
            (d.stockLegs ++ [⟨"XTXCCASHRESERVE", d.cashWeightBps⟩]) (stocks ++ [reserve])) ∧
          ∀ legs, legs.Perm d.legs → ∃ stocks',
            ({ d with legs := legs } : Document).allocations crates text = .ok (stocks', reserve) ∧
            (legs.zip stocks').Perm (d.legs.zip stocks) ∧ stocks'.sum + reserve = total) ∧
      (∀ total, d.validate crates = .ok () → parseU64 text = some total → text = toString total →
        1 ≤ total → total ≤ 10000000000000000 →
        (∀ stocks reserve, d.allocations crates text ≠ .ok (stocks, reserve)) →
        ∃ l ∈ d.stockLegs ++ d.cashLegs, share total (d.stockLegs ++ d.cashLegs) l = 0)) := by
  refine ⟨fun r revision maximum => ⟨fun shares h => ?_, fun total hvalid hfail => ?_⟩,
    fun d text => ⟨fun stocks reserve h => ?_, fun total hd hparse hcanonical hpos hle hfail => ?_⟩⟩
  · obtain ⟨total, hvalid⟩ := valid_of_ok h
    obtain ⟨rfl, -⟩ := hvalid.allocateWithLimit_eq_ok.mp h
    exact ⟨total, hvalid, hvalid.legs.apportioned, fun legs hperm =>
      ⟨_, hvalid.allocateWithLimit_perm h hperm, zip_map_perm _ hperm⟩⟩
  · by_contra hnone
    refine hfail _ (hvalid.allocateWithLimit_eq_ok.mpr ⟨rfl, fun l hl hzero => ?_⟩)
    exact hnone ⟨l, hl, hzero⟩
  · obtain ⟨hd, total, hvalid⟩ := Document.valid_of_allocations h
    obtain ⟨rfl, rfl, hne⟩ := (Document.allocations_eq_ok_of_valid hd hvalid).mp h
    have happortioned : Apportioned total _ _ := (Document.validLegs_stocks hd).apportioned
    rw [List.map_append] at happortioned
    have hsum := happortioned.sum_eq
    rw [List.sum_append] at hsum
    refine ⟨total, hvalid.parse, hsum, fun hzero => ?_, fun hpos => ?_, fun legs hperm => ?_⟩
    · obtain ⟨-, hcash⟩ | ⟨hpos, -⟩ := d.cashLegs_cases
      · exact ⟨by simp [hcash], by simpa [hcash] using happortioned⟩
      · exact absurd hzero hpos.ne'
    · obtain ⟨hzero, -⟩ | ⟨-, hcash⟩ := d.cashLegs_cases
      · exact absurd hzero hpos.ne'
      · simpa [hcash] using happortioned
    · have hok := Document.allocations_perm hd hvalid h hperm
      have hstocks : d.stockLegs.map (share total (d.stockLegs ++ d.cashLegs)) =
          d.legs.map fun l => share total (d.stockLegs ++ d.cashLegs) ⟨l.instrument, l.weightBps⟩ := List.map_map
      rw [hstocks] at hsum ⊢
      refine ⟨_, hok, zip_map_perm _ hperm, ?_⟩
      rw [(hperm.map _).sum_eq, hsum]
  · by_contra hnone
    refine hfail _ _ ((Document.allocations_eq_ok_of_valid hd
      (Document.valid_basket hd hparse hcanonical (by omega) hle)).mpr ⟨rfl, rfl, fun l hl hzero => ?_⟩)
    exact hnone ⟨l, hl, hzero⟩

/-- Half of an odd total for each of two stocks. -/
def exampleBasket : BasketRequest := ⟨"rev", "1000001", 20, [⟨"NVDA", 5000⟩, ⟨"SPY", 5000⟩]⟩

/-- An atom for two stocks. -/
def dustBasket : BasketRequest := { exampleBasket with inputAtoms := "1" }

/-- A basket, a basket with an atom for the first of its stocks only, and a strategy with a reserve. -/
theorem largest_remainder_allocation_example :
    (∃ total, exampleBasket.Valid "rev" 16 total ∧ Apportioned total exampleBasket.legs [500001, 500000]) ∧
    (∃ l ∈ exampleBasket.legs, share 1 exampleBasket.legs l = 0) ∧
    ∃ total, parseU64 "1000001" = some total ∧ [450000, 450001].sum + 100000 = total := by
  obtain ⟨hbasket, hdocument⟩ := largest_remainder_allocation exampleStrategyCrates
  have hall : exampleBasket.allocateWithLimit "rev" 16 = .ok [500001, 500000] ∧
      dustBasket.allocateWithLimit "rev" 16 = .error "basket amount below per-leg atom minimum" ∧
      exampleDocument.allocations exampleStrategyCrates "1000001" = .ok ([450000, 450001], 100000) := by
    decide +kernel
  obtain ⟨hok, hdust, hcash⟩ := hall
  have hone : dustBasket.Valid "rev" 16 1 :=
    ⟨by decide, by decide, by decide, by decide, rfl, by decide, by decide, by decide,
      by decide, by decide, by decide, by decide⟩
  obtain ⟨total, hvalid, hshares, -⟩ := (hbasket exampleBasket "rev" 16).1 _ hok
  obtain ⟨total', hparse, hsum, -⟩ := (hdocument exampleDocument "1000001").1 _ _ hcash
  refine ⟨⟨total, hvalid, hshares⟩, ?_, ⟨total', hparse, hsum⟩⟩
  exact (hbasket dustBasket "rev" 16).2 1 hone fun shares h => by simp [hdust] at h

end

end StockMesh.Host

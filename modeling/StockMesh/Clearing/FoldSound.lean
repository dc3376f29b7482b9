import StockMesh.Clearing.Ledger

/-! # Both folds succeed and are sound

On admitted input and with enough work `fold` and `foldLots` return a report: none of their internal
rejections can occur. The report's fills are a circulation of units of the assets
(`fold_runs`, `foldLots_runs`), and from this both soundness and the meaning of the optimality flag
follow. -/

namespace StockMesh

open Budgeted Stateful BellmanFord

variable {orders : List FlowIntent} {slot bound : ℕ}

/-! ## Common prices -/

/-- The prices meet the order's limit. -/
def PriceMeets (orders : List FlowIntent) (prices : List ℕ) (i : ℕ) : Prop :=
  (intentAt orders i).minOut * atAsset prices (buyOf orders i) ≤
    (intentAt orders i).amount * atAsset prices (sellOf orders i)

instance (orders : List FlowIntent) (prices : List ℕ) (i : ℕ) :
    Decidable (PriceMeets orders prices i) := inferInstanceAs (Decidable (_ ≤ _))

/-- The value lots an order may clear. -/
def valueCapacity (orders : List FlowIntent) (prices : List ℕ) (quantum i : ℕ) : ℕ :=
  if PriceMeets orders prices i then
    (intentAt orders i).amount * atAsset prices (sellOf orders i) / quantum
  else 0

/-- The least common multiple of the prices. -/
def lcmOf (prices : List ℕ) : ℕ := prices.foldl Nat.lcm 1

/-- Atoms of an asset in one value lot. -/
def valueUnit (prices : List ℕ) (a : ℕ) : ℕ := lcmOf prices / atAsset prices a

/-- Prices that `fold` accepts. -/
structure Priced (prices : List ℕ) : Prop where
  bounds : ∀ p ∈ prices, 0 < p ∧ p ≤ 1000000000000
  lcm_lt : lcmOf prices < u128Size

/-- What `fold` accepts. -/
structure FoldInput (orders : List FlowIntent) (prices : List ℕ) (slot bound : ℕ) : Prop extends
  Admitted orders prices.length slot bound, Priced prices

theorem gcd_eq (a b : ℕ) : gcd a b = Nat.gcd a b := by
  induction b using Nat.strong_induction_on generalizing a with
  | _ b ih =>
    rw [gcd]
    split
    · next h => simp [h]
    · next h => rw [ih (a % b) (Nat.mod_lt a (by omega)), Nat.gcd_comm a b, Nat.gcd_rec b a,
        Nat.gcd_comm]

theorem dvd_foldl_lcm (ps : List ℕ) (q : ℕ) : q ∣ ps.foldl Nat.lcm q := by
  induction ps generalizing q with
  | nil => exact dvd_refl q
  | cons p ps ih => exact dvd_trans (Nat.dvd_lcm_left q p) (ih _)

theorem dvd_foldl_lcm_of_mem {ps : List ℕ} {p : ℕ} (hp : p ∈ ps) (q : ℕ) :
    p ∣ ps.foldl Nat.lcm q := by
  induction ps generalizing q with
  | nil => simp at hp
  | cons r ps ih =>
    rcases List.mem_cons.mp hp with rfl | hp
    · exact dvd_trans (Nat.dvd_lcm_right q p) (dvd_foldl_lcm ps _)
    · exact ih hp _

theorem foldl_lcm_pos {ps : List ℕ} (hps : ∀ p ∈ ps, 0 < p) {q : ℕ} (hq : 0 < q) :
    0 < ps.foldl Nat.lcm q := by
  induction ps generalizing q with
  | nil => exact hq
  | cons p ps ih =>
    exact ih (fun r hr => hps r (List.mem_cons_of_mem p hr))
      (Nat.lcm_pos hq (hps p List.mem_cons_self))

theorem quantumStep_eq_ok {q p r : ℕ} (hp : 0 < p) :
    quantumStep q p = .ok r ↔ p ≤ 1000000000000 ∧ Nat.lcm q p < u128Size ∧ r = Nat.lcm q p := by
  have hlcm : q / gcd q p * p = Nat.lcm q p := by
    rw [gcd_eq, Nat.lcm_eq_mul_div, Nat.mul_comm q p, Nat.mul_div_assoc _ (Nat.gcd_dvd_left q p),
      Nat.mul_comm]
  rw [quantumStep, bind_eq_ok, hlcm]
  simp only [rejectIf_eq_ok, fits_eq_ok, exists_const, not_or, not_lt, eq_comm (a := r)]
  omega

/-- The quantum loop computes the least common multiple, if it fits. -/
theorem quantum_eq_ok {ps : List ℕ} {q r : ℕ} (hq : 0 < q) :
    ps.foldlM quantumStep q = .ok r ↔ (∀ p ∈ ps, 0 < p ∧ p ≤ 1000000000000) ∧
      (ps = [] ∨ ps.foldl Nat.lcm q < u128Size) ∧ r = ps.foldl Nat.lcm q := by
  induction ps generalizing q with
  | nil => simp [pure, Except.pure, eq_comm]
  | cons p ps ih =>
    rw [List.foldlM_cons, bind_eq_ok, List.foldl_cons]
    constructor
    · rintro ⟨s, hs, hrest⟩
      have hp : 0 < p := by
        rw [quantumStep, bind_eq_ok] at hs
        obtain ⟨u, hu, -⟩ := hs
        have := rejectIf_eq_ok.mp hu
        omega
      obtain ⟨hle, hlt, rfl⟩ := (quantumStep_eq_ok hp).mp hs
      obtain ⟨hall, hfit, hr⟩ := (ih (Nat.lcm_pos hq hp)).mp hrest
      refine ⟨?_, Or.inr ?_, hr⟩
      · rintro x hx
        rcases List.mem_cons.mp hx with rfl | hx
        · exact ⟨hp, hle⟩
        · exact hall x hx
      · rcases hfit with rfl | hfit
        · exact hlt
        · exact hfit
    · rintro ⟨hall, hfit, hr⟩
      have hfit' := hfit.resolve_left (by simp)
      obtain ⟨hp, hle⟩ := hall p List.mem_cons_self
      have hrest : ∀ x ∈ ps, 0 < x ∧ x ≤ 1000000000000 := fun x hx =>
        hall x (List.mem_cons_of_mem p hx)
      have hpos := foldl_lcm_pos (fun x hx => (hrest x hx).1) (Nat.lcm_pos hq hp)
      refine ⟨_, (quantumStep_eq_ok hp).mpr ⟨hle, ?_, rfl⟩,
        (ih (Nat.lcm_pos hq hp)).mpr ⟨hrest, Or.inr hfit', hr⟩⟩
      exact Nat.lt_of_le_of_lt (Nat.le_of_dvd hpos (dvd_foldl_lcm ps _)) hfit'

theorem atAsset_mem {table : List ℕ} {a : ℕ} (h : a < table.length) : atAsset table a ∈ table := by
  rw [atAsset, List.getD_eq_getElem?_getD, List.getElem?_eq_getElem h, Option.getD_some]
  exact List.getElem_mem h

/-- One value lot is a whole number of atoms of every asset. -/
theorem valueUnit_mul {prices : List ℕ} {a : ℕ} (ha : a < prices.length) :
    valueUnit prices a * atAsset prices a = lcmOf prices :=
  Nat.div_mul_cancel (dvd_foldl_lcm_of_mem (atAsset_mem ha) 1)

namespace Priced

variable {prices : List ℕ} {a : ℕ}

theorem price (h : Priced prices) (ha : a < prices.length) :
    0 < atAsset prices a ∧ atAsset prices a ≤ 1000000000000 := h.bounds _ (atAsset_mem ha)

theorem lcm_pos (h : Priced prices) : 0 < lcmOf prices :=
  foldl_lcm_pos (fun p hp => (h.bounds p hp).1) Nat.one_pos

theorem unit_pos (h : Priced prices) (ha : a < prices.length) : 0 < valueUnit prices a := by
  have hunit := valueUnit_mul ha
  have hpos := h.lcm_pos
  by_contra hzero
  rw [show valueUnit prices a = 0 by omega] at hunit
  omega

/-- The value of some lots, in atoms of an asset. -/
theorem value_div (h : Priced prices) (ha : a < prices.length) (lots : ℕ) :
    lots * lcmOf prices / atAsset prices a = lots * valueUnit prices a := by
  rw [← valueUnit_mul ha, ← Nat.mul_assoc, Nat.mul_div_cancel _ (h.price ha).1]

end Priced

variable {prices : List ℕ} {flows : ℕ → ℕ}

/-- An admitted order's value at its price. -/
theorem FoldInput.value_le (h : FoldInput orders prices slot bound) {i : ℕ}
    (hi : i < orders.length) :
    (intentAt orders i).amount * atAsset prices (sellOf orders i) ≤
      100000000000000000000000000 := by
  have hprice := (h.toPriced.price (h.toAdmitted.tradable i hi).2.1).2
  calc (intentAt orders i).amount * atAsset prices (sellOf orders i)
      ≤ maxAtoms * 1000000000000 := Nat.mul_le_mul (h.toAdmitted.amount_le hi).2 hprice
    _ = 100000000000000000000000000 := by decide

/-- The capacities of `fold`. -/
theorem FoldInput.load (h : FoldInput orders prices slot bound) :
    ∃ l, (List.range orders.length).foldlM (loadValue orders prices slot (lcmOf prices)) {} = .ok l ∧
      l.capacities = upTo 0 orders.length (valueCapacity orders prices (lcmOf prices)) ∧
      l.requested ≤ orders.length * 100000000000000000000000000 := by
  have hconst := constants
  have hlen : orders.length ≤ 32 := h.length_le
  refine foldlM_range_ok (P := fun k (l : Loaded) =>
    l.capacities = upTo 0 k (valueCapacity orders prices (lcmOf prices)) ∧
    l.requested ≤ k * 100000000000000000000000000) ?_ ⟨(upTo_zero 0 _).symm, by simp⟩
  rintro k hk l ⟨hcap, hreq⟩
  have hsum : l.requested + (intentAt orders k).amount * atAsset prices (sellOf orders k) ≤
      (k + 1) * 100000000000000000000000000 := by
    rw [Nat.succ_mul]
    exact Nat.add_le_add hreq (h.value_le hk)
  refine ⟨⟨if PriceMeets orders prices k then Function.update l.capacities k
      ((intentAt orders k).amount * atAsset prices (sellOf orders k) / lcmOf prices)
    else l.capacities, _⟩, ?_, ?_, hsum⟩
  · rw [loadValue, h.intents k hk, ok_bind]
    have hadd : addU128 l.requested ((intentAt orders k).amount *
        atAsset prices (intentAt orders k).sell) = .ok _ :=
      addU128_of_lt (Nat.lt_of_le_of_lt hsum (by omega))
    dsimp only
    rw [hadd, ok_bind]
    rfl
  · by_cases hmeets : PriceMeets orders prices k
    · rw [← update_upTo, ← hcap, valueCapacity, if_pos hmeets, if_pos hmeets]
    · have hzero : valueCapacity orders prices (lcmOf prices) k = 0 := if_neg hmeets
      rw [upTo_succ_of_eq 0 hzero, ← hcap, if_neg hmeets]

/-- Lots within the capacity are worth no more than the order. -/
theorem FoldInput.flow_le (h : FoldInput orders prices slot bound)
    (hf : Circulates orders (valueCapacity orders prices (lcmOf prices)) flows) {i : ℕ}
    (hi : i < orders.length) :
    flows i * lcmOf prices ≤ (intentAt orders i).amount * atAsset prices (sellOf orders i) := by
  have hcap := hf.le i hi
  by_cases hmeets : PriceMeets orders prices i
  · rw [valueCapacity, if_pos hmeets] at hcap
    exact (Nat.le_div_iff_mul_le h.toPriced.lcm_pos).mp hcap
  · rw [valueCapacity, if_neg hmeets] at hcap
    simp [Nat.le_zero.mp hcap]

theorem FoldInput.cleared_le (h : FoldInput orders prices slot bound)
    (hf : Circulates orders (valueCapacity orders prices (lcmOf prices)) flows) {i : ℕ}
    (hi : i < orders.length) : flows i * lcmOf prices ≤ 100000000000000000000000000 :=
  le_trans (h.flow_le hf hi) (h.value_le hi)

/-- A circulation within the capacities of `fold` can be filled. -/
theorem FoldInput.fillable (h : FoldInput orders prices slot bound)
    (hf : Circulates orders (valueCapacity orders prices (lcmOf prices)) flows) :
    Fillable orders (valueUnit prices) flows := by
  have hprices : ∀ i < orders.length, sellOf orders i < prices.length ∧
      buyOf orders i < prices.length := fun i hi => (h.toAdmitted.tradable i hi).2
  refine ⟨hf.balanced, fun i hi => ?_, fun i hi => ?_, h.length_le,
    fun i hi => (h.toAdmitted.amount_le hi).2,
    fun i hi => ⟨h.toPriced.unit_pos (hprices i hi).1, h.toPriced.unit_pos (hprices i hi).2⟩⟩
  · obtain ⟨hsell, -⟩ := hprices i hi
    have hle := h.flow_le hf hi
    rw [← valueUnit_mul hsell, ← Nat.mul_assoc] at hle
    exact Nat.le_of_mul_le_mul_right hle (h.toPriced.price hsell).1
  · obtain ⟨hsell, hbuy⟩ := hprices i hi
    have hpb := (h.toPriced.price hbuy).1
    by_cases hmeets : PriceMeets orders prices i
    · -- both units are worth one lot, so the limit at the prices is the limit in atoms
      have hunits : valueUnit prices (sellOf orders i) * (intentAt orders i).minOut ≤
          valueUnit prices (buyOf orders i) * (intentAt orders i).amount := by
        refine Nat.le_of_mul_le_mul_right ?_ hpb
        calc valueUnit prices (sellOf orders i) * (intentAt orders i).minOut *
              atAsset prices (buyOf orders i)
            = valueUnit prices (sellOf orders i) *
              ((intentAt orders i).minOut * atAsset prices (buyOf orders i)) := Nat.mul_assoc ..
          _ ≤ valueUnit prices (sellOf orders i) *
              ((intentAt orders i).amount * atAsset prices (sellOf orders i)) :=
            Nat.mul_le_mul_left _ hmeets
          _ = valueUnit prices (sellOf orders i) * atAsset prices (sellOf orders i) *
              (intentAt orders i).amount := by ring
          _ = valueUnit prices (buyOf orders i) * atAsset prices (buyOf orders i) *
              (intentAt orders i).amount := by rw [valueUnit_mul hsell, valueUnit_mul hbuy]
          _ = valueUnit prices (buyOf orders i) * (intentAt orders i).amount *
              atAsset prices (buyOf orders i) := by ring
      simpa only [fillOf, Nat.mul_assoc] using Nat.mul_le_mul_left (flows i) hunits
    · have hcap := hf.le i hi
      rw [valueCapacity, if_neg hmeets] at hcap
      simp [fillOf, Nat.le_zero.mp hcap]

/-- The fill loop of `fold`. -/
theorem FoldInput.fill (h : FoldInput orders prices slot bound)
    (hf : Circulates orders (valueCapacity orders prices (lcmOf prices)) flows) :
    ∃ t, (List.range orders.length).foldlM (fillValue orders prices flows (lcmOf prices)) {} =
        .ok t ∧
      t.fills = upTo {} orders.length (fillOf orders (valueUnit prices) flows) ∧
      t.cleared ≤ orders.length * 100000000000000000000000000 ∧
      Entered orders (fillOf orders (valueUnit prices) flows) (fun i => flows i * lcmOf prices)
        orders.length t := by
  have hconst := constants
  have hlen : orders.length ≤ 32 := h.length_le
  have hfill := h.fillable hf
  refine foldlM_range_ok (P := fun k (t : Tally) =>
    t.fills = upTo {} k (fillOf orders (valueUnit prices) flows) ∧
    t.cleared ≤ k * 100000000000000000000000000 ∧
    Entered orders (fillOf orders (valueUnit prices) flows) (fun i => flows i * lcmOf prices) k t)
    ?_ ⟨(upTo_zero _ _).symm, by simp, Entered.start _ _⟩
  rintro k hk t ⟨hfills, hcleared, hentered⟩
  obtain ⟨hsell, hbuy⟩ := (h.toAdmitted.tradable k hk).2
  have hvalue := h.cleared_le hf hk
  have hsum : t.cleared + flows k * lcmOf prices ≤ (k + 1) * 100000000000000000000000000 := by
    rw [Nat.succ_mul]
    exact Nat.add_le_add hcleared hvalue
  have hinput : flows k * lcmOf prices / atAsset prices (intentAt orders k).sell =
      (fillOf orders (valueUnit prices) flows k).input := h.toPriced.value_div hsell _
  have houtput : flows k * lcmOf prices / atAsset prices (intentAt orders k).buy =
      (fillOf orders (valueUnit prices) flows k).output := h.toPriced.value_div hbuy _
  refine ⟨t.enter (intentAt orders k) k (fillOf orders (valueUnit prices) flows k)
    (t.cleared + flows k * lcmOf prices), ?_, ?_, hsum, hentered.enter⟩
  · rw [fillValue, fits_of_lt _ (Nat.lt_of_le_of_lt hvalue (by omega)), ok_bind, hinput,
      asU64_of_lt (hfill.input_lt hk), ok_bind, houtput, asU64_of_lt (hfill.output_lt hk), ok_bind]
    show (do
      rejectIf (BadFill (intentAt orders k) (fillOf orders (valueUnit prices) flows k))
        .balanceInvariant
      let cleared ← addU128 t.cleared (flows k * lcmOf prices)
      .ok (t.enter (intentAt orders k) k (fillOf orders (valueUnit prices) flows k) cleared)) = _
    rw [rejectIf_of_not _ (hfill.not_badFill hk), ok_bind,
      addU128_of_lt (Nat.lt_of_le_of_lt hsum (by omega)), ok_bind]
  · rw [← update_upTo, ← hfills]
    rfl

/-- What both folds establish of their flows. -/
structure Folded (orders : List FlowIntent) (capacities : ℕ → ℕ) (unit flows : ℕ → ℕ)
    (fills : ℕ → FoldFill) (optimal : Bool) : Prop where
  circulates : Circulates orders capacities flows
  fillable : Fillable orders unit flows
  fills_eq : fills = upTo {} orders.length (fillOf orders unit flows)
  flagged : Flagged orders capacities flows optimal

/-- The work of a fold. -/
def foldCost (orders : List FlowIntent) (assets bound : ℕ) : ℕ :=
  (bound + 1) * cycleCost orders assets

/-- Capacities past the orders do not matter. -/
theorem circulates_upTo {capacities : ℕ → ℕ} :
    Circulates orders (upTo 0 orders.length capacities) flows ↔ Circulates orders capacities flows :=
  ⟨fun h => ⟨fun i hi => upTo_of_lt 0 capacities hi ▸ h.le i hi, h.balanced⟩,
    fun h => ⟨fun i hi => (upTo_of_lt 0 capacities hi).symm ▸ h.le i hi, h.balanced⟩⟩

theorem Flagged.of_upTo {capacities : ℕ → ℕ} {optimal : Bool}
    (h : Flagged orders (upTo 0 orders.length capacities) flows optimal) :
    Flagged orders capacities flows optimal where
  maximum hopt g hg := h.maximum hopt g (circulates_upTo.mpr hg)
  improvable hopt := by
    obtain ⟨g, hg, hlt⟩ := h.improvable hopt
    exact ⟨g, circulates_upTo.mp hg, hlt⟩

/-- `fold` on what it accepts, with enough work. -/
theorem fold_runs (h : FoldInput orders prices slot bound) :
    ∃ report flows, RunsTo (fold orders prices slot bound) (foldCost orders prices.length bound)
        (.ok report) ∧
      Folded orders (valueCapacity orders prices (lcmOf prices)) (valueUnit prices) flows
        report.fills report.optimalAtFixedPrices ∧
      report.valueQuantum = lcmOf prices ∧
      report.internallyClearedValue = lcmOf prices * totalFlow orders flows := by
  have hconst := constants
  obtain ⟨l, hload, hcap, -⟩ := h.load
  have hbound : ∀ i, l.capacities i < u128Size := by
    intro i
    rw [hcap]
    unfold upTo
    split
    · next hi =>
      refine Nat.lt_of_le_of_lt (?_ : _ ≤ 100000000000000000000000000) (by omega)
      unfold valueCapacity
      split
      · exact le_trans (Nat.div_le_self _ _) (h.value_le hi)
      · exact Nat.zero_le _
    · omega
  obtain ⟨p, hp, hcirc, hflag⟩ := circulate_runs h.toAdmitted.tradable
    (show 0 < prices.length by have := h.two_le; omega) hbound bound
  rw [hcap] at hcirc hflag
  have hcirc' := circulates_upTo.mp hcirc
  obtain ⟨t, hfill, hfills, -, hentered⟩ := h.fill hcirc'
  have hfillable := h.fillable hcirc'
  refine ⟨{ fills := t.fills
            valueQuantum := lcmOf prices
            requestedValue := l.requested
            internallyClearedValue := t.cleared
            pivots := p.pivots
            reverseEdgePivots := p.reverseEdgePivots
            optimalAtFixedPrices := p.optimal }, p.flows, ?_,
    ⟨hcirc', hfillable, hfills, hflag.of_upTo⟩, rfl, ?_⟩
  · have hquantum : prices.foldlM quantumStep 1 = .ok (lcmOf prices) :=
      (quantum_eq_ok Nat.one_pos).mpr ⟨h.bounds, Or.inr h.lcm_lt, rfl⟩
    unfold fold
    rw [rejectIf_of_not _ (by
        simp only [not_or, not_lt]
        exact ⟨h.ne_nil, h.length_le, h.two_le, h.assets_le, h.bound_le⟩),
      lift_ok, pure_bind, hquantum, lift_ok, pure_bind, hload, lift_ok, pure_bind]
    refine (hp.bind (l := 0) ?_).mono (Nat.le_refl _)
    rw [hfill, lift_ok, pure_bind, rejectIf_of_not _ (not_not.mpr (hentered.sameTotals hfillable)),
      lift_ok, pure_bind]
    exact Runs.pure _
  · show t.cleared = _
    rw [hentered.cleared, totalFlow, indices, Finset.mul_sum]
    exact Finset.sum_congr rfl fun i _ => Nat.mul_comm _ _

/-! ## Asset lots -/

/-- The lot rates meet the order's limit. -/
def LotMeets (orders : List FlowIntent) (lotSizes : List ℕ) (i : ℕ) : Prop :=
  atAsset lotSizes (sellOf orders i) * (intentAt orders i).minOut ≤
    atAsset lotSizes (buyOf orders i) * (intentAt orders i).amount

instance (orders : List FlowIntent) (lotSizes : List ℕ) (i : ℕ) :
    Decidable (LotMeets orders lotSizes i) := inferInstanceAs (Decidable (_ ≤ _))

/-- The lots an order may clear. -/
def lotCapacity (orders : List FlowIntent) (lotSizes : List ℕ) (i : ℕ) : ℕ :=
  if LotMeets orders lotSizes i then
    (intentAt orders i).amount / atAsset lotSizes (sellOf orders i)
  else 0

/-- What `fold_lots` accepts. -/
structure LotInput (orders : List FlowIntent) (lotSizes : List ℕ) (slot bound : ℕ) : Prop extends
  Admitted orders lotSizes.length slot bound where
  lots : ∀ lot ∈ lotSizes, 0 < lot ∧ lot ≤ maxAtoms

namespace LotInput

variable {lotSizes : List ℕ}

theorem lot_pos (h : LotInput orders lotSizes slot bound) {a : ℕ} (ha : a < lotSizes.length) :
    0 < atAsset lotSizes a := (h.lots _ (atAsset_mem ha)).1

/-- The capacities of `fold_lots`. -/
theorem load (h : LotInput orders lotSizes slot bound) :
    ∃ l, (List.range orders.length).foldlM (loadLots orders lotSizes slot) {} = .ok l ∧
      l.capacities = upTo 0 orders.length (lotCapacity orders lotSizes) ∧
      l.requested ≤ orders.length * maxAtoms := by
  have hconst := constants
  have hlen : orders.length ≤ 32 := h.length_le
  refine foldlM_range_ok (P := fun k (l : Loaded) =>
    l.capacities = upTo 0 k (lotCapacity orders lotSizes) ∧ l.requested ≤ k * maxAtoms) ?_
    ⟨(upTo_zero 0 _).symm, by simp⟩
  rintro k hk l ⟨hcap, hreq⟩
  have hlots : (intentAt orders k).amount / atAsset lotSizes (sellOf orders k) ≤ maxAtoms :=
    le_trans (Nat.div_le_self _ _) (h.toAdmitted.amount_le hk).2
  have hsum : l.requested + (intentAt orders k).amount / atAsset lotSizes (sellOf orders k) ≤
      (k + 1) * maxAtoms := by
    rw [Nat.succ_mul]
    exact Nat.add_le_add hreq hlots
  have hbig : (k + 1) * maxAtoms < u128Size := by
    rw [hconst.2.2.2.2.2.1]
    omega
  refine ⟨⟨if LotMeets orders lotSizes k then Function.update l.capacities k
      ((intentAt orders k).amount / atAsset lotSizes (sellOf orders k))
    else l.capacities, _⟩, ?_, ?_, hsum⟩
  · rw [loadLots, h.intents k hk, ok_bind]
    have hadd : fits u128Size .arithmetic (l.requested + (intentAt orders k).amount /
        atAsset lotSizes (intentAt orders k).sell) = .ok _ :=
      fits_of_lt _ (Nat.lt_of_le_of_lt hsum hbig)
    dsimp only
    rw [hadd, ok_bind]
    rfl
  · by_cases hmeets : LotMeets orders lotSizes k
    · rw [← update_upTo, ← hcap, lotCapacity, if_pos hmeets, if_pos hmeets]
    · have hzero : lotCapacity orders lotSizes k = 0 := if_neg hmeets
      rw [upTo_succ_of_eq 0 hzero, ← hcap, if_neg hmeets]

/-- Lots within the capacity are no more atoms than the order. -/
theorem flow_le (h : LotInput orders lotSizes slot bound)
    (hf : Circulates orders (lotCapacity orders lotSizes) flows) {i : ℕ} (hi : i < orders.length) :
    flows i * atAsset lotSizes (sellOf orders i) ≤ (intentAt orders i).amount := by
  have hcap := hf.le i hi
  by_cases hmeets : LotMeets orders lotSizes i
  · rw [lotCapacity, if_pos hmeets] at hcap
    exact (Nat.le_div_iff_mul_le (h.lot_pos (h.toAdmitted.tradable i hi).2.1)).mp hcap
  · rw [lotCapacity, if_neg hmeets] at hcap
    simp [Nat.le_zero.mp hcap]

/-- A circulation within the capacities of `fold_lots` can be filled. -/
theorem fillable (h : LotInput orders lotSizes slot bound)
    (hf : Circulates orders (lotCapacity orders lotSizes) flows) :
    Fillable orders (atAsset lotSizes) flows := by
  refine ⟨hf.balanced, fun i hi => h.flow_le hf hi, fun i hi => ?_, h.length_le,
    fun i hi => (h.toAdmitted.amount_le hi).2, fun i hi => ?_⟩
  · by_cases hmeets : LotMeets orders lotSizes i
    · simpa only [fillOf, Nat.mul_assoc] using Nat.mul_le_mul_left (flows i) hmeets
    · have hcap := hf.le i hi
      rw [lotCapacity, if_neg hmeets] at hcap
      simp [fillOf, Nat.le_zero.mp hcap]
  · obtain ⟨-, hsell, hbuy⟩ := h.toAdmitted.tradable i hi
    exact ⟨h.lot_pos hsell, h.lot_pos hbuy⟩

/-- The fill loop of `fold_lots`. -/
theorem fill (h : LotInput orders lotSizes slot bound)
    (hf : Circulates orders (lotCapacity orders lotSizes) flows) :
    ∃ t, (List.range orders.length).foldlM (fillLots orders lotSizes flows) {} = .ok t ∧
      t.fills = upTo {} orders.length (fillOf orders (atAsset lotSizes) flows) ∧
      t.cleared ≤ orders.length * maxAtoms ∧
      Entered orders (fillOf orders (atAsset lotSizes) flows) flows orders.length t := by
  have hconst := constants
  have hlen : orders.length ≤ 32 := h.length_le
  have hfill := h.fillable hf
  refine foldlM_range_ok (P := fun k (t : Tally) =>
    t.fills = upTo {} k (fillOf orders (atAsset lotSizes) flows) ∧ t.cleared ≤ k * maxAtoms ∧
    Entered orders (fillOf orders (atAsset lotSizes) flows) flows k t)
    ?_ ⟨(upTo_zero _ _).symm, by simp, Entered.start _ _⟩
  rintro k hk t ⟨hfills, hcleared, hentered⟩
  have hlot := h.lot_pos (h.toAdmitted.tradable k hk).2.1
  have hflow : flows k ≤ maxAtoms := calc
    flows k ≤ flows k * atAsset lotSizes (sellOf orders k) := Nat.le_mul_of_pos_right _ hlot
    _ ≤ maxAtoms := le_trans (h.flow_le hf hk) (h.toAdmitted.amount_le hk).2
  have hsum : t.cleared + flows k ≤ (k + 1) * maxAtoms := by
    rw [Nat.succ_mul]
    exact Nat.add_le_add hcleared hflow
  have hbig : (k + 1) * maxAtoms < u128Size := by
    rw [hconst.2.2.2.2.2.1]
    omega
  have hwide : u64Size ≤ u128Size := by omega
  have hin := hfill.input_lt hk
  have hout := hfill.output_lt hk
  refine ⟨t.enter (intentAt orders k) k (fillOf orders (atAsset lotSizes) flows k)
    (t.cleared + flows k), ?_, ?_, hsum, hentered.enter⟩
  · show (do
      let input ← fits u128Size .arithmetic (fillOf orders (atAsset lotSizes) flows k).input
      let output ← fits u128Size .arithmetic (fillOf orders (atAsset lotSizes) flows k).output
      let input ← asU64 input
      let output ← asU64 output
      rejectIf (BadFill (intentAt orders k) ⟨input, output⟩) .balanceInvariant
      let cleared ← fits u128Size .arithmetic (t.cleared + flows k)
      .ok (t.enter (intentAt orders k) k ⟨input, output⟩ cleared)) = _
    rw [fits_of_lt _ (Nat.lt_of_lt_of_le hin hwide), ok_bind,
      fits_of_lt _ (Nat.lt_of_lt_of_le hout hwide), ok_bind, asU64_of_lt hin, ok_bind,
      asU64_of_lt hout, ok_bind, rejectIf_of_not _ (hfill.not_badFill hk), ok_bind,
      fits_of_lt _ (Nat.lt_of_le_of_lt hsum hbig), ok_bind]
  · rw [← update_upTo, ← hfills]
    rfl

end LotInput

/-- `fold_lots` on what it accepts, with enough work. -/
theorem foldLots_runs {lotSizes : List ℕ} (h : LotInput orders lotSizes slot bound) :
    ∃ report flows, RunsTo (foldLots orders lotSizes slot bound)
        (foldCost orders lotSizes.length bound) (.ok report) ∧
      Folded orders (lotCapacity orders lotSizes) (atAsset lotSizes) flows
        report.fills report.optimalAtFixedLots ∧
      report.lotSizes = atAsset lotSizes ∧
      report.internallyClearedLots = totalFlow orders flows := by
  have hconst := constants
  obtain ⟨l, hload, hcap, -⟩ := h.load
  have hbound : ∀ i, l.capacities i < u128Size := by
    intro i
    rw [hcap]
    unfold upTo
    split
    · next hi =>
      refine Nat.lt_of_le_of_lt (?_ : _ ≤ maxAtoms) (by omega)
      unfold lotCapacity
      split
      · exact le_trans (Nat.div_le_self _ _) (h.toAdmitted.amount_le hi).2
      · exact Nat.zero_le _
    · omega
  obtain ⟨p, hp, hcirc, hflag⟩ := circulate_runs h.toAdmitted.tradable
    (show 0 < lotSizes.length by have := h.two_le; omega) hbound bound
  rw [hcap] at hcirc hflag
  have hcirc' := circulates_upTo.mp hcirc
  obtain ⟨t, hfill, hfills, -, hentered⟩ := h.fill hcirc'
  have hfillable := h.fillable hcirc'
  refine ⟨{ fills := t.fills
            lotSizes := atAsset lotSizes
            requestedLots := l.requested
            internallyClearedLots := t.cleared
            pivots := p.pivots
            reverseEdgePivots := p.reverseEdgePivots
            optimalAtFixedLots := p.optimal }, p.flows, ?_,
    ⟨hcirc', hfillable, hfills, hflag.of_upTo⟩, rfl, hentered.cleared⟩
  have hlots : ¬∃ lot ∈ lotSizes, lot = 0 ∨ maxAtoms < lot := by
    rintro ⟨lot, hlot, hbad⟩
    have := h.lots lot hlot
    omega
  unfold foldLots
  rw [rejectIf_of_not _ (by
      simp only [not_or, not_lt]
      exact ⟨h.ne_nil, h.length_le, h.two_le, h.assets_le, h.bound_le, hlots⟩),
    lift_ok, pure_bind, hload, lift_ok, pure_bind]
  refine (hp.bind (l := 0) ?_).mono (Nat.le_refl _)
  rw [hfill, lift_ok, pure_bind, rejectIf_of_not _ (not_not.mpr (hentered.sameTotals hfillable)),
    lift_ok, pure_bind]
  exact Runs.pure _

end StockMesh

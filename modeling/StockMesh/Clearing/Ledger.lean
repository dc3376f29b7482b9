import StockMesh.Clearing.Pivot

/-! # The books of a fold

The order loops of `fold`, `fold_lots` and the two validations add the same columns: what every
asset sold and bought. A circulation in units of an asset-specific size keeps the two columns equal
(`tally_eq_of_balanced`), which is also what keeps every bought amount inside `u64`
(`output_lt`). -/

namespace StockMesh

open Budgeted Stateful BellmanFord

/-! ## Arrays filled from the left -/

/-- An array whose first `k` entries are those of `f`; the others hold `d`. -/
def upTo {α : Type} (d : α) (k : ℕ) (f : ℕ → α) : ℕ → α := fun i => if i < k then f i else d

@[simp] theorem upTo_zero {α : Type} (d : α) (f : ℕ → α) : upTo d 0 f = fun _ => d := by
  funext i
  simp [upTo]

theorem upTo_of_lt {α : Type} (d : α) {k i : ℕ} (f : ℕ → α) (h : i < k) : upTo d k f i = f i :=
  if_pos h

/-- Writing the next entry. -/
theorem update_upTo {α : Type} (d : α) (k : ℕ) (f : ℕ → α) :
    Function.update (upTo d k f) k (f k) = upTo d (k + 1) f := by
  funext i
  by_cases h : i = k
  · subst h
    simp [upTo]
  · rw [Function.update_of_ne h]
    simp only [upTo, Nat.lt_succ_iff_lt_or_eq, h, or_false]

/-- Skipping an entry that holds the default. -/
theorem upTo_succ_of_eq {α : Type} (d : α) {k : ℕ} {f : ℕ → α} (h : f k = d) :
    upTo d (k + 1) f = upTo d k f := by
  funext i
  by_cases hi : i = k
  · subst hi
    simp [upTo, h]
  · simp only [upTo, Nat.lt_succ_iff_lt_or_eq, hi, or_false]

/-! ## Columns -/

/-- The column of the first `k` entries: what every key has received. -/
def tally (key value : ℕ → ℕ) (k : ℕ) : ℕ → ℕ := fun a =>
  ∑ i ∈ Finset.range k, if key i = a then value i else 0

theorem tally_zero (key value : ℕ → ℕ) : tally key value 0 = fun _ => 0 := rfl

/-- Entering the next amount. -/
theorem addAt_tally (key value : ℕ → ℕ) (k : ℕ) :
    addAt (tally key value k) (key k) (value k) = tally key value (k + 1) := by
  funext a
  by_cases h : key k = a
  · subst h
    simp [addAt, tally, Finset.sum_range_succ]
  · simp [addAt, tally, Finset.sum_range_succ, h, Function.update_of_ne (Ne.symm h)]

/-- A column is at most the sum of its entries. -/
theorem tally_le_sum (key value : ℕ → ℕ) (k a : ℕ) :
    tally key value k a ≤ ∑ i ∈ Finset.range k, value i := by
  refine Finset.sum_le_sum fun i _ => ?_
  split
  · exact Nat.le_refl _
  · exact Nat.zero_le _

/-- An entry is at most its column. -/
theorem le_tally (key value : ℕ → ℕ) {k i : ℕ} (hi : i < k) :
    value i ≤ tally key value k (key i) := by
  have hle := Finset.single_le_sum (f := fun l => if key l = key i then value l else 0)
    (fun l _ => Nat.zero_le _) (Finset.mem_range.mpr hi)
  unfold tally
  simpa using hle

/-! ## Fills in units -/

section Units

variable (orders : List FlowIntent) (unit flows : ℕ → ℕ)

/-- The fill of an order: the flow in units of either asset. -/
def fillOf (i : ℕ) : FoldFill := ⟨flows i * unit (sellOf orders i), flows i * unit (buyOf orders i)⟩

/-- Flows whose fills respect the orders. -/
structure Fillable : Prop where
  circulates : Circulation.Balanced (indices orders) (sellOf orders) (buyOf orders) flows
  input_le : ∀ i < orders.length, (fillOf orders unit flows i).input ≤ (intentAt orders i).amount
  limit : ∀ i < orders.length, (fillOf orders unit flows i).input * (intentAt orders i).minOut ≤
    (fillOf orders unit flows i).output * (intentAt orders i).amount
  length_le : orders.length ≤ maxIntents
  amount_le : ∀ i < orders.length, (intentAt orders i).amount ≤ maxAtoms
  unit_pos : ∀ i < orders.length, 0 < unit (sellOf orders i) ∧ 0 < unit (buyOf orders i)

variable {orders unit flows}

/-- A circulation sells of every asset what it buys. -/
theorem tally_eq_of_balanced
    (h : Circulation.Balanced (indices orders) (sellOf orders) (buyOf orders) flows) (a : ℕ) :
    tally (sellOf orders) (fun i => (fillOf orders unit flows i).input) orders.length a =
      tally (buyOf orders) (fun i => (fillOf orders unit flows i).output) orders.length a := by
  have hcol : ∀ key : ℕ → ℕ, tally key (fun i => flows i * unit (key i)) orders.length a =
      (∑ i ∈ indices orders with key i = a, flows i) * unit a := by
    intro key
    rw [Finset.sum_mul, Finset.sum_filter]
    refine Finset.sum_congr rfl fun i _ => ?_
    by_cases hk : key i = a
    · simp [hk]
    · simp [hk]
  exact (hcol (sellOf orders)).trans (by rw [h a]; exact (hcol (buyOf orders)).symm)

/-- Conservation bounds what an order buys by what all orders sell. -/
theorem Fillable.output_lt (h : Fillable orders unit flows) {i : ℕ} (hi : i < orders.length) :
    (fillOf orders unit flows i).output < u64Size := by
  have hconst := constants
  have hcol := le_tally (buyOf orders) (fun i => (fillOf orders unit flows i).output) hi
  rw [← tally_eq_of_balanced h.circulates] at hcol
  have hsum := tally_le_sum (sellOf orders) (fun i => (fillOf orders unit flows i).input)
    orders.length (buyOf orders i)
  have hall : ∑ i ∈ Finset.range orders.length, (fillOf orders unit flows i).input ≤
      orders.length * maxAtoms := by
    have := Finset.sum_le_card_nsmul (Finset.range orders.length)
      (fun i => (fillOf orders unit flows i).input) maxAtoms fun i hi =>
        le_trans (h.input_le i (Finset.mem_range.mp hi)) (h.amount_le i (Finset.mem_range.mp hi))
    simpa using this
  have hlen : orders.length * maxAtoms ≤ maxIntents * maxAtoms :=
    Nat.mul_le_mul_right _ h.length_le
  have hprod : maxIntents * maxAtoms = 3200000000000000 := by decide
  omega

theorem Fillable.input_lt (h : Fillable orders unit flows) {i : ℕ} (hi : i < orders.length) :
    (fillOf orders unit flows i).input < u64Size := by
  have hconst := constants
  have := h.input_le i hi
  have := h.amount_le i hi
  omega

theorem Fillable.not_badFill (h : Fillable orders unit flows) {i : ℕ} (hi : i < orders.length) :
    ¬BadFill (intentAt orders i) (fillOf orders unit flows i) := by
  have := h.input_le i hi
  have := h.limit i hi
  omega

/-- An order that sells nothing buys nothing. -/
theorem Fillable.output_eq_zero (h : Fillable orders unit flows) {i : ℕ} (hi : i < orders.length)
    (hzero : (fillOf orders unit flows i).input = 0) : (fillOf orders unit flows i).output = 0 := by
  rcases Nat.mul_eq_zero.mp hzero with hflow | hunit
  · simp [fillOf, hflow]
  · have := (h.unit_pos i hi).1
    omega

/-! ## The order loops -/

/-- The books after `k` orders. -/
structure Entered (orders : List FlowIntent) (fill : ℕ → FoldFill) (value : ℕ → ℕ) (k : ℕ)
    (t : Tally) : Prop where
  cleared : t.cleared = ∑ i ∈ Finset.range k, value i
  debit : t.debit = tally (sellOf orders) (fun i => (fill i).input) k
  credit : t.credit = tally (buyOf orders) (fun i => (fill i).output) k

theorem Entered.start (fill : ℕ → FoldFill) (value : ℕ → ℕ) : Entered orders fill value 0 {} :=
  ⟨rfl, rfl, rfl⟩

theorem Entered.enter {fill : ℕ → FoldFill} {value : ℕ → ℕ} {k : ℕ} {t : Tally}
    (h : Entered orders fill value k t) :
    Entered orders fill value (k + 1)
      (t.enter (intentAt orders k) k (fill k) (t.cleared + value k)) where
  cleared := by rw [Finset.sum_range_succ, ← h.cleared]; rfl
  debit := by
    rw [← addAt_tally, ← h.debit]
    rfl
  credit := by
    rw [← addAt_tally, ← h.credit]
    rfl

theorem Entered.replay {fill : ℕ → FoldFill} {value : ℕ → ℕ} {k : ℕ} {t : Tally}
    (h : Entered orders fill value k t) :
    Entered orders fill value (k + 1)
      (t.replay (intentAt orders k) (fill k) (t.cleared + value k)) where
  cleared := by rw [Finset.sum_range_succ, ← h.cleared]; rfl
  debit := by
    rw [← addAt_tally, ← h.debit]
    rfl
  credit := by
    rw [← addAt_tally, ← h.credit]
    rfl

/-- The books of a circulation balance. -/
theorem Entered.sameTotals {value : ℕ → ℕ} {t : Tally} (h : Fillable orders unit flows)
    (ht : Entered orders (fillOf orders unit flows) value orders.length t) :
    SameTotals t.debit t.credit := by
  intro a _
  rw [ht.debit, ht.credit]
  exact tally_eq_of_balanced h.circulates a

end Units

/-! ## The tests on the orders -/

variable {orders : List FlowIntent} {assets slot i : ℕ}

/-- What the tests on one order say. -/
theorem checkIntent_eq_ok : checkIntent orders assets slot i = .ok () ↔
    (sellOf orders i ≠ buyOf orders i ∧ sellOf orders i < assets ∧ buyOf orders i < assets ∧
      0 < (intentAt orders i).amount ∧ (intentAt orders i).amount ≤ maxAtoms ∧
      (intentAt orders i).minOut ≤ maxAtoms) ∧
    slot ≤ (intentAt orders i).expiresAtSlot ∧
    ∀ a ∈ orders.take i, ¬(a.owner = (intentAt orders i).owner ∧
      a.nonce = (intentAt orders i).nonce) := by
  have hrw : checkIntent orders assets slot i = .ok () ↔
      ¬((intentAt orders i).sell = (intentAt orders i).buy ∨ assets ≤ (intentAt orders i).sell ∨
        assets ≤ (intentAt orders i).buy ∨ (intentAt orders i).amount = 0 ∨
        maxAtoms < (intentAt orders i).amount ∨ maxAtoms < (intentAt orders i).minOut) ∧
      ¬(intentAt orders i).expiresAtSlot < slot ∧
      ¬∃ a ∈ orders.take i, a.owner = (intentAt orders i).owner ∧
        a.nonce = (intentAt orders i).nonce := by
    simp only [checkIntent, bind_eq_ok, rejectIf_eq_ok, exists_const]
  rw [hrw]
  simp only [sellOf, buyOf, not_or, not_le, not_lt, not_exists, not_and, Nat.pos_iff_ne_zero,
    ne_eq]

/-- What both folds require of their orders and bounds. -/
structure Admitted (orders : List FlowIntent) (assets slot bound : ℕ) : Prop where
  ne_nil : orders ≠ []
  length_le : orders.length ≤ maxIntents
  two_le : 2 ≤ assets
  assets_le : assets ≤ maxAssets
  bound_le : bound ≤ maxPivots
  intents : ∀ i < orders.length, checkIntent orders assets slot i = .ok ()

theorem Admitted.tradable {bound : ℕ} (h : Admitted orders assets slot bound) :
    Tradable orders assets := fun i hi => by
  obtain ⟨⟨hne, hsell, hbuy, -⟩, -⟩ := checkIntent_eq_ok.mp (h.intents i hi)
  exact ⟨hne, hsell, hbuy⟩

theorem Admitted.amount_le {bound : ℕ} (h : Admitted orders assets slot bound)
    (hi : i < orders.length) :
    0 < (intentAt orders i).amount ∧ (intentAt orders i).amount ≤ maxAtoms := by
  obtain ⟨⟨-, -, -, hpos, hle, -⟩, -⟩ := checkIntent_eq_ok.mp (h.intents i hi)
  exact ⟨hpos, hle⟩

/-- An admitted order is one that the validations accept. -/
theorem Admitted.not_badIntent {bound : ℕ} (h : Admitted orders assets slot bound)
    (hi : i < orders.length) : ¬BadIntent (intentAt orders i) := by
  have hassets := h.assets_le
  obtain ⟨⟨hne, hsell, hbuy, hpos, -⟩, -⟩ := checkIntent_eq_ok.mp (h.intents i hi)
  simp only [sellOf, buyOf] at hne hsell hbuy
  simp only [BadIntent]
  omega

end StockMesh

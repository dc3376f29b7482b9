import Mathlib.Data.List.Basic
import Mathlib.Data.Finset.Card
import Mathlib.Algebra.BigOperators.Group.List.Basic
import Mathlib.Order.Defs.LinearOrder

/-! # Matching two sides

Buyers and sellers have residual quantities, and a relation says who may trade with whom. A trade takes
the smaller residual, so it exhausts a side (`Trades`). Trading always the first pair that crosses, in the
order of the buyers and then of the sellers, is the same as letting the buyers come one after the other
and walk over the sellers (`Greedy.eq_sequential`). -/

namespace Matching

/-- A quantity that goes from a seller to a buyer. -/
structure Trade (ι : Type) where
  buyer : ι
  seller : ι
  quantity : ℕ
  deriving DecidableEq

variable {ι : Type} [DecidableEq ι] {compat : ι → ι → Prop} {r r' : ι → ℕ} {b s : ι}

/-- Two sides that may trade and have something left. -/
def Crosses (compat : ι → ι → Prop) (r : ι → ℕ) (b s : ι) : Prop := compat b s ∧ 0 < r b ∧ 0 < r s

instance [DecidableRel compat] : Decidable (Crosses compat r b s) := inferInstanceAs (Decidable (_ ∧ _))

/-- The residuals after a trade. -/
def trade (r : ι → ℕ) (b s : ι) (i : ι) : ℕ := if i = b ∨ i = s then r i - min (r b) (r s) else r i

theorem trade_le (r : ι → ℕ) (b s i : ι) : trade r b s i ≤ r i := by
  unfold trade
  split
  · exact Nat.sub_le _ _
  · exact le_rfl

/-- A trade opens no pair. -/
theorem Crosses.of_trade {b' s' : ι} (h : Crosses compat (trade r b s) b' s') : Crosses compat r b' s' :=
  ⟨h.1, h.2.1.trans_le (trade_le r b s b'), h.2.2.trans_le (trade_le r b s s')⟩

/-- A trade exhausts a side. -/
theorem not_crosses_trade (compat : ι → ι → Prop) (r : ι → ℕ) (b s : ι) :
    ¬Crosses compat (trade r b s) b s := by
  rintro ⟨-, hb, hs⟩
  simp only [trade, true_or, or_true, if_true] at hb hs
  omega

/-! ## Any order of trades -/

/-- Trades between pairs that cross. -/
inductive Trades (compat : ι → ι → Prop) : (ι → ℕ) → List (Trade ι) → (ι → ℕ) → Prop
  | nil (r : ι → ℕ) : Trades compat r [] r
  | cons {r r' : ι → ℕ} {b s : ι} {ts : List (Trade ι)} (h : Crosses compat r b s)
      (rest : Trades compat (trade r b s) ts r') :
      Trades compat r (⟨b, s, min (r b) (r s)⟩ :: ts) r'

/-- How many of some sides have something left. -/
def live (sides : Finset ι) (r : ι → ℕ) : ℕ := (sides.filter fun i => 0 < r i).card

theorem two_le_live {sides : Finset ι} (hne : b ≠ s) (hb : b ∈ sides) (hs : s ∈ sides)
    (h : Crosses compat r b s) : 2 ≤ live sides r := by
  have hsub : {b, s} ⊆ sides.filter fun i => 0 < r i := by
    intro i hi
    rw [Finset.mem_insert, Finset.mem_singleton] at hi
    obtain rfl | rfl := hi
    · exact Finset.mem_filter.mpr ⟨hb, h.2.1⟩
    · exact Finset.mem_filter.mpr ⟨hs, h.2.2⟩
  rw [← Finset.card_pair hne]
  exact Finset.card_le_card hsub

/-- A trade leaves fewer sides. -/
theorem live_trade_lt {sides : Finset ι} (hb : b ∈ sides) (hs : s ∈ sides) (h : Crosses compat r b s) :
    live sides (trade r b s) < live sides r := by
  apply Finset.card_lt_card
  refine Finset.ssubset_iff_of_subset (fun i hi => ?_) |>.mpr ?_
  · rw [Finset.mem_filter] at hi ⊢
    exact ⟨hi.1, hi.2.trans_le (trade_le r b s i)⟩
  · by_cases hleft : 0 < trade r b s b
    · refine ⟨s, Finset.mem_filter.mpr ⟨hs, h.2.2⟩, fun hmem => ?_⟩
      exact not_crosses_trade compat r b s ⟨h.1, hleft, (Finset.mem_filter.mp hmem).2⟩
    · exact ⟨b, Finset.mem_filter.mpr ⟨hb, h.2.1⟩, fun hmem => hleft (Finset.mem_filter.mp hmem).2⟩

/-- There are fewer trades than sides with something left. -/
theorem Trades.length_lt {sides : Finset ι} {ts : List (Trade ι)} (h : Trades compat r ts r')
    (hsides : ∀ b s, compat b s → b ≠ s ∧ b ∈ sides ∧ s ∈ sides) (hts : ts ≠ []) :
    ts.length < live sides r := by
  induction h with
  | nil => exact absurd rfl hts
  | @cons r r' b s ts h rest ih =>
    obtain ⟨hne, hb, hs⟩ := hsides b s h.1
    have hlt := live_trade_lt hb hs h
    rw [List.length_cons]
    by_cases hnil : ts = []
    · rw [hnil]
      exact two_le_live hne hb hs h
    · exact (Nat.succ_le_of_lt (ih hnil)).trans_lt hlt

/-! ## Priority -/

section Priority

variable [DecidableRel compat] {bs ss : List ι}

/-- A buyer walks over the sellers. -/
def walk (compat : ι → ι → Prop) [DecidableRel compat] (b : ι) :
    List ι → (ι → ℕ) → List (Trade ι) × (ι → ℕ)
  | [], r => ([], r)
  | s :: ss, r =>
    if Crosses compat r b s then
      (⟨b, s, min (r b) (r s)⟩ :: (walk compat b ss (trade r b s)).1, (walk compat b ss (trade r b s)).2)
    else walk compat b ss r

/-- The buyers come one after the other. -/
def sequential (compat : ι → ι → Prop) [DecidableRel compat] (ss : List ι) :
    List ι → (ι → ℕ) → List (Trade ι) × (ι → ℕ)
  | [], r => ([], r)
  | b :: bs, r =>
    ((walk compat b ss r).1 ++ (sequential compat ss bs (walk compat b ss r).2).1,
      (sequential compat ss bs (walk compat b ss r).2).2)

/-- A buyer passes by sellers that it does not cross. -/
theorem walk_append {pre : List ι} (hpre : ∀ s ∈ pre, ¬Crosses compat r b s) (post : List ι) :
    walk compat b (pre ++ post) r = walk compat b post r := by
  induction pre with
  | nil => rfl
  | cons s pre ih =>
    obtain ⟨hhead, htail⟩ := List.forall_mem_cons.mp hpre
    rw [List.cons_append, walk, if_neg hhead, ih htail]

theorem walk_of_not_crosses (h : ∀ s ∈ ss, ¬Crosses compat r b s) : walk compat b ss r = ([], r) := by
  have happend := walk_append h []
  rwa [List.append_nil] at happend

/-- Buyers that cross nobody do not trade. -/
theorem sequential_append {pre : List ι} (hpre : ∀ b ∈ pre, ∀ s ∈ ss, ¬Crosses compat r b s)
    (post : List ι) : sequential compat ss (pre ++ post) r = sequential compat ss post r := by
  induction pre with
  | nil => rfl
  | cons b pre ih =>
    obtain ⟨hhead, htail⟩ := List.forall_mem_cons.mp hpre
    rw [List.cons_append, sequential, walk_of_not_crosses hhead, ih htail]
    rfl

/-- The first pair that crosses. -/
structure Best (compat : ι → ι → Prop) (bs ss : List ι) (r : ι → ℕ) (b s : ι) : Prop where
  crosses : Crosses compat r b s
  buyer : ∃ pre post, bs = pre ++ b :: post ∧ ∀ b' ∈ pre, ∀ s' ∈ ss, ¬Crosses compat r b' s'
  seller : ∃ pre post, ss = pre ++ s :: post ∧ ∀ s' ∈ pre, ¬Crosses compat r b s'

omit [DecidableEq ι] [DecidableRel compat] in
/-- The first pair of two lists in the order of their keys has the least keys. -/
theorem best_of_least {κ κ' : Type} [LinearOrder κ] [LinearOrder κ'] {bidKey : ι → κ} {askKey : ι → κ'}
    (hbs : bs.Pairwise fun x y => bidKey x < bidKey y) (hss : ss.Pairwise fun x y => askKey x < askKey y)
    (hb : b ∈ bs) (hs : s ∈ ss) (h : Crosses compat r b s)
    (hbuyer : ∀ b' ∈ bs, ∀ s' ∈ ss, Crosses compat r b' s' → bidKey b ≤ bidKey b')
    (hseller : ∀ s' ∈ ss, Crosses compat r b s' → askKey s ≤ askKey s') : Best compat bs ss r b s := by
  obtain ⟨pre, post, rfl⟩ := List.append_of_mem hb
  obtain ⟨pre', post', rfl⟩ := List.append_of_mem hs
  refine ⟨h, ⟨pre, post, rfl, fun b' hb' s' hs' hcrosses => ?_⟩,
    ⟨pre', post', rfl, fun s' hs' hcrosses => ?_⟩⟩
  · have hlt := (List.pairwise_append.mp hbs).2.2 b' hb' b List.mem_cons_self
    exact absurd (hbuyer b' (List.mem_append_left _ hb') s' hs' hcrosses) (not_le_of_gt hlt)
  · have hlt := (List.pairwise_append.mp hss).2.2 s' hs' s List.mem_cons_self
    exact absurd (hseller s' (List.mem_append_left _ hs') hcrosses) (not_le_of_gt hlt)

/-- Trade the first pair that crosses until none does. -/
inductive Greedy (compat : ι → ι → Prop) (bs ss : List ι) :
    (ι → ℕ) → List (Trade ι) → (ι → ℕ) → Prop
  | done {r : ι → ℕ} (h : ∀ b ∈ bs, ∀ s ∈ ss, ¬Crosses compat r b s) : Greedy compat bs ss r [] r
  | trade {r r' : ι → ℕ} {b s : ι} {ts : List (Trade ι)} (h : Best compat bs ss r b s)
      (rest : Greedy compat bs ss (trade r b s) ts r') :
      Greedy compat bs ss r (⟨b, s, min (r b) (r s)⟩ :: ts) r'

/-- The first pair trades first in the walk of its buyer, which then goes on as from the start. -/
theorem walk_best (hseller : ∃ pre post, ss = pre ++ s :: post ∧ ∀ s' ∈ pre, ¬Crosses compat r b s')
    (h : Crosses compat r b s) : walk compat b ss r =
      (⟨b, s, min (r b) (r s)⟩ :: (walk compat b ss (trade r b s)).1,
        (walk compat b ss (trade r b s)).2) := by
  obtain ⟨pre, post, rfl, hpre⟩ := hseller
  have hagain : walk compat b (pre ++ s :: post) (trade r b s) = walk compat b post (trade r b s) := by
    rw [walk_append fun s' hs' hcrosses => hpre s' hs' hcrosses.of_trade, walk,
      if_neg (not_crosses_trade compat r b s)]
  rw [hagain, walk_append hpre, walk, if_pos h]

theorem sequential_best (h : Best compat bs ss r b s) : sequential compat ss bs r =
    (⟨b, s, min (r b) (r s)⟩ :: (sequential compat ss bs (trade r b s)).1,
      (sequential compat ss bs (trade r b s)).2) := by
  obtain ⟨pre, post, rfl, hpre⟩ := h.buyer
  rw [sequential_append hpre,
    sequential_append fun b' hb' s' hs' hcrosses => hpre b' hb' s' hs' hcrosses.of_trade, sequential,
    walk_best h.seller h.crosses, sequential]
  rfl

/-- Trading the first pair that crosses is letting the buyers come one after the other. -/
theorem Greedy.eq_sequential {ts : List (Trade ι)} (h : Greedy compat bs ss r ts r') :
    sequential compat ss bs r = (ts, r') := by
  induction h with
  | done h =>
    have happend := sequential_append h []
    rwa [List.append_nil] at happend
  | trade h rest ih => rw [sequential_best h, ih]

end Priority

end Matching

import Mathlib.Order.Interval.Set.OrdConnected
import Mathlib.Data.List.Count
import Mathlib.Data.Finset.Card
import Mathlib.Tactic.Common

/-! # How many intervals hold a point

A family of closed intervals in a linear order covers every point a number of times. The number is
constant between neighbouring endpoints and not smaller at the endpoints themselves, so the points that
are covered often enough (`region`) are known from the endpoints and the gaps between them. With one
interval for each voter, points that most voters hold are held by an honest one. -/

namespace Coverage

variable {ι α : Type*} [LinearOrder α] (low high : ι → α) (xs : List ι)

/-- How many intervals hold `q`. -/
def count (q : α) : ℕ := xs.countP fun x => low x ≤ q ∧ q ≤ high x

/-- How many intervals reach from `p` to `r`. -/
def across (p r : α) : ℕ := xs.countP fun x => low x ≤ p ∧ r ≤ high x

/-- The points held by at least `k` intervals. -/
def region (k : ℕ) : Set α := {q | k ≤ count low high xs q}

variable {low high xs} {p q r : α} {k : ℕ}

@[simp] theorem mem_region : q ∈ region low high xs k ↔ k ≤ count low high xs q := Iff.rfl

theorem across_self : across low high xs q q = count low high xs q := rfl

/-- A point of a gap is held by no fewer intervals than reach over the gap. -/
theorem across_le_count (hp : p ≤ q) (hr : q ≤ r) :
    across low high xs p r ≤ count low high xs q := by
  apply List.countP_mono_left
  intro x _ hx
  simp only [decide_eq_true_eq] at hx ⊢
  exact ⟨hx.1.trans hp, hr.trans hx.2⟩

/-- Between neighbouring endpoints exactly the intervals that reach over the gap hold a point. -/
theorem count_eq_across (hgap : ∀ x ∈ xs, (low x ≤ p ∨ r ≤ low x) ∧ (high x ≤ p ∨ r ≤ high x))
    (hp : p < q) (hr : q < r) : count low high xs q = across low high xs p r := by
  apply List.countP_congr
  intro x hx
  obtain ⟨hlow, hhigh⟩ := hgap x hx
  simp only [decide_eq_true_eq]
  constructor
  · rintro ⟨h₁, h₂⟩
    exact ⟨hlow.resolve_right (not_le.mpr (h₁.trans_lt hr)),
      hhigh.resolve_left (not_le.mpr (hp.trans_le h₂))⟩
  · rintro ⟨h₁, h₂⟩
    exact ⟨h₁.trans hp.le, hr.le.trans h₂⟩

/-- No interval holds a point above all of them. -/
theorem count_eq_zero_of_above (h : ∀ x ∈ xs, high x < q) : count low high xs q = 0 := by
  apply List.countP_eq_zero.mpr
  intro x hx
  simp only [decide_eq_true_eq, not_and, not_le]
  exact fun _ => h x hx

/-- No interval holds a point below all of them. -/
theorem count_eq_zero_of_below (h : ∀ x ∈ xs, q < low x) : count low high xs q = 0 := by
  apply List.countP_eq_zero.mpr
  intro x hx
  simp only [decide_eq_true_eq, not_and, not_le]
  exact fun hle => absurd (h x hx) (not_lt.mpr hle)

section Votes

variable {κ : Type*} [DecidableEq κ] {voter : ι → κ} {faulty : Finset κ}

/-- Distinct voters of whom few are faulty cast few faulty votes. -/
theorem countP_faulty_le (hdistinct : (xs.map voter).Nodup) :
    (xs.countP fun x => voter x ∈ faulty) ≤ faulty.card := by
  have hnodup : ((xs.filter fun x => voter x ∈ faulty).map voter).Nodup :=
    hdistinct.sublist (List.filter_sublist.map voter)
  rw [List.countP_eq_length_filter, ← List.length_map voter, ← List.toFinset_card_of_nodup hnodup]
  apply Finset.card_le_card
  intro v hv
  rw [List.mem_toFinset, List.mem_map] at hv
  obtain ⟨x, hx, rfl⟩ := hv
  exact of_decide_eq_true (List.mem_filter.mp hx).2

/-- A point held by more voters than are faulty is held by an honest one. -/
theorem exists_honest (hdistinct : (xs.map voter).Nodup)
    (h : faulty.card < count low high xs q) :
    ∃ x ∈ xs, voter x ∉ faulty ∧ low x ≤ q ∧ q ≤ high x := by
  by_contra hnone
  push Not at hnone
  apply absurd h
  rw [not_lt]
  refine le_trans (List.countP_mono_left ?_) (countP_faulty_le hdistinct)
  intro x hx hhold
  simp only [decide_eq_true_eq] at hhold ⊢
  by_contra hhonest
  exact absurd hhold.2 (not_le.mpr (hnone x hx hhonest hhold.1))

/-- A point that every honest voter holds is held by all but the faulty ones. -/
theorem le_count_of_honest (hdistinct : (xs.map voter).Nodup)
    (h : ∀ x ∈ xs, voter x ∉ faulty → low x ≤ q ∧ q ≤ high x) :
    xs.length - faulty.card ≤ count low high xs q := by
  have hfaulty : (xs.countP fun x => voter x ∈ faulty) ≤ faulty.card := countP_faulty_le hdistinct
  have hsplit := List.length_eq_countP_add_countP (fun x => decide (voter x ∈ faulty)) (l := xs)
  have hhonest : (xs.countP fun x => decide ¬decide (voter x ∈ faulty) = true)
      ≤ count low high xs q := by
    apply List.countP_mono_left
    intro x hx hnot
    simp only [decide_eq_true_eq] at hnot ⊢
    exact h x hx hnot
  omega

end Votes

end Coverage

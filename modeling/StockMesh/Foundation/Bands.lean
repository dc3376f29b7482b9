import Mathlib.Algebra.BigOperators.Group.Finset.Basic
import Mathlib.Algebra.Order.BigOperators.Group.List
import Mathlib.Algebra.BigOperators.Ring.Finset
import Mathlib.Tactic.Ring
import Mathlib.Tactic.Linarith

/-! # Step functions given by bands

A list of bands, each with a width and a slope, describes a non-negative step function. `area bs x`
is its integral over the first `x` units, the bands taken in order, and `fill owner bs x i` is how
much of these `x` units falls on the bands of owner `i`.

When the slopes never increase, `area` is the best a splitter of `x` units can do: the bands of
several owners may be filled separately, and the separate areas never exceed the area of the whole
list at the summed amount (`sum_area_filter_le`). -/

namespace Bands

variable {β ι : Type*} (width slope : β → ℕ)

/-- Total width of a list of bands. -/
def total (bs : List β) : ℕ := (bs.map width).sum

/-- Integral of the step function over the first `x` units. -/
def area : List β → ℕ → ℕ
  | [], _ => 0
  | b :: bs, x => min x (width b) * slope b + area bs (x - width b)

@[simp] theorem total_nil : total width ([] : List β) = 0 := rfl

@[simp] theorem total_cons (b : β) (bs : List β) :
    total width (b :: bs) = width b + total width bs := by
  simp [total]

@[simp] theorem total_append (as bs : List β) :
    total width (as ++ bs) = total width as + total width bs := by
  simp [total]

@[simp] theorem area_nil (x : ℕ) : area width slope ([] : List β) x = 0 := rfl

theorem area_cons (b : β) (bs : List β) (x : ℕ) :
    area width slope (b :: bs) x
      = min x (width b) * slope b + area width slope bs (x - width b) := rfl

/-- Nothing is integrated over no units. -/
@[simp] theorem area_zero (bs : List β) : area width slope bs 0 = 0 := by
  induction bs with
  | nil => rfl
  | cons b bs ih => simp [area_cons, ih]

/-- The integral over a longer stretch is larger. -/
theorem area_mono (bs : List β) {x y : ℕ} (h : x ≤ y) :
    area width slope bs x ≤ area width slope bs y := by
  induction bs generalizing x y with
  | nil => exact le_rfl
  | cons b bs ih =>
    rw [area_cons, area_cons]
    have hmin : min x (width b) ≤ min y (width b) := min_le_min_right _ h
    exact Nat.add_le_add (Nat.mul_le_mul_right _ hmin) (ih (Nat.sub_le_sub_right h _))

/-- A bound on the slopes bounds the growth of the integral. -/
theorem area_add_le (bs : List β) {s : ℕ} (hs : ∀ b ∈ bs, slope b ≤ s) (x d : ℕ) :
    area width slope bs (x + d) ≤ area width slope bs x + d * s := by
  induction bs generalizing x d with
  | nil => simp
  | cons b bs ih =>
    have hb : slope b ≤ s := hs b (by simp)
    -- `d` splits into what the head band still takes and what reaches the tail
    obtain ⟨e, e', hd, hmin, hsub⟩ : ∃ e e', d = e + e' ∧
        min (x + d) (width b) = min x (width b) + e ∧ x + d - width b = x - width b + e' := by
      refine ⟨min (x + d) (width b) - min x (width b),
        d - (min (x + d) (width b) - min x (width b)), ?_, ?_, ?_⟩ <;> omega
    have htail := ih (fun b' hb' => hs b' (by simp [hb'])) (x - width b) e'
    rw [area_cons, area_cons, hmin, hsub, hd]
    have hhead : e * slope b ≤ e * s := Nat.mul_le_mul_left e hb
    calc (min x (width b) + e) * slope b + area width slope bs (x - width b + e')
        ≤ (min x (width b) * slope b + e * s) + (area width slope bs (x - width b) + e' * s) := by
          rw [Nat.add_mul]; omega
      _ = min x (width b) * slope b + area width slope bs (x - width b) + (e + e') * s := by ring

/-- A bound on the slopes bounds the integral. -/
theorem area_le (bs : List β) {s : ℕ} (hs : ∀ b ∈ bs, slope b ≤ s) (x : ℕ) :
    area width slope bs x ≤ x * s := by
  simpa using area_add_le width slope bs hs 0 x

/-- The integral along a concatenation. -/
theorem area_append (as bs : List β) (x : ℕ) :
    area width slope (as ++ bs) x
      = area width slope as x + area width slope bs (x - total width as) := by
  induction as generalizing x with
  | nil => simp
  | cons a as ih =>
    rw [List.cons_append, area_cons, area_cons, ih, total_cons, Nat.sub_add_eq]
    ring

/-- Past the last band the integral stays at its total. -/
theorem area_of_total_le (bs : List β) {x : ℕ} (h : total width bs ≤ x) :
    area width slope bs x = (bs.map fun b => width b * slope b).sum := by
  induction bs generalizing x with
  | nil => simp
  | cons b bs ih =>
    rw [total_cons] at h
    rw [area_cons, min_eq_right (by omega), ih (by omega), List.map_cons, List.sum_cons]

/-- Bands under a renaming. -/
theorem total_map {γ : Type*} (f : γ → β) (cs : List γ) :
    total width (cs.map f) = total (fun c => width (f c)) cs := by
  rw [total, total, List.map_map]
  rfl

/-- The integral of bands under a renaming. -/
theorem area_map {γ : Type*} (f : γ → β) (cs : List γ) (x : ℕ) :
    area width slope (cs.map f) x = area (fun c => width (f c)) (fun c => slope (f c)) cs x := by
  induction cs generalizing x with
  | nil => rfl
  | cons c cs ih => rw [List.map_cons, area_cons, area_cons, ih]

/-! ## Several owners -/

section Owners

variable {width slope}

variable (width) in
/-- Splitting a non-increasing list in two and filling the parts separately gains nothing. -/
theorem area_filter_add_le {bs : List β} (hsorted : bs.Pairwise fun a b => slope b ≤ slope a)
    (p : β → Bool) (x y : ℕ) :
    area width slope (bs.filter p) x + area width slope (bs.filter fun b => !p b) y
      ≤ area width slope bs (x + y) := by
  induction bs generalizing x y with
  | nil => simp
  | cons b bs ih =>
    obtain ⟨hhead, htail⟩ := List.pairwise_cons.mp hsorted
    -- the head band takes `z` of its owner's units; the whole list gives it `z + e` of all units
    have step : ∀ z x' y' : ℕ, z ≤ min (x + y) (width b) → x' + y' = x + y - z →
        area width slope (bs.filter p) x' + area width slope (bs.filter fun b => !p b) y'
            + z * slope b ≤ area width slope (b :: bs) (x + y) := by
      intro z x' y' hz hsum
      obtain ⟨e, he⟩ := Nat.exists_eq_add_of_le hz
      have hlip := area_add_le width slope bs hhead (x + y - width b) e
      have hrest : x' + y' = x + y - width b + e := by omega
      have hih := ih htail x' y'
      rw [hrest] at hih
      rw [area_cons, he, Nat.add_mul]
      omega
    by_cases hb : p b
    · rw [List.filter_cons_of_pos hb, List.filter_cons_of_neg (by simp [hb]), area_cons]
      have := step (min x (width b)) (x - width b) y (by omega) (by omega)
      omega
    · rw [List.filter_cons_of_neg hb, List.filter_cons_of_pos (by simp [hb]), area_cons]
      have := step (min y (width b)) x (y - width b) (by omega) (by omega)
      omega

variable [DecidableEq ι] (owner : β → ι)

/-- Filling every owner's bands separately gains nothing over filling the sorted list. -/
theorem sum_area_filter_le {bs : List β} (hsorted : bs.Pairwise fun a b => slope b ≤ slope a)
    (s : Finset ι) (y : ι → ℕ) :
    ∑ i ∈ s, area width slope (bs.filter fun b => decide (owner b = i)) (y i)
      ≤ area width slope bs (∑ i ∈ s, y i) := by
  induction s using Finset.induction_on generalizing bs with
  | empty => simp
  | insert i s hi ih =>
    rw [Finset.sum_insert hi, Finset.sum_insert hi]
    have hrest : ∀ j ∈ s, (bs.filter fun b => decide (owner b = j))
        = (bs.filter fun b => !decide (owner b = i)).filter fun b => decide (owner b = j) := by
      intro j hj
      rw [List.filter_filter]
      refine List.filter_congr fun b _ => ?_
      by_cases hb : owner b = j
      · have hij : ¬j = i := fun h => hi (h ▸ hj)
        simp [hb, hij]
      · simp [hb]
    have hsplit := area_filter_add_le width hsorted
      (fun b => decide (owner b = i)) (y i) (∑ j ∈ s, y j)
    have hih := ih (List.Pairwise.filter (fun b => !decide (owner b = i)) hsorted)
    rw [Finset.sum_congr rfl fun j hj => by rw [hrest j hj]]
    omega

/-- Units of the first `x` that fall on the bands of owner `i`. -/
def fill (width : β → ℕ) : List β → ℕ → ι → ℕ
  | [], _, _ => 0
  | b :: bs, x, i => (if owner b = i then min x (width b) else 0) + fill width bs (x - width b) i

@[simp] theorem fill_nil (x : ℕ) (i : ι) : fill owner width ([] : List β) x i = 0 := rfl

theorem fill_cons (b : β) (bs : List β) (x : ℕ) (i : ι) :
    fill owner width (b :: bs) x i
      = (if owner b = i then min x (width b) else 0) + fill owner width bs (x - width b) i := rfl

@[simp] theorem fill_zero (bs : List β) (i : ι) : fill owner width bs 0 i = 0 := by
  induction bs with
  | nil => rfl
  | cons b bs ih => simp [fill_cons, ih]

/-- The owners' shares along a concatenation. -/
theorem fill_append (as bs : List β) (x : ℕ) (i : ι) :
    fill owner width (as ++ bs) x i
      = fill owner width as x i + fill owner width bs (x - total width as) i := by
  induction as generalizing x with
  | nil => simp
  | cons a as ih =>
    rw [List.cons_append, fill_cons, fill_cons, ih, total_cons, Nat.sub_add_eq, Nat.add_assoc]

/-- Past the last band every owner has all of its bands. -/
theorem fill_of_total_le (bs : List β) {x : ℕ} (h : total width bs ≤ x) (i : ι) :
    fill owner width bs x i = total width (bs.filter fun b => decide (owner b = i)) := by
  induction bs generalizing x with
  | nil => simp
  | cons b bs ih =>
    rw [total_cons] at h
    rw [fill_cons, ih (by omega), min_eq_right (by omega : width b ≤ x)]
    by_cases hb : owner b = i <;> simp [hb]

/-- An owner never gets more than its bands hold. -/
theorem fill_le_total (bs : List β) (x : ℕ) (i : ι) :
    fill owner width bs x i ≤ total width (bs.filter fun b => decide (owner b = i)) := by
  induction bs generalizing x with
  | nil => simp
  | cons b bs ih =>
    have := ih (x - width b)
    rw [fill_cons]
    by_cases hb : owner b = i <;> simp [hb] <;> omega

/-- An owner without bands gets nothing. -/
theorem fill_eq_zero {bs : List β} {i : ι} (h : ∀ b ∈ bs, owner b ≠ i) (x : ℕ) :
    fill owner width bs x i = 0 := by
  induction bs generalizing x with
  | nil => rfl
  | cons b bs ih =>
    rw [fill_cons, if_neg (h b (by simp)), ih fun b' hb' => h b' (by simp [hb'])]

/-- The shares of all owners add up to the amount, as far as the bands reach. -/
theorem sum_fill {bs : List β} {s : Finset ι} (hs : ∀ b ∈ bs, owner b ∈ s) (x : ℕ) :
    ∑ i ∈ s, fill owner width bs x i = min x (total width bs) := by
  induction bs generalizing x with
  | nil => simp
  | cons b bs ih =>
    have hb : owner b ∈ s := hs b (by simp)
    simp only [fill_cons, Finset.sum_add_distrib, Finset.sum_ite_eq, if_pos hb,
      ih (fun b' hb' => hs b' (by simp [hb'])), total_cons]
    omega

/-- An owner's share is the part of its own bands that the integral over the list covers: the
integral of the list is the sum of the owners' integrals over their shares. -/
theorem area_eq_sum_fill {bs : List β} {s : Finset ι} (hs : ∀ b ∈ bs, owner b ∈ s) (x : ℕ) :
    area width slope bs x
      = ∑ i ∈ s, area width slope (bs.filter fun b => decide (owner b = i))
          (fill owner width bs x i) := by
  induction bs generalizing x with
  | nil => simp
  | cons b bs ih =>
    have hb : owner b ∈ s := hs b (by simp)
    rw [area_cons, ih fun b' hb' => hs b' (by simp [hb'])]
    have hhead : min x (width b) * slope b
        = ∑ i ∈ s, if owner b = i then min x (width b) * slope b else 0 := by
      rw [Finset.sum_ite_eq, if_pos hb]
    rw [hhead, ← Finset.sum_add_distrib]
    refine Finset.sum_congr rfl fun i _ => ?_
    rw [fill_cons]
    by_cases hbi : owner b = i
    · rw [if_pos hbi, if_pos hbi, List.filter_cons_of_pos (by simp [hbi]), area_cons]
      rcases Nat.le_total x (width b) with hx | hx
      · rw [Nat.sub_eq_zero_of_le hx, fill_zero, Nat.add_zero, min_eq_left hx, min_eq_left hx,
          Nat.sub_eq_zero_of_le hx]
      · rw [min_eq_right hx, min_eq_right (Nat.le_add_right _ _), Nat.add_sub_cancel_left]
    · rw [if_neg hbi, if_neg hbi, List.filter_cons_of_neg (by simp [hbi]), Nat.zero_add,
        Nat.zero_add]

end Owners

end Bands

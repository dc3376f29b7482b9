import Mathlib.Data.Nat.Basic
import Mathlib.Data.List.Basic
import Mathlib.Order.Basic
import Mathlib.Tactic.Common

/-! # Breakpoints

A sequence of breakpoints is kept in the first places of an array. It is ordered (`Ordered`) if every
breakpoint stands in a relation to all later ones; an insertion between two places keeps that if the new
one stands right to both sides (`Ordered.insertAt`). A search finds the first place where a test fails
(`partitionPoint`), and between two breakpoints a value moves in proportion, rounded down (`share`). -/

namespace Breakpoints

variable {α : Type*} {R : α → α → Prop} {points : ℕ → α} {n p : ℕ} {x : α}

/-! ## Order -/

/-- The first `n` points stand in the relation, each to all later ones. -/
def Ordered (R : α → α → Prop) (n : ℕ) (points : ℕ → α) : Prop :=
  ∀ i j, i < j → j < n → R (points i) (points j)

theorem Ordered.congr {points' : ℕ → α} (h : Ordered R n points) (heq : ∀ i < n, points' i = points i) :
    Ordered R n points' := by
  intro i j hij hj
  rw [heq i (Nat.lt_trans hij hj), heq j hj]
  exact h i j hij hj

/-- Points with one more at a place, behind which the others move up. -/
def insertAt (points : ℕ → α) (p : ℕ) (x : α) (i : ℕ) : α :=
  if i < p then points i else if i = p then x else points (i - 1)

theorem insertAt_of_lt {i : ℕ} (h : i < p) : insertAt points p x i = points i := if_pos h

@[simp] theorem insertAt_self : insertAt points p x p = x := by simp [insertAt]

theorem insertAt_of_gt {i : ℕ} (h : p < i) : insertAt points p x i = points (i - 1) := by
  rw [insertAt, if_neg (Nat.not_lt.mpr (Nat.le_of_lt h)), if_neg (Nat.ne_of_gt h)]

/-- A point that stands right to both sides may be inserted. -/
theorem Ordered.insertAt (h : Ordered R n points) (hp : p ≤ n) (hbefore : ∀ i < p, R (points i) x)
    (hafter : ∀ i, p ≤ i → i < n → R x (points i)) : Ordered R (n + 1) (insertAt points p x) := by
  intro i j hij hj
  rcases Nat.lt_trichotomy i p with hi | rfl | hi
  · rw [insertAt_of_lt hi]
    rcases Nat.lt_trichotomy j p with hjp | rfl | hjp
    · rw [insertAt_of_lt hjp]
      exact h i j hij (by omega)
    · rw [insertAt_self]
      exact hbefore i hi
    · rw [insertAt_of_gt hjp]
      exact h i (j - 1) (by omega) (by omega)
  · rw [insertAt_self, insertAt_of_gt hij]
    exact hafter (j - 1) (by omega) (by omega)
  · rw [insertAt_of_gt hi, insertAt_of_gt (Nat.lt_trans hi hij)]
    exact h (i - 1) (j - 1) (by omega) (by omega)

/-! ## Search -/

/-- The first place where a test fails, or the number of places. -/
def partitionPoint (n : ℕ) (test : ℕ → Bool) : ℕ := (List.range n).findIdx fun i => !test i

variable {test test' : ℕ → Bool}

theorem partitionPoint_le (n : ℕ) (test : ℕ → Bool) : partitionPoint n test ≤ n := by
  have h := @List.findIdx_le_length ℕ (fun i => !test i) (List.range n)
  rwa [List.length_range] at h

/-- The test holds before the place. -/
theorem test_of_lt {i : ℕ} (h : i < partitionPoint n test) : test i = true := by
  have hi : i < (List.range n).length := by
    rw [List.length_range]
    exact Nat.lt_of_lt_of_le h (partitionPoint_le n test)
  simpa using List.not_of_lt_findIdx h

/-- The test fails at the place. -/
theorem test_partitionPoint (h : partitionPoint n test < n) : test (partitionPoint n test) = false := by
  have hlt : (List.range n).findIdx (fun i => !test i) < (List.range n).length := by
    rwa [List.length_range]
  have hfound := @List.findIdx_getElem ℕ (fun i => !test i) (List.range n) hlt
  rw [List.getElem_range] at hfound
  rw [partitionPoint]
  simpa using hfound

/-- A place before which the test holds and where it fails is the place. -/
theorem partitionPoint_eq {i : ℕ} (hi : i < n) (hbefore : ∀ j < i, test j = true) (hat : test i = false) :
    partitionPoint n test = i := by
  rcases Nat.lt_trichotomy (partitionPoint n test) i with hlt | heq | hgt
  · have hfails := test_partitionPoint (Nat.lt_trans hlt hi)
    rw [hbefore _ hlt] at hfails
    cases hfails
  · exact heq
  · rw [test_of_lt hgt] at hat
    cases hat

/-- A weaker test fails later. -/
theorem partitionPoint_mono (h : ∀ i, test i = true → test' i = true) :
    partitionPoint n test ≤ partitionPoint n test' := by
  by_contra hlt
  have hlt := Nat.lt_of_not_le hlt
  have hfails := test_partitionPoint (Nat.lt_of_lt_of_le hlt (partitionPoint_le n test))
  rw [h _ (test_of_lt hlt)] at hfails
  cases hfails

/-! ## Proportion -/

/-- What a rise over `run` makes of a part of it, rounded down. -/
def share (rise run part : ℕ) : ℕ := rise * part / run

variable {rise run part part' : ℕ}

theorem share_le (h : part ≤ run) : share rise run part ≤ rise := by
  rcases Nat.eq_zero_or_pos run with rfl | hrun
  · rw [share, Nat.div_zero]
    exact Nat.zero_le _
  · calc rise * part / run ≤ rise * run / run := Nat.div_le_div_right (Nat.mul_le_mul_left rise h)
      _ = rise := Nat.mul_div_cancel rise hrun

theorem share_mono (h : part ≤ part') : share rise run part ≤ share rise run part' :=
  Nat.div_le_div_right (Nat.mul_le_mul_left rise h)

end Breakpoints

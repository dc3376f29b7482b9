import Mathlib.Data.List.GetD
import Mathlib.Data.List.Perm.Basic
import Mathlib.Data.List.Sort
import Mathlib.Logic.Function.Basic

/-! # Insertion into an array from its end

The elements of an array that are greater than a new one move up by one place, beginning with the last,
and the new one takes the place that this frees. What was sorted stays so, and the new element comes after
those of its own key: the array is a stable sort of what was inserted (`Sorts`). -/

namespace Insertion

variable {α κ : Type*} [LinearOrder κ] (key : α → κ)

/-- Insert `x` among the first `n` elements. -/
def insert (x : α) : ℕ → (ℕ → α) → ℕ → α
  | 0, a => Function.update a 0 x
  | n + 1, a =>
    if key (a n) ≤ key x then Function.update a (n + 1) x
    else insert x n (Function.update a (n + 1) (a n))

/-- The first `n` elements. -/
def listing (a : ℕ → α) (n : ℕ) : List α := (List.range n).map a

theorem listing_succ (a : ℕ → α) (n : ℕ) : listing a (n + 1) = listing a n ++ [a n] := by
  simp [listing, List.range_succ]

theorem length_listing (a : ℕ → α) (n : ℕ) : (listing a n).length = n := by
  simp [listing]

theorem listing_congr {a b : ℕ → α} {n : ℕ} (h : ∀ i < n, a i = b i) : listing a n = listing b n :=
  List.map_congr_left fun i hi => h i (List.mem_range.mp hi)

variable {key}

/-- What lies beyond the array is not touched. -/
theorem insert_of_lt {x : α} {n j : ℕ} (a : ℕ → α) (h : n < j) : insert key x n a j = a j := by
  induction n generalizing a with
  | zero => exact Function.update_of_ne (by omega) _ _
  | succ n ih =>
    rw [insert]
    split
    · exact Function.update_of_ne (by omega) _ _
    · rw [ih _ (by omega)]
      exact Function.update_of_ne (by omega) _ _

/-- The new element comes before those that are greater, and the one before it is not. -/
theorem exists_insert (x : α) (n : ℕ) (a : ℕ → α) : ∃ before after,
    listing a n = before ++ after ∧ listing (insert key x n a) (n + 1) = before ++ x :: after ∧
      (∀ y ∈ before.getLast?, key y ≤ key x) ∧ ∀ y ∈ after, key x < key y := by
  induction n generalizing a with
  | zero =>
    refine ⟨[], [], rfl, by simp [listing, insert], fun y hy => ?_, fun y hy => ?_⟩
    · cases hy
    · cases hy
  | succ n ih =>
    rw [insert]
    split
    · next hle =>
      refine ⟨listing a (n + 1), [], (List.append_nil _).symm, ?_, ?_, fun y hy => ?_⟩
      · rw [listing_succ, Function.update_self]
        congr 1
        exact listing_congr fun i hi => Function.update_of_ne (by omega) _ _
      · rw [listing_succ, List.getLast?_append_of_ne_nil _ (List.cons_ne_nil _ _)]
        intro y hy
        obtain rfl : a n = y := by simpa using hy
        exact hle
      · cases hy
    · next hlt =>
      obtain ⟨before, after, hold, hnew, hlast, hgreater⟩ := ih (Function.update a (n + 1) (a n))
      have hsame : listing (Function.update a (n + 1) (a n)) n = listing a n :=
        listing_congr fun i hi => Function.update_of_ne (by omega) _ _
      refine ⟨before, after ++ [a n], ?_, ?_, hlast, ?_⟩
      · rw [listing_succ, ← hsame, hold, List.append_assoc]
      · rw [listing_succ, hnew, insert_of_lt _ (Nat.lt_succ_self n), Function.update_self]
        simp
      · intro y hy
        rcases List.mem_append.mp hy with hy | hy
        · exact hgreater y hy
        · obtain rfl := List.mem_singleton.mp hy
          exact not_le.mp hlt

variable (key) in
/-- `ys` holds the elements of `xs` by key, those of one key in the order of `xs`. -/
structure Sorts (xs ys : List α) : Prop where
  perm : ys.Perm xs
  sorted : ys.Pairwise fun x y => key x ≤ key y
  stable : ∀ k, (ys.filter fun y => key y = k) = xs.filter fun x => key x = k

namespace Sorts

variable {xs ys xs' ys' before after : List α} {x : α}

theorem nil : Sorts key ([] : List α) [] := ⟨.nil, .nil, fun _ => rfl⟩

/-- A new element goes after all that are not greater. -/
theorem insert (h : Sorts key xs (before ++ after)) (hlast : ∀ y ∈ before.getLast?, key y ≤ key x)
    (hafter : ∀ y ∈ after, key x < key y) : Sorts key (xs ++ [x]) (before ++ x :: after) := by
  obtain ⟨hsortedBefore, hsortedAfter, hacross⟩ := List.pairwise_append.mp h.sorted
  have hbefore : ∀ y ∈ before, key y ≤ key x := by
    rcases List.eq_nil_or_concat before with rfl | ⟨init, last, heq⟩
    · exact fun _ hy => absurd hy List.not_mem_nil
    rw [List.concat_eq_append] at heq
    subst heq
    have hle : key last ≤ key x := hlast last (by simp)
    intro y hy
    rcases List.mem_append.mp hy with hy | hy
    · exact ((List.pairwise_append.mp hsortedBefore).2.2 y hy last (List.mem_singleton_self _)).trans hle
    · obtain rfl := List.mem_singleton.mp hy
      exact hle
  constructor
  · have hmiddle : (before ++ x :: after).Perm (x :: (before ++ after)) := List.perm_middle
    exact hmiddle.trans ((h.perm.cons x).trans (List.perm_append_singleton x xs).symm)
  · refine List.pairwise_append.mpr ⟨hsortedBefore, List.pairwise_cons.mpr
      ⟨fun y hy => (hafter y hy).le, hsortedAfter⟩, fun y hy z hz => ?_⟩
    rcases List.mem_cons.mp hz with rfl | hz
    · exact hbefore y hy
    · exact hacross y hy z hz
  · intro k
    have hstable := h.stable k
    rw [List.filter_append] at hstable
    by_cases hk : key x = k
    · -- the greater elements have other keys
      have hnone : (after.filter fun y => key y = k) = [] := by
        apply List.filter_eq_nil_iff.mpr
        intro y hy
        have hlt := hafter y hy
        simpa [← hk] using hlt.ne'
      rw [hnone, List.append_nil] at hstable
      simp [List.filter_append, hk, hnone, hstable]
    · simp [List.filter_append, hk, hstable]

/-- Inserting into an array continues its sort. -/
theorem listing {a : ℕ → α} {n : ℕ} (h : Sorts key xs (listing a n)) (x : α) :
    Sorts key (xs ++ [x]) (Insertion.listing (Insertion.insert key x n a) (n + 1)) := by
  obtain ⟨before, after, hold, hnew, hlast, hafter⟩ := @exists_insert α κ _ key x n a
  rw [hold] at h
  rw [hnew]
  exact h.insert hlast hafter

/-- The keys of a sort are those of any other sort of the same elements. -/
theorem keys_eq (h : Sorts key xs ys) (h' : Sorts key xs' ys') (hperm : xs'.Perm xs) :
    ys'.map key = ys.map key := by
  have hkeys : (ys'.map key).Perm (ys.map key) :=
    (h'.perm.trans (hperm.trans h.perm.symm)).map key
  exact hkeys.eq_of_pairwise' (List.pairwise_map.mpr h'.sorted) (List.pairwise_map.mpr h.sorted)

end Sorts

end Insertion

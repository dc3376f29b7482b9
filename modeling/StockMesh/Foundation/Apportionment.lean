import Mathlib.Data.List.Sort
import Mathlib.Data.List.Nodup
import Mathlib.Data.Nat.Cast.Order.Ring

/-! # Largest remainders

Parts of a total are rounded down to whole units, and the units that are left over go, one each, to
the parts with the largest remainders. Which parts these are depends on the order of their keys only
(`mem_take_insertionSort_iff`). There are never more units left than parts with a remainder
(`residual_le_countP`), so the units handed out are all the units (`sum_bump`). -/

namespace StockMesh

/-! ## The first entries of a sorted list -/

section

variable {α κ : Type} [LinearOrder κ] {key : α → κ}

/-- The first `n` entries of a sorted list are those with fewer than `n` entries before them. -/
theorem mem_take_iff_countP_lt {xs : List α} (hsorted : xs.Pairwise fun a b => key a < key b) {n : ℕ} {x : α} :
    x ∈ xs.take n ↔ x ∈ xs ∧ xs.countP (key · < key x) < n := by
  induction xs generalizing n with
  | nil => simp
  | cons a xs ih =>
    obtain ⟨ha, hsorted⟩ := List.pairwise_cons.mp hsorted
    cases n with
    | zero => simp
    | succ n =>
      rw [List.take_succ_cons, List.mem_cons, ih hsorted, List.mem_cons, List.countP_cons]
      by_cases hx : x ∈ xs
      · -- the head is before `x`
        have hne : x ≠ a := fun h => (ha x hx).ne (h ▸ rfl)
        simp [hx, hne, ha x hx]
      · have hnone : xs.countP (key · < key a) = 0 :=
          List.countP_eq_zero.mpr fun b hb => by simpa using (ha b hb).le
        constructor
        · rintro (rfl | ⟨hmem, -⟩)
          · simp [hnone]
          · exact absurd hmem hx
        · rintro ⟨rfl | hmem, -⟩
          · exact .inl rfl
          · exact absurd hmem hx

/-- A list with distinct keys is sorted strictly. -/
theorem pairwise_lt_insertionSort {xs : List α} (hnodup : (xs.map key).Nodup) :
    (xs.insertionSort fun a b => key a ≤ key b).Pairwise fun a b => key a < key b := by
  have htotal : Std.Total fun a b : α => key a ≤ key b := ⟨fun a b => le_total (key a) (key b)⟩
  have htrans : IsTrans α fun a b => key a ≤ key b := ⟨fun _ _ _ => le_trans⟩
  have hle := List.pairwise_insertionSort (fun a b : α => key a ≤ key b) xs
  have hperm := (List.perm_insertionSort (fun a b : α => key a ≤ key b) xs).map key
  have hne := List.pairwise_map.mp (hperm.nodup_iff.mpr hnodup)
  exact hle.imp₂ (fun _ _ => lt_of_le_of_ne) hne

/-- Which entries a sort puts first is decided by counting, whatever their places were. -/
theorem mem_take_insertionSort_iff {xs : List α} (hnodup : (xs.map key).Nodup) {n : ℕ} {x : α} :
    x ∈ (xs.insertionSort fun a b => key a ≤ key b).take n ↔
      x ∈ xs ∧ xs.countP (key · < key x) < n := by
  rw [mem_take_iff_countP_lt (pairwise_lt_insertionSort hnodup), List.mem_insertionSort,
    (List.perm_insertionSort _ xs).countP_eq]

end

/-! ## Parts and remainders -/

section

variable {α : Type} (amount : α → ℕ) (whole : ℕ)

/-- The amounts are their whole units with their remainders. -/
theorem mul_sum_div_add_sum_mod (xs : List α) :
    whole * (xs.map fun x => amount x / whole).sum + (xs.map fun x => amount x % whole).sum =
      (xs.map amount).sum := by
  induction xs with
  | nil => simp
  | cons x xs ih =>
    have hx := Nat.div_add_mod (amount x) whole
    simp only [List.map_cons, List.sum_cons, Nat.mul_add]
    omega

/-- Each remainder is less than a unit. -/
theorem sum_mod_le (hwhole : 0 < whole) (xs : List α) :
    (xs.map fun x => amount x % whole).sum ≤
      (whole - 1) * xs.countP fun x => decide (amount x % whole ≠ 0) := by
  induction xs with
  | nil => simp
  | cons x xs ih =>
    have hx := Nat.mod_lt (amount x) hwhole
    rw [List.map_cons, List.sum_cons, List.countP_cons]
    by_cases hzero : amount x % whole = 0
    · simpa [hzero] using ih
    · simp only [ne_eq, hzero, not_false_eq_true, decide_true, if_true, Nat.mul_add, Nat.mul_one] at ih ⊢
      omega

variable {amount whole} {total : ℕ} {xs : List α}

/-- Whole units never exceed the total. -/
theorem sum_quota_le (hwhole : 0 < whole) (hsum : (xs.map amount).sum = total * whole) :
    (xs.map fun x => amount x / whole).sum ≤ total := by
  have h := mul_sum_div_add_sum_mod amount whole xs
  refine Nat.le_of_mul_le_mul_left ?_ hwhole
  rw [Nat.mul_comm whole total, ← hsum]
  omega

/-- There are at most as many units left as parts with a remainder. -/
theorem residual_le_countP (hwhole : 0 < whole) (hsum : (xs.map amount).sum = total * whole) :
    total - (xs.map fun x => amount x / whole).sum ≤
      xs.countP fun x => decide (amount x % whole ≠ 0) := by
  have h := mul_sum_div_add_sum_mod amount whole xs
  have hmod := sum_mod_le amount whole hwhole xs
  apply Nat.le_of_mul_le_mul_left _ hwhole
  calc whole * (total - (xs.map fun x => amount x / whole).sum)
      = (xs.map fun x => amount x % whole).sum := by
        rw [Nat.mul_sub, Nat.mul_comm whole total, ← hsum, ← h, Nat.add_sub_cancel_left]
    _ ≤ (whole - 1) * xs.countP fun x => decide (amount x % whole ≠ 0) := hmod
    _ ≤ whole * xs.countP fun x => decide (amount x % whole ≠ 0) := Nat.mul_le_mul_right _ (Nat.sub_le _ _)

end

/-! ## Units handed out -/

/-- One unit more at each of the places. -/
def bump (shares places : List ℕ) : List ℕ := places.foldl (fun shares i => shares.modify i (· + 1)) shares

@[simp] theorem bump_nil (shares : List ℕ) : bump shares [] = shares := rfl

@[simp] theorem bump_cons (shares places : List ℕ) (i : ℕ) :
    bump shares (i :: places) = bump (shares.modify i (· + 1)) places := rfl

@[simp] theorem length_bump (shares places : List ℕ) : (bump shares places).length = shares.length := by
  induction places generalizing shares with
  | nil => rfl
  | cons i places ih => rw [bump_cons, ih, List.length_modify]

theorem getElem_bump (shares places : List ℕ) {i : ℕ} (hi : i < shares.length) :
    (bump shares places)[i]? = some (shares[i] + places.count i) := by
  induction places generalizing shares with
  | nil => simp [hi]
  | cons j places ih =>
    rw [bump_cons, ih _ (by simpa using hi), List.getElem_modify, List.count_cons]
    by_cases hij : j = i
    · simp [hij]
      omega
    · simp [hij]

theorem sum_modify_succ {shares : List ℕ} {i : ℕ} (hi : i < shares.length) :
    (shares.modify i (· + 1)).sum = shares.sum + 1 := by
  induction shares generalizing i with
  | nil => exact absurd hi (Nat.not_lt_zero _)
  | cons a shares ih =>
    cases i with
    | zero =>
      rw [List.modify_zero_cons, List.sum_cons, List.sum_cons]
      omega
    | succ i =>
      rw [List.modify_succ_cons, List.sum_cons, List.sum_cons, ih (Nat.lt_of_succ_lt_succ hi)]
      omega

/-- Every unit handed out arrives. -/
theorem sum_bump {shares places : List ℕ} (h : ∀ i ∈ places, i < shares.length) :
    (bump shares places).sum = shares.sum + places.length := by
  induction places generalizing shares with
  | nil => simp
  | cons i places ih =>
    obtain ⟨hi, hrest⟩ := List.forall_mem_cons.mp h
    rw [bump_cons, ih (by simpa using hrest), sum_modify_succ hi, List.length_cons]
    omega

end StockMesh

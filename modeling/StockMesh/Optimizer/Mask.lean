import StockMesh.Basic
import Mathlib.Data.Fintype.Basic
import Mathlib.Data.List.FinRange
import Mathlib.Algebra.Ring.Nat

/-! # Venue masks

A `Mask` is the eight-bit set of candidate edges. The operations are the source's bit tricks; the
lemmas translate each to membership, which is all the optimizer reasons about. -/

namespace StockMesh

/-- Index of a candidate venue. -/
abbrev Edge := Fin maxEdges

instance lawfulBEqEdge : LawfulBEq Edge := inferInstance

/-- A `u8` bit set of edges. -/
abbrev Mask := BitVec 8

namespace Mask

/-- `mask & (1 << i) != 0`. -/
def has (m : Mask) (i : Edge) : Bool := m.getLsbD i

/-- `1 << i`. -/
def bit (i : Edge) : Mask := BitVec.twoPow 8 i

/-- `mask & !other == 0`. -/
def Within (m e : Mask) : Prop := m &&& ~~~e = 0

instance (m e : Mask) : Decidable (m.Within e) := inferInstanceAs (Decidable (_ = _))

/-- `mask.trailing_zeros()` of a non-zero mask. -/
def trailingZeros (m : Mask) : Edge := ((List.finRange maxEdges).find? m.has).getD 0

/-- `mask & (mask - 1)`. -/
def clearLowest (m : Mask) : Mask := m &&& (m - 1)

/-- The edges in the order of the loop `while mask != 0`, which takes the lowest bit each time. -/
def walk : ℕ → Mask → List Edge
  | 0, _ => []
  | k + 1, m => if m = 0 then [] else m.trailingZeros :: walk k m.clearLowest

/-- The edges of a mask in ascending order. -/
def edges (m : Mask) : List Edge := walk maxEdges m

/-- `mask.count_ones()`. -/
def countOnes (m : Mask) : ℕ := (List.finRange maxEdges).countP m.has

theorem ext {m m' : Mask} (h : ∀ i, m.has i = m'.has i) : m = m' :=
  BitVec.eq_of_getLsbD_eq fun i hi => h ⟨i, hi⟩

@[simp] theorem has_zero (i : Edge) : has 0 i = false := BitVec.getLsbD_zero

theorem eq_zero_iff {m : Mask} : m = 0 ↔ ∀ i, m.has i = false := by
  constructor
  · rintro rfl i
    exact has_zero i
  · intro h
    apply ext
    intro i
    rw [h, has_zero]

theorem has_bit (i j : Edge) : (bit i).has j = decide (i = j) := by
  unfold has bit
  rw [BitVec.getLsbD_twoPow]
  simp [Fin.ext_iff]

theorem has_or (m m' : Mask) (i : Edge) : has (m ||| m') i = (m.has i || m'.has i) :=
  BitVec.getLsbD_or

theorem has_and (m m' : Mask) (i : Edge) : has (m &&& m') i = (m.has i && m'.has i) :=
  BitVec.getLsbD_and

theorem has_not (m : Mask) (i : Edge) : has (~~~m) i = !m.has i := by
  unfold has
  rw [BitVec.getLsbD_not]
  simp [i.isLt]

/-- Within another mask means having no other edge. -/
theorem within_iff {m e : Mask} : m.Within e ↔ ∀ i, m.has i = true → e.has i = true := by
  unfold Within
  rw [eq_zero_iff]
  apply forall_congr'
  intro i
  rw [has_and, has_not]
  cases m.has i <;> cases e.has i <;> simp

/-- The walk over the bits visits exactly the edges. -/
theorem edges_eq (m : Mask) : m.edges = (List.finRange maxEdges).filter m.has := by
  revert m
  decide +kernel

@[simp] theorem mem_edges {m : Mask} {i : Edge} : i ∈ m.edges ↔ m.has i = true := by
  rw [edges_eq, List.mem_filter]
  simp [List.mem_finRange]

theorem edges_nodup (m : Mask) : m.edges.Nodup := by
  rw [edges_eq]
  exact (List.nodup_finRange maxEdges).filter _

/-- The walk visits the edges in ascending order. -/
theorem edges_sorted (m : Mask) : m.edges.Pairwise (· < ·) := by
  rw [edges_eq]
  exact (List.pairwise_lt_finRange maxEdges).filter _

theorem length_edges (m : Mask) : m.edges.length = m.countOnes := by
  rw [edges_eq, countOnes, List.countP_eq_length_filter]

/-- A mask below `2 ^ n` has edges below `n` only. -/
theorem toNat_lt_iff {m : Mask} {n : ℕ} : m.toNat < 2 ^ n ↔ ∀ i, m.has i = true → i.val < n := by
  constructor
  · intro h i hi
    by_contra hge
    have hle : 2 ^ n ≤ 2 ^ i.val := Nat.pow_le_pow_right (by decide) (by omega)
    have hbit : m.toNat.testBit i.val = true := hi
    rw [Nat.testBit_lt_two_pow (h.trans_le hle)] at hbit
    cases hbit
  · intro h
    apply Nat.lt_pow_two_of_testBit
    intro i hi
    rcases Nat.lt_or_ge i maxEdges with hlt | hge
    · by_contra hbit
      have hhas : m.has ⟨i, hlt⟩ = true := (Bool.not_eq_false _).mp hbit
      exact absurd (h ⟨i, hlt⟩ hhas) (by simpa using hi)
    · exact BitVec.getLsbD_of_ge m i hge

/-- The edges with a non-zero entry. -/
def support (f : Edge → ℕ) : Mask :=
  (List.finRange maxEdges).foldl (fun m i => if 0 < f i then m ||| bit i else m) 0

/-- Collecting the edges of a list with a non-zero entry. -/
theorem has_foldl_bit (f : Edge → ℕ) (l : List Edge) (m : Mask) (i : Edge) :
    (l.foldl (fun m i => if 0 < f i then m ||| bit i else m) m).has i
      = (m.has i || decide (i ∈ l ∧ 0 < f i)) := by
  induction l generalizing m with
  | nil => simp
  | cons j l ih =>
    rw [List.foldl_cons, ih]
    by_cases hj : 0 < f j
    · rw [if_pos hj, has_or, has_bit]
      by_cases hij : j = i
      · subst hij
        simp [hj]
      · simp [hij, Ne.symm hij]
    · rw [if_neg hj]
      by_cases hij : i = j
      · subst hij
        simp [hj]
      · simp [hij]

theorem has_support (f : Edge → ℕ) (i : Edge) : (support f).has i = decide (0 < f i) := by
  rw [support, has_foldl_bit, has_zero, Bool.false_or]
  simp [List.mem_finRange]

end Mask

end StockMesh

import Mathlib.Algebra.BigOperators.Group.Finset.Piecewise
import Mathlib.Algebra.Order.Group.Nat
import Mathlib.Data.List.Basic
import Mathlib.Data.Finset.Max
import Mathlib.Algebra.Order.BigOperators.Group.Finset
import Mathlib.Logic.Function.Basic
import Mathlib.Tactic.Push

/-! # Merging sorted streams

Every owner `i` has a stream of bands of non-increasing rate. A merge lists the bands of all streams
by descending rate, the lower owner first at equal rate and each stream in its own order.
`IsMerge` states this, `IsMerge.unique` says a merge is determined by its streams, and
`IsMerge.cons` and `IsMerge.uncons` are the step of every algorithm that emits the best head.
Restricting a merge to some owners gives the merge of their streams. -/

namespace Merge

open Function

variable {ι β : Type} [LinearOrder ι] {rate : β → ℕ}

/-- The bands of one owner. -/
def stream (L : List (ι × β)) (i : ι) : List β :=
  (L.filter fun p => decide (p.1 = i)).map Prod.snd

@[simp] theorem stream_nil (i : ι) : stream ([] : List (ι × β)) i = [] := rfl

theorem stream_cons (p : ι × β) (L : List (ι × β)) (i : ι) :
    stream (p :: L) i = if p.1 = i then p.2 :: stream L i else stream L i := by
  unfold stream
  by_cases h : p.1 = i
  · rw [if_pos h, List.filter_cons_of_pos (by simpa using h), List.map_cons]
  · rw [if_neg h, List.filter_cons_of_neg (by simpa using h)]

theorem stream_append (L M : List (ι × β)) (i : ι) :
    stream (L ++ M) i = stream L i ++ stream M i := by
  rw [stream, List.filter_append, List.map_append]
  rfl

theorem mem_stream {L : List (ι × β)} {i : ι} {b : β} : b ∈ stream L i ↔ (i, b) ∈ L := by
  constructor
  · intro h
    obtain ⟨⟨j, c⟩, hmem, rfl⟩ := List.mem_map.mp h
    obtain ⟨hL, hj⟩ := List.mem_filter.mp hmem
    obtain rfl : j = i := by simpa using hj
    exact hL
  · intro h
    exact List.mem_map.mpr ⟨(i, b), List.mem_filter.mpr ⟨h, by simp⟩, rfl⟩

/-- Keeping only some owners keeps or empties their streams. -/
theorem stream_filter (p : ι → Bool) (L : List (ι × β)) (i : ι) :
    stream (L.filter fun q => p q.1) i = if p i then stream L i else [] := by
  induction L with
  | nil => simp
  | cons q L ih =>
    rw [List.filter_cons]
    split
    · rename_i hq
      rw [stream_cons, stream_cons, ih]
      by_cases hi : q.1 = i
      · rw [if_pos hi, if_pos hi, if_pos (hi ▸ hq), if_pos (hi ▸ hq)]
      · rw [if_neg hi, if_neg hi]
    · rename_i hq
      rw [ih, stream_cons]
      by_cases hi : q.1 = i
      · rw [if_neg (hi ▸ hq), if_neg (hi ▸ hq)]
      · rw [if_neg hi]

/-- The streams partition the list. -/
theorem length_eq_sum [Fintype ι] (L : List (ι × β)) : L.length = ∑ i, (stream L i).length := by
  induction L with
  | nil => simp
  | cons p L ih =>
    have hstep : ∀ i, (stream (p :: L) i).length = (if p.1 = i then 1 else 0) + (stream L i).length := by
      intro i
      rw [stream_cons]
      split
      · rw [List.length_cons, Nat.add_comm]
      · rw [Nat.zero_add]
    simp only [hstep, Finset.sum_add_distrib, Finset.sum_ite_eq, Finset.mem_univ, if_true]
    rw [List.length_cons, ← ih, Nat.add_comm]

/-- `a` may stand before `b`: a larger rate, or an equal rate and no larger owner. -/
def Before (rate : β → ℕ) (a b : ι × β) : Prop :=
  rate b.2 < rate a.2 ∨ rate b.2 = rate a.2 ∧ a.1 ≤ b.1

/-- Of two bands that may stand before each other the owners agree. -/
theorem Before.owner_eq {a b : ι × β} (hab : Before rate a b) (hba : Before rate b a) :
    a.1 = b.1 := by
  rcases hab with h | ⟨heq, h⟩
  · rcases hba with h' | ⟨h', -⟩ <;> omega
  · rcases hba with h' | ⟨-, h'⟩
    · omega
    · exact le_antisymm h h'

/-- A band may stand before the later bands of a stream it may stand before. -/
theorem Before.of_rate_le {i j : ι} {b c c' : β} (h : Before rate (i, b) (j, c))
    (hle : rate c' ≤ rate c) : Before rate (i, b) (j, c') := by
  rcases h with h | ⟨heq, h⟩
  · left
    change rate c' < rate b
    exact hle.trans_lt h
  · rcases hle.lt_or_eq with hlt | heq'
    · left
      change rate c' < rate b
      exact hlt.trans_eq heq
    · exact Or.inr ⟨heq'.trans heq, h⟩

/-- `L` lists the streams `S` in merge order. -/
structure IsMerge (rate : β → ℕ) (S : ι → List β) (L : List (ι × β)) : Prop where
  stream_eq : ∀ i, stream L i = S i
  sorted : L.Pairwise (Before rate)

/-- `b` heads the stream of `i`, before every other head. -/
structure IsHead (rate : β → ℕ) (S : ι → List β) (i : ι) (b : β) (rest : List β) : Prop where
  stream_eq : S i = b :: rest
  before : ∀ j c, (S j).head? = some c → Before rate (i, b) (j, c)

/-- The best head is unique. -/
theorem IsHead.owner_eq {S : ι → List β} {i j : ι} {b c : β} {bs cs : List β}
    (h : IsHead rate S i b bs) (h' : IsHead rate S j c cs) : i = j :=
  (h.before j c (by rw [h'.stream_eq]; rfl)).owner_eq (h'.before i b (by rw [h.stream_eq]; rfl))

namespace IsMerge

variable {S : ι → List β} {L : List (ι × β)}

theorem nil_iff (h : IsMerge rate S L) : L = [] ↔ ∀ i, S i = [] := by
  constructor
  · rintro rfl i
    exact (h.stream_eq i).symm
  · intro hS
    rw [List.eq_nil_iff_forall_not_mem]
    rintro ⟨i, b⟩ hmem
    have hb := mem_stream.mpr hmem
    rw [h.stream_eq, hS] at hb
    simp at hb

/-- The streams of a merge are sorted. -/
theorem stream_sorted (h : IsMerge rate S L) (i : ι) :
    (S i).Pairwise fun b c => rate c ≤ rate b := by
  rw [← h.stream_eq, stream, List.pairwise_map]
  refine (h.sorted.filter _).imp fun hab => ?_
  rcases hab with h | ⟨h, -⟩
  · exact h.le
  · exact h.le

/-- Taking the first band of a merge takes the best head. -/
theorem uncons {i : ι} {b : β} (h : IsMerge rate S ((i, b) :: L)) :
    ∃ rest, IsHead rate S i b rest ∧ IsMerge rate (update S i rest) L := by
  have hi : S i = b :: stream L i := by rw [← h.stream_eq, stream_cons, if_pos rfl]
  obtain ⟨hbefore, hsorted⟩ := List.pairwise_cons.mp h.sorted
  refine ⟨stream L i, ⟨hi, fun j c hc => ?_⟩, ⟨fun j => ?_, hsorted⟩⟩
  · by_cases hj : j = i
    · subst hj
      obtain rfl : b = c := by simpa [hi] using hc
      exact Or.inr ⟨rfl, le_rfl⟩
    · -- the head of another stream is listed further down
      refine hbefore (j, c) (mem_stream.mp ?_)
      have hjS : stream L j = S j := by
        rw [← h.stream_eq j, stream_cons, if_neg (Ne.symm hj)]
      rw [hjS]
      exact List.mem_of_mem_head? hc
  · by_cases hj : j = i
    · subst hj
      rw [update_self]
    · rw [update_of_ne hj, ← h.stream_eq j, stream_cons, if_neg (Ne.symm hj)]

/-- Emitting the best head before a merge of what is left gives a merge. -/
theorem cons {i : ι} {b : β} {rest : List β} (hS : ∀ j, (S j).Pairwise fun b c => rate c ≤ rate b)
    (hhead : IsHead rate S i b rest) (h : IsMerge rate (update S i rest) L) :
    IsMerge rate S ((i, b) :: L) := by
  refine ⟨fun j => ?_, List.pairwise_cons.mpr ⟨?_, h.sorted⟩⟩
  · by_cases hj : i = j
    · subst hj
      rw [stream_cons, if_pos rfl, h.stream_eq, update_self, hhead.stream_eq]
    · rw [stream_cons, if_neg hj, h.stream_eq, update_of_ne (Ne.symm hj)]
  · rintro ⟨j, c⟩ hmem
    have hc := mem_stream.mpr hmem
    rw [h.stream_eq] at hc
    by_cases hj : j = i
    · -- a later band of the same stream
      subst hj
      rw [update_self] at hc
      have hsorted := hS j
      rw [hhead.stream_eq, List.pairwise_cons] at hsorted
      rcases (hsorted.1 c hc).lt_or_eq with hlt | heq
      · exact Or.inl hlt
      · exact Or.inr ⟨heq, le_rfl⟩
    · rw [update_of_ne hj] at hc
      obtain ⟨d, ds, hd⟩ := List.exists_cons_of_ne_nil (List.ne_nil_of_mem hc)
      have hbefore := hhead.before j d (by rw [hd]; rfl)
      have hsorted := hS j
      rw [hd, List.pairwise_cons] at hsorted
      rw [hd] at hc
      rcases List.mem_cons.mp hc with rfl | hc
      · exact hbefore
      · exact hbefore.of_rate_le (hsorted.1 c hc)

/-- The streams determine the merge. -/
theorem unique {M : List (ι × β)} (h : IsMerge rate S L) (h' : IsMerge rate S M) : L = M := by
  induction L generalizing S M with
  | nil => exact (h'.nil_iff.mpr (h.nil_iff.mp rfl)).symm
  | cons p L ih =>
    rcases M with _ | ⟨q, M⟩
    · exact absurd (h.nil_iff.mpr (h'.nil_iff.mp rfl)) (by simp)
    · obtain ⟨i, b⟩ := p
      obtain ⟨j, c⟩ := q
      obtain ⟨bs, hhead, hrest⟩ := h.uncons
      obtain ⟨cs, hhead', hrest'⟩ := h'.uncons
      obtain rfl := hhead.owner_eq hhead'
      have heq := hhead.stream_eq.symm.trans hhead'.stream_eq
      obtain ⟨rfl, rfl⟩ := List.cons.inj heq
      rw [ih hrest hrest']

/-- The merge of some owners' streams is the merge of all, without the other owners. -/
theorem restrict (h : IsMerge rate S L) (p : ι → Bool) :
    IsMerge rate (fun i => if p i then S i else []) (L.filter fun q => p q.1) :=
  ⟨fun i => by rw [stream_filter, h.stream_eq], h.sorted.filter _⟩

/-- The bands of a merge come from its streams. -/
theorem mem (h : IsMerge rate S L) {i : ι} {b : β} (hb : (i, b) ∈ L) : b ∈ S i := by
  rw [← h.stream_eq]
  exact mem_stream.mpr hb

end IsMerge

/-! ## Every family of sorted streams has a merge -/

section Existence

variable [Fintype ι]

/-- Some stream has the best head, unless all are empty. -/
theorem exists_head (rate : β → ℕ) {S : ι → List β} (hS : ∃ i, S i ≠ []) : ∃ i b rest, IsHead rate S i b rest := by
  classical
  obtain ⟨i₀, hi₀⟩ := hS
  let live : Finset ι := Finset.univ.filter fun i => S i ≠ []
  let key : ι → ℕ := fun i => ((S i).head?.map rate).getD 0
  have hlive : live.Nonempty := ⟨i₀, by simpa [live] using hi₀⟩
  obtain ⟨top, htop, hmax⟩ := live.exists_max_image key hlive
  -- the least owner among those of the largest rate
  let best : Finset ι := live.filter fun i => key i = key top
  have hbest : best.Nonempty := ⟨top, by simp [best, htop]⟩
  have hmem := best.min'_mem hbest
  obtain ⟨hmemLive, hkey⟩ := Finset.mem_filter.mp hmem
  have hne : S (best.min' hbest) ≠ [] := by simpa [live] using hmemLive
  obtain ⟨b, rest, hcons⟩ := List.exists_cons_of_ne_nil hne
  refine ⟨best.min' hbest, b, rest, hcons, fun j c hc => ?_⟩
  have hj : j ∈ live := by
    refine Finset.mem_filter.mpr ⟨Finset.mem_univ j, fun hnil => ?_⟩
    rw [hnil] at hc
    cases hc
  have hkeyj : key j = rate c := by simp [key, hc]
  have hkeyb : key (best.min' hbest) = rate b := by simp [key, hcons]
  have hle := hmax j hj
  rcases hle.lt_or_eq with hlt | heq
  · left
    show rate c < rate b
    omega
  · refine Or.inr ⟨show rate c = rate b by omega, ?_⟩
    exact best.min'_le j (Finset.mem_filter.mpr ⟨hj, heq⟩)

/-- Sorted streams have a merge. -/
theorem exists_merge {S : ι → List β} (hS : ∀ i, (S i).Pairwise fun b c => rate c ≤ rate b) :
    ∃ L, IsMerge rate S L := by
  induction hn : ∑ i, (S i).length generalizing S with
  | zero =>
    refine ⟨[], ⟨fun i => ?_, List.Pairwise.nil⟩⟩
    have hzero := (Finset.sum_eq_zero_iff.mp hn) i (Finset.mem_univ i)
    rw [stream_nil, List.length_eq_zero_iff.mp hzero]
  | succ n ih =>
    have hne : ∃ i, S i ≠ [] := by
      by_contra hall
      push Not at hall
      simp [hall] at hn
    obtain ⟨i, b, rest, hhead⟩ := exists_head rate hne
    have hsorted : ∀ j, (update S i rest j).Pairwise fun b c => rate c ≤ rate b := by
      intro j
      by_cases hj : j = i
      · subst hj
        have hi := hS j
        rw [hhead.stream_eq] at hi
        rw [update_self]
        exact hi.of_cons
      · rw [update_of_ne hj]
        exact hS j
    have hlength : ∑ j, (S j).length = ∑ j, (update S i rest j).length + 1 := by
      rw [← Finset.add_sum_erase _ _ (Finset.mem_univ i), ← Finset.add_sum_erase _
        (fun j => (update S i rest j).length) (Finset.mem_univ i), update_self, hhead.stream_eq,
        List.length_cons]
      have hrest : ∑ j ∈ Finset.univ.erase i, (S j).length
          = ∑ j ∈ Finset.univ.erase i, (update S i rest j).length :=
        Finset.sum_congr rfl fun j hj => by rw [update_of_ne (Finset.ne_of_mem_erase hj)]
      omega
    obtain ⟨L, hL⟩ := ih hsorted (by omega)
    exact ⟨(i, b) :: L, IsMerge.cons hS hhead hL⟩

end Existence

end Merge

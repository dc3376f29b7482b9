import StockMesh.Foundation.BellmanFord
import Mathlib.Algebra.BigOperators.Ring.Finset
import Mathlib.Algebra.Order.BigOperators.Group.Finset
import Mathlib.Tactic.Ring

/-! # Circulations of greatest total flow

Integer circulations on a finite directed multigraph with capacities. The residual graph of a
circulation has every arc with room forwards, at cost `1`, and every arc with flow backwards, at
cost `-1`. A potential on the residual graph certifies that no circulation within the capacities
carries more in total (`sum_le_of_potential`); pushing flow around a residual cycle keeps a
circulation within its capacities and changes its total by the cost of the cycle (`push_cycle`). -/

namespace Circulation

open BellmanFord

variable {ι V : Type} [DecidableEq ι] [DecidableEq V] (s : Finset ι) (tail head : ι → V)

/-- As much flow leaves every vertex as enters it. -/
def Balanced (f : ι → ℕ) : Prop :=
  ∀ v, ∑ i ∈ s with tail i = v, f i = ∑ i ∈ s with head i = v, f i

/-- What leaves a vertex minus what enters it. -/
def net (f : ι → ℕ) (v : V) : ℤ :=
  ∑ i ∈ s, (f i : ℤ) * ((if tail i = v then 1 else 0) - (if head i = v then 1 else 0))

/-- An arc of the residual graph: an arc and whether it is taken backwards. -/
abbrev Arc (ι : Type) := ι × Bool

/-- The residual edge: `+1` forwards, `-1` backwards. -/
def residual (tail head : ι → V) : Arc ι → Edge V
  | (i, false) => ⟨tail i, head i, 1⟩
  | (i, true) => ⟨head i, tail i, -1⟩

/-- How much can be pushed along a residual arc. -/
def room (cap f : ι → ℕ) : Arc ι → ℕ
  | (i, false) => cap i - f i
  | (i, true) => f i

/-- Push `δ` units along a residual arc. -/
def push (δ : ℕ) (f : ι → ℕ) : Arc ι → ι → ℕ
  | (i, false) => Function.update f i (f i + δ)
  | (i, true) => Function.update f i (f i - δ)

section Net

variable {s tail head}

omit [DecidableEq ι] in
theorem net_eq (f : ι → ℕ) (v : V) : net s tail head f v =
    ((∑ i ∈ s with tail i = v, f i : ℕ) : ℤ) - (∑ i ∈ s with head i = v, f i : ℕ) := by
  simp only [net, mul_sub, mul_ite, mul_one, mul_zero, Finset.sum_sub_distrib, Nat.cast_sum,
    Finset.sum_filter, Nat.cast_ite, Nat.cast_zero]

omit [DecidableEq ι] in
theorem balanced_iff_net {f : ι → ℕ} :
    Balanced s tail head f ↔ ∀ v, net s tail head f v = 0 := by
  refine forall_congr' fun v => ?_
  rw [net_eq, sub_eq_zero, Nat.cast_inj]

omit [DecidableEq ι] in
/-- Nothing flows: balanced. -/
theorem balanced_zero : Balanced s tail head fun _ => 0 := by
  intro v
  simp

omit [DecidableEq ι] in
/-- Summed against a potential, a circulation gives zero. -/
theorem sum_potential {f : ι → ℕ} (h : Balanced s tail head f) (p : V → ℤ) :
    ∑ i ∈ s, (f i : ℤ) * (p (tail i) - p (head i)) = 0 := by
  have hend : ∀ e : ι → V, ∀ t : Finset V, (∀ i ∈ s, e i ∈ t) →
      ∑ i ∈ s, (f i : ℤ) * p (e i) = ∑ v ∈ t, ((∑ i ∈ s with e i = v, f i : ℕ) : ℤ) * p v := by
    intro e t ht
    rw [← Finset.sum_fiberwise_of_maps_to ht]
    refine Finset.sum_congr rfl fun v _ => ?_
    rw [Nat.cast_sum, Finset.sum_mul]
    refine Finset.sum_congr rfl fun i hi => ?_
    rw [(Finset.mem_filter.mp hi).2]
  have ht := hend tail (s.image tail ∪ s.image head) fun i hi =>
    Finset.mem_union_left _ (Finset.mem_image_of_mem _ hi)
  have hh := hend head (s.image tail ∪ s.image head) fun i hi =>
    Finset.mem_union_right _ (Finset.mem_image_of_mem _ hi)
  simp only [mul_sub, Finset.sum_sub_distrib]
  rw [ht, hh, sub_eq_zero]
  exact Finset.sum_congr rfl fun v _ => by rw [h v]

omit [DecidableEq ι] in
/-- A potential that no residual edge with room improves bounds every circulation within the
capacities. -/
theorem sum_le_of_potential {cap f g : ι → ℕ} (p : V → ℤ) (hf : Balanced s tail head f)
    (hg : Balanced s tail head g) (hcap : ∀ i ∈ s, g i ≤ cap i)
    (hp : ∀ a : Arc ι, a.1 ∈ s → 0 < room cap f a →
      p (residual tail head a).tail + (residual tail head a).cost ≤ p (residual tail head a).head) :
    ∑ i ∈ s, g i ≤ ∑ i ∈ s, f i := by
  -- with the potential added every arc pulls the other way from the difference `g - f`
  have hterm : ∀ i ∈ s, ((g i : ℤ) - f i) * (1 + (p (tail i) - p (head i))) ≤ 0 := by
    intro i hi
    rcases lt_trichotomy (f i) (g i) with hlt | heq | hgt
    · have hroom : 0 < room cap f (i, false) := by
        have := hcap i hi
        simp only [room]
        omega
      have hpot := hp (i, false) hi hroom
      simp only [residual] at hpot
      exact mul_nonpos_of_nonneg_of_nonpos (by omega) (by linarith)
    · simp [heq]
    · have hroom : 0 < room cap f (i, true) := by
        simp only [room]
        omega
      have hpot := hp (i, true) hi hroom
      simp only [residual] at hpot
      exact mul_nonpos_of_nonpos_of_nonneg (by omega) (by linarith)
  have hsum := Finset.sum_nonpos hterm
  have hsplit : ∑ i ∈ s, ((g i : ℤ) - f i) * (1 + (p (tail i) - p (head i))) =
      (∑ i ∈ s, (g i : ℤ) - ∑ i ∈ s, (f i : ℤ)) +
        (∑ i ∈ s, (g i : ℤ) * (p (tail i) - p (head i)) -
          ∑ i ∈ s, (f i : ℤ) * (p (tail i) - p (head i))) := by
    rw [← Finset.sum_sub_distrib, ← Finset.sum_sub_distrib, ← Finset.sum_add_distrib]
    exact Finset.sum_congr rfl fun i _ => by ring
  rw [hsplit, sum_potential hf, sum_potential hg] at hsum
  have hcast : (∑ i ∈ s, (g i : ℤ)) ≤ ∑ i ∈ s, (f i : ℤ) := by linarith
  exact_mod_cast hcast

end Net

/-! ## Pushing along a residual arc -/

section Push

variable {s tail head} {cap f : ι → ℕ} {δ : ℕ}

variable (tail head) in
omit [DecidableEq V] in
/-- A push changes every weighted total by `δ` times the weight, with the sign of the arc. -/
theorem sum_push {a : Arc ι} (ha : a.1 ∈ s) (hδ : δ ≤ room cap f a) (w : ι → ℤ) :
    ∑ i ∈ s, (push δ f a i : ℤ) * w i =
      ∑ i ∈ s, (f i : ℤ) * w i + δ * ((residual tail head a).cost * w a.1) := by
  have hpoint : ∀ i, (push δ f a i : ℤ) * w i = (f i : ℤ) * w i +
      if a.1 = i then δ * ((residual tail head a).cost * w a.1) else 0 := by
    intro i
    obtain ⟨k, _ | _⟩ := a
    · by_cases hk : k = i
      · subst hk
        simp only [push, residual, Function.update_self, if_true]
        push_cast
        ring
      · simp [push, Function.update_of_ne (Ne.symm hk), hk]
    · by_cases hk : k = i
      · subst hk
        have hle : δ ≤ f k := hδ
        simp only [push, residual, Function.update_self, if_true]
        push_cast [hle]
        ring
      · simp [push, Function.update_of_ne (Ne.symm hk), hk]
  rw [Finset.sum_congr rfl fun i _ => hpoint i, Finset.sum_add_distrib, Finset.sum_ite_eq, if_pos ha]

/-- A push takes its units from the head of the residual edge to its tail. -/
theorem net_push {a : Arc ι} (ha : a.1 ∈ s) (hδ : δ ≤ room cap f a) (v : V) :
    net s tail head (push δ f a) v = net s tail head f v + δ *
      ((if (residual tail head a).tail = v then 1 else 0) -
        (if (residual tail head a).head = v then 1 else 0)) := by
  rw [net, sum_push tail head ha hδ, net]
  obtain ⟨k, _ | _⟩ := a
  · show _ = _ + (δ : ℤ) * ((if tail k = v then 1 else 0) - (if head k = v then 1 else 0))
    simp [residual]
  · show _ = _ + (δ : ℤ) * ((if head k = v then 1 else 0) - (if tail k = v then 1 else 0))
    simp [residual]

omit [DecidableEq V] in
/-- A push stays within the capacities. -/
theorem push_le {a : Arc ι} (hcap : f a.1 ≤ cap a.1) (hδ : δ ≤ room cap f a) {i : ι}
    (hi : f i ≤ cap i) : push δ f a i ≤ cap i := by
  obtain ⟨k, _ | _⟩ := a
  · have hle : δ ≤ cap k - f k := hδ
    have hk : f k ≤ cap k := hcap
    by_cases h : i = k
    · subst h
      simp only [push, Function.update_self]
      omega
    · simpa [push, Function.update_of_ne h] using hi
  · by_cases h : i = k
    · subst h
      simp only [push, Function.update_self]
      omega
    · simpa [push, Function.update_of_ne h] using hi

omit [DecidableEq V] in
/-- A push leaves the room of every other residual arc. -/
theorem le_room_push {a b : Arc ι} (hb : δ ≤ room cap f b) (hne : b ≠ a) :
    δ ≤ room cap (push δ f a) b := by
  obtain ⟨k, x⟩ := a
  obtain ⟨l, y⟩ := b
  by_cases hkl : l = k
  · subst hkl
    -- the opposite arc: it gains what this one loses
    cases x <;> cases y <;> (simp_all [room, push]; try omega)
  · cases x <;> cases y <;> simpa [room, push, Function.update_of_ne hkl] using hb

/-- Pushing along distinct residual arcs that lead from `u` to `v`. -/
theorem foldl_push {as : List (Arc ι)} {u v : V} (hlead : Leads (residual tail head) u as v)
    (hnodup : as.Nodup) (hroom : ∀ a ∈ as, a.1 ∈ s ∧ δ ≤ room cap f a)
    (hcap : ∀ i, f i ≤ cap i) :
    (∀ i, as.foldl (push δ) f i ≤ cap i) ∧
    (∑ i ∈ s, (as.foldl (push δ) f i : ℤ)) =
      ∑ i ∈ s, (f i : ℤ) + δ * cost (residual tail head) as ∧
    ∀ w, net s tail head (as.foldl (push δ) f) w = net s tail head f w +
      δ * ((if v = w then 1 else 0) - (if u = w then 1 else 0)) := by
  induction as generalizing u f with
  | nil =>
    obtain rfl : u = v := hlead
    exact ⟨hcap, by simp, by simp⟩
  | cons a as ih =>
    obtain ⟨hhead, hrest⟩ := hlead
    obtain ⟨hnew, hnodup⟩ := List.nodup_cons.mp hnodup
    obtain ⟨ha, hδ⟩ := hroom a List.mem_cons_self
    obtain ⟨hle, hsum, hnet⟩ := ih (f := push δ f a) hrest hnodup
      (fun b hb => ⟨(hroom b (List.mem_cons_of_mem a hb)).1,
        le_room_push (hroom b (List.mem_cons_of_mem a hb)).2 fun h => hnew (h ▸ hb)⟩)
      fun i => push_le (hcap a.1) hδ (hcap i)
    refine ⟨hle, ?_, fun w => ?_⟩
    · have hone := sum_push tail head ha hδ fun _ => 1
      simp only [mul_one] at hone
      rw [List.foldl_cons, hsum, hone, cost_cons]
      ring
    · rw [List.foldl_cons, hnet w, net_push ha hδ w, hhead]
      ring

/-- Pushing around a simple residual cycle with room for `δ` keeps a circulation within the
capacities; its total grows by `δ` times the cost of the cycle. -/
theorem push_cycle {as : List (Arc ι)} (hcycle : SimpleCycle (residual tail head) as)
    (hroom : ∀ a ∈ as, a.1 ∈ s ∧ δ ≤ room cap f a) (hcap : ∀ i, f i ≤ cap i)
    (hbal : Balanced s tail head f) :
    (∀ i, as.foldl (push δ) f i ≤ cap i) ∧ Balanced s tail head (as.foldl (push δ) f) ∧
    (∑ i ∈ s, (as.foldl (push δ) f i : ℤ)) =
      ∑ i ∈ s, (f i : ℤ) + δ * cost (residual tail head) as := by
  obtain ⟨v, hv⟩ := hcycle.closed
  obtain ⟨hle, hsum, hnet⟩ := foldl_push hv (hcycle.nodup) hroom hcap
  refine ⟨hle, balanced_iff_net.mpr fun w => ?_, hsum⟩
  rw [hnet w, balanced_iff_net.mp hbal w]
  ring

end Push

end Circulation

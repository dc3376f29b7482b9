import Mathlib.Data.Finset.Card
import Mathlib.Data.Finset.Image
import Mathlib.Logic.Function.Basic
import Mathlib.Tactic.Linarith

/-! # Positive cycles by in-place Bellman–Ford

Longest-walk labels over a directed multigraph, relaxed in place: a sweep visits every edge once and
each improvement is seen by the edges after it. A sweep that improves nothing leaves a potential,
so no closed walk has positive cost (`cost_le_zero_of_settled`). If as many sweeps as there are
vertices all improve something, following the predecessor edges back from the last improved vertex
reaches a simple cycle of positive cost (`exists_cycle`).

The labels do not say when they were written, and the second statement depends on it. `Marks` adds
the sweep and the moment of every label's last improvement; they appear in the proofs only. -/

namespace BellmanFord

/-- A weighted edge. -/
structure Edge (V : Type) where
  tail : V
  head : V
  cost : ℤ

/-- The labels of a search: distances, the edge that set each of them, and the vertex improved last
in the current sweep. -/
@[ext] structure Labels (V ι : Type) where
  distance : V → ℤ := fun _ => 0
  previous : V → Option ι := fun _ => none
  updated : Option V := none

variable {V ι : Type} (edge : ι → Edge V) (usable : ι → Prop)

/-- The edge would lengthen the walk to its head. -/
def Improves (s : Labels V ι) (j : ι) : Prop :=
  s.distance (edge j).head < s.distance (edge j).tail + (edge j).cost

instance (s : Labels V ι) (j : ι) : Decidable (Improves edge s j) :=
  inferInstanceAs (Decidable (_ < _))

section Search

variable [DecidableEq V] [DecidablePred usable]

/-- Relax one edge. -/
def relax (s : Labels V ι) (j : ι) : Labels V ι :=
  if usable j ∧ Improves edge s j then
    { distance := Function.update s.distance (edge j).head
        (s.distance (edge j).tail + (edge j).cost)
      previous := Function.update s.previous (edge j).head (some j)
      updated := some (edge j).head }
  else s

/-- Relax every edge once, in order. -/
def sweep (edges : List ι) (s : Labels V ι) : Labels V ι :=
  edges.foldl (relax edge usable) { s with updated := none }

/-- Sweep `n` times; `none` as soon as a sweep improves nothing. -/
def search (edges : List ι) : ℕ → Labels V ι → Option (Labels V ι)
  | 0, s => some s
  | n + 1, s =>
    if (sweep edge usable edges s).updated = none then none
    else search edges n (sweep edge usable edges s)

end Search

/-- The vertex `n` predecessor edges back. -/
def backtrack (s : Labels V ι) : ℕ → V → Option V
  | 0, v => some v
  | n + 1, v => (s.previous v).bind fun j => backtrack s n (edge j).tail

/-- The predecessor edges from `v` until `start` is reached again, at most `n` of them. -/
def collect [DecidableEq V] (s : Labels V ι) (start : V) : ℕ → V → Option (List ι)
  | 0, _ => none
  | n + 1, v => (s.previous v).bind fun j =>
    if (edge j).tail = start then some [j]
    else (collect s start n (edge j).tail).map (j :: ·)

/-! ## Walks -/

/-- Followed against their direction, the edges lead from `u` to `v`. -/
def Leads : V → List ι → V → Prop
  | u, [], v => u = v
  | u, j :: js, v => (edge j).head = u ∧ Leads (edge j).tail js v

/-- The cost of a walk. -/
def cost (js : List ι) : ℤ := (js.map fun j => (edge j).cost).sum

@[simp] theorem cost_nil : cost edge ([] : List ι) = 0 := rfl

@[simp] theorem cost_cons (j : ι) (js : List ι) :
    cost edge (j :: js) = (edge j).cost + cost edge js := by
  simp [cost]

/-- A closed walk that visits no vertex twice. -/
structure SimpleCycle (js : List ι) : Prop where
  /-- It has an edge. -/
  ne_nil : js ≠ []
  /-- It returns to where it started. -/
  closed : ∃ v, Leads edge v js v
  /-- It enters every vertex at most once. -/
  simple : (js.map fun j => (edge j).head).Nodup

/-- A simple cycle uses an edge once. -/
theorem SimpleCycle.nodup {js : List ι} (h : SimpleCycle edge js) : js.Nodup := h.simple.of_map

section Map

variable {κ : Type} (e : κ → Edge V) (g : ι → κ)

/-- Edges may be renamed along a walk. -/
theorem leads_map (u v : V) (js : List ι) :
    Leads e u (js.map g) v ↔ Leads (fun j => e (g j)) u js v := by
  induction js generalizing u with
  | nil => rfl
  | cons j js ih => exact and_congr_right fun _ => ih _

theorem cost_map (js : List ι) : cost e (js.map g) = cost (fun j => e (g j)) js := by
  induction js with
  | nil => rfl
  | cons j js ih => rw [List.map_cons, cost_cons, cost_cons, ih]

/-- A cycle stays one when its edges are renamed. -/
theorem SimpleCycle.map {js : List ι} (h : SimpleCycle (fun j => e (g j)) js) :
    SimpleCycle e (js.map g) := by
  refine ⟨by simpa using h.ne_nil, ?_, ?_⟩
  · obtain ⟨v, hv⟩ := h.closed
    exact ⟨v, (leads_map e g v v js).mpr hv⟩
  · rw [List.map_map]
    exact h.simple

end Map

/-! ## Settled labels -/

section Settled

variable {edge usable}

/-- Along edges that improve nothing distances grow by at least the cost. -/
theorem cost_le_of_settled {s : Labels V ι} {u v : V} {js : List ι} (h : Leads edge u js v)
    (hsettled : ∀ j ∈ js, ¬Improves edge s j) : s.distance v + cost edge js ≤ s.distance u := by
  induction js generalizing u with
  | nil =>
    obtain rfl : u = v := h
    simp
  | cons j js ih =>
    obtain ⟨rfl, hrest⟩ := h
    have hstep : s.distance (edge j).tail + (edge j).cost ≤ s.distance (edge j).head :=
      not_lt.mp (hsettled j List.mem_cons_self)
    have htail := ih hrest fun i hi => hsettled i (List.mem_cons_of_mem j hi)
    rw [cost_cons]
    linarith

/-- Settled labels are a potential: no closed walk has positive cost. -/
theorem cost_le_zero_of_settled {s : Labels V ι} {v : V} {js : List ι} (h : Leads edge v js v)
    (hsettled : ∀ j ∈ js, ¬Improves edge s j) : cost edge js ≤ 0 := by
  have := cost_le_of_settled h hsettled
  linarith

variable [DecidableEq V] [DecidablePred usable]

theorem relax_of_improves {s : Labels V ι} {j : ι} (hu : usable j) (hi : Improves edge s j) :
    relax edge usable s j =
      { distance := Function.update s.distance (edge j).head
          (s.distance (edge j).tail + (edge j).cost)
        previous := Function.update s.previous (edge j).head (some j)
        updated := some (edge j).head } :=
  if_pos ⟨hu, hi⟩

theorem relax_of_not {s : Labels V ι} {j : ι} (h : ¬(usable j ∧ Improves edge s j)) :
    relax edge usable s j = s := if_neg h

/-- An improvement is never forgotten within its sweep. -/
theorem foldl_relax_updated {js : List ι} {s : Labels V ι} (h : s.updated ≠ none) :
    (js.foldl (relax edge usable) s).updated ≠ none := by
  induction js generalizing s with
  | nil => exact h
  | cons j js ih =>
    rw [List.foldl_cons]
    refine ih ?_
    unfold relax
    split
    · simp
    · exact h

/-- A sweep without improvement has found every usable edge settled. -/
theorem settled_of_foldl_relax {js : List ι} {s : Labels V ι}
    (h : (js.foldl (relax edge usable) s).updated = none) :
    ∀ j ∈ js, usable j → ¬Improves edge s j := by
  induction js with
  | nil => simp
  | cons i js ih =>
    rw [List.foldl_cons] at h
    by_cases hi : usable i ∧ Improves edge s i
    · -- the improvement of `i` would still be recorded at the end
      rw [relax_of_improves hi.1 hi.2] at h
      exact absurd h (foldl_relax_updated (by simp))
    · rw [relax_of_not hi] at h
      rintro j hj hu
      rcases List.mem_cons.mp hj with rfl | hj
      · exact fun himp => hi ⟨hu, himp⟩
      · exact ih h j hj hu

/-- A search that stops early leaves settled labels. -/
theorem settled_of_search {edges : List ι} {n : ℕ} {s : Labels V ι}
    (h : search edge usable edges n s = none) :
    ∃ s' : Labels V ι, ∀ j ∈ edges, usable j → ¬Improves edge s' j := by
  induction n generalizing s with
  | zero => cases h
  | succ n ih =>
    rw [search] at h
    split at h
    · rename_i hnone
      exact ⟨_, settled_of_foldl_relax hnone⟩
    · exact ih h

end Settled

/-! ## When labels were written -/

/-- The sweep and the moment of the last improvement of every vertex, and the next moment. -/
structure Marks (V : Type) where
  round : V → ℕ
  stamp : V → ℕ
  clock : ℕ

/-- The marks after an improvement of `v` in sweep `k`. -/
def Marks.touch [DecidableEq V] (m : Marks V) (k : ℕ) (v : V) : Marks V where
  round := Function.update m.round v k
  stamp := Function.update m.stamp v m.clock
  clock := m.clock + 1

/-- The labels during sweep `k`, with the edges `scanned` behind it. -/
structure Marked (edges : List ι) (k : ℕ) (scanned : List ι) (s : Labels V ι) (m : Marks V) :
    Prop where
  round_le : ∀ v, m.round v ≤ k
  round_of_none : ∀ v, s.previous v = none → m.round v = 0
  edge_of : ∀ v j, s.previous v = some j → j ∈ edges ∧ usable j ∧ (edge j).head = v
  /-- The tail was improved no earlier than one sweep before its head. -/
  round_tail : ∀ v j, s.previous v = some j → m.round v ≤ m.round (edge j).tail + 1
  stamp_lt : ∀ v, m.stamp v < m.clock
  /-- A label set by its tail's present label is at most one edge longer; if the tail has improved
  since, it is shorter than that. -/
  ordered : ∀ v j, s.previous v = some j →
    (m.stamp (edge j).tail < m.stamp v ∧
      s.distance v ≤ s.distance (edge j).tail + (edge j).cost) ∨
    (m.stamp v < m.stamp (edge j).tail ∧
      s.distance v < s.distance (edge j).tail + (edge j).cost)
  settled : ∀ j ∈ edges, usable j → m.round (edge j).tail + 1 < k → ¬Improves edge s j
  scanned : ∀ j ∈ scanned, usable j → m.round (edge j).tail < k → ¬Improves edge s j
  updated : ∀ v, s.updated = some v → m.round v = k

section Marked

variable {edge usable} {edges scanned : List ι} {k : ℕ} {s : Labels V ι} {m : Marks V}

/-- Nothing has been improved yet. -/
theorem Marked.start : Marked edge usable edges 0 edges {} ⟨fun _ => 0, fun _ => 0, 1⟩ where
  round_le _ := Nat.le_refl 0
  round_of_none _ _ := rfl
  edge_of _ _ h := by cases h
  round_tail _ _ h := by cases h
  stamp_lt _ := Nat.one_pos
  ordered _ _ h := by cases h
  settled _ _ _ h := by simp at h
  scanned _ _ _ h := by simp at h
  updated _ h := by cases h

/-- A new sweep starts: what the last one scanned is settled unless its tail was improved then. -/
theorem Marked.next (h : Marked edge usable edges k edges s m) :
    Marked edge usable edges (k + 1) [] { s with updated := none } m where
  round_le v := Nat.le_succ_of_le (h.round_le v)
  round_of_none := h.round_of_none
  edge_of := h.edge_of
  round_tail := h.round_tail
  stamp_lt := h.stamp_lt
  ordered := h.ordered
  settled j hj hu hlt := h.scanned j hj hu (by omega)
  scanned _ hj := by simp at hj
  updated _ hv := by cases hv

/-- The edge that an improvement follows starts at a vertex improved in this sweep or the last. -/
theorem Marked.recent (h : Marked edge usable edges k scanned s m) {j : ι} (hj : j ∈ edges)
    (hu : usable j) (hi : Improves edge s j) : k ≤ m.round (edge j).tail + 1 := by
  by_contra hlt
  exact h.settled j hj hu (by omega) hi

/-- A distance only grows in an improvement. -/
theorem distance_le_update [DecidableEq V] {j : ι} (hi : Improves edge s j) (v : V) :
    s.distance v ≤ Function.update s.distance (edge j).head
      (s.distance (edge j).tail + (edge j).cost) v := by
  by_cases hv : v = (edge j).head
  · rw [hv, Function.update_self]
    exact le_of_lt hi
  · rw [Function.update_of_ne hv]

variable [DecidableEq V] [DecidablePred usable]

/-- An improvement keeps the marks. -/
theorem Marked.improve (h : Marked edge usable edges k scanned s m) {j : ι} (hj : j ∈ edges)
    (hloop : (edge j).tail ≠ (edge j).head) (hu : usable j) (hi : Improves edge s j) :
    Marked edge usable edges k (scanned ++ [j]) (relax edge usable s j)
      (m.touch k (edge j).head) := by
  rw [relax_of_improves hu hi]
  have hgrow := distance_le_update hi
  have hround : ∀ v, m.round v ≤ (m.touch k (edge j).head).round v := by
    intro v
    by_cases hv : v = (edge j).head
    · simp [Marks.touch, hv, h.round_le]
    · simp [Marks.touch, hv]
  -- an edge out of the improved vertex is excused in this sweep, another one keeps its tail label
  have hkeep : ∀ i, ¬Improves edge s i → (edge i).tail ≠ (edge j).head →
      Function.update s.distance (edge j).head (s.distance (edge j).tail + (edge j).cost)
        (edge i).tail + (edge i).cost ≤
      Function.update s.distance (edge j).head (s.distance (edge j).tail + (edge j).cost)
        (edge i).head := by
    intro i hni hne
    rw [Function.update_of_ne hne]
    exact le_trans (not_lt.mp hni) (hgrow _)
  refine ⟨fun v => ?_, fun v hv => ?_, fun v i hv => ?_, fun v i hv => ?_, fun v => ?_,
    fun v i hv => ?_, fun i hi' hu' hlt => ?_, fun i hi' hu' hlt => ?_, fun v hv => ?_⟩
  · by_cases hv : v = (edge j).head
    · simp [Marks.touch, hv]
    · simpa [Marks.touch, hv] using h.round_le v
  · by_cases hne : v = (edge j).head
    · simp [hne] at hv
    · simp only [Function.update_of_ne hne] at hv
      simpa [Marks.touch, hne] using h.round_of_none v hv
  · by_cases hne : v = (edge j).head
    · simp only [hne, Function.update_self, Option.some.injEq] at hv
      rw [← hv]
      exact ⟨hj, hu, hne.symm⟩
    · simp only [Function.update_of_ne hne] at hv
      exact h.edge_of v i hv
  · by_cases hne : v = (edge j).head
    · simp only [hne, Function.update_self, Option.some.injEq] at hv
      subst hv
      have := h.recent hj hu hi
      simpa [Marks.touch, hne, hloop] using this
    · simp only [Function.update_of_ne hne] at hv
      have hv' := h.round_tail v i hv
      have := hround (edge i).tail
      rw [show (m.touch k (edge j).head).round v = m.round v by simp [Marks.touch, hne]]
      omega
  · by_cases hv : v = (edge j).head
    · simp [Marks.touch, hv]
    · have := h.stamp_lt v
      simp only [Marks.touch, Function.update_of_ne hv]
      omega
  · by_cases hne : v = (edge j).head
    · simp only [hne, Function.update_self, Option.some.injEq] at hv
      subst hv
      left
      simp [Marks.touch, hne, hloop, h.stamp_lt]
    · simp only [Function.update_of_ne hne] at hv
      have hord := h.ordered v i hv
      by_cases htail : (edge i).tail = (edge j).head
      · -- the tail is improved now, after `v` was
        right
        have hstamp := h.stamp_lt v
        have hlt : s.distance (edge i).tail < s.distance (edge j).tail + (edge j).cost := by
          rw [htail]
          exact hi
        have hle : s.distance v ≤ s.distance (edge i).tail + (edge i).cost := by
          rcases hord with ⟨-, hle⟩ | ⟨-, hle⟩
          · exact hle
          · exact le_of_lt hle
        simp only [Marks.touch, Function.update_of_ne hne, htail, Function.update_self]
        exact ⟨hstamp, by linarith⟩
      · simpa [Marks.touch, hne, htail] using hord
  · have hne : (edge i).tail ≠ (edge j).head := by
      intro heq
      simp [Marks.touch, heq] at hlt
    refine not_lt.mpr (hkeep i (h.settled i hi' hu' ?_) hne)
    simpa [Marks.touch, hne] using hlt
  · have hne : (edge i).tail ≠ (edge j).head := by
      intro heq
      simp [Marks.touch, heq] at hlt
    rcases List.mem_append.mp hi' with hold | hnew
    · refine not_lt.mpr (hkeep i (h.scanned i hold hu' ?_) hne)
      simpa [Marks.touch, hne] using hlt
    · obtain rfl : i = j := by simpa using hnew
      unfold Improves
      simp [hloop]
  · obtain rfl : (edge j).head = v := by simpa using hv
    simp [Marks.touch]

/-- Relaxing the next edge keeps the marks. -/
theorem Marked.relax (h : Marked edge usable edges k scanned s m) {j : ι} (hj : j ∈ edges)
    (hloop : (edge j).tail ≠ (edge j).head) :
    ∃ m', Marked edge usable edges k (scanned ++ [j]) (relax edge usable s j) m' := by
  by_cases hi : usable j ∧ Improves edge s j
  · exact ⟨_, h.improve hj hloop hi.1 hi.2⟩
  · rw [relax_of_not hi]
    refine ⟨m, { h with scanned := fun i hi' hu' hlt => ?_ }⟩
    rcases List.mem_append.mp hi' with hold | hnew
    · exact h.scanned i hold hu' hlt
    · obtain rfl : i = j := by simpa using hnew
      exact fun himp => hi ⟨hu', himp⟩

/-- A sweep keeps the marks. -/
theorem Marked.foldl (hloop : ∀ j ∈ edges, (edge j).tail ≠ (edge j).head) {rest : List ι}
    (h : Marked edge usable edges k scanned s m) (hedges : scanned ++ rest = edges) :
    ∃ m', Marked edge usable edges k edges (rest.foldl (BellmanFord.relax edge usable) s) m' := by
  induction rest generalizing scanned s m with
  | nil =>
    rw [List.append_nil] at hedges
    exact ⟨m, hedges ▸ h⟩
  | cons j rest ih =>
    have hj : j ∈ edges := by simp [← hedges]
    obtain ⟨m', hm'⟩ := h.relax hj (hloop j hj)
    exact ih hm' (by simpa using hedges)

/-- `n` more improving sweeps end with the marks of sweep `k + n` and a vertex improved in it. -/
theorem Marked.search (hloop : ∀ j ∈ edges, (edge j).tail ≠ (edge j).head) {n : ℕ}
    {s' : Labels V ι} (h : Marked edge usable edges k edges s m)
    (hs : n = 0 → ∃ v, s.updated = some v)
    (hsearch : BellmanFord.search edge usable edges n s = some s') :
    ∃ m' v, Marked edge usable edges (k + n) edges s' m' ∧ s'.updated = some v := by
  induction n generalizing k s m with
  | zero =>
    obtain rfl : s = s' := by simpa [BellmanFord.search] using hsearch
    obtain ⟨v, hv⟩ := hs rfl
    exact ⟨m, v, h, hv⟩
  | succ n ih =>
    rw [BellmanFord.search] at hsearch
    split at hsearch
    · cases hsearch
    · rename_i hsome
      obtain ⟨m', hm'⟩ := h.next.foldl hloop (List.nil_append edges)
      have hrec := ih hm' (fun _ => Option.ne_none_iff_exists'.mp hsome) hsearch
      rwa [show k + 1 + n = k + (n + 1) by omega] at hrec

end Marked

/-! ## Following the predecessor edges -/

section Backtrack

variable {edge usable} {edges scanned : List ι} {k : ℕ} {s : Labels V ι} {m : Marks V}

variable (edge s) in
theorem backtrack_add (a b : ℕ) (v : V) :
    backtrack edge s (a + b) v = (backtrack edge s a v).bind (backtrack edge s b) := by
  induction a generalizing v with
  | zero => simp [backtrack]
  | succ a ih =>
    rw [show a + 1 + b = (a + b) + 1 by omega, backtrack, backtrack]
    rcases s.previous v with - | j
    · rfl
    · exact ih (edge j).tail

/-- A vertex improved in sweep `r` can be followed back `r` times. -/
theorem Marked.exists_backtrack (h : Marked edge usable edges k scanned s m) {i : ℕ} {v : V}
    (hi : i ≤ m.round v) :
    ∃ w, backtrack edge s i v = some w ∧ m.round v ≤ m.round w + i := by
  induction i generalizing v with
  | zero => exact ⟨v, rfl, Nat.le_refl _⟩
  | succ i ih =>
    rcases hv : s.previous v with - | j
    · have := h.round_of_none v hv
      omega
    · have hround := h.round_tail v j hv
      obtain ⟨w, hw, hle⟩ := ih (v := (edge j).tail) (by omega)
      refine ⟨w, ?_, by omega⟩
      rw [backtrack, hv]
      exact hw

/-- A vertex with a predecessor is the head of an edge, and what is behind it is a tail. -/
theorem Marked.backtrack_mem (h : Marked edge usable edges k scanned s m) {S : Finset V}
    (hS : ∀ j ∈ edges, (edge j).tail ∈ S ∧ (edge j).head ∈ S) {i : ℕ} {v w : V} (hv : v ∈ S)
    (hw : backtrack edge s i v = some w) : w ∈ S := by
  induction i generalizing v with
  | zero =>
    obtain rfl : v = w := by simpa [backtrack] using hw
    exact hv
  | succ i ih =>
    rw [backtrack] at hw
    obtain ⟨j, hj, hrest⟩ := Option.bind_eq_some_iff.mp hw
    exact ih (hS j (h.edge_of v j hj).1).1 hrest

/-- Followed back as often as there are vertices, a walk ends on a vertex it returns to. -/
theorem Marked.exists_return (h : Marked edge usable edges k scanned s m) {S : Finset V}
    (hS : ∀ j ∈ edges, (edge j).tail ∈ S ∧ (edge j).head ∈ S) {n : ℕ} (hcard : S.card ≤ n) {v : V}
    (hv : v ∈ S) (hround : n ≤ m.round v) :
    ∃ w p, backtrack edge s n v = some w ∧ 0 < p ∧ p ≤ n ∧ backtrack edge s p w = some w := by
  have hdef : ∀ i ∈ Finset.range (n + 1), ∃ w ∈ S, backtrack edge s i v = some w := by
    intro i hi
    have hin : i < n + 1 := Finset.mem_range.mp hi
    obtain ⟨w, hw, -⟩ := h.exists_backtrack (show i ≤ m.round v by omega)
    exact ⟨w, h.backtrack_mem hS hv hw, hw⟩
  have : Nonempty V := ⟨v⟩
  -- `n + 1` stops among `n` vertices: two of them agree
  choose! stop hstop hback using hdef
  obtain ⟨a, ha, b, hb, hne, heq⟩ := Finset.exists_ne_map_eq_of_card_lt_of_maps_to
    (s := Finset.range (n + 1)) (t := S) (by simpa using Nat.lt_succ_of_le hcard)
    (f := stop) (fun i hi => hstop i hi)
  wlog hab : a < b generalizing a b
  · exact this b hb a ha (Ne.symm hne) heq.symm (by omega)
  have hbn : b < n + 1 := Finset.mem_range.mp hb
  have hna := hback n (Finset.mem_range.mpr (Nat.lt_succ_self n))
  have hperiod : backtrack edge s (b - a) (stop a) = some (stop a) := by
    have hsplit := backtrack_add edge s a (b - a) v
    rw [show a + (b - a) = b by omega, hback b hb, hback a ha, ← heq] at hsplit
    exact hsplit.symm
  have hreach : backtrack edge s (n - a) (stop a) = some (stop n) := by
    have hsplit := backtrack_add edge s a (n - a) v
    rw [show a + (n - a) = n by omega, hna, hback a ha] at hsplit
    exact hsplit.symm
  refine ⟨stop n, b - a, hna, by omega, by omega, ?_⟩
  have hleft := backtrack_add edge s (b - a) (n - a) (stop a)
  have hright := backtrack_add edge s (n - a) (b - a) (stop a)
  rw [hperiod] at hleft
  rw [hreach] at hright
  rw [Nat.add_comm, hright] at hleft
  exact hleft.trans hreach

end Backtrack

/-! ## Collecting the cycle -/

section Collect

variable {edge usable} {edges scanned : List ι} {k : ℕ} {s : Labels V ι} {m : Marks V}

/-- The predecessor edges lead from `u` to `v`. -/
def Traces (edge : ι → Edge V) (s : Labels V ι) : V → List ι → V → Prop
  | u, [], v => u = v
  | u, j :: js, v => s.previous u = some j ∧ Traces edge s (edge j).tail js v

theorem Marked.leads_of_traces (h : Marked edge usable edges k scanned s m) {u v : V}
    {js : List ι} (ht : Traces edge s u js v) : Leads edge u js v := by
  induction js generalizing u with
  | nil => exact ht
  | cons j js ih => exact ⟨(h.edge_of u j ht.1).2.2, ih ht.2⟩

theorem Marked.mem_of_traces (h : Marked edge usable edges k scanned s m) {u v : V}
    {js : List ι} (ht : Traces edge s u js v) : ∀ j ∈ js, j ∈ edges ∧ usable j := by
  induction js generalizing u with
  | nil => simp
  | cons i js ih =>
    rintro j hj
    rcases List.mem_cons.mp hj with rfl | hj
    · exact ⟨(h.edge_of u j ht.1).1, (h.edge_of u j ht.1).2.1⟩
    · exact ih ht.2 j hj

/-- A distance is at most the cost of its predecessor edges, and less if the walk ends at a vertex
improved no earlier. -/
theorem Marked.distance_le (h : Marked edge usable edges k scanned s m) {u v : V} {js : List ι}
    (ht : Traces edge s u js v) :
    s.distance u ≤ s.distance v + cost edge js ∧
      (js ≠ [] → m.stamp u ≤ m.stamp v → s.distance u < s.distance v + cost edge js) := by
  induction js generalizing u with
  | nil =>
    obtain rfl : u = v := ht
    simp
  | cons j js ih =>
    obtain ⟨hle, hlt⟩ := ih ht.2
    rw [cost_cons]
    rcases h.ordered u j ht.1 with ⟨hstamp, hd⟩ | ⟨hstamp, hd⟩
    · refine ⟨by linarith, fun _ huv => ?_⟩
      -- the stamp falls on this edge, so it has to rise on a later one
      have hjs : js ≠ [] := by
        rintro rfl
        obtain rfl : (edge j).tail = v := ht.2
        omega
      have := hlt hjs (by omega)
      linarith
    · exact ⟨by linarith, fun _ _ => by linarith⟩

/-- The edges collected on the way to the first return. -/
theorem collect_of_backtrack [DecidableEq V] {start : V} {p n : ℕ} {v : V} (hpn : p < n)
    (hreturn : backtrack edge s (p + 1) v = some start)
    (hfirst : ∀ i, 0 < i → i ≤ p → backtrack edge s i v ≠ some start) :
    ∃ js, collect edge s start n v = some js ∧ js.length = p + 1 ∧ Traces edge s v js start := by
  induction p generalizing n v with
  | zero =>
    obtain ⟨n, rfl⟩ : ∃ l, n = l + 1 := ⟨n - 1, by omega⟩
    rw [backtrack] at hreturn
    obtain ⟨j, hj, hrest⟩ := Option.bind_eq_some_iff.mp hreturn
    have htail : (edge j).tail = start := by simpa [backtrack] using hrest
    exact ⟨[j], by simp [collect, hj, htail], rfl, hj, htail⟩
  | succ p ih =>
    obtain ⟨n, rfl⟩ : ∃ l, n = l + 1 := ⟨n - 1, by omega⟩
    rw [backtrack] at hreturn
    obtain ⟨j, hj, hrest⟩ := Option.bind_eq_some_iff.mp hreturn
    have hnext : ∀ i, backtrack edge s (i + 1) v = backtrack edge s i (edge j).tail := by
      intro i
      simp [backtrack, hj]
    have htail : (edge j).tail ≠ start := by
      intro heq
      exact hfirst 1 Nat.one_pos (by omega) (by rw [hnext, backtrack, heq])
    obtain ⟨js, hjs, hlen, htr⟩ := ih (n := n) (by omega) hrest fun i hi hip => by
      rw [← hnext]
      exact hfirst (i + 1) (by omega) (by omega)
    exact ⟨j :: js, by simp [collect, hj, htail, hjs], by simp [hlen], hj, htr⟩

/-- The heads along a trace are the vertices followed back. -/
theorem Marked.head_of_traces (h : Marked edge usable edges k scanned s m) {u v : V}
    {js : List ι} (ht : Traces edge s u js v) {i : ℕ} (hi : i < js.length) :
    backtrack edge s i u = some (edge js[i]).head := by
  induction js generalizing u i with
  | nil => simp at hi
  | cons j js ih =>
    cases i with
    | zero => simp [backtrack, (h.edge_of u j ht.1).2.2]
    | succ i =>
      rw [backtrack, ht.1]
      simpa using ih ht.2 (by simpa using hi)

/-- From a vertex that is returned to, the walk back collects a simple cycle of positive cost. -/
theorem Marked.exists_collect [DecidableEq V] (h : Marked edge usable edges k scanned s m) {n p : ℕ} {w : V}
    (hp : 0 < p) (hpn : p ≤ n) (hreturn : backtrack edge s p w = some w) :
    ∃ js, collect edge s w n w = some js ∧ SimpleCycle edge js ∧ (∀ j ∈ js, j ∈ edges ∧ usable j) ∧
      0 < cost edge js ∧ js.length ≤ n := by
  classical
  -- the first return: an earlier repetition would make it even earlier
  have hex : ∃ q, 0 < q ∧ backtrack edge s q w = some w := ⟨p, hp, hreturn⟩
  obtain ⟨q, ⟨hq, hqw⟩, hmin⟩ : ∃ q, (0 < q ∧ backtrack edge s q w = some w) ∧
      ∀ i < q, ¬(0 < i ∧ backtrack edge s i w = some w) :=
    ⟨Nat.find hex, Nat.find_spec hex, fun i hi => Nat.find_min hex hi⟩
  have hqp : q ≤ p := by
    by_contra hlt
    exact hmin p (by omega) ⟨hp, hreturn⟩
  obtain ⟨q, rfl⟩ : ∃ l, q = l + 1 := ⟨q - 1, by omega⟩
  obtain ⟨js, hjs, hlen, htr⟩ := collect_of_backtrack (n := n) (by omega) hqw
    fun i hi hiq hw => hmin i (by omega) ⟨hi, hw⟩
  have hne : js ≠ [] := by
    rintro rfl
    simp at hlen
  have hsimple : (js.map fun j => (edge j).head).Nodup := by
    rw [List.Nodup, List.pairwise_iff_getElem]
    intro a b ha hb hab heq
    rw [List.length_map] at ha hb
    rw [List.getElem_map, List.getElem_map] at heq
    have hwa := h.head_of_traces htr ha
    have hwb := h.head_of_traces htr hb
    -- cut the stretch between the two visits out of the return
    have hcut := backtrack_add edge s a (q + 1 - b) w
    have hwhole := backtrack_add edge s b (q + 1 - b) w
    rw [show b + (q + 1 - b) = q + 1 by omega, hqw, hwb, ← heq] at hwhole
    rw [hwa, ← hwhole] at hcut
    exact hmin (a + (q + 1 - b)) (by omega) ⟨by omega, hcut⟩
  refine ⟨js, hjs, ⟨hne, ⟨w, h.leads_of_traces htr⟩, hsimple⟩, h.mem_of_traces htr, ?_, by omega⟩
  have := (h.distance_le htr).2 hne (Nat.le_refl _)
  linarith

end Collect

/-- As many improving sweeps as there are vertices: from the vertex improved last, the predecessor
edges lead to a simple cycle of positive cost. -/
theorem exists_cycle [DecidableEq V] {edge : ι → Edge V} {usable : ι → Prop}
    [DecidablePred usable] {edges : List ι} {n : ℕ} {s : Labels V ι} {S : Finset V}
    (hS : ∀ j ∈ edges, (edge j).tail ∈ S ∧ (edge j).head ∈ S) (hcard : S.card ≤ n) (hn : 0 < n)
    (hloop : ∀ j ∈ edges, (edge j).tail ≠ (edge j).head)
    (hsearch : search edge usable edges n {} = some s) :
    ∃ v w js, s.updated = some v ∧ backtrack edge s n v = some w ∧
      collect edge s w n w = some js ∧ SimpleCycle edge js ∧ (∀ j ∈ js, j ∈ edges ∧ usable j) ∧
      0 < cost edge js ∧ js.length ≤ n := by
  obtain ⟨m, v, hm, hv⟩ := Marked.start.search hloop (fun h => absurd h (by omega)) hsearch
  have hround : m.round v = n := by simpa using hm.updated v hv
  have hmem : v ∈ S := by
    rcases hpv : s.previous v with - | j
    · have := hm.round_of_none v hpv
      omega
    · obtain ⟨hj, -, hhead⟩ := hm.edge_of v j hpv
      exact hhead ▸ (hS j hj).2
  obtain ⟨w, p, hw, hp, hpn, hreturn⟩ := hm.exists_return hS hcard hmem (by omega)
  obtain ⟨js, hjs, hcycle, hmems, hcost, hlen⟩ := hm.exists_collect hp hpn hreturn
  exact ⟨v, w, js, hv, hw, hjs, hcycle, hmems, hcost, hlen⟩

end BellmanFord

import Mathlib.Data.List.Induction
import Mathlib.Order.Basic
import Mathlib.Algebra.Group.Nat.Defs
import Mathlib.Tactic.Common

/-! # Searches by layers

A search by layers extends every path of one layer, in order, to the paths of the next (`layers`). A loop
that may fail has a closed form when what it has computed is a function of the items done: then it
succeeds exactly if the items are good together, and its result is that function. -/

namespace Frontier

variable {α β ε : Type*}

/-! ## Loops with a closed form -/

/-- A loop succeeds if it does up to its last step and the last step does. -/
theorem foldlM_concat_eq_ok {f : β → α → Except ε β} {xs : List α} {x : α} {b c : β} :
    (xs ++ [x]).foldlM f b = .ok c ↔ ∃ d, xs.foldlM f b = .ok d ∧ f d x = .ok c := by
  rw [List.foldlM_append]
  cases xs.foldlM f b with
  | error e => simp [Bind.bind, Except.bind]
  | ok d => cases hx : f d x <;> simp [hx, Bind.bind, Except.bind, pure, Except.pure]

/-- A loop whose every step succeeds exactly if the items done with it are good, and then adds it to the
closed form, succeeds exactly if all items are good. -/
theorem foldlM_eq_ok_iff {f : β → α → Except ε β} (good : List α → Prop) (value : List α → β)
    {xs : List α} {start : β} (hstart : value [] = start) (hnil : good [])
    (hdone : ∀ done x, good (done ++ [x]) → good done)
    (hstep : ∀ done x c, done ++ [x] <+: xs → good done →
      (f (value done) x = .ok c ↔ good (done ++ [x]) ∧ c = value (done ++ [x]))) {b : β} :
    xs.foldlM f start = .ok b ↔ good xs ∧ b = value xs := by
  subst hstart
  induction xs using List.reverseRecOn generalizing b with
  | nil =>
    simp only [List.foldlM_nil, hnil, true_and]
    exact ⟨fun h => (Except.ok.inj h).symm, fun h => congrArg Except.ok h.symm⟩
  | append_singleton xs x ih =>
    have hfirst := fun c => ih (b := c) fun done y d hy =>
      hstep done y d (hy.trans (List.prefix_append xs [x]))
    rw [foldlM_concat_eq_ok]
    constructor
    · rintro ⟨c, hfold, hlast⟩
      obtain ⟨hgood, rfl⟩ := (hfirst c).mp hfold
      exact (hstep xs x b List.prefix_rfl hgood).mp hlast
    · rintro ⟨hgood, rfl⟩
      have hbefore := hdone xs x hgood
      exact ⟨value xs, (hfirst _).mpr ⟨hbefore, rfl⟩,
        (hstep xs x _ List.prefix_rfl hbefore).mpr ⟨hgood, rfl⟩⟩

/-- The same for a counted loop. -/
theorem foldlM_range_eq_ok_iff {f : β → ℕ → Except ε β} (good : ℕ → Prop) (value : ℕ → β) {n : ℕ}
    {start : β} (hstart : value 0 = start) (hnil : good 0) (hdone : ∀ k, good (k + 1) → good k)
    (hstep : ∀ k c, k < n → good k → (f (value k) k = .ok c ↔ good (k + 1) ∧ c = value (k + 1))) {b : β} :
    (List.range n).foldlM f start = .ok b ↔ good n ∧ b = value n := by
  subst hstart
  induction n generalizing b with
  | zero =>
    simp only [List.range_zero, List.foldlM_nil, hnil, true_and]
    exact ⟨fun h => (Except.ok.inj h).symm, fun h => congrArg Except.ok h.symm⟩
  | succ n ih =>
    have hbefore := fun c => ih (b := c) fun k d hk => hstep k d (by omega)
    rw [List.range_succ, foldlM_concat_eq_ok]
    constructor
    · rintro ⟨c, hfold, hlast⟩
      obtain ⟨hgood, rfl⟩ := (hbefore c).mp hfold
      exact (hstep n b (by omega) hgood).mp hlast
    · rintro ⟨hgood, rfl⟩
      exact ⟨value n, (hbefore _).mpr ⟨hdone n hgood, rfl⟩,
        (hstep n _ (by omega) (hdone n hgood)).mpr ⟨hgood, rfl⟩⟩

/-- A loop succeeds if an invariant lets every step succeed. -/
theorem exists_foldlM_eq_ok {I : β → Prop} {f : β → α → Except ε β} {xs : List α} {b : β} (hb : I b)
    (h : ∀ x ∈ xs, ∀ b, I b → ∃ c, f b x = .ok c ∧ I c) : ∃ c, xs.foldlM f b = .ok c ∧ I c := by
  induction xs generalizing b with
  | nil => exact ⟨b, rfl, hb⟩
  | cons x xs ih =>
    obtain ⟨hx, hxs⟩ := List.forall_mem_cons.mp h
    obtain ⟨c, hc, hinv⟩ := hx b hb
    rw [List.foldlM_cons, hc]
    exact ih hinv hxs

/-- A loop fails as one of its steps does. -/
theorem foldlM_ne_error_of_mem {f : β → α → Except ε β} {e : ε} {xs : List α}
    (h : ∀ x ∈ xs, ∀ b, f b x ≠ .error e) (b : β) : xs.foldlM f b ≠ .error e := by
  induction xs generalizing b with
  | nil => exact fun hend => by cases hend
  | cons x xs ih =>
    have hx := h x (by simp) b
    rw [List.foldlM_cons]
    cases hfx : f b x with
    | error e' =>
      intro hend
      cases hend
      exact hx hfx
    | ok c => exact ih (fun y hy => h y (by simp [hy])) c

/-- A counted loop with a closed form fails as one of its steps does there. -/
theorem foldlM_range_ne_error {f : β → ℕ → Except ε β} {good : ℕ → Prop} {value : ℕ → β} {e : ε} {n : ℕ}
    {start : β} (hfirst : ∀ k < n, ∀ b, (List.range k).foldlM f start = .ok b → good k ∧ b = value k)
    (h : ∀ k < n, good k → f (value k) k ≠ .error e) : (List.range n).foldlM f start ≠ .error e := by
  induction n with
  | zero => exact fun hend => by cases hend
  | succ n ih =>
    have hbefore := ih (fun k hk => hfirst k (by omega)) fun k hk => h k (by omega)
    rw [List.range_succ, List.foldlM_append]
    cases hfold : (List.range n).foldlM f start with
    | error e' =>
      intro hend
      cases hend
      exact hbefore hfold
    | ok b =>
      obtain ⟨hgood, rfl⟩ := hfirst n (by omega) b hfold
      have hlast := h n (by omega) hgood
      cases hfn : f (value n) n with
      | error e' =>
        intro hend
        simp only [Bind.bind, Except.bind, List.foldlM_cons, hfn] at hend
        exact hlast (hfn.trans hend)
      | ok c =>
        intro hend
        simp [Bind.bind, Except.bind, List.foldlM_cons, hfn, pure, Except.pure] at hend

/-! ## Layers -/

/-- The paths of each layer. -/
def layers (next : ℕ → α → List α) (start : List α) : ℕ → List α
  | 0 => start
  | k + 1 => (layers next start k).flatMap (next k)

variable {next : ℕ → α → List α} {start : List α}

@[simp] theorem layers_zero : layers next start 0 = start := rfl

theorem layers_succ (k : ℕ) : layers next start (k + 1) = (layers next start k).flatMap (next k) := rfl

theorem mem_layers_succ {k : ℕ} {path : α} :
    path ∈ layers next start (k + 1) ↔ ∃ before ∈ layers next start k, path ∈ next k before :=
  List.mem_flatMap

/-- Layers grow by the branching at most. -/
theorem length_flatMap_le {m : ℕ} {xs : List α} {g : α → List β} (h : ∀ x ∈ xs, (g x).length ≤ m) :
    (xs.flatMap g).length ≤ m * xs.length := by
  induction xs with
  | nil => simp
  | cons x xs ih =>
    have hx := h x (by simp)
    have hxs := ih fun y hy => h y (by simp [hy])
    rw [List.flatMap_cons, List.length_append, List.length_cons, Nat.mul_succ]
    omega

theorem length_layers_le {m : ℕ} (h : ∀ k path, (next k path).length ≤ m) (k : ℕ) :
    (layers next start k).length ≤ m ^ k * start.length := by
  induction k with
  | zero => simp
  | succ k ih =>
    calc (layers next start (k + 1)).length
        ≤ m * (layers next start k).length := length_flatMap_le fun path _ => h k path
      _ ≤ m * (m ^ k * start.length) := Nat.mul_le_mul_left m ih
      _ = m ^ (k + 1) * start.length := by rw [← Nat.mul_assoc, Nat.pow_succ']

/-- A layer after an empty one is empty. -/
theorem layers_ne_nil {k n : ℕ} (hk : k ≤ n) (h : layers next start n ≠ []) :
    layers next start k ≠ [] := by
  induction hk with
  | refl => exact h
  | step _ ih =>
    apply ih
    intro hnil
    exact h (by rw [layers_succ, hnil, List.flatMap_nil])

end Frontier

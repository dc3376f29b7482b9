import StockMesh.Foundation.Stateful

/-! # Computations on a bounded work budget

A `Budgeted ε α` computation reads and charges a `Meter` and ends with a value or an error. The
meter survives an error, so a caller that recovers goes on with what is left. Charging past the
limit fails with one distinguished error.

`Runs x n r` is the specification used everywhere: given `n` units the computation `x` ends with
`r`, and given fewer it ends with `r` or with exhaustion. It composes along `bind`, recovery and
loops, so a metered program is compared with an unmetered one without looking at meters again. -/

namespace Budgeted

open Stateful

/-- A work budget: the units used so far and the most that may be used. -/
structure Meter where
  /-- Units charged so far. -/
  used : ℕ
  /-- Largest admissible value of `used`. -/
  limit : ℕ
  deriving DecidableEq, Repr

/-- The meter after `k` more units. -/
def Meter.spend (m : Meter) (k : ℕ) : Meter := { m with used := m.used + k }

@[simp] theorem Meter.spend_zero (m : Meter) : m.spend 0 = m := rfl

@[simp] theorem Meter.spend_used (m : Meter) (k : ℕ) : (m.spend k).used = m.used + k := rfl

@[simp] theorem Meter.spend_limit (m : Meter) (k : ℕ) : (m.spend k).limit = m.limit := rfl

@[simp] theorem Meter.spend_spend (m : Meter) (k l : ℕ) :
    (m.spend k).spend l = m.spend (k + l) := by
  simp [Meter.spend, Nat.add_assoc]

/-- A computation that draws on a meter. -/
abbrev Work (ε α : Type) := Comp ε Meter α

variable {ε α β : Type}

/-- Charge `units`, failing with `exhausted` past the limit or past the counter's width. -/
def charge (exhausted : ε) (width units : ℕ) : Work ε Unit := fun m =>
  if m.used + units < width ∧ m.used + units ≤ m.limit then (.ok (), m.spend units)
  else (.error exhausted, m)

/-- With `n` units at hand `x` ends with `r`; with fewer it may also end exhausted. -/
structure Runs (exhausted : ε) (width : ℕ) (x : Work ε α) (n : ℕ) (r : Except ε α) : Prop where
  /-- A sufficient budget gives the result and charges at most `n`. -/
  enough : ∀ m : Meter, m.used + n ≤ m.limit → m.limit < width →
    ∃ k ≤ n, x m = (r, m.spend k)
  /-- Whatever the budget, the outcome is the result or exhaustion. -/
  either : ∀ m : Meter, (x m).1 = r ∨ (x m).1 = .error exhausted

namespace Runs

variable {exhausted : ε} {width : ℕ}

/-- A free result runs on no budget. -/
theorem lift (r : Except ε α) : Runs exhausted width (lift r) 0 r :=
  ⟨fun _ _ _ => ⟨0, Nat.le_refl 0, rfl⟩, fun _ => Or.inl rfl⟩

/-- Returning a value runs on no budget. -/
theorem pure (a : α) : Runs exhausted width (Pure.pure a : Work ε α) 0 (.ok a) := lift _

/-- Failing runs on no budget. -/
theorem fail (e : ε) : Runs exhausted width (fail e : Work ε α) 0 (.error e) := lift _

/-- A charge runs on the units it charges. -/
theorem charge (units : ℕ) : Runs exhausted width (charge exhausted width units) units (.ok ()) := by
  refine ⟨fun m hm hw => ⟨units, Nat.le_refl units, ?_⟩, fun m => ?_⟩
  · rw [Budgeted.charge, if_pos ⟨by omega, hm⟩]
  · unfold Budgeted.charge
    split
    · exact Or.inl rfl
    · exact Or.inr rfl

/-- A larger budget is as good. -/
theorem mono {x : Work ε α} {n n' : ℕ} {r : Except ε α} (h : Runs exhausted width x n r)
    (hn : n ≤ n') : Runs exhausted width x n' r := by
  refine ⟨fun m hm hw => ?_, h.either⟩
  obtain ⟨k, hk, hx⟩ := h.enough m (by omega) hw
  exact ⟨k, Nat.le_trans hk hn, hx⟩

/-- Budgets add along `bind`. -/
theorem bind {x : Work ε α} {f : α → Work ε β} {n l : ℕ} {a : α} {r : Except ε β}
    (hx : Runs exhausted width x n (.ok a)) (hf : Runs exhausted width (f a) l r) :
    Runs exhausted width (x >>= f) (n + l) r := by
  refine ⟨fun m hm hw => ?_, fun m => ?_⟩
  · obtain ⟨k, hk, hxm⟩ := hx.enough m (by omega) hw
    obtain ⟨j, hj, hfm⟩ := hf.enough (m.spend k) (by simp; omega) hw
    exact ⟨k + j, by omega, by rw [Comp.bind_apply_ok hxm, hfm, Meter.spend_spend]⟩
  · rcases hxm : x m with ⟨b | b, m'⟩
    · rw [Comp.bind_apply_error hxm]
      rcases hx.either m with h | h <;> rw [hxm] at h
      · exact absurd h (by simp)
      · exact Or.inr (by cases h; rfl)
    · rw [Comp.bind_apply_ok hxm]
      rcases hx.either m with h | h <;> rw [hxm] at h
      · cases h
        exact hf.either m'
      · exact absurd h (by simp)

/-- Post-processing the value is free. -/
theorem bind_pure {x : Work ε α} {n : ℕ} {a : α} (f : α → β)
    (hx : Runs exhausted width x n (.ok a)) :
    Runs exhausted width (x >>= fun a => Pure.pure (f a)) n (.ok (f a)) :=
  Runs.mono (Runs.bind (l := 0) hx (pure (f a))) (Nat.le_refl n)

/-- An error ends a `bind`. -/
theorem bind_error {x : Work ε α} {f : α → Work ε β} {n : ℕ} {e : ε}
    (hx : Runs exhausted width x n (.error e)) :
    Runs exhausted width (x >>= f) n (.error e) := by
  refine ⟨fun m hm hw => ?_, fun m => ?_⟩
  · obtain ⟨k, hk, hxm⟩ := hx.enough m hm hw
    exact ⟨k, hk, Comp.bind_apply_error hxm⟩
  · rcases hxm : x m with ⟨b | b, m'⟩
    · rw [Comp.bind_apply_error hxm]
      rcases hx.either m with h | h <;> rw [hxm] at h
      · exact Or.inl (by cases h; rfl)
      · exact Or.inr (by cases h; rfl)
    · rcases hx.either m with h | h <;> rw [hxm] at h <;> exact absurd h (by simp)

/-- Budgets add along `bind` on results as well. -/
theorem bind_result {x : Work ε α} {f : α → Work ε β} {n l : ℕ} {r : Except ε α}
    {g : α → Except ε β} (hx : Runs exhausted width x n r)
    (hf : ∀ a, r = .ok a → Runs exhausted width (f a) l (g a)) :
    Runs exhausted width (x >>= f) (n + l) (r >>= g) := by
  cases r with
  | ok a => exact hx.bind (hf a rfl)
  | error e => exact hx.bind_error.mono (Nat.le_add_right n l)

/-- Recovery from everything but exhaustion, which the handler must pass on. -/
theorem attempt_bind {x : Work ε α} {f : Except ε α → Work ε β} {n l : ℕ} {r : Except ε α}
    {s : Except ε β} (hx : Runs exhausted width x n r) (hf : Runs exhausted width (f r) l s)
    (hpass : f (.error exhausted) = Stateful.fail exhausted) :
    Runs exhausted width (attempt x >>= f) (n + l) s := by
  have happly : ∀ m, (attempt x >>= f) m = f (x m).1 (x m).2 := fun _ => rfl
  refine ⟨fun m hm hw => ?_, fun m => ?_⟩
  · obtain ⟨k, hk, hxm⟩ := hx.enough m (by omega) hw
    obtain ⟨j, hj, hfm⟩ := hf.enough (m.spend k) (by simp; omega) hw
    refine ⟨k + j, by omega, ?_⟩
    rw [happly, hxm, hfm, Meter.spend_spend]
  · rw [happly]
    rcases hx.either m with h | h <;> rw [h]
    · exact hf.either _
    · rw [hpass]
      exact Or.inr rfl

/-- A loop over a list costs its length times the cost of one step. -/
theorem foldlM {g : β → α → Work ε β} {f : β → α → Except ε β} {n : ℕ} {xs : List α}
    (hstep : ∀ b, ∀ a ∈ xs, Runs exhausted width (g b a) n (f b a)) (b : β) :
    Runs exhausted width (xs.foldlM g b) (n * xs.length) (xs.foldlM f b) := by
  induction xs generalizing b with
  | nil => exact pure b
  | cons x xs ih =>
    rw [List.foldlM_cons, List.foldlM_cons, List.length_cons, Nat.mul_succ, Nat.add_comm]
    exact (hstep b x List.mem_cons_self).bind_result fun b' _ =>
      ih (fun b a ha => hstep b a (List.mem_cons_of_mem x ha)) b'

/-- A counted loop keeps an invariant indexed by the iterations done, and succeeds if every
iteration does. -/
theorem foldlM_range {g : β → ℕ → Work ε β} {P : ℕ → β → Prop} {cost n : ℕ}
    (hstep : ∀ k < n, ∀ b, P k b → ∃ b', Runs exhausted width (g b k) cost (.ok b') ∧ P (k + 1) b')
    {b : β} (h0 : P 0 b) :
    ∃ b', Runs exhausted width ((List.range n).foldlM g b) (cost * n) (.ok b') ∧ P n b' := by
  induction n with
  | zero => exact ⟨b, pure b, h0⟩
  | succ n ih =>
    obtain ⟨c, hrun, hc⟩ := ih fun k hk => hstep k (by omega)
    obtain ⟨d, hlast, hd⟩ := hstep n (by omega) c hc
    refine ⟨d, ?_, hd⟩
    rw [List.range_succ, List.foldlM_append, Nat.mul_succ]
    refine hrun.bind ?_
    rw [List.foldlM_cons]
    exact (hlast.bind (pure d)).mono (by omega)

/-- Some budget reaches the result. -/
theorem exists_run {x : Work ε α} {n : ℕ} {r : Except ε α} (h : Runs exhausted width x n r)
    (hn : n < width) : ∃ m m', x m = (r, m') := by
  obtain ⟨k, -, hx⟩ := h.enough ⟨0, n⟩ (Nat.le_of_eq (Nat.zero_add n)) hn
  exact ⟨_, _, hx⟩

/-- A computation has one result, however its budget is stated. -/
theorem unique {x : Work ε α} {n l : ℕ} {r r' : Except ε α} (h : Runs exhausted width x n r)
    (h' : Runs exhausted width x l r') (hn : n < width) (hl : l < width) : r = r' := by
  obtain ⟨k, -, hx⟩ := h.enough ⟨0, max n l⟩ (by simp only; omega) (by simp only; omega)
  obtain ⟨j, -, hx'⟩ := h'.enough ⟨0, max n l⟩ (by simp only; omega) (by simp only; omega)
  exact (congrArg Prod.fst hx).symm.trans (congrArg Prod.fst hx')

/-- What a run returns when it is not exhausted. -/
theorem eq_of_ne {x : Work ε α} {n : ℕ} {r : Except ε α} (h : Runs exhausted width x n r)
    {m : Meter} (hne : (x m).1 ≠ .error exhausted) : (x m).1 = r :=
  (h.either m).resolve_right hne

/-- A value returned on some budget is the value of the run. -/
theorem eq_of_ok {x : Work ε α} {n : ℕ} {r : Except ε α} (h : Runs exhausted width x n r)
    {m m' : Meter} {a : α} (hx : x m = (.ok a, m')) : r = .ok a := by
  rcases h.either m with hr | hr <;> rw [hx] at hr
  · exact hr.symm
  · exact absurd hr (by simp)

end Runs

end Budgeted

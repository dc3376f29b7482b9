import StockMesh.Foundation.Stateful

/-! # Two runs side by side

`Meets Q R` compares the outcomes of two computations that may run on different states: both end with
values related by `Q`, or both with one error and states related by `R`. The rules compose along
`bind` and loops, so two programs of the same shape are compared statement by statement. -/

namespace Stateful

variable {ε σ τ α β α' β' γ : Type}

/-- Both outcomes are values related by `Q`, or the same error with states related by `R`. -/
inductive Meets (Q : α → σ → β → τ → Prop) (R : σ → τ → Prop) :
    Except ε α × σ → Except ε β × τ → Prop
  | ok {a : α} {s : σ} {b : β} {t : τ} (h : Q a s b t) : Meets Q R (.ok a, s) (.ok b, t)
  | error {e : ε} {s : σ} {t : τ} (h : R s t) : Meets Q R (.error e, s) (.error e, t)

namespace Meets

variable {Q : α → σ → β → τ → Prop} {R : σ → τ → Prop} {S : α' → σ → β' → τ → Prop}

/-- What the second run ends with when the first one returns. -/
theorem of_ok {x : Except ε α × σ} {y : Except ε β × τ} (h : Meets Q R x y) {a : α} {s : σ}
    (hx : x = (.ok a, s)) : ∃ b t, y = (.ok b, t) ∧ Q a s b t := by
  rw [hx] at h
  cases h with
  | ok h => exact ⟨_, _, rfl, h⟩

/-- A weaker relation. -/
theorem mono {Q' : α → σ → β → τ → Prop} {R' : σ → τ → Prop} {x : Except ε α × σ}
    {y : Except ε β × τ} (h : Meets Q R x y) (hQ : ∀ a s b t, Q a s b t → Q' a s b t)
    (hR : ∀ s t, R s t → R' s t) : Meets Q' R' x y := by
  cases h with
  | ok h => exact .ok (hQ _ _ _ _ h)
  | error h => exact .error (hR _ _ h)

/-- Two returned values. -/
theorem pure {a : α} {b : β} {s : σ} {t : τ} (h : Q a s b t) :
    Meets Q R ((Pure.pure a : Comp ε σ α) s) ((Pure.pure b : Comp ε τ β) t) := .ok h

/-- The same stateless result on both sides. -/
theorem lift {r : Except ε α} {s : σ} {t : τ} {Q : α → σ → α → τ → Prop}
    (hok : ∀ a, r = .ok a → Q a s a t) (herr : R s t) :
    Meets Q R ((Stateful.lift r : Comp ε σ α) s) ((Stateful.lift r : Comp ε τ α) t) := by
  cases r with
  | ok a => exact .ok (hok a rfl)
  | error e => exact .error herr

/-- Two runs that go on from related values. -/
theorem bind {x : Comp ε σ α} {y : Comp ε τ β} {f : α → Comp ε σ α'} {g : β → Comp ε τ β'} {s : σ}
    {t : τ} (h : Meets Q R (x s) (y t))
    (hnext : ∀ a s' b t', x s = (.ok a, s') → y t = (.ok b, t') → Q a s' b t' →
      Meets S R (f a s') (g b t')) : Meets S R ((x >>= f) s) ((y >>= g) t) := by
  rcases hx : x s with ⟨e | a, s'⟩ <;> rcases hy : y t with ⟨e' | b, t'⟩ <;> rw [hx, hy] at h
  · rw [Comp.bind_apply_error hx, Comp.bind_apply_error hy]
    cases h with
    | error h => exact .error h
  · cases h
  · cases h
  · rw [Comp.bind_apply_ok hx, Comp.bind_apply_ok hy]
    cases h with
    | ok h => exact hnext a s' b t' hx hy h

/-- Two loops over one list keep an invariant of the part not yet done. -/
theorem foldlM {f : α → γ → Comp ε σ α} {g : β → γ → Comp ε τ β}
    {I : List γ → α → σ → β → τ → Prop}
    (hstep : ∀ c cs a s b t, I (c :: cs) a s b t → Meets (I cs) R (f a c s) (g b c t))
    (cs : List γ) {a : α} {s : σ} {b : β} {t : τ} (h : I cs a s b t) :
    Meets (I []) R (cs.foldlM f a s) (cs.foldlM g b t) := by
  induction cs generalizing a s b t with
  | nil => exact .ok h
  | cons c cs ih =>
    rw [List.foldlM_cons, List.foldlM_cons]
    apply (hstep c cs a s b t h).bind
    intro a' s' b' t' _ _ h'
    exact ih h'

end Meets

/-! ## Against a stateless result -/

/-- The outcome of a run is a result computed without the state, and an invariant of the state is kept. -/
def Agrees (I : σ → Prop) (o : Except ε α × σ) (r : Except ε α) : Prop := o.1 = r ∧ I o.2

namespace Agrees

variable {I : σ → Prop} {s : σ}

theorem pure {a : α} (h : I s) : Agrees I ((Pure.pure a : Comp ε σ α) s) (.ok a) := ⟨rfl, h⟩

theorem fail {e : ε} (h : I s) : Agrees I ((Stateful.fail e : Comp ε σ α) s) (.error e) := ⟨rfl, h⟩

theorem lift {r : Except ε α} (h : I s) : Agrees I ((Stateful.lift r : Comp ε σ α) s) r := ⟨rfl, h⟩

/-- The invariant may be weakened. -/
theorem mono {J : σ → Prop} {o : Except ε α × σ} {r : Except ε α} (h : Agrees I o r)
    (hIJ : ∀ s, I s → J s) : Agrees J o r := ⟨h.1, hIJ _ h.2⟩

/-- A run and a result that go on from the same value. -/
theorem bind {x : Comp ε σ α} {r : Except ε α} {f : α → Comp ε σ β} {g : α → Except ε β}
    (h : Agrees I (x s) r)
    (hnext : ∀ a s', x s = (.ok a, s') → r = .ok a → I s' → Agrees I (f a s') (g a)) :
    Agrees I ((x >>= f) s) (r >>= g) := by
  rcases hx : x s with ⟨e | a, s'⟩
  · rw [hx] at h
    obtain ⟨rfl, hs⟩ := h
    rw [Comp.bind_apply_error hx]
    exact ⟨rfl, hs⟩
  · rw [hx] at h
    obtain ⟨rfl, hs⟩ := h
    rw [Comp.bind_apply_ok hx]
    exact hnext a s' hx rfl hs

/-- A first part of the run whose value is known. -/
theorem bind_ok {x : Comp ε σ α} {a : α} {r : Except ε β} {f : α → Comp ε σ β}
    (h : Agrees I (x s) (.ok a)) (hnext : ∀ s', x s = (.ok a, s') → I s' → Agrees I (f a s') r) :
    Agrees I ((x >>= f) s) r := by
  obtain ⟨hvalue, hs⟩ := h
  have hx : x s = (.ok a, (x s).2) := Prod.ext hvalue rfl
  rw [Comp.bind_apply_ok hx]
  exact hnext _ hx hs

/-- Both sides begin with the same stateless result. -/
theorem lift_bind {r : Except ε α} {f : α → Comp ε σ β} {g : α → Except ε β} (hs : I s)
    (hnext : ∀ a, r = .ok a → Agrees I (f a s) (g a)) :
    Agrees I ((Stateful.lift r >>= f) s) (r >>= g) := by
  cases r with
  | ok a => exact hnext a rfl
  | error e => exact ⟨rfl, hs⟩

end Agrees

end Stateful

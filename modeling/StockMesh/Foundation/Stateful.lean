import Mathlib.Data.Nat.Basic
import Mathlib.Tactic.Common

/-! # Computations on a state that may fail

`Comp ε σ α` reads and writes a state `σ` and ends with a value or an error. The state survives an
error, so what a failed run has done stays visible. `Triple P x Q R` is the specification of one
computation: from a state in `P` it ends with a value and a state in `Q`, or with an error and a
state in `R`. The rules below compose triples along the program text; a loop needs an invariant. -/

namespace Stateful

/-- A computation on a state that may fail. -/
def Comp (ε σ α : Type) := σ → Except ε α × σ

variable {ε σ α β : Type}

namespace Comp

/-- Return a value. -/
protected def pure (a : α) : Comp ε σ α := fun s => (.ok a, s)

/-- Run `f` on the value of `x` and the state `x` leaves. -/
protected def bind (x : Comp ε σ α) (f : α → Comp ε σ β) : Comp ε σ β := fun s =>
  match x s with
  | (.ok a, s') => f a s'
  | (.error e, s') => (.error e, s')

instance : Monad (Comp ε σ) where
  pure := Comp.pure
  bind := Comp.bind

theorem pure_apply (a : α) (s : σ) : (pure a : Comp ε σ α) s = (.ok a, s) := rfl

theorem bind_apply_ok {x : Comp ε σ α} {f : α → Comp ε σ β} {s s' : σ} {a : α}
    (h : x s = (.ok a, s')) : (x >>= f) s = f a s' := by
  simp only [bind, Comp.bind, h]

theorem bind_apply_error {x : Comp ε σ α} {f : α → Comp ε σ β} {s s' : σ} {e : ε}
    (h : x s = (.error e, s')) : (x >>= f) s = (.error e, s') := by
  simp only [bind, Comp.bind, h]

/-- A sequence returns a value exactly when both parts do. -/
theorem bind_eq_ok {x : Comp ε σ α} {f : α → Comp ε σ β} {s s' : σ} {b : β} :
    (x >>= f) s = (.ok b, s') ↔ ∃ a s₁, x s = (.ok a, s₁) ∧ f a s₁ = (.ok b, s') := by
  rcases hx : x s with ⟨e | a, s₁⟩
  · rw [bind_apply_error hx]
    constructor
    · rintro ⟨⟩
    · rintro ⟨a, s₂, ⟨⟩, -⟩
  · rw [bind_apply_ok hx]
    constructor
    · exact fun h => ⟨a, s₁, rfl, h⟩
    · rintro ⟨a', s₂, ⟨⟩, h⟩
      exact h

/-- A run that can be seen to return. -/
theorem exists_of_isOk {x : Comp ε σ α} {s : σ} (h : (x s).1.isOk = true) :
    ∃ a s', x s = (.ok a, s') := by
  rcases hx : x s with ⟨e | a, s'⟩
  · rw [hx] at h
    cases h
  · exact ⟨a, s', rfl⟩

/-- In a loop that returns a value every step has returned one. -/
theorem foldlM_step_ok {f : β → α → Comp ε σ β} {xs : List α} {b c : β} {s s' : σ}
    (h : xs.foldlM f b s = (.ok c, s')) {a : α} (ha : a ∈ xs) :
    ∃ b₁ s₁ b₂ s₂, f b₁ a s₁ = (.ok b₂, s₂) := by
  induction xs generalizing b s with
  | nil => cases ha
  | cons x xs ih =>
    rw [List.foldlM_cons, bind_eq_ok] at h
    obtain ⟨b₂, s₂, hstep, hrest⟩ := h
    rcases List.mem_cons.mp ha with rfl | ha
    · exact ⟨b, s, b₂, s₂, hstep⟩
    · exact ih hrest ha

instance : LawfulMonad (Comp ε σ) := by
  refine LawfulMonad.mk' (Comp ε σ) ?_ ?_ ?_
  · intro α x
    funext s
    change Comp.bind x _ s = x s
    unfold Comp.bind
    rcases x s with ⟨_ | _, _⟩ <;> rfl
  · intros
    rfl
  · intro α β γ x f g
    funext s
    change Comp.bind (Comp.bind x f) g s = Comp.bind x (fun a => Comp.bind (f a) g) s
    unfold Comp.bind
    rcases x s with ⟨_ | _, _⟩ <;> rfl

end Comp

/-- A result computed without the state. -/
def lift (r : Except ε α) : Comp ε σ α := fun s => (r, s)

/-- End with an error. -/
def fail (e : ε) : Comp ε σ α := lift (.error e)

@[simp] theorem lift_ok (a : α) : lift (.ok a : Except ε α) = (pure a : Comp ε σ α) := rfl

theorem lift_eq_ok {r : Except ε α} {s s' : σ} {a : α} :
    (lift r : Comp ε σ α) s = (.ok a, s') ↔ r = .ok a ∧ s' = s := by
  simp only [lift, Prod.mk.injEq, eq_comm (a := s)]

/-- A sequence that begins with a stateless result. -/
theorem lift_bind_eq_ok {r : Except ε α} {f : α → Comp ε σ β} {s s' : σ} {b : β} :
    (lift r >>= f) s = (.ok b, s') ↔ ∃ a, r = .ok a ∧ f a s = (.ok b, s') := by
  rw [Comp.bind_eq_ok]
  constructor
  · rintro ⟨a, s₁, hlift, h⟩
    obtain ⟨hr, rfl⟩ := lift_eq_ok.mp hlift
    exact ⟨a, hr, h⟩
  · rintro ⟨a, hr, h⟩
    exact ⟨a, s, lift_eq_ok.mpr ⟨hr, rfl⟩, h⟩

/-- Recover: the outcome of `x` becomes a value and the state stays as `x` left it. -/
def attempt (x : Comp ε σ α) : Comp ε σ (Except ε α) := fun s => (.ok (x s).1, (x s).2)

/-- The current state. -/
def get : Comp ε σ σ := fun s => (.ok s, s)

/-- A sequence that begins by reading the state. -/
theorem get_bind (f : σ → Comp ε σ β) (s : σ) : (get >>= f) s = f s s := rfl

theorem pure_eq_ok {a b : α} {s s' : σ} :
    (pure a : Comp ε σ α) s = (.ok b, s') ↔ a = b ∧ s = s' := by
  rw [Comp.pure_apply, Prod.mk.injEq, Except.ok.injEq]

/-- Change the state. -/
def modify (f : σ → σ) : Comp ε σ Unit := fun s => (.ok (), f s)

/-! ## Triples -/

/-- From a state in `P`, `x` ends with a value in `Q` or with an error in `R`. -/
def Triple (P : σ → Prop) (x : Comp ε σ α) (Q : α → σ → Prop) (R : ε → σ → Prop) : Prop :=
  ∀ s, P s → match x s with
    | (.ok a, s') => Q a s'
    | (.error e, s') => R e s'

namespace Triple

variable {P P' : σ → Prop} {Q : α → σ → Prop} {Q' : β → σ → Prop} {R R' : ε → σ → Prop}
  {x : Comp ε σ α}

/-- What a run that returns a value leaves. -/
theorem ok (h : Triple P x Q R) {s s' : σ} {a : α} (hs : P s) (hx : x s = (.ok a, s')) :
    Q a s' := by
  have hpost := h s hs
  rw [hx] at hpost
  exact hpost

/-- What a run that fails leaves. -/
theorem error (h : Triple P x Q R) {s s' : σ} {e : ε} (hs : P s) (hx : x s = (.error e, s')) :
    R e s' := by
  have hpost := h s hs
  rw [hx] at hpost
  exact hpost

/-- A triple holds if the outcome of every run is as stated. -/
theorem of_forall (hok : ∀ s, P s → ∀ a s', x s = (.ok a, s') → Q a s')
    (herr : ∀ s, P s → ∀ e s', x s = (.error e, s') → R e s') : Triple P x Q R := by
  intro s hs
  rcases hx : x s with ⟨e | a, s'⟩
  · exact herr s hs e s' hx
  · exact hok s hs a s' hx

/-- A precondition may be strengthened. -/
theorem pre (h : Triple P x Q R) (hP : ∀ s, P' s → P s) : Triple P' x Q R := fun s hs =>
  h s (hP s hs)

/-- Postconditions may be weakened. -/
theorem post {Q₁ : α → σ → Prop} (h : Triple P x Q R) (hQ : ∀ a s, Q a s → Q₁ a s)
    (hR : ∀ e s, R e s → R' e s) : Triple P x Q₁ R' :=
  of_forall (fun _ hs _ _ hx => hQ _ _ (h.ok hs hx)) (fun _ hs _ _ hx => hR _ _ (h.error hs hx))

/-- A state-independent precondition is a hypothesis. -/
theorem of_fact {p : Prop} (h : p → Triple P x Q R) : Triple (fun s => p ∧ P s) x Q R := fun s hs =>
  h hs.1 s hs.2

/-- A family of preconditions may be treated one by one. -/
theorem of_exists {ι : Sort*} {F : ι → σ → Prop} (h : ∀ i, Triple (F i) x Q R) :
    Triple (fun s => ∃ i, F i s) x Q R := by
  rintro s ⟨i, hi⟩
  exact h i s hi

theorem pure {a : α} (h : ∀ s, P s → Q a s) : Triple P (Pure.pure a : Comp ε σ α) Q R := fun s hs =>
  h s hs

theorem fail {e : ε} (h : ∀ s, P s → R e s) : Triple P (fail e : Comp ε σ α) Q R := fun s hs =>
  h s hs

theorem lift {r : Except ε α} (hok : ∀ a, r = .ok a → ∀ s, P s → Q a s)
    (herr : ∀ e, r = .error e → ∀ s, P s → R e s) : Triple P (lift r : Comp ε σ α) Q R := by
  cases r with
  | ok a => exact fun s hs => hok a rfl s hs
  | error e => exact fun s hs => herr e rfl s hs

/-- Triples compose along `bind`. -/
theorem bind {f : α → Comp ε σ β} (hx : Triple P x Q R) (hf : ∀ a, Triple (Q a) (f a) Q' R) :
    Triple P (x >>= f) Q' R := by
  intro s hs
  rcases h : x s with ⟨e | a, s'⟩
  · rw [Comp.bind_apply_error h]
    exact hx.error hs h
  · rw [Comp.bind_apply_ok h]
    exact hf a s' (hx.ok hs h)

/-- A sequence that begins with a stateless result. -/
theorem lift_bind {r : Except ε α} {f : α → Comp ε σ β}
    (hok : ∀ a, r = .ok a → Triple P (f a) Q' R) (herr : ∀ e, r = .error e → ∀ s, P s → R e s) :
    Triple P (Stateful.lift r >>= f) Q' R := by
  cases r with
  | ok a => exact hok a rfl
  | error e => exact fun s hs => herr e rfl s hs

/-- A sequence that begins by reading the state. -/
theorem get_bind {f : σ → Comp ε σ β} (h : ∀ c, P c → Triple (fun s => s = c) (f c) Q' R) :
    Triple P (Stateful.get >>= f) Q' R := fun s hs => h s hs s rfl

/-- A sequence that begins by changing the state. -/
theorem modify_bind {g : σ → σ} {f : Unit → Comp ε σ β} {P₁ : σ → Prop} (hg : ∀ s, P s → P₁ (g s))
    (h : Triple P₁ (f ()) Q' R) : Triple P (Stateful.modify g >>= f) Q' R := fun s hs =>
  h (g s) (hg s hs)

/-- A check that refuses with an error. -/
theorem check {p : Prop} [Decidable p] {e : ε} (hbad : p → ∀ s, P s → R e s)
    (h : ¬p → Triple P x Q R) : Triple P (if p then Stateful.fail e else x) Q R := by
  by_cases hp : p
  · rw [if_pos hp]
    exact fail (hbad hp)
  · rw [if_neg hp]
    exact h hp

/-- A loop over a list keeps an invariant on what is left of the list. -/
theorem foldlM {I : List α → β → σ → Prop} {f : β → α → Comp ε σ β}
    (hstep : ∀ a as b, Triple (I (a :: as) b) (f b a) (I as) R) (as : List α) (b : β) :
    Triple (I as b) (as.foldlM f b) (I []) R := by
  induction as generalizing b with
  | nil => exact pure fun _ hs => hs
  | cons a as ih =>
    rw [List.foldlM_cons]
    exact (hstep a as b).bind fun b' => ih b'

end Triple

end Stateful

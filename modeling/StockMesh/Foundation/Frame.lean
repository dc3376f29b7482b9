import StockMesh.Foundation.Stateful
import Mathlib.Order.Defs.Unbundled

/-! # What a computation keeps

`Keeps R x` says that every run of `x` that returns relates the state before it to the state after it.
For a preorder the relation follows the program text: a sequence keeps what its parts keep, and a loop
what its steps keep. With "nothing outside a footprint changed" it is a frame rule. `Ensures I x Q` says
that a run from a state of an invariant leaves one and returns a value in `Q`. -/

namespace Stateful

variable {ε σ α β : Type} {R : σ → σ → Prop}

/-- Every run of `x` that returns keeps `R`. -/
def Keeps (R : σ → σ → Prop) (x : Comp ε σ α) : Prop := ∀ s a s', x s = (.ok a, s') → R s s'

namespace Keeps

/-- A weaker relation is kept too. -/
theorem mono {R' : σ → σ → Prop} {x : Comp ε σ α} (h : Keeps R x) (hR : ∀ s s', R s s' → R' s s') :
    Keeps R' x := fun s a s' hx => hR s s' (h s a s' hx)

section Rules

variable [IsPreorder σ R]

theorem lift {r : Except ε α} : Keeps R (lift r : Comp ε σ α) := by
  intro s a s' hx
  obtain ⟨-, rfl⟩ := lift_eq_ok.mp hx
  exact Std.Refl.refl s'

theorem pure {a : α} : Keeps R (Pure.pure a : Comp ε σ α) := lift (r := .ok a)

/-- A sequence keeps what its parts keep. -/
theorem bind {x : Comp ε σ α} {f : α → Comp ε σ β} (hx : Keeps R x) (hf : ∀ a, Keeps R (f a)) :
    Keeps R (x >>= f) := by
  intro s b s' h
  obtain ⟨a, s₁, hx₁, hf₁⟩ := Comp.bind_eq_ok.mp h
  exact IsTrans.trans _ _ _ (hx s a s₁ hx₁) (hf a s₁ b s' hf₁)

/-- A traversal keeps what its steps keep. -/
theorem forM {f : α → Comp ε σ Unit} {xs : List α} (hf : ∀ a ∈ xs, Keeps R (f a)) :
    Keeps R (xs.forM f) := by
  induction xs with
  | nil => exact pure
  | cons x xs ih =>
    show Keeps R (f x >>= fun _ => xs.forM f)
    exact (hf x List.mem_cons_self).bind fun _ => ih fun a ha => hf a (List.mem_cons_of_mem _ ha)

end Rules

/-- A sequence that begins with a stateless result. -/
theorem lift_bind {r : Except ε α} {f : α → Comp ε σ β} (hf : ∀ a, r = .ok a → Keeps R (f a)) :
    Keeps R (Stateful.lift r >>= f) := by
  intro s b s' h
  obtain ⟨a, hr, hf₁⟩ := lift_bind_eq_ok.mp h
  exact hf a hr s b s' hf₁

/-- A sequence that begins by reading the state. -/
theorem get_bind {f : σ → Comp ε σ β} (hf : ∀ c, Keeps R (f c)) : Keeps R (Stateful.get >>= f) :=
  fun s b s' h => hf s s b s' h

/-- Both branches of a test. -/
theorem ite {p : Prop} [Decidable p] {x y : Comp ε σ α} (hx : p → Keeps R x) (hy : ¬p → Keeps R y) :
    Keeps R (if p then x else y) := by
  by_cases hp : p
  · rw [if_pos hp]
    exact hx hp
  · rw [if_neg hp]
    exact hy hp

/-- A step that may be left out. -/
theorem of_optional [IsPreorder σ R] {p : Prop} [Decidable p] {x : Comp ε σ α} {y : Comp ε σ β} {s s' : σ}
    {b : β} (hx : Keeps R x) (h : (if p then x >>= fun _ => y else y) s = (.ok b, s')) :
    ∃ s₁, R s s₁ ∧ y s₁ = (.ok b, s') := by
  split at h
  · obtain ⟨a, s₁, hstep, h⟩ := Comp.bind_eq_ok.mp h
    exact ⟨s₁, hx s a s₁ hstep, h⟩
  · exact ⟨s, Std.Refl.refl s, h⟩

theorem modify {f : σ → σ} (hf : ∀ s, R s (f s)) : Keeps R (Stateful.modify f : Comp ε σ Unit) := by
  intro s a s' h
  cases h
  exact hf s

end Keeps

/-- From a state of the invariant, a run of `x` that returns leaves one, and its value is in `Q`. -/
def Ensures (I : σ → Prop) (x : Comp ε σ α) (Q : α → Prop) : Prop :=
  ∀ s a s', I s → x s = (.ok a, s') → I s' ∧ Q a

namespace Ensures

variable {I : σ → Prop} {Q : α → Prop} {Q' : β → Prop}

theorem pure {a : α} (h : Q a) : Ensures I (Pure.pure a : Comp ε σ α) Q := by
  intro s b s' hs hx
  obtain ⟨rfl, rfl⟩ := pure_eq_ok.mp hx
  exact ⟨hs, h⟩

theorem bind {x : Comp ε σ α} {f : α → Comp ε σ β} (hx : Ensures I x Q)
    (hf : ∀ a, Q a → Ensures I (f a) Q') : Ensures I (x >>= f) Q' := by
  intro s b s' hs h
  obtain ⟨a, s₁, hx₁, hf₁⟩ := Comp.bind_eq_ok.mp h
  obtain ⟨hs₁, ha⟩ := hx s a s₁ hs hx₁
  exact hf a ha s₁ b s' hs₁ hf₁

/-- A sequence that begins with a stateless result. -/
theorem lift_bind {r : Except ε α} {f : α → Comp ε σ β} (hf : ∀ a, r = .ok a → Ensures I (f a) Q') :
    Ensures I (Stateful.lift r >>= f) Q' := by
  intro s b s' hs h
  obtain ⟨a, hr, hf₁⟩ := lift_bind_eq_ok.mp h
  exact hf a hr s b s' hs hf₁

/-- A sequence that begins by reading the state. -/
theorem get_bind {f : σ → Comp ε σ β} (hf : ∀ c, I c → Ensures I (f c) Q') :
    Ensures I (Stateful.get >>= f) Q' :=
  fun s b s' hs h => hf s hs s b s' hs h

/-- Both branches of a test. -/
theorem ite {p : Prop} [Decidable p] {x y : Comp ε σ α} (hx : p → Ensures I x Q)
    (hy : ¬p → Ensures I y Q) : Ensures I (if p then x else y) Q := by
  by_cases hp : p
  · rw [if_pos hp]
    exact hx hp
  · rw [if_neg hp]
    exact hy hp

end Ensures

/-- The passes of a loop over a list, one state after another. -/
inductive Each {ι : Type} (step : ι → σ → σ → Prop) : List ι → σ → σ → Prop
  | nil (s : σ) : Each step [] s s
  | cons {e : ι} {items : List ι} {s s₁ s' : σ} (head : step e s s₁) (tail : Each step items s₁ s') :
      Each step (e :: items) s s'

/-- A run of `x` that returns. -/
def Returns (x : Comp ε σ α) (s s' : σ) : Prop := ∃ a, x s = (.ok a, s')

namespace Each

variable {ι : Type} {items : List ι} {s s' : σ}

/-- What every pass keeps is kept before, in and after each of them. -/
theorem mem [IsPreorder σ R] {step : ι → σ → σ → Prop} (h : Each step items s s')
    (hstep : ∀ e ∈ items, ∀ s s', step e s s' → R s s') :
    R s s' ∧ ∀ e ∈ items, ∃ s₁ s₂, R s s₁ ∧ step e s₁ s₂ ∧ R s₂ s' := by
  induction h with
  | nil s => exact ⟨Std.Refl.refl s, fun e he => absurd he List.not_mem_nil⟩
  | @cons e items s s₁ s' head tail ih =>
    have hhead := hstep e List.mem_cons_self _ _ head
    obtain ⟨htail, hpasses⟩ := ih fun e he => hstep e (List.mem_cons_of_mem _ he)
    refine ⟨IsTrans.trans _ _ _ hhead htail, fun x hx => ?_⟩
    rcases List.mem_cons.mp hx with rfl | hx
    · exact ⟨s, s₁, Std.Refl.refl s, head, htail⟩
    · obtain ⟨s₂, s₃, hbefore, hpass, hafter⟩ := hpasses x hx
      exact ⟨s₂, s₃, IsTrans.trans _ _ _ hhead hbefore, hpass, hafter⟩

theorem of_forM {f : ι → Comp ε σ Unit} (h : items.forM f s = (.ok (), s')) :
    Each (fun e => Returns (f e)) items s s' := by
  induction items generalizing s with
  | nil =>
    obtain ⟨-, rfl⟩ := pure_eq_ok.mp h
    exact .nil s
  | cons e items ih =>
    obtain ⟨a, s₁, hhead, htail⟩ := Comp.bind_eq_ok.mp h
    exact .cons ⟨a, hhead⟩ (ih htail)

theorem of_mapM {f : ι → Comp ε σ α} {ys : List α} (h : items.mapM f s = (.ok ys, s')) :
    Each (fun e => Returns (f e)) items s s' := by
  induction items generalizing s ys with
  | nil =>
    obtain ⟨-, rfl⟩ := pure_eq_ok.mp h
    exact .nil s
  | cons e items ih =>
    rw [List.mapM_cons] at h
    obtain ⟨y, s₁, hhead, h⟩ := Comp.bind_eq_ok.mp h
    obtain ⟨ys', s₂, htail, h⟩ := Comp.bind_eq_ok.mp h
    obtain ⟨-, rfl⟩ := pure_eq_ok.mp h
    exact .cons ⟨y, hhead⟩ (ih htail)

/-- Every element of a list that is mapped has its pass, and what the passes keep holds from there on. -/
theorem exists_pass [IsPreorder σ R] {f : ι → Comp ε σ α} {ys : List α} (h : items.mapM f s = (.ok ys, s'))
    (hf : ∀ e ∈ items, Keeps R (f e)) {e : ι} (he : e ∈ items) :
    ∃ s₁ y s₂, f e s₁ = (.ok y, s₂) ∧ R s₁ s' := by
  have hstep : ∀ e ∈ items, ∀ s s', Returns (f e) s s' → R s s' :=
    fun e he s s' hrun => hf e he s _ s' hrun.choose_spec
  obtain ⟨s₁, s₂, -, ⟨y, hpass⟩, hafter⟩ := ((of_mapM h).mem hstep).2 e he
  exact ⟨s₁, y, s₂, hpass, IsTrans.trans _ _ _ (hf e he s₁ y s₂ hpass) hafter⟩

end Each

end Stateful

/-- A loop that succeeds keeps every invariant that its steps over the list keep. -/
theorem List.foldlM_except_inv {ε α β : Type} {P : β → Prop} {f : β → α → Except ε β} {xs : List α}
    (hstep : ∀ b, ∀ a ∈ xs, ∀ b', P b → f b a = .ok b' → P b') {b b' : β} (hb : P b)
    (h : xs.foldlM f b = .ok b') : P b' := by
  induction xs generalizing b with
  | nil =>
    cases h
    exact hb
  | cons x xs ih =>
    rw [List.foldlM_cons] at h
    rcases hx : f b x with e | c
    · rw [hx] at h
      cases h
    · rw [hx] at h
      exact ih (fun b a ha => hstep b a (List.mem_cons_of_mem _ ha)) (hstep b x List.mem_cons_self c hb hx) h

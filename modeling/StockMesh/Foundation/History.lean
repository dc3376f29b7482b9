import Mathlib.Data.List.Basic
import Mathlib.Logic.Relation

/-! # Runs with a history

A labelled step relation: every step tells some events, and a run tells the events of its steps in
order. -/

namespace StockMesh

variable {σ ε : Type}

/-- The runs of a step relation, with the events that they tell. -/
inductive Tells (step : σ → List ε → σ → Prop) (s : σ) : List ε → σ → Prop
  | refl : Tells step s [] s
  | tail {log events : List ε} {s' s'' : σ} (run : Tells step s log s') (last : step s' events s'') :
      Tells step s (log ++ events) s''

namespace Tells

variable {step : σ → List ε → σ → Prop} {s s' s'' : σ} {log more : List ε}

theorem single (h : step s log s') : Tells step s log s' := by
  have hrun : Tells step s ([] ++ log) s' := .tail .refl h
  rwa [List.nil_append] at hrun

theorem trans (h : Tells step s log s') (h' : Tells step s' more s'') :
    Tells step s (log ++ more) s'' := by
  induction h' with
  | refl => rwa [List.append_nil]
  | tail run last ih =>
    rw [← List.append_assoc]
    exact ih.tail last

/-- What holds at the start and after every step of a run holds at its end. -/
theorem invariant {I : List ε → σ → Prop} (h : Tells step s log s') (start : I [] s)
    (next : ∀ log s₁ events s₂, I log s₁ → step s₁ events s₂ → I (log ++ events) s₂) : I log s' := by
  induction h with
  | refl => exact start
  | tail run last ih => exact next _ _ _ _ ih last

/-- A run without its events, in another relation. -/
theorem reaches {ρ : Type} {R : ρ → ρ → Prop} (f : σ → ρ) (h : Tells step s log s')
    (hstep : ∀ s₁ events s₂, step s₁ events s₂ → Relation.ReflTransGen R (f s₁) (f s₂)) :
    Relation.ReflTransGen R (f s) (f s') := by
  induction h with
  | refl => exact .refl
  | tail run last ih => exact ih.trans (hstep _ _ _ last)

/-- The step that told an event. -/
theorem exists_step {before after : List ε} {e : ε} (h : Tells step s (before ++ e :: after) s') :
    ∃ log s₁ xs ys s₂, Tells step s log s₁ ∧ step s₁ (xs ++ e :: ys) s₂ ∧ before = log ++ xs := by
  generalize hlog : before ++ e :: after = log at h
  induction h generalizing before after with
  | refl => exact absurd hlog (List.append_ne_nil_of_right_ne_nil _ (List.cons_ne_nil _ _))
  | @tail log events s₁ s₂ run last ih =>
    obtain ⟨rest, hrest, hevents⟩ | ⟨xs, hxs, rfl⟩ := List.append_eq_append_iff.mp hlog
    · cases rest with
      | nil =>
        -- the last step begins with the event
        subst hevents
        exact ⟨log, s₁, [], after, s₂, run, last, by rw [List.append_nil, hrest, List.append_nil]⟩
      | cons x rest =>
        obtain ⟨rfl, -⟩ := List.cons.inj hevents
        exact ih hrest.symm
    · exact ⟨log, s₁, xs, after, s₂, run, last, hxs⟩

end Tells

end StockMesh

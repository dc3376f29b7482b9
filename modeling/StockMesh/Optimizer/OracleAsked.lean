import StockMesh.Optimizer.OracleState
import StockMesh.Foundation.Frame

/-! # What a search with a state has asked

Every nonzero input of a plan was answered by the oracle in some state that the answers lead to
(`refine_asked`). Nothing is assumed of the answers: those of different states need not agree. -/

namespace StockMesh.ExactOracle

open Stateful

section Asked

variable {σ : Type} {I : σ → Prop} {oracle : ℕ → ℕ → σ → Result (ℕ × ℕ) × σ}
  {limit edges costLimit legs : ℕ}

/-- The oracle answers a question in a state of the invariant. -/
def Answered {γ : Type} (I : σ → Prop) (oracle : ℕ → ℕ → σ → Result γ × σ) (edge amount : ℕ) : Prop :=
  ∃ s, I s ∧ ∃ r, (oracle edge amount s).1 = .ok r

/-- Every nonzero input of a plan is answered. -/
def Asked {γ : Type} (I : σ → Prop) (oracle : ℕ → ℕ → σ → Result γ × σ) (plan : ExactPlan) : Prop :=
  ∀ i, plan.inputs i ≠ 0 → Answered I oracle i (plan.inputs i)

/-- The answers keep the invariant. -/
def Closed {γ : Type} (I : σ → Prop) (oracle : ℕ → ℕ → σ → γ × σ) : Prop :=
  ∀ edge amount s, I s → I (oracle edge amount s).2

theorem asked_empty : Asked I oracle {} := fun _ h => absurd rfl h

/-- One more answered input. -/
theorem Asked.update {plan plan' : ExactPlan} (h : Asked I oracle plan) {edge amount : ℕ}
    (hinputs : plan'.inputs = Function.update plan.inputs edge amount)
    (hanswer : amount ≠ 0 → Answered I oracle edge amount) : Asked I oracle plan' := by
  intro i hi
  rw [hinputs] at hi ⊢
  by_cases hedge : i = edge
  · subst hedge
    rw [Function.update_self] at hi ⊢
    exact hanswer hi
  · rw [Function.update_of_ne hedge] at hi ⊢
    exact h i hi

/-- The states of a search whose oracle is in a state of the invariant. -/
abbrev Within (I : σ → Prop) (s : ℕ × σ) : Prop := I s.2

theorem ask_asked (hclosed : Closed I oracle) (edge amount : ℕ) :
    Ensures (Within I) (Held.ask oracle limit edge amount)
      fun r => r.isOk = true → amount ≠ 0 → Answered I oracle edge amount := by
  refine .get_bind fun s hs => .ite (fun hzero => ?_) fun _ => .ite (fun _ => ?_) fun _ => ?_
  · exact .pure fun _ hne => absurd hzero hne
  · exact .pure fun h => by cases h
  · rintro ⟨calls, s₀⟩ r s' hs₀ h
    cases h
    refine ⟨hclosed edge amount _ hs₀, fun hok _ => ?_⟩
    obtain ⟨q, hq⟩ := exists_of_isOk hok
    exact ⟨s.2, hs, q, hq⟩

theorem seed_asked (hclosed : Closed I oracle) {mask : ℕ} {rest : List ℕ} {candidate : ExactPlan}
    (h : Asked I oracle candidate) (left remaining : ℕ) :
    Ensures (Within I) (Held.seed oracle limit mask rest candidate left remaining)
      fun found => ∀ plan ∈ found, Asked I oracle plan := by
  induction rest generalizing candidate left remaining with
  | nil =>
    refine .pure fun plan hplan => ?_
    cases hplan
    exact h
  | cons i rest ih =>
    rw [Held.seed]
    refine .ite (fun _ => ?_) fun _ => ih h left remaining
    refine .bind (ask_asked hclosed i _) fun r hr => ?_
    rcases r with e | ⟨output, cost⟩
    · exact .pure fun _ hplan => by cases hplan
    · refine .lift_bind fun total _ => .lift_bind fun out _ => ih (h.update rfl (hr rfl)) _ _

theorem better_asked {best : ExactPlan} {found : Option ExactPlan} (h : Asked I oracle best)
    (hfound : ∀ plan ∈ found, Asked I oracle plan) : Asked I oracle (better costLimit best found) := by
  cases found with
  | none => exact h
  | some candidate =>
    rw [better]
    split
    · exact hfound candidate rfl
    · exact h

theorem seeds_asked (hclosed : Closed I oracle) {amount : ℕ} {masks : List ℕ} {best : ExactPlan}
    (h : Asked I oracle best) :
    Ensures (Within I) (Held.seeds oracle limit edges amount costLimit legs masks best)
      (Asked I oracle) := by
  induction masks generalizing best with
  | nil => exact .pure h
  | cons mask masks ih =>
    rw [Held.seeds]
    refine .ite (fun _ => ih h) fun _ => ?_
    refine .bind (seed_asked hclosed asked_empty _ _) fun found hfound => .get_bind fun s _ => ?_
    have hbetter := @better_asked _ I oracle costLimit best found h hfound
    exact .ite (fun _ => .pure hbetter) fun _ => ih hbetter

/-- An exchange answers both edges that it moves between. -/
theorem exchange_asked (hclosed : Closed I oracle) {best next : ExactPlan} (h : Asked I oracle best)
    (hnext : Asked I oracle next) (source target take : ℕ) :
    Ensures (Within I) (Held.exchange oracle limit costLimit best next source target take)
      (Asked I oracle) := by
  refine .lift_bind fun b _ => .bind (ask_asked hclosed _ _) fun qa hqa =>
    .bind (ask_asked hclosed _ _) fun qb hqb => ?_
  rcases qa with ea | ⟨oa, ca⟩
  · exact .pure hnext
  rcases qb with eb | ⟨ob, cb⟩
  · exact .pure hnext
  refine .lift_bind fun cost _ => .ite (fun _ => .pure hnext) fun _ => .lift_bind fun output _ =>
    .ite (fun _ => .pure ?_) fun _ => .pure hnext
  -- the source first, then the target
  have hsource : Asked I oracle
      { best with inputs := Function.update best.inputs source (best.inputs source - take) } :=
    h.update rfl (hqa rfl)
  exact hsource.update rfl (hqb rfl)

theorem sweep_asked (hclosed : Closed I oracle) {step : ℕ} {best : ExactPlan} (h : Asked I oracle best)
    {todo : List (ℕ × ℕ)} {next : ExactPlan} (hnext : Asked I oracle next) :
    Ensures (Within I) (Held.sweep oracle limit costLimit legs step best todo next)
      fun found => ∀ plan ∈ found, Asked I oracle plan := by
  induction todo generalizing next with
  | nil =>
    refine .pure fun plan hplan => ?_
    cases hplan
    exact hnext
  | cons p todo ih =>
    obtain ⟨source, target⟩ := p
    refine .get_bind fun s _ => .ite (fun _ => ih hnext) fun _ => .ite (fun _ => .pure ?_) fun _ => ?_
    · exact fun _ hplan => by cases hplan
    · exact .bind (exchange_asked hclosed h hnext _ _ _) fun plan hplan => ih hplan

theorem refineStep_asked (hclosed : Closed I oracle) {step fuel : ℕ} {best : ExactPlan}
    (h : Asked I oracle best) :
    Ensures (Within I) (Held.refineStep oracle limit edges costLimit legs step fuel best)
      fun found => Asked I oracle found.1 := by
  induction fuel generalizing best with
  | zero => exact .pure h
  | succ fuel ih =>
    refine .bind (sweep_asked hclosed h h) fun found hfound => ?_
    cases found with
    | none => exact .pure h
    | some next => exact .ite (fun _ => .pure h) fun _ => ih (hfound next rfl)

theorem refineSteps_asked (hclosed : Closed I oracle) {step fuel : ℕ} {best : ExactPlan}
    (h : Asked I oracle best) :
    Ensures (Within I) (Held.refineSteps oracle limit edges costLimit legs fuel step best)
      (Asked I oracle) := by
  induction fuel generalizing step best with
  | zero => exact .pure h
  | succ fuel ih =>
    have hbest : Asked I oracle { best with finalStep := step } := h
    refine .bind (refineStep_asked hclosed hbest) fun found hfound => ?_
    obtain ⟨plan, more⟩ := found
    exact .ite (fun _ => .pure hfound) fun _ => .ite (fun _ => .pure hfound) fun _ => ih hfound

/-- Every nonzero input of the plan of a search was answered. -/
theorem refineBoundedLegs_asked (hclosed : Closed I oracle) {amount : ℕ} :
    Ensures (Within I) (Held.refineBoundedLegs edges amount limit costLimit legs oracle)
      (Asked I oracle) := by
  refine .lift_bind fun _ _ => .lift_bind fun _ _ => ?_
  refine .bind (seeds_asked hclosed asked_empty) fun best hbest => .get_bind fun s _ => ?_
  refine .lift_bind fun _ _ => .bind (refineSteps_asked hclosed hbest) fun plan hplan => ?_
  exact .get_bind fun s' _ => .pure hplan

/-- The same for the search without costs. -/
theorem refine_asked {oracle : ℕ → ℕ → σ → Result ℕ × σ} (hclosed : Closed I oracle) {amount : ℕ} {s : σ}
    (hs : I s) {plan : ExactPlan} (h : (Held.refine edges amount limit oracle s).1 = .ok plan) :
    Asked I oracle plan := by
  let free : ℕ → ℕ → σ → Result (ℕ × ℕ) × σ := fun i q s =>
    ((oracle i q s).1.map fun out => (out, 0), (oracle i q s).2)
  have hfree : Closed I free := hclosed
  rcases hrun : Held.refineBoundedLegs edges amount limit (u64Size - 1) StockMesh.maxLegs free (0, s) with
    ⟨r, after⟩
  have hplan : r = .ok plan := by
    have heq : (Held.refine edges amount limit oracle s).1 = r := by
      show (Held.refineBoundedLegs edges amount limit (u64Size - 1) StockMesh.maxLegs free (0, s)).1 = r
      rw [hrun]
    exact heq.symm.trans h
  subst hplan
  obtain ⟨-, hasked⟩ := refineBoundedLegs_asked hfree _ _ _ hs hrun
  intro i hi
  obtain ⟨s₁, hs₁, q, hq⟩ := hasked i hi
  refine ⟨s₁, hs₁, ?_⟩
  rcases hr : (oracle i (plan.inputs i) s₁).1 with e | out
  · have herror : ((oracle i (plan.inputs i) s₁).1.map fun out => (out, 0)) = .ok q := hq
    rw [hr] at herror
    cases herror
  · exact ⟨out, rfl⟩

end Asked

end StockMesh.ExactOracle

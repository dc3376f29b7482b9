import StockMesh.Optimizer.OracleTrace
import Mathlib.Algebra.BigOperators.Ring.Finset
import Mathlib.Algebra.Order.BigOperators.Group.Finset
import Mathlib.Tactic.Ring

/-! # What a search against an exact oracle keeps

Every allocation that the search evaluates is one: its inputs make up the amount and its totals are those
of the oracle's answers. Hence what leaves a total was in it, and no unchecked subtraction underflows. The
plan returned is at least as good as what was evaluated, up to the scan in which the calls run out. -/

namespace StockMesh.ExactOracle

open Stateful

/-- What the oracle says; nothing for nothing. -/
def answer (oracle : ℕ → ℕ → Result (ℕ × ℕ)) (edge amount : ℕ) : Result (ℕ × ℕ) :=
  if amount = 0 then .ok (0, 0) else oracle edge amount

/-- The outputs and costs of a plan are the answers for its inputs, and the totals are theirs. -/
structure Quoted (oracle : ℕ → ℕ → Result (ℕ × ℕ)) (edges : ℕ) (plan : ExactPlan) : Prop where
  outside : ∀ i, edges ≤ i → plan.inputs i = 0
  answers : ∀ i, answer oracle i (plan.inputs i) = .ok (plan.outputs i, plan.costs i)
  output_eq : plan.output = ∑ i ∈ Finset.range edges, plan.outputs i
  cost_eq : plan.cost = ∑ i ∈ Finset.range edges, plan.costs i

/-- A plan that allocates the amount to at most `legs` edges. -/
structure Allocation (oracle : ℕ → ℕ → Result (ℕ × ℕ)) (edges amount legs : ℕ) (plan : ExactPlan) : Prop
    extends Quoted oracle edges plan where
  sum_inputs : ∑ i ∈ Finset.range edges, plan.inputs i = amount
  active_le : plan.active ≤ legs

/-- The edges of a mask have equal parts of the amount, up to one atom. -/
structure EvenSplit (edges amount mask : ℕ) (plan : ExactPlan) : Prop where
  unused : ∀ i, mask.testBit i = false → plan.inputs i = 0
  share : ∀ i < edges, mask.testBit i = true → plan.inputs i = amount / countOnes edges mask ∨
    plan.inputs i = amount / countOnes edges mask + 1

section Plans

variable {oracle : ℕ → ℕ → Result (ℕ × ℕ)} {edges amount legs : ℕ} {plan : ExactPlan}

/-- Change the share of one edge. -/
def ExactPlan.set (plan : ExactPlan) (i q o c output cost : ℕ) : ExactPlan :=
  { plan with
    inputs := Function.update plan.inputs i q
    outputs := Function.update plan.outputs i o
    output := output
    costs := Function.update plan.costs i c
    cost := cost }

theorem Quoted.set (h : Quoted oracle edges plan) {i q o c output cost : ℕ} (hi : i < edges)
    (hans : answer oracle i q = .ok (o, c)) (hout : output + plan.outputs i = plan.output + o)
    (hcost : cost + plan.costs i = plan.cost + c) :
    Quoted oracle edges (plan.set i q o c output cost) := by
  constructor
  · intro j hj
    have hne : j ≠ i := by omega
    simpa [ExactPlan.set, hne] using h.outside j hj
  · intro j
    by_cases hji : j = i
    · subst hji
      simpa [ExactPlan.set] using hans
    · simpa [ExactPlan.set, hji] using h.answers j
  · have hsum := sum_update plan.outputs hi o
    have hold := h.output_eq
    show output = ∑ j ∈ Finset.range edges, Function.update plan.outputs i o j
    omega
  · have hsum := sum_update plan.costs hi c
    have hold := h.cost_eq
    show cost = ∑ j ∈ Finset.range edges, Function.update plan.costs i c j
    omega

/-- An edge that has nothing contributes nothing. -/
theorem Quoted.eq_zero (h : Quoted oracle edges plan) {i : ℕ} (hi : plan.inputs i = 0) :
    plan.outputs i = 0 ∧ plan.costs i = 0 := by
  have hans := h.answers i
  rw [hi, answer, if_pos rfl] at hans
  obtain ⟨hout, hcost⟩ := Prod.mk.inj (Except.ok.inj hans)
  exact ⟨hout.symm, hcost.symm⟩

/-- The edges in use, as a sum. -/
theorem active_eq_sum (plan : ExactPlan) :
    plan.active = ∑ i ∈ Finset.range maxEdges, if 0 < plan.inputs i then 1 else 0 := by
  rw [ExactPlan.active, Finset.sum_boole, List.countP_eq_length_filter]
  rfl

theorem active_set {i : ℕ} (hi : i < maxEdges) (q o c output cost : ℕ) :
    (plan.set i q o c output cost).active + (if 0 < plan.inputs i then 1 else 0)
      = plan.active + if 0 < q then 1 else 0 := by
  have hsum := sum_update (fun j => if 0 < plan.inputs j then 1 else 0) hi (if 0 < q then 1 else 0)
  rw [active_eq_sum, active_eq_sum, ← hsum]
  congr 1
  refine Finset.sum_congr rfl fun j _ => ?_
  by_cases hji : j = i
  · subst hji
    simp [ExactPlan.set]
  · simp [ExactPlan.set, hji]

/-- Two edges hold no more than the total. -/
theorem add_le_total {f : ℕ → ℕ} {i j : ℕ} (hi : i < edges) (hj : j < edges) (hne : i ≠ j) :
    f i + f j ≤ ∑ k ∈ Finset.range edges, f k :=
  Finset.add_le_sum (fun _ _ => Nat.zero_le _) (Finset.mem_range.mpr hi) (Finset.mem_range.mpr hj) hne

end Plans

theorem replaced_eq_ok {total x y a b next : ℕ} (h : replaced total x y a b = .ok next) :
    next + x + y = total + a + b := by
  obtain ⟨kept, hkept, h⟩ := bind_eq_ok.mp h
  obtain ⟨kept', hkept', h⟩ := bind_eq_ok.mp h
  obtain ⟨sum, hsum, h⟩ := bind_eq_ok.mp h
  obtain ⟨-, rfl⟩ := fits_eq_ok.mp hsum
  obtain ⟨-, rfl⟩ := fits_eq_ok.mp h
  unfold subUint at hkept hkept'
  split at hkept <;> cases hkept
  split at hkept' <;> cases hkept'
  omega

/-! ## The record of a run -/

/-- A later record of the same search. -/
def Extends (t₀ t : Trace) : Prop := t₀.asked <+: t.asked ∧ t₀.seeded <+: t.seeded

section Growth

variable {oracle : ℕ → ℕ → Result (ℕ × ℕ)} {limit edges amount costLimit legs : ℕ} {t₀ : Trace}

theorem Extends.lift_bind {α β : Type} {r : Result α} {f : α → Search β}
    (hf : ∀ a, Triple (Extends t₀) (f a) (fun _ => Extends t₀) fun _ => Extends t₀) :
    Triple (Extends t₀) (lift r >>= f) (fun _ => Extends t₀) fun _ => Extends t₀ :=
  Triple.lift_bind (fun a _ => hf a) fun _ _ _ ht => ht

theorem Extends.note_bind {β : Type} {x y : ℕ} {f : Unit → Search β}
    (hf : Triple (Extends t₀) (f ()) (fun _ => Extends t₀) fun _ => Extends t₀) :
    Triple (Extends t₀) (Traced.note x y >>= f) (fun _ => Extends t₀) fun _ => Extends t₀ :=
  fun t ht => hf { t with subtracted := t.subtracted ++ [(x, y)] } ht

theorem ask_extends (edge q : ℕ) : Triple (Extends t₀) (Traced.ask oracle limit edge q)
    (fun _ => Extends t₀) fun _ => Extends t₀ := by
  intro t ht
  rw [Traced.ask, get_bind]
  by_cases hq : q = 0
  · rw [if_pos hq]
    exact ht
  rw [if_neg hq]
  by_cases hcalls : t.asked.length = limit
  · rw [if_pos hcalls]
    exact ht
  · rw [if_neg hcalls]
    exact ⟨ht.1.trans (List.prefix_append _ _), ht.2⟩

theorem seed_extends {mask : ℕ} {rest : List ℕ} (candidate : ExactPlan) (left remaining : ℕ) :
    Triple (Extends t₀) (Traced.seed oracle limit mask rest candidate left remaining)
      (fun _ => Extends t₀) fun _ => Extends t₀ := by
  induction rest generalizing candidate left remaining with
  | nil => exact Triple.pure fun _ ht => ht
  | cons i rest ih =>
    rw [Traced.seed]
    split
    · refine (ask_extends i (left / remaining)).bind fun r => ?_
      cases r with
      | error e => exact Triple.pure fun _ ht => ht
      | ok v => exact Extends.lift_bind fun _ => Extends.lift_bind fun _ =>
          Extends.note_bind (Extends.note_bind (ih _ _ _))
    · exact ih candidate left remaining

theorem recordSeed_extends (mask : ℕ) (r : Option ExactPlan) :
    Triple (Extends t₀) (Traced.recordSeed mask r) (fun _ => Extends t₀) fun _ => Extends t₀ := by
  cases r with
  | none => exact Triple.pure fun _ ht => ht
  | some candidate => exact fun t ht => ⟨ht.1, ht.2.trans (List.prefix_append _ _)⟩

theorem seeds_extends {masks : List ℕ} (best : ExactPlan) :
    Triple (Extends t₀) (Traced.seeds oracle limit edges amount costLimit legs masks best)
      (fun _ => Extends t₀) fun _ => Extends t₀ := by
  induction masks generalizing best with
  | nil => exact Triple.pure fun _ ht => ht
  | cons mask masks ih =>
    rw [Traced.seeds]
    dsimp only
    split
    · exact ih best
    · refine (seed_extends {} amount _).bind fun r => (recordSeed_extends mask r).bind fun _ t ht => ?_
      rw [get_bind]
      by_cases hcalls : t.asked.length = limit
      · rw [if_pos hcalls]
        exact ht
      · rw [if_neg hcalls]
        exact ih _ t ht

theorem exchange_extends {source target take : ℕ} (best next : ExactPlan) :
    Triple (Extends t₀) (Traced.exchange oracle limit costLimit best next source target take)
      (fun _ => Extends t₀) fun _ => Extends t₀ := by
  refine Extends.note_bind (Extends.lift_bind fun b => ?_)
  refine (ask_extends source _).bind fun qa => (ask_extends target b).bind fun qb => ?_
  rcases qa with ea | ⟨oa, ca⟩
  · exact Triple.pure fun _ ht => ht
  rcases qb with eb | ⟨ob, cb⟩
  · exact Triple.pure fun _ ht => ht
  refine Extends.note_bind (Extends.note_bind (Extends.lift_bind fun cost => ?_))
  by_cases hover : costLimit < cost
  · rw [if_pos hover]
    exact Triple.pure fun _ ht => ht
  rw [if_neg hover]
  refine Extends.note_bind (Extends.note_bind (Extends.lift_bind fun output t ht => ?_))
  by_cases hbetter : next.output < output
  · rw [if_pos hbetter]
    exact ht
  · rw [if_neg hbetter]
    exact ht

theorem sweep_extends {step : ℕ} {best : ExactPlan} {todo : List (ℕ × ℕ)} (next : ExactPlan) :
    Triple (Extends t₀) (Traced.sweep oracle limit costLimit legs step best todo next)
      (fun _ => Extends t₀) fun _ => Extends t₀ := by
  induction todo generalizing next with
  | nil => exact Triple.pure fun _ ht => ht
  | cons p todo ih =>
    obtain ⟨source, target⟩ := p
    intro t ht
    rw [Traced.sweep, get_bind]
    dsimp only
    by_cases hskip : best.inputs source = 0 ∨ source = target ∨
        (best.inputs target = 0 ∧ min (best.inputs source) step < best.inputs source ∧
          best.active = legs)
    · rw [if_pos hskip]
      exact ih next t ht
    rw [if_neg hskip]
    by_cases hcalls : limit < min (t.asked.length + 2) (u32Size - 1)
    · rw [if_pos hcalls]
      exact ht
    · rw [if_neg hcalls]
      exact ((exchange_extends best next).bind fun next' => ih next') t ht

theorem refineStep_extends {step fuel : ℕ} (best : ExactPlan) :
    Triple (Extends t₀) (Traced.refineStep oracle limit edges costLimit legs step fuel best)
      (fun _ => Extends t₀) fun _ => Extends t₀ := by
  induction fuel generalizing best with
  | zero => exact Triple.pure fun _ ht => ht
  | succ fuel ih =>
    refine (sweep_extends best).bind fun r => ?_
    cases r with
    | none => exact Triple.pure fun _ ht => ht
    | some next =>
      dsimp only
      split
      · exact Triple.pure fun _ ht => ht
      · exact ih next

theorem refineSteps_extends {step fuel : ℕ} (best : ExactPlan) :
    Triple (Extends t₀) (Traced.refineSteps oracle limit edges costLimit legs fuel step best)
      (fun _ => Extends t₀) fun _ => Extends t₀ := by
  induction fuel generalizing step best with
  | zero => exact Triple.pure fun _ ht => ht
  | succ fuel ih =>
    refine (refineStep_extends { best with finalStep := step }).bind fun r => ?_
    obtain ⟨best', more⟩ := r
    dsimp only
    split
    · exact Triple.pure fun _ ht => ht
    split
    · exact Triple.pure fun _ ht => ht
    · exact ih best'

end Growth

/-- What every record of a search satisfies. -/
structure Recorded (oracle : ℕ → ℕ → Result (ℕ × ℕ)) (limit edges amount costLimit legs : ℕ)
    (t : Trace) : Prop where
  asked_le : t.asked.length ≤ limit
  subtracted_le : ∀ p ∈ t.subtracted, p.2 ≤ p.1
  seeded : ∀ s ∈ t.seeded, Allocation oracle edges amount legs s.2 ∧ EvenSplit edges amount s.1 s.2
  exchanged : ∀ p ∈ t.exchanged, Allocation oracle edges amount legs p ∧ p.cost ≤ costLimit

/-- The record shows these evaluations. -/
structure Shows (oracle : ℕ → ℕ → Result (ℕ × ℕ)) (limit edges amount costLimit legs : ℕ)
    (ss : List (ℕ × ExactPlan)) (ps : List ExactPlan) (t : Trace) : Prop
    extends Recorded oracle limit edges amount costLimit legs t where
  seeded_eq : t.seeded = ss
  exchanged_eq : t.exchanged = ps
  cut_eq : t.cut = none

section Runs

variable {oracle : ℕ → ℕ → Result (ℕ × ℕ)} {limit edges amount costLimit legs : ℕ}
  {ss : List (ℕ × ExactPlan)} {ps : List ExactPlan}

theorem note_triple {x y : ℕ} (h : y ≤ x) :
    Triple (Shows oracle limit edges amount costLimit legs ss ps) (Traced.note x y)
      (fun _ => Shows oracle limit edges amount costLimit legs ss ps)
      fun _ => Recorded oracle limit edges amount costLimit legs := by
  intro t ht
  exact { ht with
    subtracted_le := fun p hp => by
      rcases List.mem_append.mp hp with hp | hp
      · exact ht.subtracted_le p hp
      · obtain rfl := List.mem_singleton.mp hp
        exact h }

theorem ask_triple (edge q : ℕ) :
    Triple (Shows oracle limit edges amount costLimit legs ss ps) (Traced.ask oracle limit edge q)
      (fun r t => (∀ v, r = .ok v → answer oracle edge q = .ok v) ∧
        Shows oracle limit edges amount costLimit legs ss ps t ∧
        ∀ e, r = .error e → t.asked.length = limit ∨ (edge, q) ∈ t.asked ∧ oracle edge q = .error e)
      fun _ => Recorded oracle limit edges amount costLimit legs := by
  intro t ht
  rw [Traced.ask, get_bind]
  by_cases hq : q = 0
  · rw [if_pos hq]
    exact ⟨fun v hv => by rw [answer, if_pos hq]; exact hv, ht, fun e he => by cases he⟩
  rw [if_neg hq]
  by_cases hcalls : t.asked.length = limit
  · rw [if_pos hcalls]
    exact ⟨(fun v hv => by cases hv), ht, fun _ _ => .inl hcalls⟩
  rw [if_neg hcalls]
  refine ⟨fun v hv => by rw [answer, if_neg hq]; exact hv, { ht with asked_le := ?_ }, fun e he =>
    .inr ⟨List.mem_append_right _ (List.mem_singleton_self _), he⟩⟩
  have hle := ht.asked_le
  show (t.asked ++ [(edge, q)]).length ≤ limit
  simp only [List.length_append, List.length_singleton]
  omega

/-! ## Seeds -/

/-- A mask that the search considers: its edges fit the leg limit and the amount. -/
def Considered (edges amount legs mask : ℕ) : Prop :=
  countOnes edges mask ≤ legs ∧ countOnes edges mask ≤ amount

/-- Either the seed of the mask was quoted completely, or one of its quotes failed, or the calls ran
out. -/
def Tried (oracle : ℕ → ℕ → Result (ℕ × ℕ)) (limit edges amount mask : ℕ) (t : Trace) : Prop :=
  (∃ candidate, (mask, candidate) ∈ t.seeded) ∨ t.asked.length = limit ∨
    ∃ i q e, mask.testBit i = true ∧
      (q = amount / countOnes edges mask ∨ q = amount / countOnes edges mask + 1) ∧
      (i, q) ∈ t.asked ∧ oracle i q = .error e

/-- A mask that was tried stays so. -/
theorem Tried.later {mask : ℕ} {t t' : Trace} (h : Tried oracle limit edges amount mask t)
    (hext : Extends t t') (hle : t'.asked.length ≤ limit) :
    Tried oracle limit edges amount mask t' := by
  rcases h with ⟨candidate, hmem⟩ | hcalls | ⟨i, q, e, hbit, hq, hasked, herror⟩
  · exact .inl ⟨candidate, hext.2.subset hmem⟩
  · exact .inr (.inl (le_antisymm hle (hcalls ▸ hext.1.length_le)))
  · exact .inr (.inr ⟨i, q, e, hbit, hq, hext.1.subset hasked, herror⟩)

/-- What a partly funded seed keeps. Each edge of the mask has had its even part of what was left, so
what is left is the even part of those to come. -/
structure Funding (oracle : ℕ → ℕ → Result (ℕ × ℕ)) (edges amount mask : ℕ) (rest : List ℕ)
    (candidate : ExactPlan) (left remaining : ℕ) : Prop extends Quoted oracle edges candidate where
  nodup : rest.Nodup
  below : ∀ i ∈ rest, i < edges
  fresh : ∀ i ∈ rest, candidate.inputs i = 0
  unused : ∀ i, mask.testBit i = false → candidate.inputs i = 0
  share : ∀ i < edges, mask.testBit i = true → i ∈ rest ∨
    candidate.inputs i = amount / countOnes edges mask ∨
    candidate.inputs i = amount / countOnes edges mask + 1
  sum : ∑ i ∈ Finset.range edges, candidate.inputs i + left = amount
  remaining_eq : remaining = rest.countP mask.testBit
  lower : amount / countOnes edges mask * remaining ≤ left
  upper : left ≤ (amount / countOnes edges mask + 1) * remaining
  active_le : candidate.active + remaining ≤ countOnes edges mask

/-- The even part of what is left, and what is left then. -/
theorem even_part {q left remaining : ℕ} (hlower : q * (remaining + 1) ≤ left)
    (hupper : left ≤ (q + 1) * (remaining + 1)) :
    (left / (remaining + 1) = q ∨ left / (remaining + 1) = q + 1) ∧
      q * remaining ≤ left - left / (remaining + 1) ∧
      left - left / (remaining + 1) ≤ (q + 1) * remaining := by
  have hmul : q * (remaining + 1) = q * remaining + q := by ring
  have hmul' : (q + 1) * (remaining + 1) = q * remaining + q + remaining + 1 := by ring
  have hmul'' : (q + 1) * remaining = q * remaining + remaining := by ring
  by_cases hfull : left = (q + 1) * (remaining + 1)
  · have hdiv : left / (remaining + 1) = q + 1 := by
      rw [hfull, Nat.mul_div_cancel _ (Nat.succ_pos _)]
    rw [hdiv]
    omega
  · have hdiv : left / (remaining + 1) = q := by
      refine Nat.div_eq_of_lt_le hlower ?_
      exact lt_of_le_of_ne hupper hfull
    rw [hdiv]
    omega

/-- Nothing is funded at first. -/
theorem Funding.start {mask : ℕ} (hpos : 0 < countOnes edges mask) :
    Funding oracle edges amount mask (List.range edges) {} amount (countOnes edges mask) := by
  constructor
  · exact ⟨fun _ _ => rfl, fun _ => rfl, by simp, by simp⟩
  · exact List.nodup_range
  · exact fun i hi => List.mem_range.mp hi
  · exact fun _ _ => rfl
  · exact fun _ _ => rfl
  · exact fun i hi _ => .inl (List.mem_range.mpr hi)
  · simp
  · rfl
  · exact Nat.div_mul_le_self _ _
  · have hlt := Nat.lt_mul_div_succ amount hpos
    rw [Nat.mul_comm] at hlt
    exact hlt.le
  · have hactive : (({} : ExactPlan)).active = 0 := by
      rw [active_eq_sum]
      simp
    omega

/-- The next edge of the mask gets an even part. -/
theorem Funding.part {mask i : ℕ} {rest : List ℕ} {candidate : ExactPlan} {left remaining : ℕ}
    (h : Funding oracle edges amount mask (i :: rest) candidate left remaining)
    (hbit : mask.testBit i = true) : left / remaining = amount / countOnes edges mask ∨
      left / remaining = amount / countOnes edges mask + 1 := by
  have hcount := h.remaining_eq
  rw [List.countP_cons_of_pos hbit] at hcount
  obtain ⟨r, rfl⟩ : ∃ r, remaining = r + 1 := ⟨_, hcount⟩
  exact (even_part h.lower h.upper).1

/-- One edge of the mask is funded. -/
theorem Funding.fund {mask i : ℕ} {rest : List ℕ} {candidate : ExactPlan} {left remaining : ℕ}
    (h : Funding oracle edges amount mask (i :: rest) candidate left remaining)
    (hedges : edges ≤ maxEdges) (hbit : mask.testBit i = true) {o c output cost : ℕ}
    (hans : answer oracle i (left / remaining) = .ok (o, c)) (hout : output = candidate.output + o)
    (hcost : cost = candidate.cost + c) :
    (left / remaining ≤ left ∧ 1 ≤ remaining) ∧
    Funding oracle edges amount mask rest
      (candidate.set i (left / remaining) o c output cost) (left - left / remaining)
      (remaining - 1) := by
  have hcount := h.remaining_eq
  rw [List.countP_cons_of_pos hbit] at hcount
  obtain ⟨r, rfl⟩ : ∃ r, remaining = r + 1 := ⟨_, hcount⟩
  have hdiv : left / (r + 1) ≤ left := Nat.div_le_self _ _
  refine ⟨⟨hdiv, Nat.le_add_left _ _⟩, ?_⟩
  obtain ⟨hnotin, hnodup⟩ := List.nodup_cons.mp h.nodup
  have hi : i < edges := h.below i List.mem_cons_self
  have hzero : candidate.inputs i = 0 := h.fresh i List.mem_cons_self
  obtain ⟨hozero, hczero⟩ := h.toQuoted.eq_zero hzero
  obtain ⟨hpart, hlower, hupper⟩ := even_part h.lower h.upper
  constructor
  · exact h.toQuoted.set hi hans (by omega) (by omega)
  · exact hnodup
  · exact fun j hj => h.below j (List.mem_cons_of_mem _ hj)
  · intro j hj
    have hne : j ≠ i := fun heq => hnotin (heq ▸ hj)
    simpa [ExactPlan.set, hne] using h.fresh j (List.mem_cons_of_mem _ hj)
  · intro j hj
    have hne : j ≠ i := fun heq => by rw [heq, hbit] at hj; cases hj
    simpa [ExactPlan.set, hne] using h.unused j hj
  · intro j hj hjbit
    by_cases hji : j = i
    · subst hji
      simpa [ExactPlan.set] using .inr hpart
    · rcases h.share j hj hjbit with hmem | hshare
      · exact .inl ((List.mem_cons.mp hmem).resolve_left hji)
      · simpa [ExactPlan.set, hji] using .inr hshare
  · have hupdate := sum_update candidate.inputs hi (left / (r + 1))
    have hsum := h.sum
    show ∑ j ∈ Finset.range edges, Function.update candidate.inputs i _ j + _ = _
    omega
  · omega
  · exact hlower
  · exact hupper
  · have hactive := @active_set candidate i (hi.trans_le hedges) (left / (r + 1)) o c output cost
    have hle := h.active_le
    rw [hzero, if_neg (lt_irrefl 0)] at hactive
    split at hactive <;> omega

/-- An edge outside the mask is passed over. -/
theorem Funding.skip {mask i : ℕ} {rest : List ℕ} {candidate : ExactPlan} {left remaining : ℕ}
    (h : Funding oracle edges amount mask (i :: rest) candidate left remaining)
    (hbit : ¬mask.testBit i = true) :
    Funding oracle edges amount mask rest candidate left remaining :=
  { h with
    nodup := (List.nodup_cons.mp h.nodup).2
    below := fun j hj => h.below j (List.mem_cons_of_mem _ hj)
    fresh := fun j hj => h.fresh j (List.mem_cons_of_mem _ hj)
    share := fun j hj hjbit => by
      refine (h.share j hj hjbit).imp_left fun hmem => (List.mem_cons.mp hmem).resolve_left ?_
      rintro rfl
      exact hbit hjbit
    remaining_eq := by rw [h.remaining_eq, List.countP_cons_of_neg hbit] }

/-- A seed that was quoted completely is an even split. -/
theorem Funding.complete {mask : ℕ} {candidate : ExactPlan} {left remaining : ℕ}
    (h : Funding oracle edges amount mask [] candidate left remaining)
    (hlegs : countOnes edges mask ≤ legs) :
    Allocation oracle edges amount legs candidate ∧ EvenSplit edges amount mask candidate := by
  have hremaining : remaining = 0 := h.remaining_eq
  have hle := h.active_le
  have hleft := h.upper
  rw [hremaining, Nat.mul_zero] at hleft
  have hsum := h.sum
  refine ⟨{ h.toQuoted with sum_inputs := by omega, active_le := by omega }, h.unused, ?_⟩
  exact fun i hi hbit => (h.share i hi hbit).resolve_left List.not_mem_nil

theorem seed_triple {mask : ℕ} {rest : List ℕ} {candidate : ExactPlan} {left remaining : ℕ}
    (hedges : edges ≤ maxEdges) (hlegs : countOnes edges mask ≤ legs)
    (h : Funding oracle edges amount mask rest candidate left remaining) :
    Triple (Shows oracle limit edges amount costLimit legs ss ps)
      (Traced.seed oracle limit mask rest candidate left remaining)
      (fun r t => (∀ plan, r = some plan → Allocation oracle edges amount legs plan ∧
        EvenSplit edges amount mask plan) ∧ Shows oracle limit edges amount costLimit legs ss ps t ∧
        (r = none → Tried oracle limit edges amount mask t))
      fun _ => Recorded oracle limit edges amount costLimit legs := by
  induction rest generalizing candidate left remaining with
  | nil =>
    refine Triple.pure fun t ht => ⟨?_, ht, fun hnone => by cases hnone⟩
    rintro plan ⟨⟩
    exact h.complete hlegs
  | cons i rest ih =>
    rw [Traced.seed]
    by_cases hbit : mask.testBit i
    · rw [if_pos hbit]
      refine (ask_triple i (left / remaining)).bind fun r => Triple.of_fact fun hr => ?_
      rcases r with e | ⟨o, c⟩
      · refine Triple.pure fun t ht => ⟨(fun plan hplan => by cases hplan), ht.1, fun _ => ?_⟩
        refine .inr ((ht.2 e rfl).imp_right fun hasked => ?_)
        exact ⟨i, _, e, hbit, h.part hbit, hasked.1, hasked.2⟩
      refine Triple.pre ?_ fun t ht => ht.1
      -- the totals have room, or the search ends
      refine Triple.lift_bind (fun cost hcost => ?_) fun _ _ t ht => ht.toRecorded
      refine Triple.lift_bind (fun output hout => ?_) fun _ _ t ht => ht.toRecorded
      obtain ⟨⟨hle, hpos⟩, hfund⟩ := h.fund hedges hbit (hr _ rfl) (fits_eq_ok.mp hout).2.symm
        (fits_eq_ok.mp hcost).2.symm
      exact (note_triple hle).bind fun _ => (note_triple hpos).bind fun _ => ih hfund
    · rw [if_neg hbit]
      exact ih (h.skip hbit)

/-- The best seed so far. -/
structure Leading (oracle : ℕ → ℕ → Result (ℕ × ℕ)) (limit edges amount costLimit legs : ℕ)
    (best : ExactPlan) (t : Trace) : Prop
    extends Shows oracle limit edges amount costLimit legs t.seeded [] t where
  le_best : ∀ s ∈ t.seeded, s.2.cost ≤ costLimit → s.2.output ≤ best.output
  best_ok : best.output ≠ 0 → Allocation oracle edges amount legs best ∧ best.cost ≤ costLimit

/-- The better of two keeps the lead. -/
theorem Leading.better {best : ExactPlan} {mask : ℕ} {candidate : ExactPlan} {t : Trace}
    (h : Leading oracle limit edges amount costLimit legs best t)
    (hcandidate : Allocation oracle edges amount legs candidate ∧ EvenSplit edges amount mask candidate) :
    Leading oracle limit edges amount costLimit legs (better costLimit best (some candidate))
      { t with seeded := t.seeded ++ [(mask, candidate)] } := by
  have hold : best.output ≤ (ExactOracle.better costLimit best (some candidate)).output ∧
      (candidate.cost ≤ costLimit →
        candidate.output ≤ (ExactOracle.better costLimit best (some candidate)).output) := by
    rw [ExactOracle.better]
    split
    · next hbetter => exact ⟨hbetter.2.le, fun _ => le_rfl⟩
    · next hbetter =>
      exact ⟨le_rfl, fun hcost => not_lt.mp fun hlt => hbetter ⟨hcost, hlt⟩⟩
  constructor
  · refine ⟨⟨h.asked_le, h.subtracted_le, fun s hs => ?_, h.exchanged⟩, rfl, h.exchanged_eq, h.cut_eq⟩
    rcases List.mem_append.mp hs with hs | hs
    · exact h.seeded s hs
    · obtain rfl := List.mem_singleton.mp hs
      exact hcandidate
  · intro s hs hcost
    rcases List.mem_append.mp hs with hs | hs
    · exact (h.le_best s hs hcost).trans hold.1
    · obtain rfl := List.mem_singleton.mp hs
      exact hold.2 hcost
  · rw [ExactOracle.better]
    split
    · next hbetter => exact fun _ => ⟨hcandidate.1, hbetter.1⟩
    · exact h.best_ok

theorem seeds_triple {masks : List ℕ} {best : ExactPlan} (hedges : edges ≤ maxEdges)
    (hmasks : ∀ m ∈ masks, 0 < countOnes edges m) :
    Triple (Leading oracle limit edges amount costLimit legs best)
      (Traced.seeds oracle limit edges amount costLimit legs masks best)
      (fun best t => Leading oracle limit edges amount costLimit legs best t ∧
        ∀ m ∈ masks, Considered edges amount legs m → Tried oracle limit edges amount m t)
      fun _ => Recorded oracle limit edges amount costLimit legs := by
  induction masks generalizing best with
  | nil => exact Triple.pure fun _ ht => ⟨ht, fun _ hm => absurd hm List.not_mem_nil⟩
  | cons mask masks ih =>
    have hrest : ∀ m ∈ masks, 0 < countOnes edges m := fun m hm =>
      hmasks m (List.mem_cons_of_mem _ hm)
    rw [Traced.seeds]
    dsimp only
    split
    · next hsize =>
      refine (ih hrest).post (fun best' t ht => ⟨ht.1, fun m hm hsmall => ?_⟩) fun _ _ ht => ht
      rcases List.mem_cons.mp hm with rfl | hm
      · exact absurd hsize (not_or.mpr ⟨not_lt.mpr hsmall.1, not_lt.mpr hsmall.2⟩)
      · exact ht.2 m hm hsmall
    next hsize =>
    rw [not_or, not_lt, not_lt] at hsize
    refine Triple.pre (P := fun t => ∃ ss, ((∀ s ∈ ss, s.2.cost ≤ costLimit → s.2.output ≤ best.output) ∧
      (best.output ≠ 0 → Allocation oracle edges amount legs best ∧ best.cost ≤ costLimit)) ∧
      Shows oracle limit edges amount costLimit legs ss [] t) ?_ fun t ht =>
        ⟨t.seeded, ⟨ht.le_best, ht.best_ok⟩, ht.toShows⟩
    refine Triple.of_exists fun ss => Triple.of_fact fun hlead => ?_
    obtain ⟨hle, hok⟩ := hlead
    refine (seed_triple hedges hsize.1 (Funding.start (hmasks mask List.mem_cons_self))).bind
      fun r => Triple.of_fact fun hr => ?_
    have hrecord : Triple (fun t => Shows oracle limit edges amount costLimit legs ss [] t ∧
          (r = none → Tried oracle limit edges amount mask t))
        (Traced.recordSeed mask r)
        (fun _ t => Leading oracle limit edges amount costLimit legs
          (ExactOracle.better costLimit best r) t ∧ Tried oracle limit edges amount mask t)
        fun _ => Recorded oracle limit edges amount costLimit legs := by
      rintro t ⟨ht, htried⟩
      obtain rfl := ht.seeded_eq
      have hlead : Leading oracle limit edges amount costLimit legs best t := ⟨ht, hle, hok⟩
      cases r with
      | none => exact ⟨hlead, htried rfl⟩
      | some candidate =>
        exact ⟨hlead.better (hr candidate rfl),
          .inl ⟨candidate, List.mem_append_right _ (List.mem_singleton_self _)⟩⟩
    refine hrecord.bind fun _ t ht => ?_
    rw [get_bind]
    by_cases hcalls : t.asked.length = limit
    · -- no calls are left for the masks that follow
      rw [if_pos hcalls]
      exact ⟨ht.1, fun _ _ _ => .inr (.inl hcalls)⟩
    · rw [if_neg hcalls]
      have hgrows := @seeds_extends oracle limit edges amount costLimit legs t masks
        (ExactOracle.better costLimit best r) t ⟨List.prefix_refl _, List.prefix_refl _⟩
      have hseeds := ih hrest t ht.1
      rcases hrun : Traced.seeds oracle limit edges amount costLimit legs masks
          (ExactOracle.better costLimit best r) t with ⟨e | best', t'⟩
      · rw [hrun] at hseeds
        exact hseeds
      · rw [hrun] at hseeds hgrows
        refine ⟨hseeds.1, fun m hm hsmall => ?_⟩
        rcases List.mem_cons.mp hm with rfl | hm
        · exact ht.2.later hgrows hseeds.1.asked_le
        · exact hseeds.2 m hm hsmall

/-! ## Exchanges -/

/-- A plan to exchange from. -/
structure Base (oracle : ℕ → ℕ → Result (ℕ × ℕ)) (edges amount costLimit legs : ℕ) (best : ExactPlan) :
    Prop extends Allocation oracle edges amount legs best where
  cost_le : best.cost ≤ costLimit

/-- The plan after an exchange. -/
def ExactPlan.exchanged (best : ExactPlan) (source target a b oa ob ca cb cost output : ℕ) : ExactPlan :=
  { best with
    inputs := Function.update (Function.update best.inputs source a) target b
    outputs := Function.update (Function.update best.outputs source oa) target ob
    costs := Function.update (Function.update best.costs source ca) target cb
    cost := cost
    output := output
    exchanges := best.exchanges + 1 }

/-- An exchange that the leg limit admits leads to another allocation. -/
theorem Base.exchanged {best : ExactPlan} {source target take oa ob ca cb cost output : ℕ}
    (h : Base oracle edges amount costLimit legs best) (hedges : edges ≤ maxEdges)
    (hsource : source < edges) (htarget : target < edges) (hne : source ≠ target)
    (htake : take ≤ best.inputs source) (hpos : 0 < take)
    (hroom : ¬(best.inputs target = 0 ∧ take < best.inputs source ∧ best.active = legs))
    (hqa : answer oracle source (best.inputs source - take) = .ok (oa, ca))
    (hqb : answer oracle target (best.inputs target + take) = .ok (ob, cb))
    (hcost : cost + best.costs source + best.costs target = best.cost + ca + cb)
    (hout : output + best.outputs source + best.outputs target = best.output + oa + ob) :
    Allocation oracle edges amount legs (best.exchanged source target (best.inputs source - take)
      (best.inputs target + take) oa ob ca cb cost output) := by
  -- the exchange changes one share after the other
  have hcosts := @add_le_total edges best.costs source target hsource htarget hne
  have houtputs := @add_le_total edges best.outputs source target hsource htarget hne
  have hcost_eq := h.cost_eq
  have hout_eq := h.output_eq
  let middle := best.set source (best.inputs source - take) oa ca
    (best.output - best.outputs source + oa) (best.cost - best.costs source + ca)
  have hmiddle : Quoted oracle edges middle := h.toQuoted.set hsource hqa (by omega) (by omega)
  have hinputs : middle.inputs target = best.inputs target := Function.update_of_ne hne.symm _ _
  have houtputs' : middle.outputs target = best.outputs target := Function.update_of_ne hne.symm _ _
  have hcosts' : middle.costs target = best.costs target := Function.update_of_ne hne.symm _ _
  have hlast : Quoted oracle edges (middle.set target (best.inputs target + take) ob cb output cost) := by
    refine hmiddle.set htarget hqb ?_ ?_
    · show output + middle.outputs target = best.output - best.outputs source + oa + ob
      omega
    · show cost + middle.costs target = best.cost - best.costs source + ca + cb
      omega
  have hfirst := @active_set best source (hsource.trans_le hedges) (best.inputs source - take) oa ca
    (best.output - best.outputs source + oa) (best.cost - best.costs source + ca)
  have hsecond := @active_set middle target (htarget.trans_le hedges) (best.inputs target + take) ob cb
    output cost
  have hlegs := h.active_le
  refine { outside := hlast.outside, answers := hlast.answers, output_eq := hlast.output_eq
           cost_eq := hlast.cost_eq, sum_inputs := ?_, active_le := ?_ }
  · have hsum := sum_update best.inputs hsource (best.inputs source - take)
    have hsum' := sum_update middle.inputs htarget (best.inputs target + take)
    have hall := h.sum_inputs
    have hmid : middle.inputs = Function.update best.inputs source (best.inputs source - take) := rfl
    rw [hinputs, hmid] at hsum'
    show ∑ i ∈ Finset.range edges, Function.update (Function.update best.inputs source _) target _ i = _
    omega
  · -- a new edge comes in only where one leaves or a leg is free
    have hfree : best.inputs target = 0 → take < best.inputs source → best.active < legs :=
      fun hzero hpart => lt_of_le_of_ne hlegs fun heq => hroom ⟨hzero, hpart, heq⟩
    rw [if_pos (hpos.trans_le htake)] at hfirst
    rw [hinputs, if_pos (Nat.add_pos_right _ hpos)] at hsecond
    show (middle.set target (best.inputs target + take) ob cb output cost).active ≤ legs
    change middle.active + 1 = _ at hfirst
    split at hfirst <;> split at hsecond <;> omega

theorem exchange_triple {best : ExactPlan} (next : ExactPlan) {source target take : ℕ}
    (h : Base oracle edges amount costLimit legs best) (hedges : edges ≤ maxEdges)
    (hsource : source < edges) (htarget : target < edges) (hne : source ≠ target)
    (htake : take ≤ best.inputs source) (hpos : 0 < take)
    (hroom : ¬(best.inputs target = 0 ∧ take < best.inputs source ∧ best.active = legs)) :
    Triple (Shows oracle limit edges amount costLimit legs ss ps)
      (Traced.exchange oracle limit costLimit best next source target take)
      (fun next' t => (next' = next ∧ Shows oracle limit edges amount costLimit legs ss ps t) ∨
        ∃ plan, next' = (if next.output < plan.output then plan else next) ∧
          Shows oracle limit edges amount costLimit legs ss (ps ++ [plan]) t)
      fun _ => Recorded oracle limit edges amount costLimit legs := by
  have hcosts := @add_le_total edges best.costs source target hsource htarget hne
  have houtputs := @add_le_total edges best.outputs source target hsource htarget hne
  rw [← h.cost_eq] at hcosts
  rw [← h.output_eq] at houtputs
  refine (note_triple htake).bind fun _ => Triple.lift_bind (fun b hb => ?_) fun _ _ t ht => ht.toRecorded
  obtain ⟨-, rfl⟩ := fits_eq_ok.mp hb
  refine (ask_triple source _).bind fun qa => Triple.of_fact fun hqa => ?_
  refine Triple.pre ?_ fun t ht => ht.1
  refine (ask_triple target _).bind fun qb => Triple.of_fact fun hqb => ?_
  refine Triple.pre ?_ fun t ht => ht.1
  rcases qa with ea | ⟨oa, ca⟩
  · exact Triple.pure fun t ht => .inl ⟨rfl, ht⟩
  rcases qb with eb | ⟨ob, cb⟩
  · exact Triple.pure fun t ht => .inl ⟨rfl, ht⟩
  -- what leaves the totals was in them
  refine (note_triple (by omega)).bind fun _ => (note_triple (by omega)).bind fun _ => ?_
  refine Triple.lift_bind (fun cost hcost => ?_) fun _ _ t ht => ht.toRecorded
  by_cases hover : costLimit < cost
  · rw [if_pos hover]
    exact Triple.pure fun t ht => .inl ⟨rfl, ht⟩
  rw [if_neg hover]
  refine (note_triple (by omega)).bind fun _ => (note_triple (by omega)).bind fun _ => ?_
  refine Triple.lift_bind (fun output hout => ?_) fun _ _ t ht => ht.toRecorded
  have hplan := h.exchanged hedges hsource htarget hne htake hpos hroom (hqa _ rfl) (hqb _ rfl)
    (replaced_eq_ok hcost) (replaced_eq_ok hout)
  let plan := best.exchanged source target (best.inputs source - take) (best.inputs target + take)
    oa ob ca cb cost output
  have hrecord : Triple (Shows oracle limit edges amount costLimit legs ss ps)
      (modify fun t : Trace => { t with exchanged := t.exchanged ++ [plan] } : Search Unit)
      (fun _ => Shows oracle limit edges amount costLimit legs ss (ps ++ [plan]))
      fun _ => Recorded oracle limit edges amount costLimit legs := by
    intro t ht
    refine ⟨⟨ht.asked_le, ht.subtracted_le, ht.seeded, fun p hp => ?_⟩, ht.seeded_eq, ?_, ht.cut_eq⟩
    · rcases List.mem_append.mp hp with hp | hp
      · exact ht.toRecorded.exchanged p hp
      · obtain rfl := List.mem_singleton.mp hp
        exact ⟨hplan, not_lt.mp hover⟩
    · show t.exchanged ++ [plan] = ps ++ [plan]
      rw [ht.exchanged_eq]
  refine hrecord.bind fun _ => ?_
  by_cases hbetter : next.output < output
  · rw [if_pos hbetter]
    exact Triple.pure fun t ht => .inr ⟨plan, (if_pos hbetter).symm, ht⟩
  · rw [if_neg hbetter]
    exact Triple.pure fun t ht => .inr ⟨plan, (if_neg hbetter).symm, ht⟩

/-- What a scan from `best` has found: `next` is the best of the exchanges evaluated so far. -/
structure Scanned (oracle : ℕ → ℕ → Result (ℕ × ℕ)) (limit edges amount costLimit legs : ℕ)
    (best next : ExactPlan) (t : Trace) : Prop
    extends Recorded oracle limit edges amount costLimit legs t where
  seeded_le : ∀ s ∈ t.seeded, s.2.cost ≤ costLimit → s.2.output ≤ best.output
  exchanged_le : ∀ p ∈ t.exchanged, p.output ≤ next.output
  best_le : best.output ≤ next.output
  next_mem : next = best ∨ next ∈ t.exchanged

/-- What a scan has found can be exchanged from. -/
theorem Scanned.base {best next : ExactPlan} {t : Trace}
    (h : Scanned oracle limit edges amount costLimit legs best next t)
    (hbest : Base oracle edges amount costLimit legs best) :
    Base oracle edges amount costLimit legs next := by
  rcases h.next_mem with rfl | hmem
  · exact hbest
  · obtain ⟨halloc, hcost⟩ := h.exchanged next hmem
    exact { halloc with cost_le := hcost }

theorem sweep_triple {best next : ExactPlan} {step : ℕ} {todo : List (ℕ × ℕ)}
    (h : Base oracle edges amount costLimit legs best) (hedges : edges ≤ maxEdges) (hstep : 0 < step)
    (htodo : ∀ p ∈ todo, p.1 < edges ∧ p.2 < edges) :
    Triple (fun t => Scanned oracle limit edges amount costLimit legs best next t ∧ t.cut = none)
      (Traced.sweep oracle limit costLimit legs step best todo next)
      (fun r t => (∃ next', r = some next' ∧
          Scanned oracle limit edges amount costLimit legs best next' t ∧ t.cut = none) ∨
        (r = none ∧ ∃ next', Scanned oracle limit edges amount costLimit legs best next' t ∧
          t.cut = some (best, next')))
      fun _ => Recorded oracle limit edges amount costLimit legs := by
  induction todo generalizing next with
  | nil => exact Triple.pure fun t ht => .inl ⟨next, rfl, ht⟩
  | cons p todo ih =>
    obtain ⟨source, target⟩ := p
    obtain ⟨hsource, htarget⟩ := htodo _ List.mem_cons_self
    have hrest : ∀ p ∈ todo, p.1 < edges ∧ p.2 < edges := fun p hp =>
      htodo p (List.mem_cons_of_mem _ hp)
    intro t ht
    rw [Traced.sweep, get_bind]
    dsimp only
    by_cases hskip : best.inputs source = 0 ∨ source = target ∨
        (best.inputs target = 0 ∧ min (best.inputs source) step < best.inputs source ∧
          best.active = legs)
    · rw [if_pos hskip]
      exact ih hrest t ht
    rw [if_neg hskip]
    rw [not_or, not_or] at hskip
    by_cases hcalls : limit < min (t.asked.length + 2) (u32Size - 1)
    · rw [if_pos hcalls]
      exact .inr ⟨rfl, next, { ht.1 with }, rfl⟩
    rw [if_neg hcalls]
    have hshows : Shows oracle limit edges amount costLimit legs t.seeded t.exchanged t :=
      { ht.1.toRecorded with seeded_eq := rfl, exchanged_eq := rfl, cut_eq := ht.2 }
    refine ((exchange_triple next h hedges hsource htarget hskip.2.1 (Nat.min_le_left _ _)
      (lt_min (Nat.pos_of_ne_zero hskip.1) hstep) hskip.2.2).bind fun next' t' ht' => ?_) t hshows
    refine ih hrest t' ?_
    rcases ht' with ⟨rfl, ht'⟩ | ⟨plan, rfl, ht'⟩
    · refine ⟨{ ht'.toRecorded with
        seeded_le := ?_, exchanged_le := ?_, best_le := ht.1.best_le, next_mem := ?_ }, ht'.cut_eq⟩
      · rw [ht'.seeded_eq]
        exact ht.1.seeded_le
      · rw [ht'.exchanged_eq]
        exact ht.1.exchanged_le
      · rw [ht'.exchanged_eq]
        exact ht.1.next_mem
    · have hmax : next.output ≤ (if next.output < plan.output then plan else next).output ∧
          plan.output ≤ (if next.output < plan.output then plan else next).output := by
        split
        · next hlt => exact ⟨hlt.le, le_rfl⟩
        · next hge => exact ⟨le_rfl, not_lt.mp hge⟩
      refine ⟨{ ht'.toRecorded with
        seeded_le := ?_, exchanged_le := ?_, best_le := ht.1.best_le.trans hmax.1, next_mem := ?_ },
        ht'.cut_eq⟩
      · rw [ht'.seeded_eq]
        exact ht.1.seeded_le
      · rw [ht'.exchanged_eq]
        intro p hp
        rcases List.mem_append.mp hp with hp | hp
        · exact (ht.1.exchanged_le p hp).trans hmax.1
        · obtain rfl := List.mem_singleton.mp hp
          exact hmax.2
      · rw [ht'.exchanged_eq]
        split
        · exact .inr (List.mem_append_right _ (List.mem_singleton_self _))
        · exact ht.1.next_mem.imp_right (List.mem_append_left _)

/-- The plan `best` leads, and nothing was left unfinished. -/
def Settled (oracle : ℕ → ℕ → Result (ℕ × ℕ)) (limit edges amount costLimit legs : ℕ)
    (best : ExactPlan) (t : Trace) : Prop :=
  Base oracle edges amount costLimit legs best ∧
    Scanned oracle limit edges amount costLimit legs best best t ∧ t.cut = none

/-- The calls ran out in a scan from `best`. -/
def CutOff (oracle : ℕ → ℕ → Result (ℕ × ℕ)) (limit edges amount costLimit legs : ℕ)
    (best : ExactPlan) (t : Trace) : Prop :=
  Base oracle edges amount costLimit legs best ∧
    ∃ next, Scanned oracle limit edges amount costLimit legs best next t ∧ t.cut = some (best, next)

/-- What a scan has found leads the next one. -/
theorem Scanned.settled {best next : ExactPlan} {t : Trace}
    (h : Scanned oracle limit edges amount costLimit legs best next t) (hcut : t.cut = none)
    (hbest : Base oracle edges amount costLimit legs best) :
    Settled oracle limit edges amount costLimit legs next t :=
  ⟨h.base hbest, { h with
    seeded_le := fun s hs hcost => (h.seeded_le s hs hcost).trans h.best_le
    best_le := le_rfl
    next_mem := .inl rfl }, hcut⟩

/-- The step of a plan does not matter. -/
theorem Settled.step {best : ExactPlan} {t : Trace} (n : ℕ)
    (h : Settled oracle limit edges amount costLimit legs best t) :
    Settled oracle limit edges amount costLimit legs { best with finalStep := n } t :=
  ⟨{ outside := h.1.outside, answers := h.1.answers, output_eq := h.1.output_eq, cost_eq := h.1.cost_eq
     sum_inputs := h.1.sum_inputs, active_le := h.1.active_le, cost_le := h.1.cost_le },
    { h.2.1.toRecorded with
      seeded_le := h.2.1.seeded_le, exchanged_le := h.2.1.exchanged_le, best_le := le_rfl
      next_mem := .inl rfl }, h.2.2⟩

theorem refineStep_triple {best : ExactPlan} {step fuel : ℕ} (hedges : edges ≤ maxEdges)
    (hstep : 0 < step) :
    Triple (Settled oracle limit edges amount costLimit legs best)
      (Traced.refineStep oracle limit edges costLimit legs step fuel best)
      (fun r t => (r.2 = true ∧ Settled oracle limit edges amount costLimit legs r.1 t) ∨
        (r.2 = false ∧ CutOff oracle limit edges amount costLimit legs r.1 t))
      fun _ => Recorded oracle limit edges amount costLimit legs := by
  induction fuel generalizing best with
  | zero => exact Triple.pure fun t ht => .inl ⟨rfl, ht⟩
  | succ fuel ih =>
    intro t ht
    obtain ⟨hbase, hscanned⟩ := ht
    refine ((sweep_triple hbase hedges hstep fun _ => mem_pairs).bind fun r t' ht' => ?_) t hscanned
    rcases ht' with ⟨next, rfl, hnext, hcut⟩ | ⟨rfl, next, hnext, hcut⟩
    · dsimp only
      by_cases hsame : next.output = best.output
      · -- a scan that has found nothing better ends the step
        rw [if_pos hsame]
        refine .inl ⟨rfl, hbase, { hnext with
          exchanged_le := fun p hp => hsame ▸ hnext.exchanged_le p hp
          best_le := le_rfl
          next_mem := .inl rfl }, hcut⟩
      · rw [if_neg hsame]
        exact ih t' (hnext.settled hcut hbase)
    · exact .inr ⟨rfl, hbase, next, hnext, hcut⟩

theorem refineSteps_triple {best : ExactPlan} {step fuel : ℕ} (hedges : edges ≤ maxEdges)
    (hstep : 0 < step) :
    Triple (Settled oracle limit edges amount costLimit legs best)
      (Traced.refineSteps oracle limit edges costLimit legs fuel step best)
      (fun plan t => Settled oracle limit edges amount costLimit legs plan t ∨
        CutOff oracle limit edges amount costLimit legs plan t)
      fun _ => Recorded oracle limit edges amount costLimit legs := by
  induction fuel generalizing step best with
  | zero => exact Triple.pure fun t ht => .inl ht
  | succ fuel ih =>
    rw [Traced.refineSteps]
    refine Triple.bind ((refineStep_triple hedges hstep).pre fun t ht => ht.step step) fun r t ht => ?_
    obtain ⟨best', more⟩ := r
    dsimp only at ht ⊢
    rcases ht with ⟨rfl, ht⟩ | ⟨rfl, ht⟩
    · rw [if_neg (by decide)]
      by_cases hone : step = 1
      · rw [if_pos hone]
        exact .inl (ht.step 0)
      · rw [if_neg hone]
        exact ih (by omega) t ht
    · exact .inr ht

/-- The masks of a search. -/
theorem mem_masks {m : ℕ} : m ∈ List.range' 1 (2 ^ edges - 1) ↔ 0 < m ∧ m < 2 ^ edges := by
  have hpow : 0 < 2 ^ edges := Nat.two_pow_pos edges
  rw [List.mem_range'_1]
  omega

/-- A run of the recorded search. -/
theorem refineBoundedLegs_triple :
    Triple (fun t => t = {}) (Traced.refineBoundedLegs edges amount limit costLimit legs oracle)
      (fun plan t => (∃ best, plan = { best with
            oracleCalls := t.asked.length, exhausted := decide (best.finalStep ≠ 0) } ∧
          (Settled oracle limit edges amount costLimit legs best t ∨
            CutOff oracle limit edges amount costLimit legs best t)) ∧
        ∀ m, 0 < m → m < 2 ^ edges → Considered edges amount legs m →
          Tried oracle limit edges amount m t)
      fun _ => Recorded oracle limit edges amount costLimit legs := by
  have hstart : ∀ t : Trace, t = {} → Recorded oracle limit edges amount costLimit legs t := by
    rintro t rfl
    exact ⟨Nat.zero_le _, fun _ hp => absurd hp List.not_mem_nil, fun _ hp => absurd hp List.not_mem_nil,
      fun _ hp => absurd hp List.not_mem_nil⟩
  refine Triple.lift_bind (fun _ hbounds => ?_) fun _ _ => hstart
  refine Triple.lift_bind (fun _ hlegs => ?_) fun _ _ => hstart
  have hedges : edges ≤ maxEdges := by
    have hnot := rejectIf_eq_ok.mp hbounds
    omega
  have hmasks : ∀ m ∈ List.range' 1 (2 ^ edges - 1), 0 < countOnes edges m := fun m hm =>
    countOnes_pos (mem_masks.mp hm).1 (mem_masks.mp hm).2
  refine Triple.bind ((seeds_triple hedges hmasks).pre ?_) fun best t ht => ?_
  · rintro t rfl
    exact ⟨⟨hstart _ rfl, rfl, rfl, rfl⟩, fun _ hs => absurd hs List.not_mem_nil, fun h => absurd rfl h⟩
  rw [get_bind]
  by_cases hzero : best.output = 0
  · rw [rejectIf_of _ hzero]
    exact ht.1.toRecorded
  rw [rejectIf_of_not _ hzero]
  obtain ⟨halloc, hcost⟩ := ht.1.best_ok hzero
  have hsettled : Settled oracle limit edges amount costLimit legs best t := by
    refine ⟨{ halloc with cost_le := hcost }, { ht.1.toRecorded with
      seeded_le := ht.1.le_best, exchanged_le := fun p hp => ?_, best_le := le_rfl
      next_mem := .inl rfl }, ht.1.cut_eq⟩
    rw [ht.1.exchanged_eq] at hp
    cases hp
  -- the masks that were tried stay so while the plan is refined
  have hsteps := @refineSteps_triple oracle limit edges amount costLimit legs best (max (amount / 2) 1)
    (max (amount / 2) 1) hedges (lt_max_of_lt_right Nat.one_pos) t hsettled
  have hgrows := @refineSteps_extends oracle limit edges costLimit legs t (max (amount / 2) 1)
    (max (amount / 2) 1) best t ⟨List.prefix_refl _, List.prefix_refl _⟩
  rw [lift_ok, pure_bind]
  rcases hrun : Traced.refineSteps oracle limit edges costLimit legs (max (amount / 2) 1)
      (max (amount / 2) 1) best t with ⟨e | best', t'⟩
  · rw [Comp.bind_apply_error hrun]
    rw [hrun] at hsteps
    exact hsteps
  · rw [Comp.bind_apply_ok hrun]
    rw [hrun] at hsteps hgrows
    have hle : t'.asked.length ≤ limit := by
      rcases hsteps with ⟨-, hscanned, -⟩ | ⟨-, next, hscanned, -⟩
      · exact hscanned.asked_le
      · exact hscanned.asked_le
    refine ⟨⟨best', rfl, hsteps⟩, fun m hpos hlt hsmall => ?_⟩
    exact (ht.2 m (mem_masks.mpr ⟨hpos, hlt⟩) hsmall).later hgrows hle

end Runs

end StockMesh.ExactOracle

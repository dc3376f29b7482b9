import StockMesh.Host.Answer
import StockMesh.Foundation.Instalments
import StockMesh.Foundation.Stateful

/-! # Capsule plans on the host

The host keeps a copy of every capsule plan. `next` yields the capsule to build, `apply` records a
finalized one. Both follow the instalments of the plan's terms (`next_eq`, `apply_eq_ok`). -/

namespace StockMesh.Host

open Stateful Instalments

/-- `MAX_PLAN_INPUT_ATOMS`. -/
def maxPlanInputAtoms : ℕ := 10000000000 * 1000000

/-- `MAX_CAPSULE_INPUT_ATOMS`. -/
def maxCapsuleInputAtoms : ℕ := 500000 * 1000000

/-- `MAX_CAPSULES`. -/
def maxCapsules : ℕ := 20000

/-- A plan (`Plan`). -/
@[ext] structure Plan where
  id : Key
  totalInput : ℕ
  totalMinimumOutput : ℕ
  maximumCapsuleInput : ℕ
  settledInput : ℕ
  settledOutput : ℕ
  nextSequence : ℕ
  expiresSlot : ℕ
  deriving DecidableEq

/-- The capsule to execute next (`Capsule`). -/
structure Capsule where
  planId : Key
  sequence : ℕ
  input : ℕ
  minimumOutput : ℕ
  requiredCumulativeOutput : ℕ
  priorSettledInput : ℕ
  priorSettledOutput : ℕ
  expiresSlot : ℕ
  deriving DecidableEq

/-- `ceil_div`. -/
def ceilDiv (numerator denominator : ℕ) : Answer ℕ :=
  if denominator = 0 then .error "capsule division"
  else .ok (numerator / denominator + if numerator % denominator ≠ 0 then 1 else 0)

namespace Plan

/-- `Plan::new`. -/
def new (id : Key) (totalInput totalMinimumOutput maximumCapsuleInput firstSequence expiresSlot
    currentSlot : ℕ) : Answer Plan := do
  refuse (id = .ofFn (fun _ => 0) ∨ totalInput = 0 ∨ maxPlanInputAtoms < totalInput ∨
    totalMinimumOutput = 0 ∨ maximumCapsuleInput = 0 ∨ maxCapsuleInputAtoms < maximumCapsuleInput ∨
    firstSequence = 0 ∨ expiresSlot < currentSlot ∨
    maxCapsules < (totalInput + maximumCapsuleInput - 1) / maximumCapsuleInput) "capsule plan bounds"
  .ok { id, totalInput, totalMinimumOutput, maximumCapsuleInput, settledInput := 0,
        settledOutput := 0, nextSequence := firstSequence, expiresSlot }

/-- `Plan::validate`. -/
def validate (plan : Plan) : Answer Unit :=
  refuse (plan.id = .ofFn (fun _ => 0) ∨ plan.totalInput = 0 ∨ maxPlanInputAtoms < plan.totalInput ∨
    plan.totalMinimumOutput = 0 ∨ plan.maximumCapsuleInput = 0 ∨
    maxCapsuleInputAtoms < plan.maximumCapsuleInput ∨ plan.totalInput < plan.settledInput ∨
    plan.nextSequence = 0) "capsule state bounds"

/-- `Plan::next`. -/
def next (plan : Plan) (slot : ℕ) : Answer (Option Capsule) := do
  plan.validate
  refuse (plan.expiresSlot < slot) "capsule plan expired"
  refuse (plan.totalInput < plan.settledInput) "capsule settled input"
  let remaining := plan.totalInput - plan.settledInput
  if remaining = 0 then .ok none else
  let input := min remaining plan.maximumCapsuleInput
  let cumulative ← bounded u64Size (plan.settledInput + input) "capsule input overflow"
  let product ← bounded u128Size (cumulative * plan.totalMinimumOutput) "capsule floor overflow"
  let required ← ceilDiv product plan.totalInput
  let required ← bounded u64Size required "capsule floor range"
  .ok (some {
    planId := plan.id
    sequence := plan.nextSequence
    input
    -- a typed graph needs a positive floor
    minimumOutput := max (required - plan.settledOutput) 1
    requiredCumulativeOutput := required
    priorSettledInput := plan.settledInput
    priorSettledOutput := plan.settledOutput
    expiresSlot := plan.expiresSlot })

/-- `Plan::apply`. The amounts are written before the sequence is advanced. -/
def apply (capsule : Capsule) (actualInput actualOutput slot : ℕ) : Comp String Plan Bool := do
  let plan ← get
  lift plan.validate
  lift (refuse (plan.expiresSlot < slot ∨ capsule.planId ≠ plan.id ∨
    capsule.sequence ≠ plan.nextSequence ∨ capsule.priorSettledInput ≠ plan.settledInput ∨
    capsule.priorSettledOutput ≠ plan.settledOutput ∨ capsule.expiresSlot ≠ plan.expiresSlot ∨
    actualInput ≠ capsule.input ∨ actualOutput < capsule.minimumOutput) "capsule receipt binding")
  let nextInput ← lift (bounded u64Size (plan.settledInput + actualInput) "capsule input overflow")
  let nextOutput ← lift (bounded u64Size (plan.settledOutput + actualOutput) "capsule output overflow")
  lift (refuse (plan.totalInput < nextInput ∨ nextOutput < capsule.requiredCumulativeOutput)
    "capsule cumulative floor")
  modify fun plan => { plan with settledInput := nextInput, settledOutput := nextOutput }
  let sequence ← lift (bounded u64Size (plan.nextSequence + 1) "capsule sequence overflow")
  modify fun plan => { plan with nextSequence := sequence }
  let complete := decide (nextInput = plan.totalInput)
  lift (refuse (complete = true ∧ nextOutput < plan.totalMinimumOutput) "capsule final floor")
  pure complete

end Plan

/-! ## A plan follows its terms -/

/-- The terms of an admitted plan: what never changes. -/
structure PlanTerms extends Terms where
  id : Key
  firstSequence : ℕ
  expiresSlot : ℕ
  id_ne : id ≠ .ofFn (fun _ => 0)
  total_le : total ≤ maxPlanInputAtoms
  floor_pos : 0 < floor
  floor_lt : floor < u64Size
  cap_le : cap ≤ maxCapsuleInputAtoms
  first_pos : 0 < firstSequence
  instalments_le : toTerms.instalments ≤ maxCapsules

namespace PlanTerms

variable (terms : PlanTerms) (p : Standing)

/-- The plan on the host after some instalments. -/
def plan : Plan where
  id := terms.id
  totalInput := terms.total
  totalMinimumOutput := terms.floor
  maximumCapsuleInput := terms.cap
  settledInput := p.paid
  settledOutput := p.received
  nextSequence := terms.firstSequence + p.count
  expiresSlot := terms.expiresSlot

/-- The capsule for the next instalment. -/
def capsule : Capsule where
  planId := terms.id
  sequence := terms.firstSequence + p.count
  input := terms.due p.paid
  minimumOutput := terms.minimum p
  requiredCumulativeOutput := terms.share (p.paid + terms.due p.paid)
  priorSettledInput := p.paid
  priorSettledOutput := p.received
  expiresSlot := terms.expiresSlot

variable {terms p}

theorem paid_add_due_le (h : terms.OnTrack p) : p.paid + terms.due p.paid ≤ terms.total := by
  have hpaid := h.paid_le
  have hdue := terms.due_le p.paid
  omega

/-- Amounts paid are machine words. -/
theorem total_lt : terms.total < u64Size := by
  have htotal := terms.total_le
  have := constants
  unfold maxPlanInputAtoms at htotal
  omega

/-- The floor's products fit a double word. -/
theorem product_lt {paid : ℕ} (h : paid ≤ terms.total) : paid * terms.floor < u128Size := by
  calc paid * terms.floor ≤ terms.total * terms.floor := Nat.mul_le_mul_right _ h
    _ < u64Size * u64Size := Nat.mul_lt_mul'' total_lt terms.floor_lt
    _ = u128Size := rfl

theorem validate_plan (h : terms.OnTrack p) : (terms.plan p).validate = .ok () := by
  refine refuse_of_not ?_
  have hpaid := h.paid_le
  have htotal := terms.total_pos
  have hcap := terms.cap_pos
  have hfloor := terms.floor_pos
  have hfirst := terms.first_pos
  have htotal_le := terms.total_le
  have hcap_le := terms.cap_le
  rintro (hid | hbad)
  · exact terms.id_ne hid
  · simp only [plan] at hbad
    omega

theorem ceilDiv_share (paid : ℕ) :
    ceilDiv (paid * terms.floor) terms.total = .ok (terms.share paid) := by
  rw [ceilDiv, if_neg terms.total_pos.ne', Terms.share, ceilDiv_eq_div_add terms.total_pos]

/-- `next` yields the next instalment until the plan has expired or is complete. -/
theorem next_eq (h : terms.OnTrack p) {slot : ℕ} (hslot : slot ≤ terms.expiresSlot) :
    (terms.plan p).next slot =
      .ok (if p.paid = terms.total then none else some (terms.capsule p)) := by
  have hpaid := h.paid_le
  refine bind_eq_ok.mpr ⟨(), validate_plan h, ?_⟩
  refine bind_eq_ok.mpr ⟨(), refuse_of_not (show ¬terms.expiresSlot < slot by omega), ?_⟩
  refine bind_eq_ok.mpr ⟨(), refuse_of_not (show ¬terms.total < p.paid by omega), ?_⟩
  show (if terms.total - p.paid = 0 then _ else _) = _
  split
  · next hzero => rw [if_pos (show p.paid = terms.total by omega)]
  · next hremaining =>
    have hle := paid_add_due_le h
    have hshare : terms.share (p.paid + terms.due p.paid) < u64Size :=
      (Terms.share_le_floor hle).trans_lt terms.floor_lt
    rw [if_neg (show ¬p.paid = terms.total by omega)]
    refine bind_eq_ok.mpr ⟨_, bounded_eq_ok.mpr ⟨hle.trans_lt total_lt, rfl⟩, ?_⟩
    refine bind_eq_ok.mpr ⟨_, bounded_eq_ok.mpr ⟨product_lt hle, rfl⟩, ?_⟩
    refine bind_eq_ok.mpr ⟨_, ceilDiv_share _, ?_⟩
    exact bind_eq_ok.mpr ⟨_, bounded_eq_ok.mpr ⟨hshare, rfl⟩, rfl⟩

/-- An expired plan yields no capsule. -/
theorem next_expired (h : terms.OnTrack p) {slot : ℕ} (hslot : terms.expiresSlot < slot) :
    (terms.plan p).next slot = .error "capsule plan expired" := by
  have hrefuse : refuse ((terms.plan p).expiresSlot < slot) "capsule plan expired"
      = .error "capsule plan expired" := if_pos hslot
  rw [Plan.next, validate_plan h, ok_bind, hrefuse, error_bind]

/-- `apply` records the instalment. -/
theorem apply_eq_ok (h : terms.OnTrack p) {slot output : ℕ} (hslot : slot ≤ terms.expiresSlot)
    (hmin : terms.minimum p ≤ output) (hreceived : p.received + output < u64Size)
    (hsequence : terms.firstSequence + p.count + 1 < u64Size) :
    Plan.apply (terms.capsule p) (terms.due p.paid) output slot (terms.plan p) =
      (.ok (decide (p.paid + terms.due p.paid = terms.total)), terms.plan (terms.pay p output)) := by
  have hle := paid_add_due_le h
  have hshare := Terms.share_le_of_minimum hmin
  have hbinding : ¬(terms.expiresSlot < slot ∨ (terms.capsule p).planId ≠ terms.id ∨
      (terms.capsule p).sequence ≠ terms.firstSequence + p.count ∨
      (terms.capsule p).priorSettledInput ≠ p.paid ∨
      (terms.capsule p).priorSettledOutput ≠ p.received ∨
      (terms.capsule p).expiresSlot ≠ terms.expiresSlot ∨
      terms.due p.paid ≠ (terms.capsule p).input ∨ output < (terms.capsule p).minimumOutput) := by
    simp only [capsule, ne_eq, not_true_eq_false, false_or]
    omega
  have hfloor : ¬(terms.total < p.paid + terms.due p.paid ∨
      p.received + output < (terms.capsule p).requiredCumulativeOutput) := by
    simp only [capsule]
    omega
  have hfinal : ¬(decide (p.paid + terms.due p.paid = terms.total) = true ∧
      p.received + output < terms.floor) := by
    rintro ⟨hcomplete, hlow⟩
    rw [of_decide_eq_true hcomplete, Terms.share_total] at hshare
    omega
  rw [Plan.apply, get_bind]
  refine (Comp.bind_apply_ok (lift_eq_ok.mpr ⟨validate_plan h, rfl⟩)).trans ?_
  refine (Comp.bind_apply_ok (lift_eq_ok.mpr ⟨refuse_of_not hbinding, rfl⟩)).trans ?_
  refine (Comp.bind_apply_ok (lift_eq_ok.mpr
    ⟨bounded_eq_ok.mpr ⟨hle.trans_lt total_lt, rfl⟩, rfl⟩)).trans ?_
  refine (Comp.bind_apply_ok (lift_eq_ok.mpr ⟨bounded_eq_ok.mpr ⟨hreceived, rfl⟩, rfl⟩)).trans ?_
  refine (Comp.bind_apply_ok (lift_eq_ok.mpr ⟨refuse_of_not hfloor, rfl⟩)).trans ?_
  refine (Comp.bind_apply_ok rfl).trans ?_
  refine (Comp.bind_apply_ok (lift_eq_ok.mpr ⟨bounded_eq_ok.mpr ⟨hsequence, rfl⟩, rfl⟩)).trans ?_
  refine (Comp.bind_apply_ok rfl).trans ?_
  exact Comp.bind_apply_ok (lift_eq_ok.mpr ⟨refuse_of_not hfinal, rfl⟩)

end PlanTerms

end StockMesh.Host

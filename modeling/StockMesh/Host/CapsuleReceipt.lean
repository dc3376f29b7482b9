import StockMesh.Host.Capsule
import StockMesh.Journal.Progress

/-! # Receipts of capsules that nobody issued

`apply` takes any capsule, and writes the plan before its last two checks. A receipt that passes the
checks before the write (`Admitted`) leaves a plan in order only when it is a receipt for the capsule
the plan issues and a sequence number is left for the next one. -/

namespace StockMesh.Host

open Stateful Instalments
open Journal (refuse_eq_ok)

/-- A finalized receipt: the capsule, the amounts that moved and the slot. -/
structure CapsuleReceipt where
  capsule : Capsule
  input : ℕ
  output : ℕ
  slot : ℕ

namespace Plan

variable (plan : Plan) (r : CapsuleReceipt)

/-- Apply a receipt. -/
def receive : Except String Bool × Plan := apply r.capsule r.input r.output r.slot plan

/-- The checks of `apply` before its first write. -/
structure Admitted : Prop where
  valid : plan.validate = .ok ()
  unexpired : r.slot ≤ plan.expiresSlot
  planId_eq : r.capsule.planId = plan.id
  sequence_eq : r.capsule.sequence = plan.nextSequence
  priorInput_eq : r.capsule.priorSettledInput = plan.settledInput
  priorOutput_eq : r.capsule.priorSettledOutput = plan.settledOutput
  expires_eq : r.capsule.expiresSlot = plan.expiresSlot
  input_eq : r.input = r.capsule.input
  minimum_le : r.capsule.minimumOutput ≤ r.output
  input_lt : plan.settledInput + r.input < u64Size
  output_lt : plan.settledOutput + r.output < u64Size
  within : plan.settledInput + r.input ≤ plan.totalInput
  required_le : r.capsule.requiredCumulativeOutput ≤ plan.settledOutput + r.output

/-- The plan after the first write. -/
def written : Plan :=
  { plan with
    settledInput := plan.settledInput + r.input
    settledOutput := plan.settledOutput + r.output }

/-- The plan after the second write. -/
def advanced : Plan := { plan.written r with nextSequence := plan.nextSequence + 1 }

/-- What a receipt may do to a plan: a refused one leaves it alone, an accepted one is for the capsule
issued next and keeps the plan at its pro-rata floor. -/
structure Sound : Prop where
  unchanged : ∀ e plan', plan.receive r = (.error e, plan') → plan' = plan
  issued : ∀ done plan', plan.receive r = (.ok done, plan') → plan.next r.slot = .ok (some r.capsule)
  floor : ∀ done plan', plan.receive r = (.ok done, plan') →
    plan'.settledInput * plan'.totalMinimumOutput ⌈/⌉ plan'.totalInput ≤ plan'.settledOutput

/-- The condition: refused before the first write, or for the issued capsule with a sequence number
left, or moving nothing when none is left. -/
def Ordered : Prop :=
  plan.Admitted r →
    (plan.next r.slot = .ok (some r.capsule) ∧ plan.nextSequence + 1 < u64Size) ∨
    (u64Size ≤ plan.nextSequence + 1 ∧ r.input = 0 ∧ r.output = 0)

variable {plan r}

/-- A check either ends the computation where it stands or is passed. -/
theorem stops_or {σ α β : Type} {result : Answer α} {f : α → Comp String σ β} {s : σ} {P : Prop}
    (h : ∀ a, result = .ok a → (∃ e, f a s = (.error e, s)) ∨ P) :
    (∃ e, ((lift result : Comp String σ α) >>= f) s = (.error e, s)) ∨ P := by
  cases result with
  | error e => exact .inl ⟨e, rfl⟩
  | ok a => exact h a rfl

/-- A passed check changes nothing. -/
theorem lift_ok_bind {σ α β : Type} {a : α} {f : α → Comp String σ β} {s : σ} {result : Answer α}
    (h : result = .ok a) : ((lift result : Comp String σ α) >>= f) s = f a s := by
  rw [h]
  rfl

/-- A failed check ends a computation where it stands. -/
theorem lift_error_bind {σ α β : Type} {e : String} {f : α → Comp String σ β} {s : σ}
    {result : Answer α} (h : result = .error e) :
    ((lift result : Comp String σ α) >>= f) s = (.error e, s) := by
  rw [h]
  rfl

/-- A receipt is refused before the first write, or it was admitted. -/
theorem receive_stops_or : (∃ e, plan.receive r = (.error e, plan)) ∨ plan.Admitted r := by
  unfold receive apply
  rw [get_bind]
  apply stops_or
  intro _ hvalid
  apply stops_or
  intro _ hbound
  apply stops_or
  intro _ hinput
  apply stops_or
  intro _ houtput
  apply stops_or
  intro _ hfloor
  right
  rw [refuse_eq_ok] at hbound hfloor
  rw [bounded_eq_ok] at hinput houtput
  obtain ⟨hinput, rfl⟩ := hinput
  obtain ⟨houtput, rfl⟩ := houtput
  simp only [not_or, not_not, not_lt] at hbound hfloor
  obtain ⟨hslot, hid, hseq, hin, hout, hexp, heq, hmin⟩ := hbound
  exact ⟨hvalid, hslot, hid, hseq, hin, hout, hexp, heq, hmin, hinput, houtput, hfloor.1, hfloor.2⟩

/-- The writes of an admitted receipt and the checks that come after them. -/
theorem receive_of_admitted (h : plan.Admitted r) :
    plan.receive r =
      if plan.nextSequence + 1 < u64Size then
        if plan.settledInput + r.input = plan.totalInput ∧
            plan.settledOutput + r.output < plan.totalMinimumOutput then
          (.error "capsule final floor", plan.advanced r)
        else (.ok (decide (plan.settledInput + r.input = plan.totalInput)), plan.advanced r)
      else (.error "capsule sequence overflow", plan.written r) := by
  unfold receive apply
  rw [get_bind]
  refine (lift_ok_bind h.valid).trans ?_
  refine (lift_ok_bind (refuse_of_not ?_)).trans ?_
  · simp only [not_or, not_not, not_lt]
    exact ⟨h.unexpired, h.planId_eq, h.sequence_eq, h.priorInput_eq, h.priorOutput_eq, h.expires_eq,
      h.input_eq, h.minimum_le⟩
  refine (lift_ok_bind (bounded_eq_ok.mpr ⟨h.input_lt, rfl⟩)).trans ?_
  refine (lift_ok_bind (bounded_eq_ok.mpr ⟨h.output_lt, rfl⟩)).trans ?_
  refine (lift_ok_bind (refuse_of_not ?_)).trans ?_
  · simp only [not_or, not_lt]
    exact ⟨h.within, h.required_le⟩
  refine (Comp.bind_apply_ok rfl).trans ?_
  split
  · next hroom =>
    refine (lift_ok_bind (bounded_eq_ok.mpr ⟨hroom, rfl⟩)).trans ?_
    refine (Comp.bind_apply_ok rfl).trans ?_
    split
    · next hlow => exact lift_error_bind (if_pos (by simpa using hlow))
    · next hlow => exact lift_ok_bind (if_neg (by simpa using hlow))
  · next hroom => exact lift_error_bind (if_neg hroom)

/-- The floor of the capsule that `next` issues is pro rata. -/
theorem next_eq_some {slot : ℕ} {capsule : Capsule} (h : plan.next slot = .ok (some capsule)) :
    0 < plan.totalInput ∧ capsule.requiredCumulativeOutput =
      (plan.settledInput + capsule.input) * plan.totalMinimumOutput ⌈/⌉ plan.totalInput := by
  unfold next at h
  rw [bind_eq_ok] at h
  obtain ⟨_, hvalid, h⟩ := h
  rw [validate, refuse_eq_ok] at hvalid
  have hpos : 0 < plan.totalInput := by omega
  rw [bind_eq_ok] at h
  obtain ⟨_, -, h⟩ := h
  rw [bind_eq_ok] at h
  obtain ⟨_, hsettled, h⟩ := h
  rw [refuse_eq_ok] at hsettled
  dsimp only at h
  split at h
  · cases h
  · next hremaining =>
    rw [bind_eq_ok] at h
    obtain ⟨cumulative, hcumulative, h⟩ := h
    obtain ⟨-, rfl⟩ := bounded_eq_ok.mp hcumulative
    rw [bind_eq_ok] at h
    obtain ⟨product, hproduct, h⟩ := h
    obtain ⟨-, rfl⟩ := bounded_eq_ok.mp hproduct
    rw [bind_eq_ok] at h
    obtain ⟨required, hrequired, h⟩ := h
    rw [bind_eq_ok] at h
    obtain ⟨required', hrange, h⟩ := h
    obtain ⟨-, rfl⟩ := bounded_eq_ok.mp hrange
    rw [ceilDiv, if_neg hpos.ne', ← ceilDiv_eq_div_add hpos] at hrequired
    cases hrequired
    cases h
    exact ⟨hpos, rfl⟩

/-- A receipt leaves the plan in order exactly when it is refused before the first write, or is for the
capsule issued next while a sequence number is left, or moves nothing when none is left. -/
theorem receipt_sound_iff (plan : Plan) (r : CapsuleReceipt) : plan.Sound r ↔ plan.Ordered r := by
  constructor
  · intro hsound hadmitted
    have hrun := receive_of_admitted hadmitted
    by_cases hroom : plan.nextSequence + 1 < u64Size
    · rw [if_pos hroom] at hrun
      split at hrun
      · -- the final floor failed after both writes
        have hsame := congrArg nextSequence (hsound.unchanged _ _ hrun)
        simp [advanced] at hsame
      · exact .inl ⟨hsound.issued _ _ hrun, hroom⟩
    · rw [if_neg hroom] at hrun
      have hsame := hsound.unchanged _ _ hrun
      have hinput := congrArg settledInput hsame
      have houtput := congrArg settledOutput hsame
      simp only [written] at hinput houtput
      exact .inr ⟨by omega, by omega, by omega⟩
  · intro hordered
    have hstops : (∃ e, plan.receive r = (.error e, plan)) ∨ plan.Admitted r := receive_stops_or
    rcases hstops with ⟨e, hrun⟩ | hadmitted
    · refine ⟨fun e' plan' h => ?_, fun done plan' h => ?_, fun done plan' h => ?_⟩
      · rw [hrun] at h
        cases h
        rfl
      · rw [hrun] at h
        cases h
      · rw [hrun] at h
        cases h
    have hrun := receive_of_admitted hadmitted
    rcases hordered hadmitted with ⟨hissued, hroom⟩ | ⟨hroom, hinput, houtput⟩
    · obtain ⟨hpos, hrequired⟩ := next_eq_some hissued
      have hfloor := hadmitted.required_le
      rw [hrequired, ← hadmitted.input_eq] at hfloor
      have hfinal : ¬(plan.settledInput + r.input = plan.totalInput ∧
          plan.settledOutput + r.output < plan.totalMinimumOutput) := by
        rintro ⟨hcomplete, hlow⟩
        rw [hcomplete] at hfloor
        let terms : Terms := ⟨plan.totalInput, plan.totalMinimumOutput, 1, hpos, one_pos⟩
        have hwhole : plan.totalInput * plan.totalMinimumOutput ⌈/⌉ plan.totalInput
            = plan.totalMinimumOutput := terms.share_total
        omega
      rw [if_pos hroom, if_neg hfinal] at hrun
      refine ⟨fun e' plan' h => ?_, fun done plan' h => hissued, fun done plan' h => ?_⟩
      · rw [hrun] at h
        cases h
      · rw [hrun] at h
        cases h
        exact hfloor
    · rw [if_neg (by omega)] at hrun
      have hsame : plan.written r = plan := by
        ext <;> simp [written, hinput, houtput]
      refine ⟨fun e' plan' h => ?_, fun done plan' h => ?_, fun done plan' h => ?_⟩
      · rw [hrun] at h
        cases h
        exact hsame
      · rw [hrun] at h
        cases h
      · rw [hrun] at h
        cases h

/-- A thousand atoms for at least 333, in capsules of 400. -/
def thousand (sequence : ℕ) : Plan where
  id := .ofFn fun _ => 9
  totalInput := 1000
  totalMinimumOutput := 333
  maximumCapsuleInput := 400
  settledInput := 0
  settledOutput := 0
  nextSequence := sequence
  expiresSlot := 100

/-- A receipt of 400 atoms with a floor of its own. -/
def receiptOf (sequence minimum required output : ℕ) : CapsuleReceipt where
  capsule :=
    { planId := .ofFn fun _ => 9
      sequence := sequence
      input := 400
      minimumOutput := minimum
      requiredCumulativeOutput := required
      priorSettledInput := 0
      priorSettledOutput := 0
      expiresSlot := 100 }
  input := 400
  output := output
  slot := 2

/-- A receipt whose capsule names no floor is accepted although nothing was received, and the issued
capsule of the last sequence number is refused after the amounts were written. -/
theorem unsound_receipts :
    ((thousand 8).validate = .ok () ∧ ¬(thousand 8).Sound (receiptOf 8 0 0 0)) ∧
      (thousand (u64Size - 1)).validate = .ok () ∧
        ¬(thousand (u64Size - 1)).Sound (receiptOf (u64Size - 1) 134 134 134) := by
  refine ⟨⟨by decide, fun h => ?_⟩, by decide, fun h => ?_⟩
  · have hrun : (thousand 8).receive (receiptOf 8 0 0 0)
        = (.ok false, (thousand 8).advanced (receiptOf 8 0 0 0)) := by rfl
    exact absurd (h.floor _ _ hrun) (by decide)
  · have hrun : (thousand (u64Size - 1)).receive (receiptOf (u64Size - 1) 134 134 134)
        = (.error "capsule sequence overflow",
          (thousand (u64Size - 1)).written (receiptOf (u64Size - 1) 134 134 134)) := by rfl
    exact absurd (congrArg settledInput (h.unchanged _ _ hrun)) (by decide)

end Plan

end StockMesh.Host

import StockMesh.Journal.Crash
import Mathlib.Data.List.Chain
import Mathlib.Data.List.Pairwise

/-! # Plans are bought once

In every reachable journal the tranches of a plan that have not failed pave its allocations, each
reconciled before the next one is admitted. So no allocation is in two of them, the cursor never fails,
and a complete plan has spent its budget to the last atom. -/

namespace StockMesh.Journal

open Host (Answer refuse refuse_of_not bounded bounded_eq_ok)

variable {τ : Type}

/-! ## Amounts -/

/-- The amount of an allocation. -/
def Allocation.amount (a : Allocation) : ℕ :=
  match atoms a.inputAtoms with
  | .ok n => n
  | .error _ => 0

/-- The amounts of allocations. -/
def amounts (l : List Allocation) : ℕ := (l.map Allocation.amount).sum

theorem Allocation.amount_of {a : Allocation} {n : ℕ} (h : atoms a.inputAtoms = .ok n) :
    a.amount = n := by
  rw [Allocation.amount, h]

@[simp] theorem amounts_nil : amounts [] = 0 := rfl

@[simp] theorem amounts_cons (a : Allocation) (l : List Allocation) :
    amounts (a :: l) = a.amount + amounts l := rfl

theorem amounts_append (l m : List Allocation) : amounts (l ++ m) = amounts l + amounts m := by
  rw [amounts, List.map_append, List.sum_append]
  rfl

theorem foldlM_addAllocation {allocations : List Allocation} {state state' : List String × ℕ}
    (h : allocations.foldlM Plan.addAllocation state = .ok state') :
    (∀ a ∈ allocations, atoms a.inputAtoms = .ok a.amount) ∧
      state'.2 = state.2 + amounts allocations := by
  induction allocations generalizing state with
  | nil =>
    cases h
    simp
  | cons a allocations ih =>
    obtain ⟨mid, hstep, hrest⟩ := bind_eq_ok.mp h
    obtain ⟨n, hn, hstep⟩ := bind_eq_ok.mp hstep
    obtain ⟨_, -, hstep⟩ := bind_eq_ok.mp hstep
    obtain ⟨sum, hsum, hmid⟩ := bind_eq_ok.mp hstep
    cases hmid
    obtain ⟨-, rfl⟩ := bounded_eq_ok.mp hsum
    obtain ⟨hall, htotal⟩ := ih hrest
    have hamount := Allocation.amount_of hn
    refine ⟨List.forall_mem_cons.mpr ⟨by rw [hamount, hn], hall⟩, ?_⟩
    rw [htotal, amounts_cons, hamount, Nat.add_assoc]

/-- A valid plan splits its budget into its allocations and the retained cash. -/
theorem Plan.amounts_of_valid {crates : Crates} {plan : Plan} (h : plan.validate crates = .ok ()) :
    ∃ total cash, atoms plan.totalInputAtoms = .ok total ∧
      atoms plan.retainedCashAtoms = .ok cash ∧ total ≤ maxInput ∧
      (∀ a ∈ plan.allocations, atoms a.inputAtoms = .ok a.amount) ∧
      cash + amounts plan.allocations = total := by
  obtain ⟨owner, -, h⟩ := bind_eq_ok.mp h
  obtain ⟨_, -, h⟩ := bind_eq_ok.mp h
  obtain ⟨total, htotal, h⟩ := bind_eq_ok.mp h
  obtain ⟨cash, hcash, h⟩ := bind_eq_ok.mp h
  obtain ⟨_, hbound, h⟩ := bind_eq_ok.mp h
  obtain ⟨state, hfold, h⟩ := bind_eq_ok.mp h
  obtain ⟨hall, hsum⟩ := foldlM_addAllocation hfold
  simp only [refuse_eq_ok, not_or, not_lt, not_not] at hbound h
  exact ⟨total, cash, htotal, hcash, hbound.2, hall, hsum.symm.trans h⟩

theorem Plan.id_of_valid {crates : Crates} {plan : Plan} (h : plan.validate crates = .ok ()) :
    plan.id = plan.digest crates := by
  obtain ⟨owner, -, h⟩ := bind_eq_ok.mp h
  obtain ⟨_, hbounds, -⟩ := bind_eq_ok.mp h
  simp only [refuse_eq_ok, not_or, not_not] at hbounds
  exact hbounds.2.2.2.2.2.2.2.2

/-! ## Ranges -/

/-- The fixed ranges are not empty and stay inside. -/
theorem mem_rangesFrom {fuel start left : ℕ} {r : StockRange}
    (h : r ∈ Plan.rangesFrom fuel start left) : r.start < r.finish ∧ r.finish ≤ start + left := by
  induction fuel generalizing start left with
  | zero => cases h
  | succ fuel ih =>
    unfold Plan.rangesFrom at h
    by_cases hleft : left = 0
    · simp [hleft] at h
    rw [if_neg hleft] at h
    have hgroup : 0 < (if left = 4 then 2 else min left 3) ∧
        (if left = 4 then 2 else min left 3) ≤ left := by
      split <;> omega
    obtain rfl | hmem := List.mem_cons.mp h
    · simp only
      omega
    · have := ih hmem
      omega

/-- Every allocation is in the fixed ranges: the fuel is enough. -/
theorem rangesFrom_cover {fuel start left i : ℕ} (hfuel : left ≤ fuel) (hstart : start ≤ i)
    (hi : i < start + left) :
    ∃ r ∈ Plan.rangesFrom fuel start left, r.start ≤ i ∧ i < r.finish := by
  induction fuel generalizing start left with
  | zero => omega
  | succ fuel ih =>
    unfold Plan.rangesFrom
    have hleft : left ≠ 0 := by omega
    rw [if_neg hleft]
    have hgroup : 0 < (if left = 4 then 2 else min left 3) ∧
        (if left = 4 then 2 else min left 3) ≤ left := by
      split <;> omega
    by_cases hfirst : i < start + if left = 4 then 2 else min left 3
    · exact ⟨_, List.mem_cons_self, hstart, hfirst⟩
    · obtain ⟨r, hr, hin⟩ := @ih (start + if left = 4 then 2 else min left 3)
        (left - if left = 4 then 2 else min left 3) (by omega) (by omega) (by omega)
      exact ⟨r, List.mem_cons_of_mem _ hr, hin⟩

/-- A range is not empty and stays inside the allocations. -/
theorem Tranche.range_bounds {crates : Crates} {t : Tranche} {r : StockRange}
    (h : t.range crates = .ok r) : r.start < r.finish ∧ r.finish ≤ t.plan.allocations.length := by
  obtain ⟨_, -, h⟩ := bind_eq_ok.mp h
  cases hrange : t.stockRange with
  | some x =>
    rw [hrange] at h
    obtain ⟨_, hbad, hout⟩ := bind_eq_ok.mp h
    cases hout
    simp only [refuse_eq_ok, not_or, not_le, not_lt] at hbad
    exact ⟨hbad.1, hbad.2.1⟩
  | none =>
    rw [hrange] at h
    have hmem := List.mem_of_getElem? (okOr_eq_ok.mp h)
    simpa using mem_rangesFrom hmem

theorem foldlM_addInput {allocations : List Allocation} {n : ℕ}
    (hall : ∀ a ∈ allocations, atoms a.inputAtoms = .ok a.amount)
    (hbound : n + amounts allocations < u64Size) :
    allocations.foldlM Tranche.addInput n = .ok (n + amounts allocations) := by
  induction allocations generalizing n with
  | nil => rfl
  | cons a allocations ih =>
    obtain ⟨ha, hrest⟩ := List.forall_mem_cons.mp hall
    rw [amounts_cons] at hbound ⊢
    have hstep : Tranche.addInput n a = .ok (n + a.amount) := by
      rw [Tranche.addInput, ha, ok_bind]
      exact bounded_eq_ok.mpr ⟨by omega, rfl⟩
    rw [List.foldlM_cons, hstep, ok_bind, ih hrest (by omega), Nat.add_assoc]

/-- The input of a tranche is the sum of its range. -/
theorem Tranche.input_eq {crates : Crates} {t : Tranche} {r : StockRange}
    (h : t.range crates = .ok r) : t.input crates = .ok (amounts (t.plan.slice r)) := by
  obtain ⟨total, cash, -, -, hbound, hall, hsum⟩ :=
    Plan.amounts_of_valid (t.valid_of_range crates h)
  have hslice : amounts (t.plan.slice r) ≤ amounts t.plan.allocations := by
    rw [← List.take_append_drop r.start t.plan.allocations,
      ← List.take_append_drop r.length (t.plan.allocations.drop r.start), amounts_append,
      amounts_append]
    unfold Plan.slice
    omega
  have hmax : maxInput = 100000000000000 := rfl
  have hsize : u64Size = 18446744073709551616 := rfl
  have hmem : ∀ a ∈ t.plan.slice r, atoms a.inputAtoms = .ok a.amount :=
    fun a ha => hall a (List.mem_of_mem_drop (List.mem_of_mem_take ha))
  have hfold := foldlM_addInput (n := 0) hmem (by omega)
  rw [Tranche.input, h, ok_bind, hfold, Nat.zero_add]

/-! ## The course of a plan -/

/-- The steps in order have all indices, each starts where the one before it ends, and only the last one
may be pending. -/
theorem Cursor.Reached.shape {c : Cursor} {i start : ℕ} {steps : List Step}
    (h : c.Reached i start steps) : steps.map Step.index = List.range' i steps.length ∧
      steps.IsChain (fun s t => s.phase = .reconciled ∧ t.range.start = s.range.finish) ∧
      ∀ s ∈ steps.head?, s.range.start = start := by
  replace h := Cursor.foldlM_advance.mpr h
  induction steps generalizing i start with
  | nil => simp
  | cons s steps ih =>
    obtain ⟨mid, hstep, hrest⟩ := bind_eq_ok.mp h
    obtain ⟨-, hindex, hstart, rfl⟩ := Cursor.advance_eq_ok.mp hstep
    simp only at hindex hstart
    by_cases hphase : s.phase = .reconciled
    · rw [if_pos hphase] at hrest
      obtain ⟨hindices, hchain, hhead⟩ := ih hrest
      refine ⟨?_, ?_, by simp [hstart]⟩
      · rw [List.map_cons, hindices, hindex, List.length_cons, List.range'_succ]
      · cases steps with
        | nil => exact .singleton _
        | cons t steps => exact .cons_cons ⟨hphase, hhead t rfl⟩ hchain
    · rw [if_neg hphase] at hrest
      obtain ⟨rfl, -⟩ := Cursor.foldlM_pending hrest rfl
      refine ⟨?_, .singleton _, by simp [hstart]⟩
      rw [List.map_cons, hindex]
      rfl

/-- Steps in order do not overlap. -/
theorem pairwise_of_chain {steps : List Step} (hranges : ∀ s ∈ steps, s.range.start < s.range.finish)
    (h : steps.IsChain fun s t => s.phase = .reconciled ∧ t.range.start = s.range.finish) :
    steps.Pairwise fun s t => s.range.finish ≤ t.range.start := by
  induction steps with
  | nil => exact .nil
  | cons s steps ih =>
    obtain ⟨-, hranges⟩ := List.forall_mem_cons.mp hranges
    have hpairwise := ih hranges h.of_cons
    refine List.pairwise_cons.mpr ⟨fun t ht => ?_, hpairwise⟩
    cases steps with
    | nil => cases ht
    | cons u steps =>
      have hu := h.rel.2
      obtain rfl | hmem := List.mem_cons.mp ht
      · exact hu.ge
      · have hut := (List.pairwise_cons.mp hpairwise).1 t hmem
        have := hranges u List.mem_cons_self
        omega

/-- A paving spends the allocations from its start to its end. -/
theorem Paved.amounts {plan : Plan} {i start k finish : ℕ} {steps : List Step}
    (h : Paved i start steps k finish)
    (hranges : ∀ s ∈ steps, s.range.start < s.range.finish) :
    amounts (plan.allocations.take start) + (steps.map fun s => amounts (plan.slice s.range)).sum =
      amounts (plan.allocations.take finish) := by
  induction steps generalizing i start with
  | nil =>
    obtain ⟨-, rfl⟩ := h
    rfl
  | cons s steps ih =>
    obtain ⟨-, rfl, -, hrest⟩ := h
    obtain ⟨hs, hranges⟩ := List.forall_mem_cons.mp hranges
    have htake : plan.allocations.take s.range.finish =
        plan.allocations.take s.range.start ++ plan.slice s.range := by
      have hlen : s.range.finish = s.range.start + s.range.length := by
        unfold StockRange.length
        omega
      rw [Plan.slice, hlen, List.take_add]
    rw [← ih hrest hranges, htake, amounts_append, List.map_cons, List.sum_cons, Nat.add_assoc]

/-! ## Reachable journals -/

/-- What a reconciled tranche of a plan has spent. -/
def Plan.spent (crates : Crates) (plan : Plan) (e : Entry τ) : Option ℕ :=
  match e.investment with
  | none => none
  | some (t, _) =>
    if t.plan = plan ∧ e.phase = .reconciled then
      match t.input crates with
      | .ok n => some n
      | .error _ => none
    else none

/-- How entries carry out a plan. -/
structure Plan.Bought (crates : Crates) (plan : Plan) (entries : List (Entry τ)) : Prop where
  /-- Every tranche has a range and an input, and is a step unless it failed. -/
  tranche : ∀ e ∈ entries, ∀ t intent, e.investment = some (t, intent) → t.plan = plan →
    ∃ r n, t.range crates = .ok r ∧ r.start < r.finish ∧ r.finish ≤ plan.allocations.length ∧
      t.input crates = .ok n ∧
      (e.phase ≠ .failed → plan.step crates e = some ⟨t.index, r, e.phase⟩)
  /-- The steps in order: all indices, contiguous ranges from the first allocation on, and all but the
  last one reconciled. -/
  ordered : ∃ steps, (plan.steps crates entries).Perm steps ∧
    steps.map Step.index = List.range steps.length ∧
    (∀ s ∈ steps.head?, s.range.start = 0) ∧
    steps.IsChain fun s t => s.phase = .reconciled ∧ t.range.start = s.range.finish
  /-- An allocation is in one tranche that has not failed. -/
  once : ∀ e ∈ entries, ∀ e' ∈ entries, ∀ t intent t' intent' r r' i,
    e.investment = some (t, intent) → e'.investment = some (t', intent') → t.plan = plan →
    t'.plan = plan → e.phase ≠ .failed → e'.phase ≠ .failed → t.range crates = .ok r →
    t'.range crates = .ok r' → r.start ≤ i → i < r.finish → r'.start ≤ i → i < r'.finish → e = e'
  /-- Tranches of one index start at one allocation, whether they failed or not. -/
  retried : ∀ e ∈ entries, ∀ e' ∈ entries, ∀ t intent t' intent' r r',
    e.investment = some (t, intent) → e'.investment = some (t', intent') → t.plan = plan →
    t'.plan = plan → t.index = t'.index → t.range crates = .ok r → t'.range crates = .ok r' →
    r.start = r'.start
  /-- A valid plan has a cursor, and when it is complete it has spent its budget but for the retained
  cash. -/
  cursor : plan.validate crates = .ok () → ∃ progress start,
    plan.cursor crates entries = .ok (progress, start) ∧
    (progress = .complete → ∃ total cash, atoms plan.totalInputAtoms = .ok total ∧
      atoms plan.retainedCashAtoms = .ok cash ∧
      (entries.filterMap (plan.spent crates)).sum + cash = total)

/-- Steps of different indices that do not overlap. -/
def Step.Apart (s t : Step) : Prop :=
  s.index ≠ t.index ∧ (s.range.finish ≤ t.range.start ∨ t.range.finish ≤ s.range.start)

theorem Step.Apart.symm {s t : Step} (h : s.Apart t) : t.Apart s := ⟨h.1.symm, h.2.symm⟩

/-- Different tranches that have not failed are apart. -/
theorem Plan.At.apart {crates : Crates} {plan : Plan} {entries : List (Entry τ)} {c : Cursor}
    (h : plan.At crates entries c) {e e' : Entry τ} (he : e ∈ entries) (he' : e' ∈ entries)
    {s s' : Step} (hs : plan.step crates e = some s) (hs' : plan.step crates e' = some s')
    (hne : e ≠ e') : s.Apart s' := by
  obtain ⟨-, -, steps, hperm, hreach⟩ := h
  have hranges : ∀ x ∈ steps, x.range.start < x.range.finish := by
    intro x hx
    obtain ⟨y, -, hy⟩ := List.mem_filterMap.mp (hperm.mem_iff.mpr hx)
    obtain ⟨t, intent, r, -, -, -, hr, rfl⟩ := (Plan.step_eq_some crates).mp hy
    exact (Tranche.range_bounds hr).1
  have hsteps : steps.Pairwise Step.Apart :=
    hreach.sorted.imp₂ (fun x y hlt hle => ⟨hlt.ne, .inl hle⟩)
      (pairwise_of_chain hranges hreach.shape.2.1)
  have hall : (plan.steps crates entries).Pairwise Step.Apart :=
    (hperm.pairwise_iff fun h => h.symm).mpr hsteps
  -- the steps of different entries stand at different places of the list
  have : Std.Symm fun x y : Entry τ => ∀ s, plan.step crates x = some s →
      ∀ s', plan.step crates y = some s' → s.Apart s' :=
    ⟨fun x y h s hs s' hs' => (h s' hs' s hs).symm⟩
  exact (List.pairwise_filterMap.mp hall).forall he he' hne s hs s' hs'

/-- A step with the index of the cursor is the pending one. -/
theorem Cursor.Reached.start_of_index {c : Cursor} {i start : ℕ} {steps : List Step}
    (h : c.Reached i start steps) {s : Step} (hs : s ∈ steps) (hindex : s.index = c.index) :
    s.range.start = c.start := by
  obtain ⟨done, hpaved, hsteps⟩ := h
  have hdone : s ∉ done := fun hmem => (hpaved.index_lt hmem).2.ne hindex
  cases hp : c.pending with
  | none =>
    rw [hp] at hsteps
    exact absurd (hsteps ▸ hs) hdone
  | some k =>
    rw [hp] at hsteps
    obtain ⟨-, last, rfl, -, hstart, -⟩ := hsteps
    obtain hmem | hlast := List.mem_append.mp hs
    · exact absurd hmem hdone
    · rw [List.mem_singleton.mp hlast, hstart]

theorem Cursor.progress_eq_complete {c : Cursor} {n : ℕ} :
    c.progress n = .complete ↔ c.pending = none ∧ c.start = n := by
  unfold Cursor.progress
  cases c.pending with
  | some k => simp
  | none => by_cases h : c.start = n <;> simp [h]

/-- The reconciled tranches of a complete plan have spent its allocations. -/
theorem Plan.At.complete {crates : Crates} {plan : Plan} {entries : List (Entry τ)} {c : Cursor}
    (h : plan.At crates entries c) (hcomplete : c.progress plan.allocations.length = .complete) :
    (entries.filterMap (plan.spent crates)).sum = amounts plan.allocations := by
  obtain ⟨hpending, hstart⟩ := Cursor.progress_eq_complete.mp hcomplete
  obtain ⟨-, -, steps, hperm, done, hpaved, hsteps⟩ := h
  rw [hpending] at hsteps
  obtain rfl : steps = done := hsteps
  have hspent : entries.filterMap (plan.spent crates) = (plan.steps crates entries).filterMap
      fun s => if s.phase = .reconciled then some (amounts (plan.slice s.range)) else none := by
    rw [Plan.steps, List.filterMap_filterMap]
    refine List.filterMap_congr fun e _ => ?_
    unfold Plan.spent Plan.step
    cases e.investment with
    | none => rfl
    | some p =>
      obtain ⟨t, intent⟩ := p
      by_cases hplan : t.plan = plan
      · subst hplan
        cases hr : t.range crates with
        | error message =>
          have hinput : t.input crates = .error message := by rw [Tranche.input, hr, error_bind]
          by_cases hfailed : e.phase = .failed <;> simp [hinput, hr, hfailed]
        | ok r =>
          have hinput := Tranche.input_eq hr
          by_cases hphase : e.phase = .reconciled <;> by_cases hfailed : e.phase = .failed <;>
            simp_all
      · simp [hplan]
  have hranges : ∀ s ∈ steps, s.range.start < s.range.finish := by
    intro s hs
    obtain ⟨y, -, hy⟩ := List.mem_filterMap.mp (hperm.mem_iff.mpr hs)
    obtain ⟨t, intent, r, -, -, -, hr, rfl⟩ := (Plan.step_eq_some crates).mp hy
    exact (Tranche.range_bounds hr).1
  have hmap : steps.filterMap (fun s =>
      if s.phase = .reconciled then some (amounts (plan.slice s.range)) else none) =
      steps.map fun s => amounts (plan.slice s.range) := by
    rw [← List.filterMap_eq_map]
    exact List.filterMap_congr fun s hs => by simp [hpaved.reconciled hs]
  have hsum := @Paved.amounts plan _ _ _ _ _ hpaved hranges
  rw [hspent, (hperm.filterMap _).sum_nat, hmap]
  rw [hstart, List.take_length, List.take_zero, amounts_nil, Nat.zero_add] at hsum
  exact hsum

/-- Where a plan stands tells how it is carried out. -/
theorem Plan.Stands.bought {crates : Crates} {plan : Plan} {entries : List (Entry τ)} {c : Cursor}
    (h : plan.Stands crates entries c) : plan.Bought crates entries := by
  obtain ⟨hat, hseated⟩ := h
  obtain ⟨steps, hperm, hreach⟩ := hat.reached
  refine ⟨?_, ?_, ?_, ?_, ?_⟩
  · intro e he t intent hinv hplan
    obtain ⟨-, hvalid⟩ := hat.fits e he t intent hinv (congrArg Plan.id hplan)
    obtain ⟨r, hr⟩ := t.range_of_validate crates hvalid
    obtain ⟨hpos, hlast⟩ := Tranche.range_bounds hr
    refine ⟨r, _, hr, hpos, hplan ▸ hlast, Tranche.input_eq hr, fun hphase => ?_⟩
    exact (Plan.step_eq_some crates).mpr ⟨t, intent, r, hinv, hplan, hphase, hr, rfl⟩
  · obtain ⟨hindices, hchain, hhead⟩ := hreach.shape
    exact ⟨steps, hperm, by rw [hindices, List.range_eq_range'], hhead, hchain⟩
  · intro e he e' he' t intent t' intent' r r' i hinv hinv' hplan hplan' hlive hlive' hr hr'
      hfrom hto hfrom' hto'
    by_contra hne
    have hs := (Plan.step_eq_some crates).mpr ⟨t, intent, r, hinv, hplan, hlive, hr, rfl⟩
    have hs' := (Plan.step_eq_some crates).mpr ⟨t', intent', r', hinv', hplan', hlive', hr', rfl⟩
    have hdisjoint := (hat.apart he he' hs hs' hne).2
    simp only at hdisjoint
    omega
  · intro e he e' he' t intent t' intent' r r' hinv hinv' hplan hplan' hindex hr hr'
    have hunique : ∀ x ∈ steps, ∀ y ∈ steps, x.index = y.index → x = y :=
      fun x hx y hy => Table.eq_of_key (t := (⟨steps, hreach.sorted⟩ : Table Step.index)) hx hy
    obtain ⟨s, hs, hsi, hss⟩ | ⟨hi, hs⟩ := hseated e he t intent r hinv hplan hr <;>
      obtain ⟨s', hs', hsi', hss'⟩ | ⟨hi', hs'⟩ := hseated e' he' t' intent' r' hinv' hplan' hr'
    · have heq := hunique s (hperm.mem_iff.mp hs) s' (hperm.mem_iff.mp hs')
        (hsi.trans (hindex.trans hsi'.symm))
      rw [← hss, ← hss', heq]
    · rw [← hss, hs', hreach.start_of_index (hperm.mem_iff.mp hs) (hsi.trans (hindex.trans hi'))]
    · rw [hs, ← hss', hreach.start_of_index (hperm.mem_iff.mp hs')
        (hsi'.trans (hindex.symm.trans hi))]
    · rw [hs, hs']
  · refine fun _ => ⟨_, _, (Plan.cursor_eq_ok crates).mpr ⟨c, hat, rfl, rfl⟩, fun hcomplete => ?_⟩
    obtain ⟨total, cash, htotal, hcash, -, -, hsum⟩ := Plan.amounts_of_valid hat.valid
    exact ⟨total, cash, htotal, hcash, by rw [hat.complete hcomplete, Nat.add_comm, hsum]⟩

variable {codec : Codec τ}

/-- A valid plan stands somewhere in sound entries, if no other plan there has its hash. -/
theorem Sound.stands {crates : Crates} {entries : Entries τ} (hsound : Sound crates entries)
    {plan : Plan} (hvalid : plan.validate crates = .ok ())
    (hcollision : ∀ e ∈ entries, ∀ t intent, e.investment = some (t, intent) →
      t.plan.digest crates = plan.digest crates → { t.plan with id := "" } = { plan with id := "" }) :
    ∃ c, plan.Stands crates entries.rows c := by
  have hsame : ∀ e ∈ entries, ∀ t intent, e.investment = some (t, intent) → t.plan.id = plan.id →
      t.plan = plan := by
    intro e he t intent hinv hid
    obtain ⟨r, hr⟩ := t.range_of_validate crates
      (Entry.validate_of_economic (hsound.economic e he) hinv)
    have hdigest : t.plan.digest crates = plan.digest crates := by
      rw [← Plan.id_of_valid hvalid, ← hid, Plan.id_of_valid (t.valid_of_range crates hr)]
    have hcontent := hcollision e he t intent hinv hdigest
    calc t.plan = { { t.plan with id := "" } with id := t.plan.id } := rfl
      _ = { { plan with id := "" } with id := plan.id } := by rw [hcontent, hid]
      _ = plan := rfl
  by_cases hseen : ∃ e ∈ entries, ∃ t intent, e.investment = some (t, intent) ∧ t.plan = plan
  · obtain ⟨e, he, t, intent, hinv, rfl⟩ := hseen
    exact hsound.plans e he t intent hinv
  · -- no entry of the plan: it has not begun
    have hother : ∀ e ∈ entries, ∀ t intent, e.investment = some (t, intent) → t.plan ≠ plan :=
      fun e he t intent hinv hplan => hseen ⟨e, he, t, intent, hinv, hplan⟩
    have hnone : plan.steps crates entries.rows = [] := List.filterMap_eq_nil_iff.mpr
      fun e he => Plan.step_eq_none_of_other crates (hother e he)
    refine ⟨⟨0, 0, none⟩, ⟨hvalid, fun e he t intent hinv hid => ?_, [], ?_, [], ⟨rfl, rfl⟩, rfl⟩,
      fun e he t intent r hinv hplan => absurd hplan (hother e he t intent hinv)⟩
    · exact absurd (hsame e he t intent hinv hid) (hother e he t intent hinv)
    · rw [hnone]

/-- A plan for two stocks. -/
def examplePlan : Plan where
  id := "stki_22a6819ba7ed4e774f250e9762ab1e8c8d5491585c2e1c322b5ecb700a37cdb2"
  nonce := "0123456789abcdef0123456789abcdef"
  owner := "11111111111111111111111111111112"
  strategyId := "stks_bbbbbbbbbbbbbbbbbbbbbbbbbbbbbbbbbbbbbbbbbbbbbbbbbbbbbbbbbbbbbbbb"
  versionHash := "aaaaaaaaaaaaaaaaaaaaaaaaaaaaaaaaaaaaaaaaaaaaaaaaaaaaaaaaaaaaaaaa"
  totalInputAtoms := "100"
  retainedCashAtoms := "10"
  maxSlippageBps := 50
  allocations := [⟨"AAPL", "60"⟩, ⟨"MSFT", "30"⟩]

/-- The codec of plain entries, with the owner's key and the hash of the plan. -/
def planCodec : Codec Empty :=
  { plainCodec with
    parseKey := fun s => if s = examplePlan.owner then some (.ofNat 1) else none
    showKey := fun k => if k = .ofNat 1 then examplePlan.owner else ""
    planJson := fun p => utf8 p.json
    sha256 := fun _ =>
      (Key.ofNat 0x22a6819ba7ed4e774f250e9762ab1e8c8d5491585c2e1c322b5ecb700a37cdb2).toList }

end StockMesh.Journal

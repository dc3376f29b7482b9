import StockMesh.Journal.Investment

/-! # What the cursor of a plan tells

`Plan.cursor` succeeds exactly when the steps of the plan, in the order of their indices, are reconciled
steps that pave the allocations from the first one, with at most one pending step after them
(`Plan.At`). The lemmas on `Plan.At` say how it changes when an entry is added or replaced. -/

namespace StockMesh.Journal

open Host (Answer refuse refuse_of_not bounded bounded_eq_ok)

variable {τ : Type} (crates : Crates)

@[simp] theorem refuse_eq_ok {bad : Prop} [Decidable bad] {message : String} {u : Unit} :
    refuse bad message = .ok u ↔ ¬bad := by
  by_cases h : bad <;> simp [refuse, h]

/-! ## Steps of a plan -/

/-- The step that an entry records for a plan, unless it has failed. -/
def Plan.step (plan : Plan) (e : Entry τ) : Option Step :=
  match e.investment with
  | none => none
  | some (t, _) =>
    if t.plan = plan ∧ e.phase ≠ .failed then
      match t.range crates with
      | .ok r => some ⟨t.index, r, e.phase⟩
      | .error _ => none
    else none

/-- The steps that entries record for a plan. -/
def Plan.steps (plan : Plan) (entries : List (Entry τ)) : List Step :=
  entries.filterMap (plan.step crates)

/-- An entry under the identity of a plan belongs to the plan and buys its range. -/
def Plan.Fits (plan : Plan) (e : Entry τ) : Prop :=
  ∀ t intent, e.investment = some (t, intent) → t.plan.id = plan.id →
    t.plan = plan ∧ t.validate crates intent = .ok ()

/-- A valid tranche has a range. -/
theorem Tranche.range_of_validate {t : Tranche} {intent : Intent}
    (h : t.validate crates intent = .ok ()) : ∃ r, t.range crates = .ok r := by
  obtain ⟨r, hr, -⟩ := bind_eq_ok.mp h
  exact ⟨r, hr⟩

/-- A tranche with a range belongs to a valid plan. -/
theorem Tranche.valid_of_range {t : Tranche} {r : StockRange} (h : t.range crates = .ok r) :
    t.plan.validate crates = .ok () := by
  obtain ⟨u, hu, -⟩ := bind_eq_ok.mp h
  exact hu

theorem Plan.step_eq_some {plan : Plan} {e : Entry τ} {s : Step} :
    plan.step crates e = some s ↔ ∃ t intent r, e.investment = some (t, intent) ∧ t.plan = plan ∧
      e.phase ≠ .failed ∧ t.range crates = .ok r ∧ s = ⟨t.index, r, e.phase⟩ := by
  unfold Plan.step
  cases hinv : e.investment with
  | none => simp
  | some p =>
    obtain ⟨t, intent⟩ := p
    by_cases hlive : t.plan = plan ∧ e.phase ≠ .failed
    · cases hr : t.range crates with
      | error m => simp [hlive, hr]
      | ok r => simp [hlive, hr, eq_comm]
    · simp only [if_neg hlive, Option.some.injEq, Prod.mk.injEq]
      constructor
      · intro h
        cases h
      · rintro ⟨t', intent', r, ⟨rfl, rfl⟩, hplan, hphase, -⟩
        exact absurd ⟨hplan, hphase⟩ hlive

/-- One entry of the first loop: it fits, and its step is a new one. -/
theorem Plan.collect_eq_ok {plan : Plan} {states states' : Table Step.index} {e : Entry τ} :
    plan.collect crates states e = .ok states' ↔ plan.Fits crates e ∧
      (∀ s ∈ plan.step crates e, states.find s.index = none) ∧
      states' = states.insertAll (plan.step crates e).toList := by
  unfold Plan.collect Plan.Fits Plan.step
  cases hinv : e.investment with
  | none => simp [eq_comm]
  | some p =>
    obtain ⟨t, intent⟩ := p
    by_cases hid : t.plan.id = plan.id
    · by_cases hplan : t.plan = plan
      · cases hvalid : t.validate crates intent with
        | error m => simp [hplan, refuse, hvalid]
        | ok u =>
          obtain ⟨r, hr⟩ := t.range_of_validate crates hvalid
          by_cases hphase : e.phase = .failed
          · simp [hplan, refuse, hvalid, hphase, eq_comm]
          · cases hfind : states.find t.index with
            | none => simp [hplan, refuse, hvalid, hphase, hr, hfind, eq_comm]
            | some s => simp [hplan, refuse, hvalid, hphase, hr, hfind]
      · simp [hid, hplan, refuse]
    · have hplan : t.plan ≠ plan := fun h => hid (congrArg Plan.id h)
      have hid' : plan.id ≠ t.plan.id := fun h => hid h.symm
      simp [hid, hid', hplan, eq_comm]

/-- The first loop collects the steps, which have different indices. -/
theorem Plan.foldlM_collect {plan : Plan} {entries : List (Entry τ)} {states states' : Table Step.index} :
    entries.foldlM (plan.collect crates) states = .ok states' ↔
      (∀ e ∈ entries, plan.Fits crates e) ∧
      (∀ s ∈ plan.steps crates entries, states.find s.index = none) ∧
      ((plan.steps crates entries).map Step.index).Nodup ∧
      states' = states.insertAll (plan.steps crates entries) := by
  induction entries generalizing states with
  | nil =>
    have hnil : plan.steps crates ([] : List (Entry τ)) = [] := rfl
    simp [hnil, pure, Except.pure, eq_comm]
  | cons e entries ih =>
    rw [List.foldlM_cons, bind_eq_ok]
    have hsteps : plan.steps crates (e :: entries) =
        (plan.step crates e).toList ++ plan.steps crates entries := by
      unfold Plan.steps
      cases h : plan.step crates e <;> simp [h]
    rw [hsteps]
    constructor
    · rintro ⟨mid, hcollect, hrest⟩
      obtain ⟨hfits, hnew, rfl⟩ := (Plan.collect_eq_ok crates).mp hcollect
      obtain ⟨hfit, hnews, hnodup, rfl⟩ := ih.mp hrest
      cases hstep : plan.step crates e with
      | none => simp_all
      | some s =>
        simp only [hstep, Option.toList_some, Table.insertAll_cons, Table.insertAll_nil,
          Table.find_insert] at hnews
        have hne : ∀ x ∈ plan.steps crates entries, s.index ≠ x.index ∧
            states.find x.index = none := by
          intro x hx
          have := hnews x hx
          grind
        refine ⟨List.forall_mem_cons.mpr ⟨hfits, hfit⟩, ?_, ?_, ?_⟩
        · rw [Option.toList_some, List.singleton_append, List.forall_mem_cons]
          exact ⟨hnew s hstep, fun x hx => (hne x hx).2⟩
        · rw [Option.toList_some, List.singleton_append, List.map_cons, List.nodup_cons]
          refine ⟨fun hmem => ?_, hnodup⟩
          obtain ⟨x, hx, heq⟩ := List.mem_map.mp hmem
          exact (hne x hx).1 heq.symm
        · rw [Table.insertAll_append]
    · rintro ⟨hfits, hnews, hnodup, rfl⟩
      obtain ⟨hfit, hfits⟩ := List.forall_mem_cons.mp hfits
      obtain ⟨hhead, htail⟩ := List.forall_mem_append.mp hnews
      rw [List.map_append, List.nodup_append] at hnodup
      refine ⟨_, (Plan.collect_eq_ok crates).mpr ⟨hfit, ?_, rfl⟩, ih.mpr ⟨hfits, ?_, hnodup.2.1, ?_⟩⟩
      · exact fun s hs => hhead s (Option.mem_toList.mpr hs)
      · intro x hx
        cases hstep : plan.step crates e with
        | none => exact htail x hx
        | some s =>
          have hne : s.index ≠ x.index := by
            apply hnodup.2.2
            · simp [hstep]
            · exact List.mem_map.mpr ⟨x, hx, rfl⟩
          rw [Option.toList_some, Table.insertAll_cons, Table.insertAll_nil, Table.find_insert,
            if_neg hne]
          exact htail x hx
      · rw [Table.insertAll_append]

/-! ## Pavings -/

/-- Reconciled steps with the indices from `i` up to `k` pave the allocations from `start` to
`finish`. -/
def Paved : ℕ → ℕ → List Step → ℕ → ℕ → Prop
  | i, start, [], k, finish => i = k ∧ start = finish
  | i, start, s :: steps, k, finish =>
    s.index = i ∧ s.range.start = start ∧ s.phase = .reconciled ∧
      Paved (i + 1) s.range.finish steps k finish

theorem Paved.length {i start k finish : ℕ} {steps : List Step} (h : Paved i start steps k finish) :
    k = i + steps.length := by
  induction steps generalizing i start with
  | nil => exact h.1.symm
  | cons s steps ih =>
    have hrest := ih h.2.2.2
    rw [List.length_cons]
    omega

theorem Paved.index_lt {i start k finish : ℕ} {steps : List Step} (h : Paved i start steps k finish)
    {s : Step} (hs : s ∈ steps) : i ≤ s.index ∧ s.index < k := by
  induction steps generalizing i start with
  | nil => cases hs
  | cons t steps ih =>
    obtain ⟨rfl, -, -, hrest⟩ := h
    have hlen := hrest.length
    obtain rfl | hmem := List.mem_cons.mp hs
    · omega
    · have := ih hrest hmem
      omega

theorem Paved.sorted {i start k finish : ℕ} {steps : List Step} (h : Paved i start steps k finish) :
    steps.Pairwise fun s t => s.index < t.index := by
  induction steps generalizing i start with
  | nil => exact .nil
  | cons t steps ih =>
    obtain ⟨rfl, -, -, hrest⟩ := h
    refine List.pairwise_cons.mpr ⟨fun s hs => ?_, ih hrest⟩
    have := hrest.index_lt hs
    omega

theorem Paved.reconciled {i start k finish : ℕ} {steps : List Step}
    (h : Paved i start steps k finish) {s : Step} (hs : s ∈ steps) : s.phase = .reconciled := by
  induction steps generalizing i start with
  | nil => cases hs
  | cons t steps ih =>
    obtain ⟨-, -, hphase, hrest⟩ := h
    obtain rfl | hmem := List.mem_cons.mp hs
    · exact hphase
    · exact ih hrest hmem

/-- A paving goes on with the next reconciled step. -/
theorem Paved.concat {i start k finish : ℕ} {steps : List Step} (h : Paved i start steps k finish)
    {s : Step} (hindex : s.index = k) (hstart : s.range.start = finish)
    (hphase : s.phase = .reconciled) : Paved i start (steps ++ [s]) (k + 1) s.range.finish := by
  induction steps generalizing i start with
  | nil =>
    obtain ⟨rfl, rfl⟩ := h
    exact ⟨hindex, hstart, hphase, rfl, rfl⟩
  | cons t steps ih =>
    obtain ⟨ht, hs, hp, hrest⟩ := h
    exact ⟨ht, hs, hp, ih hrest⟩

/-- The steps in order, up to the cursor: a paving, and the pending step if there is one. -/
def Cursor.Reached (c : Cursor) (i start : ℕ) (steps : List Step) : Prop :=
  ∃ done, Paved i start done c.index c.start ∧
    match c.pending with
    | none => steps = done
    | some k => k = c.index ∧ ∃ last, steps = done ++ [last] ∧ last.index = c.index ∧
        last.range.start = c.start ∧ last.phase ≠ .reconciled

theorem Cursor.advance_eq_ok {c c' : Cursor} {s : Step} :
    c.advance s = .ok c' ↔ c.pending = none ∧ s.index = c.index ∧ s.range.start = c.start ∧
      c' = if s.phase = .reconciled then ⟨s.range.finish, c.index + 1, none⟩
        else ⟨c.start, c.index, some c.index⟩ := by
  obtain ⟨start, index, pending⟩ := c
  unfold Cursor.advance
  by_cases hbad : pending.isSome = true ∨ s.index ≠ index ∨ s.range.start ≠ start
  · rw [refuse, if_pos hbad]
    cases pending <;> grind [error_bind]
  · rw [refuse, if_neg hbad, ok_bind]
    by_cases hphase : s.phase = .reconciled <;> cases pending <;> grind

/-- No step follows a pending one. -/
theorem Cursor.foldlM_pending {c c' : Cursor} {k : ℕ} {steps : List Step}
    (h : steps.foldlM Cursor.advance c = .ok c') (hc : c.pending = some k) :
    steps = [] ∧ c' = c := by
  cases steps with
  | nil =>
    cases h
    exact ⟨rfl, rfl⟩
  | cons s steps =>
    obtain ⟨mid, hstep, -⟩ := bind_eq_ok.mp h
    have hnone := (Cursor.advance_eq_ok.mp hstep).1
    rw [hc] at hnone
    cases hnone

/-- The second loop reaches a cursor. -/
theorem Cursor.foldlM_advance {steps : List Step} {i start : ℕ} {c : Cursor} :
    steps.foldlM Cursor.advance ⟨start, i, none⟩ = .ok c ↔ c.Reached i start steps := by
  induction steps generalizing i start with
  | nil =>
    obtain ⟨cs, ci, cp⟩ := c
    constructor
    · intro h
      cases h
      exact ⟨[], ⟨rfl, rfl⟩, rfl⟩
    · rintro ⟨done, hpaved, hsteps⟩
      cases cp with
      | none =>
        obtain rfl : [] = done := hsteps
        obtain ⟨rfl, rfl⟩ := hpaved
        rfl
      | some k =>
        obtain ⟨-, last, hnil, -⟩ := hsteps
        simp at hnil
  | cons s steps ih =>
    rw [List.foldlM_cons, bind_eq_ok]
    constructor
    · rintro ⟨mid, hstep, hrest⟩
      obtain ⟨-, hindex, hstart, hmid⟩ := Cursor.advance_eq_ok.mp hstep
      simp only at hindex hstart hmid
      by_cases hphase : s.phase = .reconciled
      · -- the paving of the rest goes on from the end of this step
        rw [if_pos hphase] at hmid
        subst hmid
        obtain ⟨done, hpaved, hsteps⟩ := ih.mp hrest
        refine ⟨s :: done, ⟨hindex, hstart, hphase, hpaved⟩, ?_⟩
        cases hp : c.pending with
        | none =>
          rw [hp] at hsteps
          exact congrArg _ hsteps
        | some k =>
          rw [hp] at hsteps
          obtain ⟨hk, last, rfl, hlast⟩ := hsteps
          exact ⟨hk, last, rfl, hlast⟩
      · rw [if_neg hphase] at hmid
        subst hmid
        obtain ⟨rfl, rfl⟩ := Cursor.foldlM_pending hrest rfl
        exact ⟨[], ⟨rfl, rfl⟩, rfl, s, rfl, hindex, hstart, hphase⟩
    · rintro ⟨done, hpaved, hsteps⟩
      cases done with
      | nil =>
        -- only a pending step can be the first one without a paving
        obtain ⟨hi, hs⟩ := hpaved
        obtain ⟨cs, ci, cp⟩ := c
        simp only at hi hs hsteps
        subst hi hs
        cases cp with
        | none => cases hsteps
        | some k =>
          obtain ⟨rfl, last, hcons, hindex, hstart, hphase⟩ := hsteps
          obtain ⟨rfl, rfl⟩ := List.cons_eq_cons.mp hcons
          exact ⟨_, Cursor.advance_eq_ok.mpr ⟨rfl, hindex, hstart, rfl⟩, by rw [if_neg hphase]; rfl⟩
      | cons t done =>
        obtain ⟨hindex, hstart, hphase, hrest⟩ := hpaved
        obtain ⟨rfl, hreach⟩ : s = t ∧ c.Reached (i + 1) t.range.finish steps := by
          cases hp : c.pending with
          | none =>
            rw [hp] at hsteps
            obtain ⟨rfl, rfl⟩ := List.cons_eq_cons.mp hsteps
            refine ⟨rfl, steps, hrest, ?_⟩
            rw [hp]
          | some k =>
            rw [hp] at hsteps
            obtain ⟨hk, last, hcons, hlast⟩ := hsteps
            obtain ⟨rfl, rfl⟩ := List.cons_eq_cons.mp hcons
            refine ⟨rfl, done, hrest, ?_⟩
            rw [hp]
            exact ⟨hk, last, rfl, hlast⟩
        refine ⟨⟨s.range.finish, i + 1, none⟩, Cursor.advance_eq_ok.mpr ⟨rfl, hindex, hstart, ?_⟩,
          ih.mpr hreach⟩
        rw [if_pos hphase]

/-- The reached steps are in the order of their indices. -/
theorem Cursor.Reached.sorted {c : Cursor} {i start : ℕ} {steps : List Step}
    (h : c.Reached i start steps) : steps.Pairwise fun s t => s.index < t.index := by
  obtain ⟨done, hpaved, hsteps⟩ := h
  cases hp : c.pending with
  | none =>
    rw [hp] at hsteps
    obtain rfl : steps = done := hsteps
    exact hpaved.sorted
  | some k =>
    rw [hp] at hsteps
    obtain ⟨-, last, rfl, hindex, -⟩ := hsteps
    refine List.pairwise_append.mpr ⟨hpaved.sorted, List.pairwise_singleton _ _, ?_⟩
    intro s hs t ht
    obtain rfl := List.mem_singleton.mp ht
    rw [hindex]
    exact (hpaved.index_lt hs).2

/-! ## Where a plan stands -/

/-- The entries bring a valid plan to a cursor. -/
structure Plan.At (plan : Plan) (entries : List (Entry τ)) (c : Cursor) : Prop where
  valid : plan.validate crates = .ok ()
  fits : ∀ e ∈ entries, plan.Fits crates e
  reached : ∃ steps, (plan.steps crates entries).Perm steps ∧ c.Reached 0 0 steps

/-- The two loops of `cursor`. -/
theorem Plan.at_iff {plan : Plan} {entries : List (Entry τ)} {c : Cursor} :
    plan.At crates entries c ↔ plan.validate crates = .ok () ∧
      (entries.foldlM (plan.collect crates) .empty >>= fun states =>
        states.rows.foldlM Cursor.advance ⟨0, 0, none⟩) = .ok c := by
  rw [bind_eq_ok]
  constructor
  · rintro ⟨hvalid, hfits, steps, hperm, hreach⟩
    have hsorted := hreach.sorted
    have hnodup : ((plan.steps crates entries).map Step.index).Nodup :=
      (hperm.map _).nodup_iff.mpr (List.pairwise_map.mpr (hsorted.imp fun h => h.ne))
    refine ⟨hvalid, _, (Plan.foldlM_collect crates).mpr ⟨hfits, fun _ _ => rfl, hnodup, rfl⟩, ?_⟩
    -- the table of the steps is the list in the order of the indices
    have htable : Table.empty.insertAll (plan.steps crates entries) =
        (⟨steps, hsorted⟩ : Table Step.index) := by
      apply Table.ext_perm
      exact (Table.rows_insertAll_perm (fun _ _ => rfl) hnodup).trans hperm
    rw [htable]
    exact Cursor.foldlM_advance.mpr hreach
  · rintro ⟨hvalid, states, hcollect, hadvance⟩
    obtain ⟨hfits, hnew, hnodup, rfl⟩ := (Plan.foldlM_collect crates).mp hcollect
    refine ⟨hvalid, hfits, _, ?_, Cursor.foldlM_advance.mp hadvance⟩
    exact (Table.rows_insertAll_perm hnew hnodup).symm

theorem Plan.cursor_eq_ok {plan : Plan} {entries : List (Entry τ)} {progress : Progress}
    {start : ℕ} : plan.cursor crates entries = .ok (progress, start) ↔ ∃ c,
      plan.At crates entries c ∧ c.progress plan.allocations.length = progress ∧
      c.start = start := by
  simp only [Plan.cursor, Plan.at_iff, bind_eq_ok]
  constructor
  · rintro ⟨u, hu, states, hcollect, c, hc, hout⟩
    cases hout
    exact ⟨c, ⟨hu, states, hcollect, hc⟩, rfl, rfl⟩
  · rintro ⟨c, ⟨hu, states, hcollect, hc⟩, rfl, rfl⟩
    exact ⟨(), hu, states, hcollect, c, hc, rfl⟩

/-- Entries bring a plan to one cursor. -/
theorem Plan.At.unique {plan : Plan} {entries : List (Entry τ)} {c d : Cursor}
    (hc : plan.At crates entries c) (hd : plan.At crates entries d) : c = d := by
  have hok := ((Plan.at_iff crates).mp hc).2.symm.trans ((Plan.at_iff crates).mp hd).2
  cases hok
  rfl

theorem Plan.At.perm {plan : Plan} {entries entries' : List (Entry τ)} {c : Cursor}
    (h : plan.At crates entries c) (hperm : entries.Perm entries') : plan.At crates entries' c := by
  obtain ⟨hvalid, hfits, steps, hsteps, hreach⟩ := h
  refine ⟨hvalid, fun e he => hfits e (hperm.mem_iff.mpr he), steps, ?_, hreach⟩
  exact (hperm.filterMap _).symm.trans hsteps

theorem Plan.steps_cons_none {plan : Plan} {entries : List (Entry τ)} {e : Entry τ}
    (h : plan.step crates e = none) :
    plan.steps crates (e :: entries) = plan.steps crates entries :=
  List.filterMap_cons_none h

theorem Plan.steps_cons_some {plan : Plan} {entries : List (Entry τ)} {e : Entry τ} {s : Step}
    (h : plan.step crates e = some s) :
    plan.steps crates (e :: entries) = s :: plan.steps crates entries :=
  List.filterMap_cons_some h

/-- An entry without a step does not move the cursor. -/
theorem Plan.At.cons_none {plan : Plan} {entries : List (Entry τ)} {e : Entry τ} {c : Cursor}
    (h : plan.At crates entries c) (hfits : plan.Fits crates e) (hstep : plan.step crates e = none) :
    plan.At crates (e :: entries) c := by
  obtain ⟨hvalid, hall, hreach⟩ := h
  refine ⟨hvalid, List.forall_mem_cons.mpr ⟨hfits, hall⟩, ?_⟩
  rwa [Plan.steps_cons_none crates hstep]

/-- The next step moves the cursor. -/
theorem Plan.At.cons_some {plan : Plan} {entries : List (Entry τ)} {e : Entry τ} {c c' : Cursor}
    {s : Step} (h : plan.At crates entries c) (hfits : plan.Fits crates e)
    (hstep : plan.step crates e = some s) (hadvance : c.advance s = .ok c') :
    plan.At crates (e :: entries) c' := by
  obtain ⟨hvalid, hall, steps, hperm, done, hpaved, hsteps⟩ := h
  obtain ⟨hpending, hindex, hstart, rfl⟩ := Cursor.advance_eq_ok.mp hadvance
  rw [hpending] at hsteps
  obtain rfl : steps = done := hsteps
  refine ⟨hvalid, List.forall_mem_cons.mpr ⟨hfits, hall⟩, steps ++ [s], ?_, ?_⟩
  · rw [Plan.steps_cons_some crates hstep]
    exact (hperm.cons s).trans (List.perm_append_singleton s steps).symm
  · by_cases hphase : s.phase = .reconciled
    · rw [if_pos hphase]
      exact ⟨_, hpaved.concat hindex hstart hphase, rfl⟩
    · rw [if_neg hphase]
      exact ⟨_, hpaved, rfl, s, rfl, hindex, hstart, hphase⟩

/-- Without an entry that has no step the cursor is the same. -/
theorem Plan.At.tail_none {plan : Plan} {entries : List (Entry τ)} {e : Entry τ} {c : Cursor}
    (h : plan.At crates (e :: entries) c) (hstep : plan.step crates e = none) :
    plan.At crates entries c := by
  obtain ⟨hvalid, hall, hreach⟩ := h
  rw [Plan.steps_cons_none crates hstep] at hreach
  exact ⟨hvalid, (List.forall_mem_cons.mp hall).2, hreach⟩

/-- A step that is not reconciled is the pending one, and without it the plan is ready there. -/
theorem Plan.At.tail_pending {plan : Plan} {entries : List (Entry τ)} {e : Entry τ} {c : Cursor}
    {s : Step} (h : plan.At crates (e :: entries) c) (hstep : plan.step crates e = some s)
    (hphase : s.phase ≠ .reconciled) :
    plan.At crates entries { c with pending := none } ∧ c.pending = some c.index ∧
      s.index = c.index ∧ s.range.start = c.start := by
  obtain ⟨hvalid, hall, steps, hperm, done, hpaved, hsteps⟩ := h
  rw [Plan.steps_cons_some crates hstep] at hperm
  have hmem : s ∈ steps := hperm.mem_iff.mp List.mem_cons_self
  cases hp : c.pending with
  | none =>
    rw [hp] at hsteps
    obtain rfl : steps = done := hsteps
    exact absurd (hpaved.reconciled hmem) hphase
  | some k =>
    rw [hp] at hsteps
    obtain ⟨rfl, last, rfl, hindex, hstart, -⟩ := hsteps
    obtain hdone | hlast := List.mem_append.mp hmem
    · exact absurd (hpaved.reconciled hdone) hphase
    obtain rfl := List.mem_singleton.mp hlast
    refine ⟨⟨hvalid, (List.forall_mem_cons.mp hall).2, done, ?_, done, hpaved, rfl⟩, rfl, hindex,
      hstart⟩
    exact (hperm.trans (List.perm_append_singleton s done)).cons_inv

/-! ## Retries

A failed tranche leaves no step. Its place is still that of the step with its index, or the one where
the plan goes on. -/

/-- Every tranche of the plan starts where the step of its index does. -/
def Plan.Seated (plan : Plan) (entries : List (Entry τ)) (c : Cursor) : Prop :=
  ∀ e ∈ entries, ∀ t intent r, e.investment = some (t, intent) → t.plan = plan →
    t.range crates = .ok r →
    (∃ s ∈ plan.steps crates entries, s.index = t.index ∧ s.range.start = r.start) ∨
      t.index = c.index ∧ r.start = c.start

/-- A plan stands at a cursor, with every tranche in its place. -/
structure Plan.Stands (plan : Plan) (entries : List (Entry τ)) (c : Cursor) : Prop
    extends plan.At crates entries c where
  seated : plan.Seated crates entries c

theorem Plan.Stands.perm {plan : Plan} {entries entries' : List (Entry τ)} {c : Cursor}
    (h : plan.Stands crates entries c) (hperm : entries.Perm entries') :
    plan.Stands crates entries' c := by
  refine ⟨h.toAt.perm crates hperm, fun e he t intent r hinv hplan hr => ?_⟩
  obtain ⟨s, hs, hseat⟩ | hnext := h.seated e (hperm.mem_iff.mpr he) t intent r hinv hplan hr
  · exact .inl ⟨s, (hperm.filterMap _).mem_iff.mp hs, hseat⟩
  · exact .inr hnext

theorem Plan.step_eq_none_of_other {plan : Plan} {e : Entry τ}
    (h : ∀ t intent, e.investment = some (t, intent) → t.plan ≠ plan) :
    plan.step crates e = none := by
  apply Option.eq_none_iff_forall_ne_some.mpr
  intro s hs
  obtain ⟨t, intent, r, hinv, hplan, -⟩ := (Plan.step_eq_some crates).mp hs
  exact h t intent hinv hplan

/-- An entry that is not of the plan changes nothing. -/
theorem Plan.Stands.cons_other {plan : Plan} {entries : List (Entry τ)} {e : Entry τ} {c : Cursor}
    (h : plan.Stands crates entries c)
    (hother : ∀ t intent, e.investment = some (t, intent) → t.plan.id ≠ plan.id) :
    plan.Stands crates (e :: entries) c := by
  have hne : ∀ t intent, e.investment = some (t, intent) → t.plan ≠ plan :=
    fun t intent hinv heq => hother t intent hinv (congrArg Plan.id heq)
  have hstep := Plan.step_eq_none_of_other crates hne
  refine ⟨h.toAt.cons_none crates ?_ hstep, fun e' he t intent r hinv hplan hr => ?_⟩
  · exact fun t intent hinv hid => absurd hid (hother t intent hinv)
  · rw [Plan.steps_cons_none crates hstep]
    obtain rfl | hmem := List.mem_cons.mp he
    · exact absurd hplan (hne t intent hinv)
    · exact h.seated e' hmem t intent r hinv hplan hr

theorem Plan.Stands.tail_other {plan : Plan} {entries : List (Entry τ)} {e : Entry τ} {c : Cursor}
    (h : plan.Stands crates (e :: entries) c)
    (hother : ∀ t intent, e.investment = some (t, intent) → t.plan ≠ plan) :
    plan.Stands crates entries c := by
  have hstep := Plan.step_eq_none_of_other crates hother
  refine ⟨h.toAt.tail_none crates hstep, fun e' he t intent r hinv hplan hr => ?_⟩
  have hseat := h.seated e' (List.mem_cons_of_mem _ he) t intent r hinv hplan hr
  rwa [Plan.steps_cons_none crates hstep] at hseat

/-- The next tranche of a ready plan, whatever its phase. -/
theorem Plan.Stands.cons_next {entries : List (Entry τ)} {e : Entry τ} {c : Cursor} {t : Tranche}
    {intent : Intent} {r : StockRange} (h : t.plan.Stands crates entries c)
    (hpending : c.pending = none) (hinv : e.investment = some (t, intent))
    (hvalid : t.validate crates intent = .ok ()) (hr : t.range crates = .ok r)
    (hindex : t.index = c.index) (hstart : r.start = c.start) :
    ∃ c', t.plan.Stands crates (e :: entries) c' := by
  have hfits : t.plan.Fits crates e := by
    intro t' intent' hinv' _
    cases hinv.symm.trans hinv'
    exact ⟨rfl, hvalid⟩
  by_cases hphase : e.phase = .failed
  · have hstep : t.plan.step crates e = none := by
      apply Option.eq_none_iff_forall_ne_some.mpr
      intro s hs
      obtain ⟨-, -, -, -, -, hlive, -⟩ := (Plan.step_eq_some crates).mp hs
      exact hlive hphase
    refine ⟨c, h.toAt.cons_none crates hfits hstep, fun e' he t' intent' r' hinv' hplan hr' => ?_⟩
    rw [Plan.steps_cons_none crates hstep]
    obtain rfl | hmem := List.mem_cons.mp he
    · cases hinv.symm.trans hinv'
      cases hr.symm.trans hr'
      exact .inr ⟨hindex, hstart⟩
    · exact h.seated e' hmem t' intent' r' hinv' hplan hr'
  · have hstep : t.plan.step crates e = some ⟨t.index, r, e.phase⟩ :=
      (Plan.step_eq_some crates).mpr ⟨t, intent, r, hinv, rfl, hphase, hr, rfl⟩
    refine ⟨_, h.toAt.cons_some crates hfits hstep
      (Cursor.advance_eq_ok.mpr ⟨hpending, hindex, hstart, rfl⟩), ?_⟩
    intro e' he t' intent' r' hinv' hplan hr'
    rw [Plan.steps_cons_some crates hstep]
    -- a tranche with the index of the new step starts with it
    have hseat : (∃ s ∈ t.plan.steps crates entries, s.index = t'.index ∧ s.range.start = r'.start) ∨
        t'.index = c.index ∧ r'.start = c.start := by
      obtain rfl | hmem := List.mem_cons.mp he
      · cases hinv.symm.trans hinv'
        cases hr.symm.trans hr'
        exact .inr ⟨hindex, hstart⟩
      · exact h.seated e' hmem t' intent' r' hinv' hplan hr'
    obtain ⟨s, hs, hs'⟩ | ⟨hi, hs⟩ := hseat
    · exact .inl ⟨s, List.mem_cons_of_mem _ hs, hs'⟩
    · exact .inl ⟨_, List.mem_cons_self, hindex.trans hi.symm, hstart.trans hs.symm⟩

/-- Without its pending tranche a plan is ready for it. -/
theorem Plan.Stands.tail_pending {entries : List (Entry τ)} {e : Entry τ} {c : Cursor} {t : Tranche}
    {intent : Intent} {r : StockRange} (h : t.plan.Stands crates (e :: entries) c)
    (hinv : e.investment = some (t, intent)) (hr : t.range crates = .ok r)
    (hfailed : e.phase ≠ .failed) (hreconciled : e.phase ≠ .reconciled) :
    t.plan.Stands crates entries { c with pending := none } ∧ t.index = c.index ∧
      r.start = c.start := by
  have hstep : t.plan.step crates e = some ⟨t.index, r, e.phase⟩ :=
    (Plan.step_eq_some crates).mpr ⟨t, intent, r, hinv, rfl, hfailed, hr, rfl⟩
  obtain ⟨hat, -, hindex, hstart⟩ := h.toAt.tail_pending crates hstep hreconciled
  refine ⟨⟨hat, fun e' he t' intent' r' hinv' hplan hr' => ?_⟩, hindex, hstart⟩
  have hseat := h.seated e' (List.mem_cons_of_mem _ he) t' intent' r' hinv' hplan hr'
  rw [Plan.steps_cons_some crates hstep] at hseat
  obtain ⟨s, hs, hi, hs'⟩ | hnext := hseat
  · obtain rfl | hmem := List.mem_cons.mp hs
    · exact .inr ⟨hi.symm.trans hindex, hs'.symm.trans hstart⟩
    · exact .inl ⟨s, hmem, hi, hs'⟩
  · exact .inr hnext

end StockMesh.Journal

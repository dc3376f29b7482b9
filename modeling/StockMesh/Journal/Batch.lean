import StockMesh.Journal.Index

/-! # Batches

`insert_batch` and `update_batch` check a whole batch against the entries before it. What they hand to
`append_batch` may be appended one record after another (`admitBatch_admits`, `reviseBatch_admits`). -/

namespace StockMesh.Journal

open Host (Answer refuse refuse_of_not bounded bounded_eq_ok)

variable {τ : Type} {codec : Codec τ}

/-! ## Plans of a batch -/

theorem Plan.steps_append {crates : Crates} (plan : Plan) (entries more : List (Entry τ)) :
    plan.steps crates (entries ++ more) = plan.steps crates entries ++ plan.steps crates more :=
  List.filterMap_append

/-- A ready plan has no tranche among prepared transactions, so it is ready without them. -/
theorem Plan.At.of_append {crates : Crates} {plan : Plan} {entries more : List (Entry τ)} {c : Cursor}
    (h : plan.At crates (entries ++ more) c) (hready : c.pending = none)
    (hmore : ∀ e ∈ more, e.phase = .prepared) {part : List (Entry τ)} (hpart : part ⊆ more) :
    plan.At crates (entries ++ part) c := by
  obtain ⟨hvalid, hfits, steps, hperm, done, hpaved, hsteps⟩ := h
  rw [hready] at hsteps
  obtain rfl : steps = done := hsteps
  have hnone : ∀ e ∈ more, plan.step crates e = none := by
    intro e he
    apply Option.eq_none_iff_forall_ne_some.mpr
    intro s hs
    have hmem : s ∈ plan.steps crates (entries ++ more) :=
      List.mem_filterMap.mpr ⟨e, List.mem_append_right _ he, hs⟩
    have hphase := hpaved.reconciled (hperm.mem_iff.mp hmem)
    obtain ⟨t, intent, r, -, -, -, -, rfl⟩ := (Plan.step_eq_some crates).mp hs
    rw [hmore e he] at hphase
    cases hphase
  have hempty : ∀ l ⊆ more, plan.steps crates l = [] := fun l hl =>
    List.filterMap_eq_nil_iff.mpr fun e he => hnone e (hl he)
  refine ⟨hvalid, fun e he => hfits e ?_, steps, ?_, steps, hpaved, ?_⟩
  · obtain he | he := List.mem_append.mp he
    · exact List.mem_append_left _ he
    · exact List.mem_append_right _ (hpart he)
  · rw [Plan.steps_append, hempty part hpart]
    rwa [Plan.steps_append, hempty more (List.Subset.refl _)] at hperm
  · rw [hready]

/-! ## Insertions -/

/-- What `insert_batch` has checked of one entry. -/
structure Admitted (codec : Codec τ) (j : Journal τ) (pending : List (Entry τ)) (e : Entry τ) :
    Prop where
  economic : e.validateEconomicType codec.toCrates = .ok ()
  admission : admission codec.toCrates e
    (j.entries.rows ++ pending.filter fun other => other.id ≠ e.id) = .ok ()
  id : j.entries.find e.id = none
  signature : j.signatures e.signature = none
  phase : e.phase = .prepared
  attempts : e.attempts = 0
  distinct : e.resources.Nodup
  resources : ∀ r ∈ e.resources, j.reservations r = none

theorem foldlM_takeResource {j : Journal τ} {resources taken taken' : List Key}
    (h : resources.foldlM j.takeResource taken = .ok taken') :
    (∀ r ∈ resources, j.reservations r = none) ∧ resources.Nodup ∧ (∀ r ∈ resources, r ∉ taken) ∧
      ∀ r, r ∈ taken' ↔ r ∈ resources ∨ r ∈ taken := by
  induction resources generalizing taken with
  | nil =>
    cases h
    simp
  | cons x resources ih =>
    obtain ⟨mid, hstep, hrest⟩ := bind_eq_ok.mp h
    obtain ⟨_, hfree, hmid⟩ := bind_eq_ok.mp hstep
    cases hmid
    simp only [refuse_eq_ok, not_or, Bool.not_eq_true, Option.isSome_eq_false_iff,
      Option.isNone_iff_eq_none] at hfree
    obtain ⟨hall, hnodup, hnew, hmem⟩ := ih hrest
    refine ⟨List.forall_mem_cons.mpr ⟨hfree.1, hall⟩, ?_, ?_, fun r => ?_⟩
    · exact List.nodup_cons.mpr ⟨fun hx => hnew x hx List.mem_cons_self, hnodup⟩
    · exact List.forall_mem_cons.mpr
        ⟨hfree.2, fun r hr hr' => hnew r hr (List.mem_cons_of_mem _ hr')⟩
    · rw [hmem, List.mem_cons, List.mem_cons]
      tauto

theorem admitEntry_eq_ok {j : Journal τ} {pending : List (Entry τ)} {taken taken' : Taken}
    {e : Entry τ} (h : j.admitEntry codec pending taken e = .ok taken') :
    Admitted codec j pending e ∧ e.id ∉ taken.ids ∧ e.signature ∉ taken.signatures ∧
      (∀ r ∈ e.resources, r ∉ taken.resources) ∧ taken'.ids = e.id :: taken.ids ∧
      taken'.signatures = e.signature :: taken.signatures ∧
      ∀ r, r ∈ taken'.resources ↔ r ∈ e.resources ∨ r ∈ taken.resources := by
  simp only [admitEntry, bind_eq_ok, refuse_eq_ok, not_or, Bool.not_eq_true,
    Option.isSome_eq_false_iff, Option.isNone_iff_eq_none, not_not] at h
  obtain ⟨_, heconomic, _, hadmission, _, ⟨hid, hid'⟩, _, ⟨hsig, hsig'⟩, _, ⟨hphase, hattempts⟩,
    resources, hresources, hout⟩ := h
  cases hout
  obtain ⟨hfree, hnodup, hnew, hmem⟩ := foldlM_takeResource hresources
  exact ⟨⟨heconomic, hadmission, hid, hsig, hphase, hattempts, hnodup, hfree⟩, hid', hsig', hnew,
    rfl, rfl, hmem⟩

/-- What `insert_batch` has checked of the entries of a batch, and of one against another. -/
structure Separate (taken : Taken) (batch : List (Entry τ)) : Prop where
  pairwise : batch.Pairwise fun x y => x.id ≠ y.id ∧ x.signature ≠ y.signature ∧
    ∀ r ∈ y.resources, r ∉ x.resources
  taken : ∀ e ∈ batch, e.id ∉ taken.ids ∧ e.signature ∉ taken.signatures ∧
    ∀ r ∈ e.resources, r ∉ taken.resources

theorem foldlM_admitEntry {j : Journal τ} {pending batch : List (Entry τ)} {taken taken' : Taken}
    (h : batch.foldlM (j.admitEntry codec pending) taken = .ok taken') :
    (∀ e ∈ batch, Admitted codec j pending e) ∧ Separate taken batch := by
  induction batch generalizing taken with
  | nil => exact ⟨fun e he => absurd he List.not_mem_nil, .nil, fun e he => absurd he List.not_mem_nil⟩
  | cons e batch ih =>
    obtain ⟨mid, hstep, hrest⟩ := bind_eq_ok.mp h
    obtain ⟨hadmitted, hid, hsig, hres, hids, hsigs, hmem⟩ := admitEntry_eq_ok hstep
    obtain ⟨hall, hpairwise, htaken⟩ := ih hrest
    simp only [hids, hsigs, hmem, List.mem_cons, not_or] at htaken
    refine ⟨List.forall_mem_cons.mpr ⟨hadmitted, hall⟩, ?_, ?_⟩
    · refine List.pairwise_cons.mpr ⟨fun x hx => ?_, hpairwise⟩
      obtain ⟨⟨hxid, -⟩, ⟨hxsig, -⟩, hxres⟩ := htaken x hx
      exact ⟨Ne.symm hxid, Ne.symm hxsig, fun r hr => (hxres r hr).1⟩
    · refine List.forall_mem_cons.mpr ⟨⟨hid, hsig, hres⟩, fun x hx => ?_⟩
      obtain ⟨⟨-, hxid⟩, ⟨-, hxsig⟩, hxres⟩ := htaken x hx
      exact ⟨hxid, hxsig, fun r hr => (hxres r hr).2⟩

/-- An entry of the batch is fresh after the entries before it. -/
theorem Admitted.fresh {j : Journal τ} {pending done : List (Entry τ)} {e : Entry τ}
    (hindexed : j.Indexed) (h : Admitted codec j pending e)
    (hprepared : ∀ x ∈ pending, x.phase = .prepared) (hnew : ∀ x ∈ pending, j.entries.find x.id = none)
    (hdone : done ⊆ pending) (hnodup : (done.map Entry.id).Nodup)
    (hseparate : ∀ x ∈ done, x.id ≠ e.id ∧ x.signature ≠ e.signature ∧
      ∀ r ∈ e.resources, r ∉ x.resources) :
    e.Fresh codec.toCrates (j.entries.insertAll done) where
  id := by
    rw [Table.find_insertAll_of_forall fun x hx => (hseparate x hx).1]
    exact h.id
  signature := by
    intro x hx hsig
    obtain hx | hx := Table.mem_of_mem_insertAll hx
    · have hfind : j.signatures e.signature = some x.id :=
        (hindexed.signatures _ _).mpr ⟨x, hx, hsig, rfl⟩
      rw [h.signature] at hfind
      cases hfind
    · exact (hseparate x hx).2.1 hsig
  phase := h.phase
  attempts := h.attempts
  distinct := h.distinct
  free := by
    intro x hx hlive r hr hr'
    obtain hx | hx := Table.mem_of_mem_insertAll hx
    · have hfind : j.reservations r = some x.id :=
        (hindexed.reservations _ _).mpr ⟨x, hx, hlive, hr, rfl⟩
      rw [h.resources r hr'] at hfind
      cases hfind
    · exact (hseparate x hx).2.2 r hr' hr
  economic := h.economic
  admission := by
    cases hinv : e.investment with
    | none => simp [StockMesh.Journal.admission, hinv]
    | some p =>
      -- the cursor of the plan sees the same steps whichever part of the batch is there
      obtain ⟨hvalid, c, r, hat, hready, hrest⟩ := (admission_eq_ok _ hinv).mp h.admission
      refine (admission_eq_ok _ hinv).mpr ⟨hvalid, c, r, ?_, hready, hrest⟩
      have hothers : ∀ x ∈ pending.filter fun other => other.id ≠ e.id, x.phase = .prepared :=
        fun x hx => hprepared x (List.mem_filter.mp hx).1
      have hsub : done ⊆ pending.filter fun other => other.id ≠ e.id := fun x hx =>
        List.mem_filter.mpr ⟨hdone hx, by simpa using (hseparate x hx).1⟩
      refine (hat.of_append hready hothers hsub).perm _ ?_
      exact (Table.rows_insertAll_perm (fun x hx => hnew x (hdone hx)) hnodup).symm

/-- A batch that `insert_batch` accepts may be appended one entry after another. -/
theorem admitBatch_admits {j : Journal τ} {pending : List (Entry τ)} (hindexed : j.Indexed)
    (h : j.admitBatch codec pending = .ok ()) :
    Appendable codec.toCrates j.entries pending ∧
      j.entries.rows.length + pending.length ≤ j.capacity := by
  simp only [admitBatch, bind_eq_ok, refuse_eq_ok] at h
  obtain ⟨_, -, _, hcapacity, taken, hfold, -⟩ := h
  obtain ⟨hall, hpairwise, -⟩ := foldlM_admitEntry hfold
  refine ⟨⟨?_, List.pairwise_map.mpr (hpairwise.imp fun h => h.1)⟩, by omega⟩
  have hloop : ∀ rest done : List (Entry τ), done ++ rest = pending →
      AdmitsAll codec.toCrates (j.entries.insertAll done) rest := by
    intro rest
    induction rest with
    | nil => exact fun _ _ => trivial
    | cons e rest ih =>
      intro done hsplit
      have he : e ∈ pending := hsplit ▸ List.mem_append_right _ List.mem_cons_self
      rw [← hsplit, List.pairwise_append] at hpairwise
      have hdone : done ⊆ pending := fun x hx => hsplit ▸ List.mem_append_left _ hx
      refine ⟨.insert ?_, ?_⟩
      · apply (hall e he).fresh hindexed (fun x hx => (hall x hx).phase)
          (fun x hx => (hall x hx).id) hdone
        · exact List.pairwise_map.mpr (hpairwise.1.imp fun h => h.1)
        · exact fun x hx => hpairwise.2.2 x hx e List.mem_cons_self
      · have hnext := ih (done ++ [e]) (by simpa using hsplit)
        rwa [Table.insertAll_append] at hnext
  exact hloop pending [] rfl

/-! ## Updates -/

/-- An update appends a later state of an entry. -/
structure Update.Revises (j : Journal τ) (u : Update) (old e : Entry τ) : Prop where
  journaled : old ∈ j.entries
  follows : old.Follows e
  id : e.id = u.id
  phase : e.phase = u.phase
  attempts : e.attempts = old.attempts + u.attempt.toNat

theorem revise_eq_ok {j : Journal τ} {state state' : List String × List (Entry τ)} {u : Update}
    (h : j.revise state u = .ok state') : ∃ old e, u.Revises j old e ∧ u.id ∉ state.1 ∧
      state' = (u.id :: state.1, state.2 ++ [e]) := by
  simp only [revise, bind_eq_ok, refuse_eq_ok, okOr_eq_ok, Bool.not_eq_false] at h
  obtain ⟨_, hids, old, hfind, _, hallowed, attempts, hattempts, hout⟩ := h
  cases hout
  obtain ⟨hmem, hid⟩ := Table.find_eq_some.mp hfind
  -- the attempts grow by the flag
  have hgrow : attempts = old.attempts + u.attempt.toNat := by
    unfold addAttempt at hattempts
    cases hattempt : u.attempt <;> simp_all
  refine ⟨old, { old with phase := u.phase, attempts := attempts },
    ⟨hmem, ⟨rfl, hallowed, ?_⟩, hid, rfl, hgrow⟩, hids, rfl⟩
  have := u.attempt.toNat_le
  simp only [hgrow]
  omega

/-- The updates of a batch append later states of different entries. -/
theorem foldlM_revise {j : Journal τ} {updates : List Update}
    {state state' : List String × List (Entry τ)} (h : updates.foldlM j.revise state = .ok state') :
    ∃ batch, state'.2 = state.2 ++ batch ∧ (batch.map Entry.id).Nodup ∧ (∀ e ∈ batch, e.id ∉ state.1) ∧
      (∀ e ∈ batch, ∃ u ∈ updates, ∃ old, u.Revises j old e) ∧
      ∀ u ∈ updates, ∃ e ∈ batch, ∃ old, u.Revises j old e := by
  induction updates generalizing state with
  | nil =>
    cases h
    exact ⟨[], by simp⟩
  | cons u updates ih =>
    obtain ⟨mid, hstep, hrest⟩ := bind_eq_ok.mp h
    obtain ⟨old, e, hrevises, hnew, rfl⟩ := revise_eq_ok hstep
    obtain ⟨batch, hout, hnodup, hids, hall, hdone⟩ := ih hrest
    simp only [List.mem_cons, not_or] at hids
    refine ⟨e :: batch, by rw [hout, List.append_assoc]; rfl, ?_, ?_, ?_, ?_⟩
    · rw [List.map_cons, List.nodup_cons]
      refine ⟨fun hmem => ?_, hnodup⟩
      obtain ⟨x, hx, hxid⟩ := List.mem_map.mp hmem
      exact (hids x hx).1 (hxid.trans hrevises.id)
    · exact List.forall_mem_cons.mpr ⟨hrevises.id ▸ hnew, fun x hx => (hids x hx).2⟩
    · refine List.forall_mem_cons.mpr ⟨⟨u, List.mem_cons_self, old, hrevises⟩, fun x hx => ?_⟩
      obtain ⟨v, hv, hx⟩ := hall x hx
      exact ⟨v, List.mem_cons_of_mem _ hv, hx⟩
    · refine List.forall_mem_cons.mpr ⟨⟨e, List.mem_cons_self, old, hrevises⟩, fun v hv => ?_⟩
      obtain ⟨x, hx, hv⟩ := hdone v hv
      exact ⟨x, List.mem_cons_of_mem _ hx, hv⟩

/-- What `update_batch` comes to append. -/
theorem reviseBatch_eq_ok {j : Journal τ} {updates : List Update} {pending : List (Entry τ)}
    (h : j.reviseBatch updates = .ok pending) :
    (pending.map Entry.id).Nodup ∧ (∀ e ∈ pending, ∃ u ∈ updates, ∃ old, u.Revises j old e) ∧
      ∀ u ∈ updates, ∃ e ∈ pending, ∃ old, u.Revises j old e := by
  obtain ⟨_, -, h⟩ := bind_eq_ok.mp h
  obtain ⟨state, hfold, h⟩ := bind_eq_ok.mp h
  cases h
  obtain ⟨batch, hout, hnodup, -, hall⟩ := foldlM_revise hfold
  rw [hout, List.nil_append]
  exact ⟨hnodup, hall⟩

/-- Later states of different entries may be appended one after another. -/
theorem admitsAll_of_follows {crates : Crates} {entries : Entries τ} {batch : List (Entry τ)}
    (hall : ∀ e ∈ batch, ∃ old ∈ entries, old.Follows e) (hnodup : (batch.map Entry.id).Nodup) :
    AdmitsAll crates entries batch := by
  induction batch generalizing entries with
  | nil => trivial
  | cons e batch ih =>
    obtain ⟨⟨old, hold, hfollows⟩, hrest⟩ := List.forall_mem_cons.mp hall
    obtain ⟨hhead, htail⟩ := List.nodup_cons.mp hnodup
    refine ⟨.update old hold hfollows, ih (fun x hx => ?_) htail⟩
    obtain ⟨y, hy, hyx⟩ := hrest x hx
    have hne : y.id ≠ e.id := fun h => hhead (List.mem_map.mpr ⟨x, hx, hyx.id.trans h⟩)
    exact ⟨y, Table.mem_insert.mpr (.inr ⟨hy, hne⟩), hyx⟩

/-- A batch of updates may be appended one record after another, and adds no entry. -/
theorem reviseBatch_admits {j : Journal τ} {updates : List Update} {pending : List (Entry τ)}
    (h : j.reviseBatch updates = .ok pending) (crates : Crates) :
    Appendable crates j.entries pending ∧
      (j.entries.insertAll pending).rows.length = j.entries.rows.length := by
  obtain ⟨hnodup, hrevises, -⟩ := reviseBatch_eq_ok h
  have hall : ∀ e ∈ pending, ∃ old ∈ j.entries, old.Follows e := by
    intro e he
    obtain ⟨u, -, old, hold⟩ := hrevises e he
    exact ⟨old, hold.journaled, hold.follows⟩
  refine ⟨⟨admitsAll_of_follows hall hnodup, hnodup⟩, Table.length_insertAll_of_forall fun e he => ?_⟩
  obtain ⟨old, hold, hfollows⟩ := hall e he
  exact ⟨old, hold, hfollows.id.symm⟩

end StockMesh.Journal

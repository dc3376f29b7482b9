import StockMesh.Journal.Log
import StockMesh.Journal.Progress

/-! # Which records a journal appends

`Sound` is what the entries of a journal satisfy, and `Admits` says which record may follow them: a
prepared transaction whose identity, signature and resources are free and whose tranche is the next one
of its plan, or an entry again in a phase that the phase table allows. Sound entries stay sound under
admitted records (`Sound.insert`), one record after another, so that every prefix of a batch leaves
sound entries. -/

namespace StockMesh.Journal

open Host (Answer refuse refuse_of_not bounded bounded_eq_ok)

variable {τ : Type} (crates : Crates)

/-- What the entries of a journal satisfy. -/
structure Sound (entries : Entries τ) : Prop where
  economic : ∀ e ∈ entries, e.validateEconomicType crates = .ok ()
  signatures : ∀ e ∈ entries, ∀ e' ∈ entries, e.signature = e'.signature → e = e'
  resources : ∀ e ∈ entries, ∀ e' ∈ entries, e.phase.terminal = false → e'.phase.terminal = false →
    ∀ r ∈ e.resources, r ∈ e'.resources → e = e'
  plans : ∀ e ∈ entries, ∀ t intent, e.investment = some (t, intent) →
    ∃ c, t.plan.Stands crates entries.rows c

/-- A later state of an entry: only its phase and its attempts differ. -/
structure Entry.Follows (old e : Entry τ) : Prop where
  same : e = { old with phase := e.phase, attempts := e.attempts }
  allowed : old.phase.allows e.phase = true
  attempts : old.attempts ≤ e.attempts ∧ e.attempts ≤ old.attempts + 1

/-- A transaction that may be added. -/
structure Entry.Fresh (entries : Entries τ) (e : Entry τ) : Prop where
  id : entries.find e.id = none
  signature : ∀ e' ∈ entries, e'.signature ≠ e.signature
  phase : e.phase = .prepared
  attempts : e.attempts = 0
  distinct : e.resources.Nodup
  free : ∀ e' ∈ entries, e'.phase.terminal = false → ∀ r ∈ e'.resources, r ∉ e.resources
  economic : e.validateEconomicType crates = .ok ()
  admission : admission crates e entries.rows = .ok ()

/-- The records that may follow some entries. -/
inductive Admits (entries : Entries τ) (e : Entry τ) : Prop
  | insert (h : e.Fresh crates entries)
  | update (old : Entry τ) (h : old ∈ entries) (hfollows : old.Follows e)

theorem Phase.terminal_of_allows {old new : Phase} (h : old.allows new = true) :
    old.terminal = false := by
  cases old <;> simp_all [allows, terminal]

theorem Phase.terminal_eq_false {p : Phase} :
    p.terminal = false ↔ p ≠ .failed ∧ p ≠ .reconciled := by
  cases p <;> simp [terminal]

namespace Entry.Follows

variable {old e : Entry τ}

theorem id (h : old.Follows e) : e.id = old.id := by
  rw [h.same]

theorem signature (h : old.Follows e) : e.signature = old.signature := by
  rw [h.same]

theorem resources (h : old.Follows e) : e.resources = old.resources := by
  rw [h.same]

theorem investment (h : old.Follows e) : e.investment = old.investment := by
  rw [h.same]
  rfl

theorem economic (h : old.Follows e) :
    e.validateEconomicType crates = old.validateEconomicType crates := by
  rw [h.same]
  rfl

theorem terminal (h : old.Follows e) : old.phase.terminal = false :=
  Phase.terminal_of_allows h.allowed

end Entry.Follows

/-- The tranche of a fresh entry is the next one of its plan. -/
theorem admission_eq_ok {e : Entry τ} {prior : List (Entry τ)} {t : Tranche} {intent : Intent}
    (hinv : e.investment = some (t, intent)) : admission crates e prior = .ok () ↔
      t.validate crates intent = .ok () ∧ ∃ c r, t.plan.At crates prior c ∧ c.pending = none ∧
        c.start ≠ t.plan.allocations.length ∧ t.index = c.index ∧ t.range crates = .ok r ∧
        r.start = c.start := by
  simp only [admission, hinv, bind_eq_ok, refuse_eq_ok, not_not]
  constructor
  · rintro ⟨_, hvalid, ⟨progress, start⟩, hcursor, _, hready, r, hr, hstart⟩
    obtain ⟨c, hat, hprogress, hstart'⟩ := (Plan.cursor_eq_ok crates).mp hcursor
    subst hprogress hstart'
    refine ⟨hvalid, c, r, hat, ?_⟩
    unfold Cursor.progress at hready
    cases hpending : c.pending with
    | some k =>
      rw [hpending] at hready
      cases hready
    | none =>
      rw [hpending] at hready
      by_cases hcomplete : c.start = t.plan.allocations.length
      · simp [hcomplete] at hready
      · simp only [hcomplete, if_false, Progress.ready.injEq] at hready
        exact ⟨rfl, hcomplete, hready.symm, hr, hstart⟩
  · rintro ⟨hvalid, c, r, hat, hpending, hcomplete, hindex, hr, hstart⟩
    refine ⟨(), hvalid, _, (Plan.cursor_eq_ok crates).mpr ⟨c, hat, rfl, rfl⟩, (), ?_, r, hr, hstart⟩
    simp [Cursor.progress, hpending, hcomplete, hindex]

variable {crates} {entries : Entries τ} {e : Entry τ}

/-- The rows after a fresh entry. -/
theorem Entry.Fresh.rows_insert (h : e.Fresh crates entries) :
    (entries.insert e).rows.Perm (e :: entries.rows) :=
  Table.rows_insert_perm_of_new h.id

/-- The rows before and after an update differ in one entry. -/
theorem Entry.Follows.rows_insert {old : Entry τ} (h : old.Follows e) (hold : old ∈ entries) :
    ∃ rest, entries.rows.Perm (old :: rest) ∧ (entries.insert e).rows.Perm (e :: rest) := by
  refine ⟨_, Table.rows_perm_of_mem hold, ?_⟩
  simpa only [h.id] using entries.rows_insert_perm e

/-- Where the cursor of a plan stands, its tranches are in their places. -/
theorem Sound.stands_of_at (hsound : Sound crates entries) {plan : Plan} {c : Cursor}
    (hat : plan.At crates entries.rows c) : plan.Stands crates entries.rows c := by
  refine ⟨hat, fun x hx t intent r hinv hplan hr => ?_⟩
  obtain ⟨d, hd⟩ := hsound.plans x hx t intent hinv
  rw [hplan] at hd
  obtain rfl := hat.unique crates hd.toAt
  exact hd.seated x hx t intent r hinv hplan hr

/-- The plan of a fresh tranche stands after it. -/
theorem Sound.stands_next (hsound : Sound crates entries) (h : e.Fresh crates entries) {t : Tranche}
    {intent : Intent} (hinv : e.investment = some (t, intent)) :
    ∃ c, t.plan.Stands crates (entries.insert e).rows c := by
  obtain ⟨hvalid, c, r, hat, hpending, -, hindex, hr, hstart⟩ :=
    (admission_eq_ok crates hinv).mp h.admission
  obtain ⟨c', hc'⟩ :=
    (hsound.stands_of_at hat).cons_next crates hpending hinv hvalid hr hindex hstart
  exact ⟨c', hc'.perm crates h.rows_insert.symm⟩

/-- Every plan stands after a fresh entry. -/
theorem Sound.stands_fresh (hsound : Sound crates entries) (h : e.Fresh crates entries)
    {e' : Entry τ} (he' : e' ∈ entries.insert e) {t : Tranche} {intent : Intent}
    (hinv : e'.investment = some (t, intent)) :
    ∃ c, t.plan.Stands crates (entries.insert e).rows c := by
  obtain rfl | ⟨hmem, -⟩ := Table.mem_insert.mp he'
  · exact hsound.stands_next h hinv
  by_cases hsame : ∃ t' intent', e.investment = some (t', intent') ∧ t'.plan.id = t.plan.id
  · -- the admission has compared the plans of one identity
    obtain ⟨t', intent', hinv', hid⟩ := hsame
    obtain ⟨-, d, -, hat, -⟩ := (admission_eq_ok crates hinv').mp h.admission
    have hplan : t.plan = t'.plan := (hat.fits e' hmem t intent hinv hid.symm).1
    rw [hplan]
    exact hsound.stands_next h hinv'
  · obtain ⟨c, hc⟩ := hsound.plans e' hmem t intent hinv
    refine ⟨c, (hc.cons_other crates fun t' intent' hinv' hid => ?_).perm crates h.rows_insert.symm⟩
    exact hsame ⟨t', intent', hinv', hid⟩

theorem Entry.validate_of_economic {t : Tranche} {intent : Intent}
    (h : e.validateEconomicType crates = .ok ()) (hinv : e.investment = some (t, intent)) :
    t.validate crates intent = .ok () := by
  unfold Entry.validateEconomicType at h
  rw [hinv] at h
  obtain ⟨_, hvalid, -⟩ := bind_eq_ok.mp h
  exact hvalid

/-- Every plan stands after an update. -/
theorem Sound.stands_update (hsound : Sound crates entries) {old : Entry τ} (hold : old ∈ entries)
    (h : old.Follows e) {e' : Entry τ} (he' : e' ∈ entries.insert e) {t : Tranche} {intent : Intent}
    (hinv : e'.investment = some (t, intent)) :
    ∃ c, t.plan.Stands crates (entries.insert e).rows c := by
  obtain ⟨rest, hbefore, hafter⟩ := h.rows_insert hold
  -- an entry with this plan was there before
  obtain ⟨x, hx, hxinv⟩ : ∃ x ∈ entries, x.investment = some (t, intent) := by
    obtain rfl | ⟨hmem, -⟩ := Table.mem_insert.mp he'
    · exact ⟨old, hold, h.investment.symm.trans hinv⟩
    · exact ⟨e', hmem, hinv⟩
  obtain ⟨c, hc⟩ := hsound.plans x hx t intent hxinv
  have hc := hc.perm crates hbefore
  by_cases hsame : ∃ t' intent', old.investment = some (t', intent') ∧ t'.plan = t.plan
  · obtain ⟨t', intent', hinv', hplan⟩ := hsame
    rw [← hplan] at hc ⊢
    have hvalid := Entry.validate_of_economic (hsound.economic old hold) hinv'
    obtain ⟨r, hr⟩ := t'.range_of_validate crates hvalid
    obtain ⟨hfailed, hreconciled⟩ := Phase.terminal_eq_false.mp h.terminal
    obtain ⟨hready, hindex, hstart⟩ := hc.tail_pending crates hinv' hr hfailed hreconciled
    obtain ⟨c', hc'⟩ :=
      hready.cons_next crates rfl (h.investment.trans hinv') hvalid hr hindex hstart
    exact ⟨c', hc'.perm crates hafter.symm⟩
  · have hother : ∀ t' intent', old.investment = some (t', intent') → t'.plan ≠ t.plan :=
      fun t' intent' hinv' hplan => hsame ⟨t', intent', hinv', hplan⟩
    have hid : ∀ t' intent', e.investment = some (t', intent') → t'.plan.id ≠ t.plan.id := by
      intro t' intent' hinv' hid
      rw [h.investment] at hinv'
      exact hother t' intent' hinv' (hc.fits old List.mem_cons_self t' intent' hinv' hid).1
    exact ⟨c, ((hc.tail_other crates hother).cons_other crates hid).perm crates hafter.symm⟩

/-- What an admitted record shares with the entry of its identity, and not with the others. -/
theorem Admits.separate (hsound : Sound crates entries)
    (h : Admits crates entries e) {x : Entry τ} (hx : x ∈ entries) :
    (x.id = e.id → x.signature = e.signature ∧ x.resources = e.resources ∧
      x.phase.terminal = false) ∧
    (x.id ≠ e.id → x.signature ≠ e.signature ∧
      (x.phase.terminal = false → ∀ r ∈ x.resources, r ∉ e.resources)) := by
  cases h with
  | insert h =>
    refine ⟨fun hid => ?_, fun _ => ⟨h.signature x hx, h.free x hx⟩⟩
    exact absurd hid (Table.find_eq_none.mp h.id x hx)
  | update old hold h =>
    constructor
    · intro hid
      obtain rfl := Table.eq_of_key hx hold (hid.trans h.id)
      exact ⟨h.signature.symm, h.resources.symm, h.terminal⟩
    · intro hid
      have hne : x ≠ old := fun heq => hid (heq ▸ h.id.symm)
      rw [h.signature, h.resources]
      refine ⟨fun hsig => hne (hsound.signatures x hx old hold hsig), fun hlive r hr hr' => ?_⟩
      exact hne (hsound.resources x hx old hold hlive h.terminal r hr hr')

/-- Sound entries stay sound under an admitted record. -/
theorem Sound.insert (hsound : Sound crates entries) (h : Admits crates entries e) :
    Sound crates (entries.insert e) := by
  have hsep : ∀ x ∈ entries, _ := fun x hx => h.separate hsound hx
  refine ⟨?_, ?_, ?_, ?_⟩
  · intro x hx
    obtain rfl | ⟨hmem, -⟩ := Table.mem_insert.mp hx
    · cases h with
      | insert h => exact h.economic
      | update old hold h => exact (h.economic crates).trans (hsound.economic old hold)
    · exact hsound.economic x hmem
  · intro x hx y hy hxy
    obtain rfl | ⟨hxmem, hxid⟩ := Table.mem_insert.mp hx <;>
      obtain rfl | ⟨hymem, hyid⟩ := Table.mem_insert.mp hy
    · rfl
    · exact absurd hxy.symm ((hsep y hymem).2 hyid).1
    · exact absurd hxy ((hsep x hxmem).2 hxid).1
    · exact hsound.signatures x hxmem y hymem hxy
  · intro x hx y hy hxlive hylive r hrx hry
    obtain rfl | ⟨hxmem, hxid⟩ := Table.mem_insert.mp hx <;>
      obtain rfl | ⟨hymem, hyid⟩ := Table.mem_insert.mp hy
    · rfl
    · exact absurd hrx (((hsep y hymem).2 hyid).2 hylive r hry)
    · exact absurd hry (((hsep x hxmem).2 hxid).2 hxlive r hrx)
    · exact hsound.resources x hxmem y hymem hxlive hylive r hrx hry
  · intro x hx t intent hinv
    cases h with
    | insert h => exact hsound.stands_fresh h hx hinv
    | update old hold h => exact hsound.stands_update hold h hx hinv

theorem Sound.empty : Sound crates (.empty : Entries τ) :=
  ⟨fun _ h => absurd h (Table.notMem_empty _), fun _ h => absurd h (Table.notMem_empty _),
    fun _ h => absurd h (Table.notMem_empty _), fun _ h => absurd h (Table.notMem_empty _)⟩

/-! ## Histories -/

variable (crates) in
/-- Records that may follow one after another. -/
def AdmitsAll (entries : Entries τ) : List (Entry τ) → Prop
  | [] => True
  | e :: rest => Admits crates entries e ∧ AdmitsAll (entries.insert e) rest

theorem AdmitsAll.sound {records : List (Entry τ)} (hsound : Sound crates entries)
    (h : AdmitsAll crates entries records) : Sound crates (entries.insertAll records) := by
  induction records generalizing entries with
  | nil => exact hsound
  | cons e records ih => exact ih (hsound.insert h.1) h.2

theorem AdmitsAll.append {records more : List (Entry τ)} (h : AdmitsAll crates entries records)
    (h' : AdmitsAll crates (entries.insertAll records) more) :
    AdmitsAll crates entries (records ++ more) := by
  induction records generalizing entries with
  | nil => exact h'
  | cons e records ih => exact ⟨h.1, ih h.2 h'⟩

theorem AdmitsAll.take {records : List (Entry τ)} (h : AdmitsAll crates entries records) (k : ℕ) :
    AdmitsAll crates entries (records.take k) := by
  induction records generalizing entries k with
  | nil => simp [AdmitsAll]
  | cons e records ih =>
    cases k with
    | zero => trivial
    | succ k => exact ⟨h.1, ih h.2 k⟩

variable (crates) in
/-- A batch that may be appended: its records follow one after another, each of another entry. -/
structure Appendable (entries : Entries τ) (batch : List (Entry τ)) : Prop where
  admits : AdmitsAll crates entries batch
  distinct : (batch.map Entry.id).Nodup

theorem Appendable.nil : Appendable crates entries ([] : List (Entry τ)) := ⟨trivial, List.nodup_nil⟩

theorem Appendable.take {batch : List (Entry τ)} (h : Appendable crates entries batch) (k : ℕ) :
    Appendable crates entries (batch.take k) :=
  ⟨h.admits.take k, h.distinct.sublist ((List.take_sublist k batch).map _)⟩

/-- An entry is there after a batch, changed at most once. -/
theorem Appendable.follows {batch : List (Entry τ)} (h : Appendable crates entries batch)
    {old : Entry τ} (hold : old ∈ entries) :
    ∃ e ∈ entries.insertAll batch, e = old ∨ old.Follows e := by
  obtain ⟨hadmits, hdistinct⟩ := h
  induction batch generalizing entries with
  | nil => exact ⟨old, hold, .inl rfl⟩
  | cons x batch ih =>
    obtain ⟨hhead, htail⟩ := List.nodup_cons.mp hdistinct
    by_cases hid : old.id = x.id
    · -- no later record of the batch has this identity
      have hfollows : old.Follows x := by
        cases hadmits.1 with
        | insert h => exact absurd hid (Table.find_eq_none.mp h.id old hold)
        | update y hy h => exact Table.eq_of_key hold hy (hid.trans h.id) ▸ h
      refine ⟨x, ?_, .inr hfollows⟩
      have hfind := Table.find_insertAll_of_forall (t := entries.insert x) (l := batch) (k := x.id)
        fun y hy h => hhead (List.mem_map.mpr ⟨y, hy, h⟩)
      rw [Table.find_key (Table.mem_insert_self _ _)] at hfind
      exact (Table.find_eq_some.mp hfind).1
    · exact ih (Table.mem_insert.mpr (.inr ⟨hold, hid⟩)) hadmits.2 htail

end StockMesh.Journal

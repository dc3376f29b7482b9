import StockMesh.Journal.Crash

/-! # Reservations and identities

Whatever the run, the indexes of a journal are the ones that `open` would rebuild, a resource has one
holder, and identities and signatures correspond. An entry only changes its phase and its attempts, along
the phase table, whether a call changes it or a crash and a reopening do (`Advance`). -/

namespace StockMesh.Journal

open Host (Answer)

variable {τ : Type} {codec : Codec τ}

/-- The phases only advance: terminal ones stay, none returns to `Prepared`, and `Reconciled` comes after
`Finalized`. -/
theorem Entry.Follows.advances {old e : Entry τ} (h : old.Follows e) :
    old.phase.terminal = false ∧ e.phase ≠ .prepared ∧
      (e.phase = .reconciled → old.phase = .finalized) := by
  have hallowed := h.allowed
  revert hallowed
  cases old.phase <;> cases e.phase <;> decide

/-- What a call, or a crash and a reopening, may do to the entries and the reservations. -/
structure Advance (j j' : Journal τ) : Prop where
  /-- An entry stays, and only its phase and its attempts may change. -/
  kept : ∀ old ∈ j.entries, ∃ e ∈ j'.entries,
    e = { old with phase := e.phase, attempts := e.attempts } ∧
    (old.phase.terminal = true → e = old) ∧
    (e.phase = .prepared → old.phase = .prepared) ∧
    (e.phase = .reconciled → old.phase = .reconciled ∨ old.phase = .finalized)
  /-- A resource stays reserved until its holder is terminal. -/
  released : ∀ r id, j.reservations r = some id → j'.reservations r = some id ∨
    ∃ e ∈ j'.entries, e.id = id ∧ r ∈ e.resources ∧ e.phase.terminal = true

theorem advance_of {j j' : Journal τ} (hj : j.Indexed) (hj' : j'.Indexed)
    (h : ∀ old ∈ j.entries, ∃ e ∈ j'.entries, e = old ∨ old.Follows e) : Advance j j' where
  kept old hold := by
    obtain ⟨e, he, rfl | hfollows⟩ := h old hold
    · exact ⟨e, he, rfl, fun _ => rfl, fun h => h, .inl⟩
    · obtain ⟨hlive, hprepared, hreconciled⟩ := hfollows.advances
      refine ⟨e, he, hfollows.same, fun hterminal => ?_, fun h => absurd h hprepared,
        fun h => .inr (hreconciled h)⟩
      rw [hlive] at hterminal
      cases hterminal
  released r id hr := by
    obtain ⟨old, hold, hlive, hmem, rfl⟩ := (hj.reservations r id).mp hr
    obtain ⟨e, he, hchange⟩ := h old hold
    obtain ⟨hid, hres⟩ : e.id = old.id ∧ e.resources = old.resources := by
      obtain rfl | hfollows := hchange
      · exact ⟨rfl, rfl⟩
      · exact ⟨hfollows.id, hfollows.resources⟩
    cases hterminal : e.phase.terminal with
    | true => exact .inr ⟨e, he, hid, hres ▸ hmem, hterminal⟩
    | false => exact .inl ((hj'.reservations r old.id).mpr ⟨e, he, hterminal, hres ▸ hmem, hid⟩)

/-- The entries of a journal are there after a call, each changed at most once. -/
theorem Call.follows {j : Journal τ} {records : List (Entry τ)} {torn : List UInt8}
    (hj : Valid codec j records torn) (call : Call τ) :
    ∀ old ∈ j.entries, ∃ e ∈ (call.run codec j).2.entries, e = old ∨ old.Follows e := by
  have happend : Appendable codec.toCrates j.entries (call.handed codec j) :=
    call.appendable hj.indexed
  have hout := call.outcome hj
  generalize call.run codec j = out at hout
  intro old hold
  cases hout with
  | refused message hnone => exact ⟨old, hold, .inl rfl⟩
  | acknowledged j' records hvalid hready hclean hentries =>
    rw [hentries]
    exact happend.follows hold
  | torn message j' records torn m hm hvalid hready hpoisoned hentries =>
    rw [hentries]
    exact ⟨old, hold, .inl rfl⟩

/-- Only the file and the poisoning differ, and without I/O nothing does. -/
def Untouched (j j' : Journal τ) : Prop :=
  j' = { j with file := j'.file, poisoned := j'.poisoned } ∧ (j'.poisoned = j.poisoned → j' = j)

theorem Untouched.refl (j : Journal τ) : Untouched j j := ⟨rfl, fun _ => rfl⟩

theorem appendBatch_error {j j' : Journal τ} {io : Flush} {pending : List (Entry τ)}
    {message : String} (h : j.appendBatch codec io pending = (.error message, j')) :
    Untouched j j' := by
  unfold appendBatch at h
  split at h
  · obtain ⟨-, rfl⟩ := Prod.mk.inj h
    exact .refl _
  rename_i hready
  split at h
  · obtain ⟨-, rfl⟩ := Prod.mk.inj h
    exact .refl _
  split at h
  · obtain ⟨-, rfl⟩ := Prod.mk.inj h
    exact ⟨rfl, fun hsame => absurd hsame.symm hready⟩
  · cases (Prod.mk.inj h).1

theorem compact_error {j j' : Journal τ} {io : Swap} {message : String}
    (h : j.compact codec io = (.error message, j')) : Untouched j j' := by
  unfold compact at h
  split at h
  · obtain ⟨-, rfl⟩ := Prod.mk.inj h
    exact .refl _
  rename_i hready
  split at h
  · obtain ⟨-, rfl⟩ := Prod.mk.inj h
    exact .refl _
  split at h
  · obtain ⟨-, rfl⟩ := Prod.mk.inj h
    exact .refl _
  split at h
  · obtain ⟨-, rfl⟩ := Prod.mk.inj h
    exact ⟨rfl, fun hsame => absurd hsame.symm hready⟩
  · cases (Prod.mk.inj h).1

/-- A failed call changes the file at most, and then the journal asks for recovery. -/
theorem Call.run_error {j j' : Journal τ} {call : Call τ} {message : String}
    (h : call.run codec j = (.error message, j')) : Untouched j j' := by
  cases call with
  | insert pending io =>
    simp only [Call.run, insertBatch] at h
    split at h
    · obtain ⟨-, rfl⟩ := Prod.mk.inj h
      exact .refl _
    · exact appendBatch_error h
  | update updates io =>
    simp only [Call.run, updateBatch] at h
    split at h
    · obtain ⟨-, rfl⟩ := Prod.mk.inj h
      exact .refl _
    · exact appendBatch_error h
  | compact io =>
    cases hrun : j.compact codec io with
    | mk result j'' =>
      simp only [Call.run, hrun] at h
      obtain ⟨hresult, rfl⟩ := Prod.mk.inj h
      cases result with
      | error message' => exact compact_error hrun
      | ok saved => cases hresult

/-- A reopened journal has the entries of the crashed one, each changed at most once. -/
theorem Valid.reopened {j j' : Journal τ} {records : List (Entry τ)} {torn : List UInt8}
    (h : Valid codec j records torn) {capacity maxBytes : ℕ}
    (hopen : openJournal codec capacity maxBytes j.file = .ok j') : j'.Indexed ∧
      ∀ old ∈ j.entries, ∃ e ∈ j'.entries, e = old ∨ old.Follows e := by
  obtain ⟨-, -, -, -, -, hopened⟩ := (openJournal_eq_ok h.written h.sound_replay).mp hopen
  obtain ⟨more, happend, htold⟩ := h.ahead
  refine ⟨hopened.indexed, fun old hold => ?_⟩
  rw [hopened.entries, htold]
  exact happend.follows hold

/-! ## Whole runs -/

/-- A later state of an entry. -/
def Entry.Becomes : Entry τ → Entry τ → Prop := Relation.ReflTransGen Entry.Follows

theorem Entry.Becomes.kept {old e : Entry τ} (h : old.Becomes e) :
    e = { old with phase := e.phase, attempts := e.attempts } ∧
      (old.phase.terminal = true → e = old) ∧ (e.phase = .prepared → old.phase = .prepared) := by
  induction h with
  | refl => exact ⟨rfl, fun _ => rfl, fun h => h⟩
  | tail _ hstep ih =>
    obtain ⟨hsame, hterminal, hprepared⟩ := ih
    obtain ⟨hlive, hnot, -⟩ := hstep.advances
    refine ⟨?_, fun h => ?_, fun h => absurd h hnot⟩
    · rw [hstep.same, hsame]
    · rw [hterminal h, h] at hlive
      cases hlive

/-- The store still has the entry, maybe in a later state. -/
def Store.Carries (codec : Codec τ) (old : Entry τ) : Store τ → Prop
  | .running j => ∃ e ∈ j.entries, old.Becomes e
  | .down file => ∃ records torn, Written codec file records torn ∧
      Sound codec.toCrates (replay records) ∧ ∃ e ∈ replay records, old.Becomes e

theorem becomes_of {old x e : Entry τ} (h : old.Becomes x) (hnext : e = x ∨ x.Follows e) :
    old.Becomes e := by
  obtain rfl | hfollows := hnext
  · exact h
  · exact h.tail hfollows

theorem Store.Step.carries {s s' : Store τ} {old : Entry τ} (hstep : s.Step codec s')
    (hinv : s.Invariant codec) (h : s.Carries codec old) : s'.Carries codec old := by
  cases hstep with
  | opened file capacity maxBytes j hopen =>
    obtain ⟨records, torn, hwritten, hsound, e, he, hbecomes⟩ := h
    obtain ⟨-, -, -, -, -, hopened⟩ := (openJournal_eq_ok hwritten hsound).mp hopen
    exact ⟨e, by rwa [hopened.entries], hbecomes⟩
  | cut file capacity s hscan =>
    obtain ⟨records, torn, hwritten, hsound, hcarries⟩ := h
    refine ⟨records, [], ⟨?_, hwritten.bodies, hwritten.economic, torn_nil codec⟩, hsound, hcarries⟩
    obtain ⟨-, rfl⟩ := hwritten.scan_eq_ok.mp hscan
    rw [hwritten.take_frames, List.append_nil]
  | called j call =>
    obtain ⟨records, torn, hvalid⟩ := hinv
    obtain ⟨x, hx, hbecomes⟩ := h
    obtain ⟨e, he, hnext⟩ := call.follows hvalid x hx
    exact ⟨e, he, becomes_of hbecomes hnext⟩
  | crashed j =>
    obtain ⟨records, torn, hvalid⟩ := hinv
    obtain ⟨x, hx, hbecomes⟩ := h
    obtain ⟨more, happend, htold⟩ := hvalid.ahead
    obtain ⟨e, he, hnext⟩ := happend.follows hx
    exact ⟨records, torn, hvalid.written, hvalid.sound_replay, e, htold ▸ he,
      becomes_of hbecomes hnext⟩

/-- An entry stays through every run. -/
theorem carries_of_steps {s s' : Store τ} {old : Entry τ}
    (hsteps : Relation.ReflTransGen (Store.Step codec) s s') (hinv : s.Invariant codec)
    (h : s.Carries codec old) : s'.Invariant codec ∧ s'.Carries codec old := by
  induction hsteps with
  | refl => exact ⟨hinv, h⟩
  | tail _ hstep ih => exact ⟨hstep.invariant ih.1, hstep.carries ih.1 ih.2⟩

/-- Reservations and identities of every reachable journal, across its calls, a crash with a reopening,
and the rest of the run. -/
theorem journal_custody {j : Journal τ} (h : Reaches codec (.running j)) :
    rebuild j.entries.rows = .ok ⟨j.signatures, j.reservations⟩ ∧
    (∀ e ∈ j.entries, ∀ e' ∈ j.entries, e.phase.terminal = false → e'.phase.terminal = false →
      ∀ r ∈ e.resources, r ∈ e'.resources → e = e') ∧
    (∀ e ∈ j.entries, ∀ e' ∈ j.entries, e.id = e'.id ↔ e.signature = e'.signature) ∧
    (∀ call : Call τ, Advance j (call.run codec j).2) ∧
    (∀ (call : Call τ) message j', call.run codec j = (.error message, j') → Untouched j j') ∧
    (∀ capacity maxBytes j', openJournal codec capacity maxBytes j.file = .ok j' → Advance j j') ∧
    ∀ j', Relation.ReflTransGen (Store.Step codec) (.running j) (.running j') →
      ∀ old ∈ j.entries, ∃ e ∈ j'.entries,
        e = { old with phase := e.phase, attempts := e.attempts } ∧
        (old.phase.terminal = true → e = old) ∧ (e.phase = .prepared → old.phase = .prepared) := by
  obtain ⟨records, torn, hvalid⟩ := h.invariant
  refine ⟨hvalid.indexed.rebuild hvalid.sound, hvalid.sound.resources, fun e he e' he' => ?_,
    fun call => ?_, fun call message j' => Call.run_error, fun capacity maxBytes j' hopen => ?_,
    fun j' hsteps old hold => ?_⟩
  · exact ⟨fun hid => Table.eq_of_key he he' hid ▸ rfl,
      fun hsig => hvalid.sound.signatures e he e' he' hsig ▸ rfl⟩
  · obtain ⟨records', torn', hvalid'⟩ := call.valid hvalid
    exact advance_of hvalid.indexed hvalid'.indexed (call.follows hvalid)
  · obtain ⟨hindexed, hfollows⟩ := hvalid.reopened hopen
    exact advance_of hvalid.indexed hindexed hfollows
  · have hcarries : Store.Carries codec old (.running j) := ⟨old, hold, .refl⟩
    obtain ⟨-, e, he, hbecomes⟩ := carries_of_steps hsteps ⟨records, torn, hvalid⟩ hcarries
    exact ⟨e, he, hbecomes.kept⟩

theorem journal_custody_example :
    rebuild exampleJournal.entries.rows =
      .ok ⟨exampleJournal.signatures, exampleJournal.reservations⟩ ∧
    Advance exampleJournal ((Call.update [⟨"trade", .failed, false⟩] .done).run plainCodec
      exampleJournal).2 :=
  have h := journal_custody reaches_example
  ⟨h.1, h.2.2.2.1 _⟩

end StockMesh.Journal

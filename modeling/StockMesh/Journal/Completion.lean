import StockMesh.Journal.Crash

/-! # Recording an outcome

Whether the outcome of an entry can still be recorded after a compaction depends on the room that the log
and the record bound leave (`outcome_recorded_iff`). Admission does not keep that room free. -/

namespace StockMesh.Journal

open Host (Answer bounded)

variable {τ : Type} {codec : Codec τ}

/-- The entry after an update. -/
def Entry.updated (e : Entry τ) (phase : Phase) (attempt : Bool) : Entry τ :=
  { e with phase := phase, attempts := e.attempts + attempt.toNat }

variable (codec) in
/-- The compacted log and the record of the outcome fit. -/
structure Room (j : Journal τ) (e : Entry τ) (phase : Phase) (attempt : Bool) : Prop where
  ready : j.poisoned = false
  records : Bodies codec 0 j.entries.rows
  record : (codec.encode (j.entries.rows.length + 1) (e.updated phase attempt)).length ≤ maxRecord
  log : (frames codec 0 j.entries.rows).length +
    (8 + (codec.encode (j.entries.rows.length + 1) (e.updated phase attempt)).length) ≤ j.maxBytes
  attempts : attempt = true → e.attempts + 1 < u32Size

/-- One allowed update is refused for the number of attempts only. -/
theorem reviseBatch_single {j : Journal τ} {e : Entry τ} (he : e ∈ j.entries) {phase : Phase}
    (hallowed : e.phase.allows phase = true) (attempt : Bool) {pending : List (Entry τ)} :
    j.reviseBatch [⟨e.id, phase, attempt⟩] = .ok pending ↔
      (attempt = true → e.attempts + 1 < u32Size) ∧ pending = [e.updated phase attempt] := by
  have hfind : j.entries.find e.id = some e := Table.find_key he
  have hfold : j.reviseBatch [⟨e.id, phase, attempt⟩] =
      (addAttempt attempt e.attempts >>= fun attempts =>
        .ok [{ e with phase := phase, attempts := attempts }]) := by
    cases hadd : addAttempt attempt e.attempts <;>
      simp [reviseBatch, revise, Host.refuse, hfind, okOr, hallowed, hadd]
  rw [hfold]
  cases attempt with
  | false =>
    simp [addAttempt, Entry.updated, eq_comm]
  | true =>
    by_cases hsmall : e.attempts + 1 < u32Size
    · simp [addAttempt, bounded, hsmall, Entry.updated, eq_comm]
    · simp [addAttempt, bounded, hsmall]

/-- `append_batch` with a working disk writes exactly the batches that fit. -/
theorem appendBatch_done {j : Journal τ} {pending : List (Entry τ)} (hready : j.poisoned = false) :
    (j.appendBatch codec .done pending).1 = .ok () ↔
      ∃ state, pending.foldlM (j.addRecord codec) (j.seq, []) = .ok state := by
  unfold appendBatch
  rw [hready, if_neg Bool.false_ne_true]
  cases pending.foldlM (j.addRecord codec) (j.seq, []) with
  | error message => simp
  | ok state => simp

/-- One allowed update is recorded, with a working disk, exactly when its record fits. -/
theorem updateBatch_done {j : Journal τ} {e : Entry τ} (he : e ∈ j.entries) {phase : Phase}
    (hallowed : e.phase.allows phase = true) (attempt : Bool) (hready : j.poisoned = false)
    (hseq : j.seq + 1 < u64Size) (hfit : j.bytes ≤ j.maxBytes) :
    (j.updateBatch codec .done [⟨e.id, phase, attempt⟩]).1 = .ok () ↔
      (attempt = true → e.attempts + 1 < u32Size) ∧
      (codec.encode (j.seq + 1) (e.updated phase attempt)).length ≤ maxRecord ∧
      j.bytes + (8 + (codec.encode (j.seq + 1) (e.updated phase attempt)).length) ≤ j.maxBytes := by
  have hrevise := fun pending => @reviseBatch_single _ j e he phase hallowed attempt pending
  have hsize : j.bytes + ([] : List UInt8).length ≤ j.maxBytes := hfit
  unfold updateBatch
  split
  · rename_i message hfailed
    constructor
    · intro hok
      cases hok
    · rintro ⟨hattempts, -⟩
      rw [(hrevise _).mpr ⟨hattempts, rfl⟩] at hfailed
      cases hfailed
  · rename_i pending hpending
    obtain ⟨hattempts, rfl⟩ := (hrevise _).mp hpending
    rw [appendBatch_done hready]
    simp only [foldlM_addRecord (Nat.lt_of_succ_lt hseq) hsize, exists_and_left, exists_eq, and_true,
      List.length_singleton, Bodies, frames, List.append_nil, List.nil_append, length_frame, hseq,
      true_and]
    exact ⟨fun hfits => ⟨hattempts, hfits⟩, fun hfits => hfits.2⟩

/-- The journal after a compaction. -/
def compacted (codec : Codec τ) (j : Journal τ) : Journal τ :=
  { j with
    file := frames codec 0 j.entries.rows
    bytes := (frames codec 0 j.entries.rows).length
    seq := j.entries.rows.length }

/-- `compact` with a working disk succeeds exactly when the entries fit. -/
theorem compact_done {j j' : Journal τ} (hbytes : j.maxBytes < u64Size) :
    (∃ saved, j.compact codec .done = (.ok saved, j')) ↔ j.poisoned = false ∧
      j.entries.rows.length < u64Size ∧ Bodies codec 0 j.entries.rows ∧
      (frames codec 0 j.entries.rows).length ≤ j.maxBytes ∧ j' = j.compacted codec := by
  unfold compact
  cases hpoisoned : j.poisoned with
  | true => simp
  | false =>
    rw [if_neg Bool.false_ne_true]
    cases hfold : j.entries.rows.foldlM (j.addCompacted codec) (0, []) with
    | error message =>
      have hno : ¬∃ state, j.entries.rows.foldlM (j.addCompacted codec) (0, []) = .ok state := by
        rintro ⟨state, hstate⟩
        rw [hfold] at hstate
        cases hstate
      simp only [Prod.mk.injEq, reduceCtorEq, false_and, exists_false, true_and, false_iff]
      rintro ⟨hlen, hbodies, hsize, -⟩
      exact hno ⟨_, (foldlM_addCompacted hbytes).mpr ⟨hlen, hbodies, hsize, rfl⟩⟩
    | ok state =>
      obtain ⟨hlen, hbodies, hsize, rfl⟩ := (foldlM_addCompacted hbytes).mp hfold
      simp [hlen, hbodies, hsize, compacted, hpoisoned, eq_comm]

/-- After a compaction the outcome of an entry is recorded, if the disk works, exactly when there is room
for it. -/
theorem outcome_recorded_iff {j : Journal τ} (h : Reaches codec (.running j)) {e : Entry τ}
    (he : e ∈ j.entries) {phase : Phase} (hallowed : e.phase.allows phase = true) (attempt : Bool) :
    (∃ saved j', j.compact codec .done = (.ok saved, j') ∧
      (j'.updateBatch codec .done [⟨e.id, phase, attempt⟩]).1 = .ok ()) ↔
    Room codec j e phase attempt := by
  obtain ⟨records, torn, hvalid⟩ := h.invariant
  have hbytes := hvalid.bounds.maxBytes_lt
  have hlength : j.entries.rows.length + 1 < u64Size := by
    obtain ⟨more, -, htold⟩ := hvalid.ahead
    have hmono := j.entries.length_le_insertAll more
    have hroom := hvalid.room
    have hcapacity := hvalid.bounds.2.1
    have hsize : u64Size = 18446744073709551616 := rfl
    rw [htold] at hroom
    omega
  have hupdate : j.poisoned = false → (frames codec 0 j.entries.rows).length ≤ j.maxBytes → _ :=
    fun hready hfit =>
      @updateBatch_done _ codec (j.compacted codec) e he phase hallowed attempt hready hlength hfit
  constructor
  · rintro ⟨saved, j', hcompact, hok⟩
    obtain ⟨hready, -, hbodies, hfit, rfl⟩ := (compact_done hbytes).mp ⟨saved, hcompact⟩
    obtain ⟨hattempts, hrecord, hlog⟩ := (hupdate hready hfit).mp hok
    exact ⟨hready, hbodies, hrecord, hlog, hattempts⟩
  · rintro ⟨hready, hbodies, hrecord, hlog, hattempts⟩
    have hfit : (frames codec 0 j.entries.rows).length ≤ j.maxBytes := by omega
    obtain ⟨saved, hcompact⟩ :=
      (compact_done hbytes).mpr ⟨hready, by omega, hbodies, hfit, rfl⟩
    exact ⟨saved, _, hcompact, (hupdate hready hfit).mpr ⟨hattempts, hrecord, hlog⟩⟩

theorem outcome_recorded_example :
    (∃ saved j', exampleJournal.compact plainCodec .done = (.ok saved, j') ∧
      (j'.updateBatch plainCodec .done [⟨exampleEntry.id, .submitted, true⟩]).1 = .ok ()) ↔
    Room plainCodec exampleJournal exampleEntry .submitted true :=
  outcome_recorded_iff reaches_example example_mem rfl true

/-- A transaction of 1000 bytes, once inserted, leaves a log of 4096 bytes no room for its outcome. -/
theorem outcome_without_room : ∃ (j : Journal Empty) (e : Entry Empty), Reaches plainCodec (.running j) ∧
    j.poisoned = false ∧ e ∈ j.entries ∧ e.phase.allows .submitted = true ∧
    ¬∃ saved j', j.compact plainCodec .done = (.ok saved, j') ∧
      (j'.updateBatch plainCodec .done [⟨e.id, .submitted, true⟩]).1 = .ok () := by
  refine ⟨exampleJournal, exampleEntry, reaches_example, example_inserted.2, example_mem, rfl, ?_⟩
  intro hrecorded
  have hlog := ((outcome_recorded_iff reaches_example example_mem rfl true).mp hrecorded).log
  have hrows : exampleJournal.entries.rows = [exampleEntry] := by
    rw [example_inserted.1]
    rfl
  rw [hrows, frames, frames_nil, List.append_nil, length_frame] at hlog
  revert hlog
  decide +kernel

end StockMesh.Journal

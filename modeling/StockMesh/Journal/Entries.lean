import StockMesh.Journal.Custody
import StockMesh.Journal.Sending

/-! # What all entries of a run satisfy

`Store.All` says that a property holds of every entry of a journal and of every entry that its file
tells, so that a crash keeps it. A call keeps it if the records that it appends have it (`All.call`). -/

namespace StockMesh.Journal

open Host (Answer Value)

variable {τ : Type} {codec : Codec τ} {P Q : Entry τ → Prop}

/-! ## Appended records -/

theorem staged_eq {j : Journal τ} {pending : List (Entry τ)} :
    j.staged codec pending = [] ∨ j.staged codec pending = pending := by
  unfold staged
  split
  · exact .inl rfl
  · split
    · exact .inr rfl
    · exact .inl rfl

theorem staged_of_ok {j j' : Journal τ} {io : Flush} {pending : List (Entry τ)}
    (h : j.appendBatch codec io pending = (.ok (), j')) : j.staged codec pending = pending := by
  unfold appendBatch at h
  unfold staged
  split at h
  · cases (Prod.mk.inj h).1
  · rename_i hready
    rw [if_neg hready]
    split at h
    · cases (Prod.mk.inj h).1
    · rename_i heq
      rw [heq]

/-- An update appends later states of the entries that it names. -/
theorem Call.handed_update {j : Journal τ} {updates : List Update} {io : Flush} {e : Entry τ}
    (h : e ∈ (Call.update updates io).handed codec j) :
    ∃ u ∈ updates, ∃ old, u.Revises j old e := by
  cases hrevise : j.reviseBatch updates with
  | error message =>
    simp only [Call.handed, hrevise] at h
    cases h
  | ok pending =>
    simp only [Call.handed, hrevise] at h
    obtain hnone | hall := @staged_eq _ codec j pending
    · rw [hnone] at h
      cases h
    · exact (reviseBatch_eq_ok hrevise).2.1 e (hall ▸ h)

/-- An acknowledged update appends a later state for each of its updates. -/
theorem Call.handed_update_of_ok {j j' : Journal τ} {updates : List Update} {io : Flush}
    (h : j.updateBatch codec io updates = (.ok (), j')) :
    (((Call.update updates io).handed codec j).map Entry.id).Nodup ∧
      ∀ u ∈ updates, ∃ e ∈ (Call.update updates io).handed codec j, ∃ old, u.Revises j old e := by
  cases hrevise : j.reviseBatch updates with
  | error message =>
    simp only [updateBatch, hrevise] at h
    cases (Prod.mk.inj h).1
  | ok pending =>
    simp only [updateBatch, hrevise] at h
    simp only [Call.handed, hrevise, staged_of_ok h]
    obtain ⟨hnodup, -, hall⟩ := reviseBatch_eq_ok hrevise
    exact ⟨hnodup, hall⟩

/-! ## Entries of a store -/

/-- All entries of a journal, and all that its file tells, have a property. -/
def Store.All (codec : Codec τ) (P : Entry τ → Prop) : Store τ → Prop
  | .running j => ∃ records torn, Valid codec j records torn ∧ (∀ e ∈ j.entries, P e) ∧
      ∀ e ∈ replay records, P e
  | .down file => ∃ records torn, Written codec file records torn ∧
      Sound codec.toCrates (replay records) ∧ ∀ e ∈ replay records, P e

theorem Store.All.mono {s : Store τ} (h : s.All codec P) (hPQ : ∀ e, P e → Q e) : s.All codec Q := by
  cases s with
  | running j =>
    obtain ⟨records, torn, hvalid, hentries, htold⟩ := h
    exact ⟨records, torn, hvalid, fun e he => hPQ e (hentries e he), fun e he => hPQ e (htold e he)⟩
  | down file =>
    obtain ⟨records, torn, hwritten, hsound, htold⟩ := h
    exact ⟨records, torn, hwritten, hsound, fun e he => hPQ e (htold e he)⟩

theorem Store.All.invariant {s : Store τ} (h : s.All codec P) : s.Invariant codec := by
  cases s with
  | running j =>
    obtain ⟨records, torn, hvalid, -⟩ := h
    exact ⟨records, torn, hvalid⟩
  | down file =>
    obtain ⟨records, torn, hwritten, hsound, -⟩ := h
    exact ⟨records, torn, hwritten, hsound⟩

theorem Store.All.crashed {j : Journal τ} (h : (Store.running j).All codec P) :
    (Store.down j.file).All codec P := by
  obtain ⟨records, torn, hvalid, -, htold⟩ := h
  exact ⟨records, torn, hvalid.written, hvalid.sound_replay, htold⟩

theorem Store.All.opened {file : List UInt8} (h : (Store.down file).All codec P)
    {capacity maxBytes : ℕ} {j : Journal τ}
    (hopen : openJournal codec capacity maxBytes file = .ok j) : (Store.running j).All codec P := by
  obtain ⟨records, torn, hwritten, hsound, htold⟩ := h
  obtain ⟨hbounds, hsize, hroom, rfl, rfl, hopened⟩ := (openJournal_eq_ok hwritten hsound).mp hopen
  refine ⟨records, [], hopened.valid hbounds hwritten hsound hsize hroom, ?_, htold⟩
  rw [hopened.entries]
  exact htold

theorem Store.All.cut {file : List UInt8} (h : (Store.down file).All codec P) {capacity : ℕ}
    {s : Scan τ} (hscan : scan codec capacity file ⟨.empty, 0, 0⟩ = .ok s) :
    (Store.down (file.take s.offset)).All codec P := by
  obtain ⟨records, torn, hwritten, hsound, htold⟩ := h
  refine ⟨records, [], ⟨?_, hwritten.bodies, hwritten.economic, torn_nil codec⟩, hsound, htold⟩
  obtain ⟨-, rfl⟩ := hwritten.scan_eq_ok.mp hscan
  rw [hwritten.take_frames, List.append_nil]

/-- A call keeps what the records that it appends have. -/
theorem Store.All.call {j : Journal τ} (h : (Store.running j).All codec P) (call : Call τ)
    (hnew : ∀ e ∈ call.handed codec j, P e) : (Store.running (call.run codec j).2).All codec P := by
  obtain ⟨records, torn, hvalid, hentries, htold⟩ := h
  have hout := call.outcome hvalid
  generalize call.run codec j = out at hout
  have hinsert : ∀ l : List (Entry τ), l ⊆ call.handed codec j →
      ∀ e ∈ j.entries.insertAll l, P e := fun l hl e he =>
    (Table.mem_of_mem_insertAll he).elim (hentries e) fun he => hnew e (hl he)
  cases hout with
  | refused message hnone => exact ⟨records, torn, hvalid, hentries, htold⟩
  | acknowledged j' records' hvalid' hready hclean hentries' =>
    have hall : ∀ e ∈ j'.entries, P e := hentries' ▸ hinsert _ (List.Subset.refl _)
    exact ⟨records', [], hvalid', hall, (hvalid'.clean hclean).2.1.symm ▸ hall⟩
  | torn message j' records' torn' m hm hvalid' hready hpoisoned hentries' htold' =>
    exact ⟨records', torn', hvalid', hentries'.symm ▸ hentries,
      htold'.symm ▸ hinsert _ (List.take_subset _ _)⟩

/-! ## Commits -/

theorem commit_steps (j : Journal τ) (io : Flush) (updates : List Update) :
    Relation.ReflTransGen (Store.Step codec) (.running j) (.running (j.commit codec io updates).2) := by
  unfold commit
  split
  · exact .refl
  · exact .single (.called j (.update updates io))

/-- A commit keeps what later states told by its updates keep. -/
theorem Store.All.commit {j : Journal τ} (h : (Store.running j).All codec P) (io : Flush)
    (updates : List Update)
    (hkeep : ∀ u ∈ updates, ∀ old e, u.Revises j old e → P old → P e) :
    (Store.running (j.commit codec io updates).2).All codec P := by
  unfold Journal.commit
  split
  · exact h
  · refine h.call (.update updates io) fun e he => ?_
    obtain ⟨u, hu, old, hrevises⟩ := Call.handed_update he
    obtain ⟨records, torn, hvalid, hentries, -⟩ := h
    exact hkeep u hu old e hrevises (hentries old hrevises.journaled)

/-- An acknowledged commit is on the disk. -/
theorem commit_eq_ok {j j' : Journal τ} {records : List (Entry τ)} {torn : List UInt8}
    (hvalid : Valid codec j records torn) {io : Flush} {updates : List Update}
    (h : j.commit codec io updates = (.ok (), j')) :
    (∀ u ∈ updates, ∃ e ∈ j'.entries, ∃ old, u.Revises j old e) ∧
      (updates ≠ [] → j'.poisoned = false) := by
  unfold commit at h
  split at h
  · next hnone =>
    rw [List.isEmpty_iff.mp hnone]
    exact ⟨fun u hu => absurd hu List.not_mem_nil, fun hne => absurd rfl hne⟩
  · have hout := (Call.update updates io).outcome hvalid
    obtain ⟨hnodup, hall⟩ := Call.handed_update_of_ok h
    rw [show (Call.update updates io).run codec j = (.ok (), j') from h] at hout
    cases hout with
    | acknowledged _ records' hvalid' hready hclean hentries =>
      refine ⟨fun u hu => ?_, fun _ => hclean⟩
      obtain ⟨e, he, hrevises⟩ := hall u hu
      exact ⟨e, hentries ▸ Table.mem_insertAll_of_mem hnodup he, hrevises⟩

/-- What a receipt records. -/
theorem recordReceipt_snd (j : Journal τ) (io : Flush) (id : String)
    (checked : Answer (Value × Bool)) : ∃ updates : List Update,
      (j.recordReceipt codec io id checked).2 = (j.commit codec io updates).2 ∧
      ∀ u ∈ updates, u.phase = .reconciled := by
  cases checked with
  | error message => exact ⟨[], rfl, fun u hu => absurd hu List.not_mem_nil⟩
  | ok receipt =>
    obtain ⟨receipt, fresh⟩ := receipt
    refine ⟨if fresh then [⟨id, .reconciled, false⟩] else [], rfl, fun u hu => ?_⟩
    split at hu
    · rw [List.mem_singleton.mp hu]
    · cases hu

/-- The entries of a clean journal are what its file tells. -/
theorem Valid.durable {j : Journal τ} {records : List (Entry τ)} {torn : List UInt8}
    (h : Valid codec j records torn) (hclean : j.poisoned = false) :
    ∃ j', openJournal codec j.capacity j.maxBytes j.file = .ok j' ∧ j'.entries = j.entries := by
  obtain ⟨j', hopen, hentries, -⟩ := h.reopens
  exact ⟨j', hopen, hentries.trans (h.clean hclean).2.1⟩

end StockMesh.Journal

import StockMesh.Journal.Recovery
import StockMesh.Journal.Json
import Mathlib.Logic.Relation

/-! # Runs with crashes

A `Store` is a running journal or the file that a crash has left. Whatever calls, failures, crashes and
reopenings come before, a running journal is valid and a file is recoverable (`Reaches.invariant`). -/

namespace StockMesh.Journal

variable {τ : Type}

/-- A running journal, or its file after a crash. -/
inductive Store (τ : Type)
  | running (j : Journal τ)
  | down (file : List UInt8)

/-- The steps of a run. A crash in the middle of an append or of a compaction is a torn call before
the crash. -/
inductive Store.Step (codec : Codec τ) : Store τ → Store τ → Prop
  | opened (file : List UInt8) (capacity maxBytes : ℕ) (j : Journal τ)
      (hopen : openJournal codec capacity maxBytes file = .ok j) :
      Store.Step codec (.down file) (.running j)
  /-- An `open` that cut the torn record and came no further. -/
  | cut (file : List UInt8) (capacity : ℕ) (s : Scan τ)
      (hscan : scan codec capacity file ⟨.empty, 0, 0⟩ = .ok s) :
      Store.Step codec (.down file) (.down (file.take s.offset))
  | called (j : Journal τ) (call : Call τ) :
      Store.Step codec (.running j) (.running (call.run codec j).2)
  | crashed (j : Journal τ) : Store.Step codec (.running j) (.down j.file)

/-- The stores of all runs from an empty file. -/
def Reaches (codec : Codec τ) (store : Store τ) : Prop :=
  Relation.ReflTransGen (Store.Step codec) (.down []) store

/-- A file that tells sound entries. -/
def Recoverable (codec : Codec τ) (file : List UInt8) : Prop :=
  ∃ records torn, Written codec file records torn ∧ Sound codec.toCrates (replay records)

variable {codec : Codec τ}

theorem Recoverable.opened {file : List UInt8} (h : Recoverable codec file) {capacity maxBytes : ℕ}
    {j : Journal τ} (hopen : openJournal codec capacity maxBytes file = .ok j) :
    ∃ records, Opened codec j records ∧ Valid codec j records [] ∧ j.capacity = capacity ∧
      j.maxBytes = maxBytes := by
  obtain ⟨records, torn, hwritten, hsound⟩ := h
  obtain ⟨hbounds, hsize, hroom, rfl, rfl, hopened⟩ := (openJournal_eq_ok hwritten hsound).mp hopen
  exact ⟨records, hopened, hopened.valid hbounds hwritten hsound hsize hroom, rfl, rfl⟩

theorem Valid.recoverable {j : Journal τ} {records : List (Entry τ)} {torn : List UInt8}
    (h : Valid codec j records torn) : Recoverable codec j.file :=
  ⟨records, torn, h.written, h.sound_replay⟩

/-- The file that `open` cuts tells the same records. -/
theorem Recoverable.cut {file : List UInt8} (h : Recoverable codec file) {capacity : ℕ} {s : Scan τ}
    (hscan : scan codec capacity file ⟨.empty, 0, 0⟩ = .ok s) :
    Recoverable codec (file.take s.offset) := by
  obtain ⟨records, torn, hwritten, hsound⟩ := h
  refine ⟨records, [], ⟨?_, hwritten.bodies, hwritten.economic, torn_nil codec⟩, hsound⟩
  obtain ⟨-, rfl⟩ := hwritten.scan_eq_ok.mp hscan
  rw [hwritten.take_frames, List.append_nil]

/-- What holds of every store of a run. -/
def Store.Invariant (codec : Codec τ) : Store τ → Prop
  | .running j => ∃ records torn, Valid codec j records torn
  | .down file => Recoverable codec file

theorem Call.valid {j : Journal τ} {records : List (Entry τ)} {torn : List UInt8}
    (h : Valid codec j records torn) (call : Call τ) :
    ∃ records torn, Valid codec (call.run codec j).2 records torn := by
  have hout := call.outcome h
  generalize call.run codec j = out at hout
  cases hout with
  | refused message hnone => exact ⟨records, torn, h⟩
  | acknowledged j' records hvalid => exact ⟨records, [], hvalid⟩
  | torn message j' records torn m hm hvalid => exact ⟨records, torn, hvalid⟩

theorem Store.Step.invariant {s s' : Store τ} (hstep : s.Step codec s') (h : s.Invariant codec) :
    s'.Invariant codec := by
  cases hstep with
  | opened file capacity maxBytes j hopen =>
    obtain ⟨records, -, hvalid, -, -⟩ := Recoverable.opened h hopen
    exact ⟨records, [], hvalid⟩
  | cut file capacity s hscan => exact Recoverable.cut h hscan
  | called j call =>
    obtain ⟨records, torn, hvalid⟩ := h
    exact call.valid hvalid
  | crashed j =>
    obtain ⟨records, torn, hvalid⟩ := h
    exact hvalid.recoverable

/-- Every reachable journal is valid, and every file recoverable. -/
theorem Reaches.invariant {store : Store τ} (h : Reaches codec store) : store.Invariant codec := by
  induction h with
  | refl =>
    refine ⟨[], [], ⟨rfl, trivial, fun e he => absurd he List.not_mem_nil, torn_nil codec⟩, ?_⟩
    exact Sound.empty
  | tail _ hstep ih => exact hstep.invariant ih

/-! ## Sessions -/

/-- A journal since it was opened: the records that came to be appended, in order, and how many of them
the last acknowledged call had behind it. -/
structure Session (τ : Type) where
  journal : Journal τ
  appended : List (Entry τ)
  acknowledged : ℕ

/-- A call in a session. -/
def Session.call (codec : Codec τ) (s : Session τ) (call : Call τ) : Session τ where
  journal := (call.run codec s.journal).2
  appended := s.appended ++ call.handed codec s.journal
  acknowledged :=
    if (call.run codec s.journal).1.isOk then
      (s.appended ++ call.handed codec s.journal).length
    else s.acknowledged

/-- The file of a session tells the entries after at least the acknowledged records. -/
structure Session.Durable (codec : Codec τ) (j : Journal τ) (s : Session τ) : Prop where
  valid : ∃ records torn m, Valid codec s.journal records torn ∧ s.acknowledged ≤ m ∧
    m ≤ s.appended.length ∧ replay records = j.entries.insertAll (s.appended.take m)
  capacity : s.journal.capacity = j.capacity
  maxBytes : s.journal.maxBytes = j.maxBytes
  clean : s.journal.poisoned = false → s.acknowledged = s.appended.length ∧
    s.journal.entries = j.entries.insertAll s.appended

/-- One call of a session. -/
theorem Session.Durable.call {j : Journal τ} {s : Session τ} (h : s.Durable codec j) (call : Call τ) :
    (s.call codec call).Durable codec j := by
  obtain ⟨⟨records, torn, m, hvalid, hack, hm, htold⟩, hcapacity, hbytes, hclean⟩ := h
  have hout := call.outcome hvalid
  unfold Session.call
  generalize hrun : call.run codec s.journal = out at hout
  cases hout with
  | refused message hnone =>
    rw [hnone, List.append_nil]
    exact ⟨⟨records, torn, m, hvalid, hack, hm, htold⟩, hcapacity, hbytes, hclean⟩
  | acknowledged j' records' hvalid' hready hclean' hentries hcapacity' hbytes' =>
    have hall : j'.entries =
        j.entries.insertAll (s.appended ++ call.handed codec s.journal) := by
      rw [hentries, (hclean hready).2, Table.insertAll_append]
    refine ⟨⟨records', [], _, hvalid', le_rfl, le_rfl, ?_⟩, hcapacity'.trans hcapacity,
      hbytes'.trans hbytes, fun _ => ⟨rfl, hall⟩⟩
    rw [(hvalid'.clean hclean').2.1, hall]
    simp only [Except.isOk, Except.toBool, if_true, List.take_length]
  | torn message j' records' torn' k hk hvalid' hready hpoisoned hentries htold' hcapacity' hbytes' =>
    obtain ⟨hackall, hall⟩ := hclean hready
    refine ⟨⟨records', torn', s.appended.length + k, hvalid', ?_, ?_, ?_⟩,
      hcapacity'.trans hcapacity, hbytes'.trans hbytes, fun hclean' => ?_⟩
    · simp only [Except.isOk, Except.toBool, Bool.false_eq_true, if_false, hackall]
      exact Nat.le_add_right _ _
    · rw [List.length_append]
      exact Nat.add_le_add_left hk _
    · rw [htold', hall, List.take_length_add_append, Table.insertAll_append]
    · simp only [hpoisoned] at hclean'
      cases hclean'

/-- All calls of a session. -/
theorem Session.Durable.calls {j : Journal τ} {s : Session τ} (h : s.Durable codec j)
    (calls : List (Call τ)) : (calls.foldl (Session.call codec) s).Durable codec j := by
  induction calls generalizing s with
  | nil => exact h
  | cons call calls ih => exact ih (h.call call)

/-- Whatever was called on an opened journal and wherever the disk stopped, the file opens again with
the same bounds, to the entries of a prefix of the appended records that has every acknowledged one. A
second opening changes nothing, and compaction changes no entry. -/
theorem journal_recovers {file : List UInt8} (hfile : Reaches codec (.down file))
    {capacity maxBytes : ℕ} {j : Journal τ}
    (hopen : openJournal codec capacity maxBytes file = .ok j) (calls : List (Call τ)) :
    let s := calls.foldl (Session.call codec) ⟨j, [], 0⟩
    (∃ m j', s.acknowledged ≤ m ∧ m ≤ s.appended.length ∧
      openJournal codec capacity maxBytes s.journal.file = .ok j' ∧
      j'.entries = j.entries.insertAll (s.appended.take m) ∧
      openJournal codec capacity maxBytes j'.file = .ok j') ∧
    ∀ saved j', s.journal.compact codec .done = (.ok saved, j') →
      ∃ j'', openJournal codec capacity maxBytes j'.file = .ok j'' ∧
        j''.entries = s.journal.entries := by
  intro s
  obtain ⟨records, hopened, hvalid, rfl, rfl⟩ := hfile.invariant.opened hopen
  have hstart : (⟨j, [], 0⟩ : Session τ).Durable codec j :=
    ⟨⟨records, [], 0, hvalid, le_rfl, le_rfl, hopened.entries.symm⟩, rfl, rfl, fun _ => ⟨rfl, rfl⟩⟩
  obtain ⟨⟨records', torn, m, hvalid', hack, hm, htold⟩, hcapacity, hbytes, -⟩ := hstart.calls calls
  obtain ⟨j', hopen', hentries, hagain⟩ := hvalid'.reopens
  rw [hcapacity, hbytes] at hopen' hagain
  refine ⟨⟨m, j', hack, hm, hopen', hentries.trans htold, hagain⟩, fun saved j₁ hcompact => ?_⟩
  -- the compacted journal is valid for its own records
  have hout := compact_outcome hvalid' .done
  rw [hcompact] at hout
  cases hout with
  | acknowledged _ records₁ hvalid₁ hready hclean₁ hentries₁ hcapacity₁ hbytes₁ =>
    obtain ⟨j₂, hopen₂, htold₂, -⟩ := hvalid₁.reopens
    rw [hcapacity₁, hbytes₁, hcapacity, hbytes] at hopen₂
    refine ⟨j₂, hopen₂, ?_⟩
    rw [htold₂, (hvalid₁.clean hclean₁).2.1, hentries₁, Table.insertAll_nil]

/-! ## An example -/

/-- A journal of one entry and 4096 bytes. -/
def exampleStart : Journal Empty :=
  ⟨[], .empty, fun _ => none, fun _ => none, 0, 0, 4096, 1, false⟩

theorem example_opens : openJournal plainCodec 1 4096 [] = .ok exampleStart := by
  have hwritten : Written plainCodec [] [] [] :=
    ⟨rfl, trivial, fun e he => absurd he List.not_mem_nil, torn_nil _⟩
  exact (openJournal_eq_ok hwritten Sound.empty).mpr ⟨⟨by decide, by decide, by decide, by decide⟩,
    by decide, by decide, rfl, rfl, rfl, rfl, .nil, rfl, rfl, rfl⟩

/-- A transaction of 1000 bytes. -/
def exampleEntry : Entry Empty where
  id := "trade"
  quoteId := none
  signature := "signature"
  wire := .replicate 1000 1
  messageHash := .replicate 32 7
  lastValidHeight := 1000
  resources := [.ofNat 5]
  expectedExposure := none
  expectedSwap := none
  expectedBasket := none
  phase := .prepared
  attempts := 0

/-- The journal after its insertion. -/
def exampleJournal : Journal Empty := ((Call.insert [exampleEntry] .done).run plainCodec exampleStart).2

theorem reaches_example : Reaches plainCodec (.running exampleJournal) :=
  (Relation.ReflTransGen.refl.tail (.opened [] 1 4096 exampleStart example_opens)).tail
    (.called exampleStart (.insert [exampleEntry] .done))

theorem example_inserted : exampleJournal.entries = Table.empty.insert exampleEntry ∧
    exampleJournal.poisoned = false := by
  have hgranted : exampleStart.admitBatch plainCodec [exampleEntry] = .ok () := rfl
  have hfold := (@foldlM_addRecord _ plainCodec exampleStart [exampleEntry] 0 [] _ (by decide)
    (by decide)).mpr ⟨by decide, ⟨by decide +kernel, trivial⟩, by
      rw [List.nil_append, frames, frames_nil, List.append_nil, length_frame]
      decide +kernel, rfl⟩
  have hinsert := (insert_handed rfl hgranted hfold).2
  have hrun : exampleJournal = (exampleStart.insertBatch plainCodec .done [exampleEntry]).2 := rfl
  rw [hrun, hinsert]
  exact ⟨rfl, rfl⟩

theorem example_mem : exampleEntry ∈ exampleJournal.entries := by
  rw [example_inserted.1]
  exact Table.mem_insert_self _ _

/-- A torn update of the example opens again. -/
theorem journal_recovers_torn :
    let s := [Call.insert [exampleEntry] .done,
      Call.update [⟨"trade", .submitted, true⟩] (.torn "no space left" 100)].foldl
        (Session.call plainCodec) ⟨exampleStart, [], 0⟩
    (∃ m j', s.acknowledged ≤ m ∧ m ≤ s.appended.length ∧
      openJournal plainCodec 1 4096 s.journal.file = .ok j' ∧
      j'.entries = exampleStart.entries.insertAll (s.appended.take m) ∧
      openJournal plainCodec 1 4096 j'.file = .ok j') ∧
    ∀ saved j', s.journal.compact plainCodec .done = (.ok saved, j') →
      ∃ j'', openJournal plainCodec 1 4096 j'.file = .ok j'' ∧ j''.entries = s.journal.entries :=
  journal_recovers .refl example_opens _

end StockMesh.Journal

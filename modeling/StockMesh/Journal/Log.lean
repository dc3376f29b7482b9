import StockMesh.Journal.Investment
import StockMesh.Foundation.Buffer
import Mathlib.Data.String.Basic

/-! # The journal of transactions

One file of numbered, checksummed records, and in memory the entry of every identity, the signatures
and the resources that entries hold. A batch of records is appended with one write and one flush. What
a failing disk or a crash leaves of an append is any prefix of it (`Flush.torn`), and a compacted file
takes the place of the old one at once or not at all (`Swap.torn`). -/

namespace StockMesh

open Host (Answer refuse bounded)

namespace Journal

/-- The encoding of records: functions of other crates, which read back what they wrote. -/
structure Codec (τ : Type) extends Crates where
  /-- `serde_json::to_vec` of a record. -/
  encode : ℕ → Entry τ → List UInt8
  /-- `serde_json::from_slice`. -/
  decode : List UInt8 → Answer (ℕ × Entry τ)
  decode_encode : ∀ seq e, decode (encode seq e) = .ok (seq, e)
  /-- `crc32fast::hash`. -/
  crc32 : List UInt8 → UInt32

/-- Largest body of a record. -/
def maxRecord : ℕ := 16 * 1024

/-- A record as it stands in the file: length, checksum and body. -/
def Codec.frame {τ : Type} (codec : Codec τ) (body : List UInt8) : List UInt8 :=
  Buffer.toBytes 4 body.length ++ Buffer.toBytes 4 (codec.crc32 body).toNat ++ body

/-- `Failed` and `Reconciled`, the phases that hold no resources. -/
def Phase.terminal : Phase → Bool
  | .failed | .reconciled => true
  | _ => false

/-- The transitions of `update_batch`. -/
def Phase.allows : Phase → Phase → Bool
  | .prepared, next | .submitted, next | .unknown, next =>
    next = .submitted || next = .unknown || next = .finalized || next = .failed
  | .finalized, next => next = .reconciled
  | _, _ => false

/-- `Entry::validate_economic_type`. -/
def Entry.validateEconomicType {τ : Type} (crates : Crates) (e : Entry τ) : Answer Unit := do
  match e.investment with
  | some (t, intent) => t.validate crates intent
  | none => .ok ()
  refuse (1 < e.expectedExposure.isSome.toNat + e.expectedSwap.isSome.toNat +
    e.expectedBasket.isSome.toNat) "journal ambiguous economic type"

/-- Entries in the order of their identities. -/
abbrev Entries (τ : Type) := Table (@Entry.id τ)

end Journal

/-- The journal of a running process, with the file it appends to. -/
structure Journal (τ : Type) where
  file : List UInt8
  entries : Journal.Entries τ
  signatures : String → Option String
  reservations : Key → Option String
  seq : ℕ
  bytes : ℕ
  maxBytes : ℕ
  capacity : ℕ
  poisoned : Bool

namespace Journal

/-- What becomes of a write and its flush. A failure leaves some bytes of the write. -/
inductive Flush
  | done
  | torn (message : String) (kept : ℕ)

/-- What becomes of a compaction: the new file replaces the old one, cannot be written, or one of the
two is found later. -/
inductive Swap
  | done
  | unwritten (message : String)
  | torn (message : String) (renamed : Bool)

/-- A change of one entry. -/
structure Update where
  id : String
  phase : Phase
  attempt : Bool

variable {τ : Type} (codec : Codec τ)

/-! ## Appending -/

/-- The reservations after one resource of an entry. -/
def holdResource (e : Entry τ) (reservations : Key → Option String) (resource : Key) :
    Key → Option String :=
  if e.phase.terminal then
    if reservations resource = some e.id then Function.update reservations resource none
    else reservations
  else Function.update reservations resource (some e.id)

/-- One entry of the index changes that follow an append. -/
def index (j : Journal τ) (e : Entry τ) : Journal τ :=
  { j with
    signatures := Function.update j.signatures e.signature (some e.id)
    reservations := e.resources.foldl (holdResource e) j.reservations
    entries := j.entries.insert e }

/-- One record of `append_batch`: the last number used and the bytes so far. -/
def addRecord (j : Journal τ) (state : ℕ × List UInt8) (e : Entry τ) :
    Answer (ℕ × List UInt8) := do
  let seq ← bounded u64Size (state.1 + 1) "sequence overflow"
  let body := codec.encode seq e
  refuse (maxRecord < body.length ∨ j.maxBytes < j.bytes + state.2.length + 8 + body.length)
    "journal disk budget"
  .ok (seq, state.2 ++ codec.frame body)

/-- `append_batch`. -/
def appendBatch (io : Flush) (pending : List (Entry τ)) (j : Journal τ) : Answer Unit × Journal τ :=
  if j.poisoned then (.error "journal requires recovery after I/O failure", j)
  else
    match pending.foldlM (j.addRecord codec) (j.seq, []) with
    | .error message => (.error message, j)
    | .ok (seq, record) =>
      match io with
      | .torn message kept =>
        (.error message, { j with poisoned := true, file := j.file ++ record.take kept })
      | .done =>
        (.ok (), pending.foldl index
          { j with file := j.file ++ record, bytes := j.bytes + record.length, seq := seq })

/-! ## Admission -/

/-- What earlier entries of a batch take. -/
structure Taken where
  ids : List String
  signatures : List String
  resources : List Key

/-- A resource is free and asked for once. -/
def takeResource (j : Journal τ) (taken : List Key) (resource : Key) : Answer (List Key) := do
  refuse ((j.reservations resource).isSome = true ∨ resource ∈ taken) "resource conflict"
  .ok (resource :: taken)

/-- One entry of `insert_batch`. -/
def admitEntry (j : Journal τ) (pending : List (Entry τ)) (taken : Taken) (e : Entry τ) :
    Answer Taken := do
  e.validateEconomicType codec.toCrates
  admission codec.toCrates e (j.entries.rows ++ pending.filter fun other => other.id ≠ e.id)
  refuse ((j.entries.find e.id).isSome = true ∨ e.id ∈ taken.ids) "duplicate intent"
  refuse ((j.signatures e.signature).isSome = true ∨ e.signature ∈ taken.signatures)
    "signed transaction already belongs to an intent"
  refuse (e.phase ≠ .prepared ∨ e.attempts ≠ 0) "new entry must be prepared without attempts"
  let resources ← e.resources.foldlM j.takeResource taken.resources
  .ok ⟨e.id :: taken.ids, e.signature :: taken.signatures, resources⟩

/-- The checks of `insert_batch`. -/
def admitBatch (j : Journal τ) (pending : List (Entry τ)) : Answer Unit := do
  refuse (pending = [] ∨ 64 < pending.length) "batch bounds"
  refuse (j.capacity < j.entries.rows.length + pending.length) "admission full"
  let _ ← pending.foldlM (j.admitEntry codec pending) ⟨[], [], []⟩
  .ok ()

/-- `insert_batch`. -/
def insertBatch (io : Flush) (pending : List (Entry τ)) (j : Journal τ) : Answer Unit × Journal τ :=
  match j.admitBatch codec pending with
  | .error message => (.error message, j)
  | .ok () => j.appendBatch codec io pending

/-! ## Updates -/

/-- The attempts after an update. -/
def addAttempt (attempt : Bool) (attempts : ℕ) : Answer ℕ :=
  if attempt then bounded u32Size (attempts + 1) "attempt overflow" else .ok attempts

/-- One update of `update_batch`: the identities updated and the entries to append. -/
def revise (j : Journal τ) (state : List String × List (Entry τ)) (u : Update) :
    Answer (List String × List (Entry τ)) := do
  refuse (u.id ∈ state.1) "duplicate update"
  let e ← okOr (j.entries.find u.id) "unknown intent"
  refuse (e.phase.allows u.phase = false) "invalid phase transition"
  let attempts ← addAttempt u.attempt e.attempts
  .ok (u.id :: state.1, state.2 ++ [{ e with phase := u.phase, attempts := attempts }])

/-- The checks of `update_batch`, with the entries to append. -/
def reviseBatch (j : Journal τ) (updates : List Update) : Answer (List (Entry τ)) := do
  refuse (updates = [] ∨ 64 < updates.length) "batch bounds"
  let (_, pending) ← updates.foldlM j.revise ([], [])
  .ok pending

/-- `update_batch`. -/
def updateBatch (io : Flush) (updates : List Update) (j : Journal τ) : Answer Unit × Journal τ :=
  match j.reviseBatch updates with
  | .error message => (.error message, j)
  | .ok pending => j.appendBatch codec io pending

/-! ## Compaction -/

/-- One record of `compact`. -/
def addCompacted (j : Journal τ) (state : ℕ × List UInt8) (e : Entry τ) :
    Answer (ℕ × List UInt8) := do
  let seq ← bounded u64Size (state.1 + 1) "sequence overflow"
  let body := codec.encode seq e
  let bytes ← bounded u64Size (state.2.length + (8 + body.length)) "size overflow"
  refuse (maxRecord < body.length ∨ j.maxBytes < bytes) "compaction bounds"
  .ok (seq, state.2 ++ codec.frame body)

/-- `compact`: the bytes saved. -/
def compact (io : Swap) (j : Journal τ) : Answer ℕ × Journal τ :=
  if j.poisoned then (.error "journal requires recovery after I/O failure", j)
  else
    match io with
    | .unwritten message => (.error message, j)
    | _ =>
      match j.entries.rows.foldlM (j.addCompacted codec) (0, []) with
      | .error message => (.error message, j)
      | .ok (seq, file) =>
        match io with
        | .torn message renamed =>
          (.error message, { j with poisoned := true, file := if renamed then file else j.file })
        | _ => (.ok (j.bytes - file.length),
          { j with file := file, bytes := file.length, seq := seq })

/-! ## Recovery -/

/-- What the records read so far tell. -/
structure Scan (τ : Type) where
  entries : Entries τ
  seq : ℕ
  offset : ℕ

/-- The record loop of `open`. It stops before an incomplete last record. -/
def scan (capacity : ℕ) (data : List UInt8) (s : Scan τ) : Answer (Scan τ) :=
  if _h : data.length < 8 then .ok s
  else do
    let n := Buffer.ofBytes (data.take 4)
    let checksum := Buffer.ofBytes ((data.drop 4).take 4)
    refuse (maxRecord < n) "invalid journal record size"
    if data.length - 8 < n then .ok s
    else do
      let body := (data.drop 8).take n
      refuse ((codec.crc32 body).toNat ≠ checksum) "journal checksum corruption"
      let (seq, e) ← codec.decode body
      e.validateEconomicType codec.toCrates
      refuse (seq ≠ s.seq + 1) "journal sequence corruption"
      let entries := s.entries.insert e
      refuse (capacity < entries.rows.length) "journal capacity"
      scan capacity (data.drop (8 + n)) ⟨entries, seq, s.offset + (8 + n)⟩
  termination_by data.length
  decreasing_by
    rw [List.length_drop]
    omega

/-- The plans of all entries must be prefixes. -/
def checkPlan (entries : List (Entry τ)) (plans : List String) (e : Entry τ) :
    Answer (List String) :=
  match e.investment with
  | none => .ok plans
  | some (t, _) =>
    if t.plan.id ∈ plans then .ok plans
    else do
      let _ ← t.plan.progress codec.toCrates entries
      .ok (t.plan.id :: plans)

/-- Signatures and reservations of a rebuilt index. -/
structure Index where
  signatures : String → Option String
  reservations : Key → Option String

/-- A resource of an entry is not reserved for another one. -/
def reserve (e : Entry τ) (reservations : Key → Option String) (resource : Key) :
    Answer (Key → Option String) := do
  refuse (∃ id ∈ reservations resource, id ≠ e.id) "overlapping durable reservations"
  .ok (Function.update reservations resource (some e.id))

/-- One entry of the index rebuild of `open`. -/
def rebuildEntry (index : Index) (e : Entry τ) : Answer Index := do
  refuse ((index.signatures e.signature).isSome = true)
    "one signature assigned to multiple intents"
  let signatures := Function.update index.signatures e.signature (some e.id)
  if e.phase.terminal then .ok ⟨signatures, index.reservations⟩
  else do
    let reservations ← e.resources.foldlM (reserve e) index.reservations
    .ok ⟨signatures, reservations⟩

/-- The index rebuild of `open`. -/
def rebuild (entries : List (Entry τ)) : Answer Index :=
  entries.foldlM rebuildEntry ⟨fun _ => none, fun _ => none⟩

/-- `Journal::open` on the content of the file. The file is cut where the records end. -/
def openJournal (capacity maxBytes : ℕ) (data : List UInt8) : Answer (Journal τ) := do
  refuse (capacity = 0 ∨ 4096 < capacity ∨ maxBytes < 4096 ∨ 64 * 1024 * 1024 < maxBytes)
    "journal bounds"
  refuse (maxBytes < data.length) "journal disk budget"
  let s ← scan codec capacity data ⟨.empty, 0, 0⟩
  let _ ← s.entries.rows.foldlM (checkPlan codec s.entries.rows) []
  let index ← rebuild s.entries.rows
  .ok {
    file := data.take s.offset
    entries := s.entries
    signatures := index.signatures
    reservations := index.reservations
    seq := s.seq
    bytes := s.offset
    maxBytes := maxBytes
    capacity := capacity
    poisoned := false }

/-! ## Calls -/

/-- A call on the journal, with what the disk does to it. -/
inductive Call (τ : Type)
  | insert (pending : List (Entry τ)) (io : Flush)
  | update (updates : List Update) (io : Flush)
  | compact (io : Swap)

/-- Make a call. -/
def Call.run : Call τ → Journal τ → Answer Unit × Journal τ
  | .insert pending io, j => j.insertBatch codec io pending
  | .update updates io, j => j.updateBatch codec io updates
  | .compact io, j => ((j.compact codec io).1.map fun _ => (), (j.compact codec io).2)

end Journal

end StockMesh

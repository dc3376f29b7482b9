import StockMesh.Journal.Crash
import StockMesh.Foundation.History
import StockMesh.Host.Value

/-! # Sending transactions

The sender carries signed transactions from the journal to a node and reads what became of them. A batch
reads the status of its transactions and the height of the chain, records every attempt in the journal
before any request leaves, sends in groups of four, and records the answers. `Process.Step` has one step
for each effect, so that a crash may come between any two of them. -/

namespace StockMesh.Journal

open Host (Answer refuse Value Rpc)

variable {τ : Type}

/-! ## Authorization -/

/-- A decoded message: what it serializes to, its number of signatures and its accounts. -/
structure Message where
  serialized : List UInt8
  numRequiredSignatures : ℕ
  staticAccountKeys : List Key

/-- Functions of other crates on signed transactions. -/
structure Signing where
  /-- `bincode` with the options of `authorize`. -/
  deserialize : List UInt8 → Answer Message
  /-- `verify_strict` of a signature by a key on a message, both read from bytes. -/
  verifyStrict : Key → List UInt8 → List UInt8 → Answer Unit
  /-- `bs58::encode`. -/
  base58 : List UInt8 → String

/-- What a wire is approved for. -/
structure Authorization where
  intentId : String
  messageHash : List UInt8
  lastValidHeight : ℕ
  resources : List Key

/-- `authorize`: the entry of an exact, signed wire. -/
def authorize (crates : Crates) (signing : Signing) (wire : List UInt8) (a : Authorization) :
    Answer (Entry τ) := do
  refuse (1232 < wire.length ∨ wire.length < 65 ∨ a.intentId = "" ∨ 128 < a.intentId.utf8ByteSize ∨
    64 < a.resources.length ∨ a.lastValidHeight = 0) "authorization bounds"
  let n := (wire.headD 0).toNat
  refuse (n < 1 ∨ 4 < n ∨ wire.length < 1 + n * 64) "signature count"
  let message := wire.drop (1 + n * 64)
  refuse (crates.sha256 message ≠ a.messageHash) "message differs from approved plan"
  let msg ← signing.deserialize message
  refuse (msg.serialized ≠ message ∨ msg.numRequiredSignatures ≠ n ∨ msg.staticAccountKeys.length < n)
    "noncanonical or invalid message"
  let verify := fun x : Key × ℕ =>
    signing.verifyStrict x.1 message ((wire.drop (1 + x.2 * 64)).take 64)
  (msg.staticAccountKeys.take n).zipIdx.forM verify
  .ok {
    id := a.intentId
    quoteId := none
    signature := signing.base58 ((wire.drop 1).take 64)
    wire := wire
    messageHash := a.messageHash
    lastValidHeight := a.lastValidHeight
    resources := a.resources
    expectedExposure := none
    expectedSwap := none
    expectedBasket := none
    phase := .prepared
    attempts := 0 }

/-! ## Reading a batch -/

/-- The phases of which a batch asks for the status. -/
def Phase.active : Phase → Bool
  | .finalized | .failed | .reconciled => false
  | _ => true

/-- One identity of a batch: the identities so far and their entries. -/
def gatherEntry (j : Journal τ) (state : List String × List (Entry τ)) (id : String) :
    Answer (List String × List (Entry τ)) := do
  refuse (id ∈ state.1) "duplicate sender intent"
  let e ← okOr (j.entries.find id) "unknown intent"
  .ok (id :: state.1, state.2 ++ [e])

/-- A journaled wire is still the authorized one. -/
def verifyEntry (crates : Crates) (signing : Signing) (x : Entry τ × ℕ) : Answer Unit := do
  let e := x.1
  let checked : Entry τ ← authorize crates signing e.wire
    ⟨e.id, e.messageHash, e.lastValidHeight, e.resources⟩
  refuse (checked.signature ≠ e.signature) "persisted signature/wire mismatch"

/-- The phase of a confirmation. -/
def confirmedPhase (err : Value) : String → Answer Phase
  | "finalized" => .ok (if err.isNull then .finalized else .failed)
  | "processed" | "confirmed" => .ok .submitted
  | _ => .error "invalid confirmation status"

/-- The phase of a status that is not null. -/
def statusPhase (status : Value) : Answer Phase := do
  let confirmation ← okOr (status.index "confirmationStatus").asStr "missing confirmation status"
  let err ← okOr (status.get "err") "missing execution status"
  confirmedPhase err confirmation

/-- A batch before its first effect. Entries are paired with their places in the batch. -/
structure Batch (τ : Type) where
  /-- The statuses that the node gave, by identity. -/
  statuses : List (String × Value) := []
  /-- The transactions that the node does not know. -/
  absent : List (Entry τ × ℕ) := []
  /-- The finalized height, where the batch asked for it. -/
  height : Option ℕ := none
  updates : List Update := []
  sends : List (Entry τ × ℕ) := []
  phases : List Phase

/-- One status of a batch. -/
def readStatus (b : Batch τ) (x : (Entry τ × ℕ) × Value) : Answer (Batch τ) :=
  if x.2.isNull then .ok { b with absent := b.absent ++ [x.1] }
  else do
    let phase ← statusPhase x.2
    .ok { b with
      updates := if phase ≠ x.1.1.phase then b.updates ++ [⟨x.1.1.id, phase, false⟩] else b.updates
      phases := b.phases.set x.1.2 phase }

/-- A transaction that the node does not know is sent: in a batch that may send, which has read the
finalized height. -/
def Entry.attempted (e : Entry τ) (maxAttempts : ℕ) (height : Option ℕ) : Bool :=
  height.any fun h => h ≤ e.lastValidHeight && e.attempts < maxAttempts

/-- One transaction that the node does not know. -/
def decideAbsent (maxAttempts : ℕ) (height : Option ℕ) (b : Batch τ) (x : Entry τ × ℕ) : Batch τ :=
  let attempt := x.1.attempted maxAttempts height
  { b with
    updates :=
      if attempt || x.1.phase ≠ .unknown then b.updates ++ [⟨x.1.id, .unknown, attempt⟩] else b.updates
    phases := b.phases.set x.2 .unknown
    sends := if attempt then b.sends ++ [x] else b.sends }

/-- The finalized height, where a batch may send. -/
def finalizedHeight (rpc : Rpc) (allowSend : Bool) : Answer (Option ℕ) :=
  if allowSend then do
    let response ← rpc.call "getBlockHeight" (.array [.object [("commitment", .string "finalized")]])
    let height ← okOr response.asU64 "missing block height"
    .ok (some height)
  else .ok none

/-- The statuses of some transactions. -/
def signatureStatuses (rpc : Rpc) (active : List (Entry τ × ℕ)) : Answer (List Value) := do
  let response ← rpc.call "getSignatureStatuses"
    (.array [.array (active.map fun x => .string x.1.signature),
      .object [("searchTransactionHistory", .bool true)]])
  let statuses ← okOr (response.index "value").asArray "missing status array"
  refuse (statuses.length ≠ active.length) "incomplete status array"
  .ok statuses

/-- The statuses of the active transactions of a batch. -/
def readStatuses (rpc : Rpc) (phases : List Phase) (active : List (Entry τ × ℕ)) :
    Answer (Batch τ) := do
  let statuses ← signatureStatuses rpc active
  let seen := (active.map fun x => x.1.id).zip statuses
  (active.zip statuses).foldlM readStatus { statuses := seen, phases := phases }

/-- The attempts of a batch that has read the statuses. -/
def decideAttempts (rpc : Rpc) (allowSend : Bool) (maxAttempts : ℕ) (b : Batch τ) :
    Answer (Batch τ) :=
  if b.absent.isEmpty then .ok b
  else do
    let height ← finalizedHeight rpc allowSend
    .ok (b.absent.foldl (decideAbsent maxAttempts height) { b with height := height })

/-- `progress_batch` before its first effect. -/
def prepareBatch (crates : Crates) (signing : Signing) (maxAttempts : ℕ) (rpc : Rpc)
    (allowSend : Bool) (ids : List String) (j : Journal τ) : Answer (Batch τ) := do
  refuse (ids = [] ∨ 64 < ids.length) "sender batch bounds"
  let (_, entries) ← ids.foldlM j.gatherEntry ([], [])
  let phases := entries.map Entry.phase
  let active := entries.zipIdx.filter fun x => x.1.phase.active
  if active.isEmpty then .ok { phases := phases }
  else do
    active.forM (verifyEntry crates signing)
    rpc.checkGenesis
    let b ← readStatuses rpc phases active
    decideAttempts rpc allowSend maxAttempts b

/-- `if !updates.is_empty() { update_batch }`. -/
def commit (codec : Codec τ) (io : Flush) (updates : List Update) (j : Journal τ) :
    Answer Unit × Journal τ :=
  if updates.isEmpty then (.ok (), j) else j.updateBatch codec io updates

/-! ## Receipts -/

/-- The entry of an identity. -/
def entryOf (j : Journal τ) (id : String) : Answer (Entry τ) := okOr (j.entries.find id) "unknown intent"

/-- The checks of `reconcile_basket`: the receipt, and whether it is to be recorded. `fetch` reads the
receipt from the node. -/
def basketReceipt (fetch : ExpectedBasket τ → Entry τ → Answer Value) (id : String) (j : Journal τ) :
    Answer (Value × Bool) := do
  let e ← j.entryOf id
  refuse ((e.phase ≠ .finalized ∧ e.phase ≠ .reconciled) ∨ e.expectedSwap.isSome = true ∨
    e.expectedExposure.isSome = true) "basket receipt not finalized or ambiguous"
  let expected ← okOr e.expectedBasket "basket expectation missing"
  let receipt ← fetch expected e
  .ok (receipt, e.phase ≠ .reconciled)

/-- The checks of `reconcile_exposure`. -/
def exposureReceipt (fetch : τ → Entry τ → Answer Value) (id : String) (j : Journal τ) :
    Answer (Value × Bool) := do
  let e ← j.entryOf id
  if e.phase = .reconciled then do
    let expected ← okOr e.expectedExposure "reconciled intent lacks economic expectation"
    let receipt ← fetch expected e
    .ok (receipt, false)
  else do
    refuse (e.phase ≠ .finalized) "economic receipt not finalized"
    let expected ← okOr e.expectedExposure "finalized intent lacks economic expectation"
    let receipt ← fetch expected e
    .ok (receipt, true)

/-- The checks of `reconcile_swap`. -/
def swapReceipt (fetch : τ → Entry τ → Answer Value) (id : String) (j : Journal τ) :
    Answer (Value × Bool) := do
  let e ← j.entryOf id
  refuse (e.phase ≠ .finalized ∧ e.phase ≠ .reconciled) "swap receipt not finalized"
  let expected ← okOr e.expectedSwap "finalized intent lacks swap expectation"
  let receipt ← fetch expected e
  .ok (receipt, e.phase ≠ .reconciled)

/-- Record a receipt, and return it. -/
def recordReceipt (codec : Codec τ) (io : Flush) (id : String) (checked : Answer (Value × Bool))
    (j : Journal τ) : Answer Value × Journal τ :=
  match checked with
  | .error message => (.error message, j)
  | .ok (receipt, fresh) =>
    let (result, j') := j.commit codec io (if fresh then [⟨id, .reconciled, false⟩] else [])
    (result.map fun _ => receipt, j')

/-- `reconcile_basket`. -/
def reconcileBasket (codec : Codec τ) (fetch : ExpectedBasket τ → Entry τ → Answer Value) (io : Flush)
    (id : String) (j : Journal τ) : Answer Value × Journal τ :=
  j.recordReceipt codec io id (j.basketReceipt fetch id)

/-- `reconcile_exposure`. -/
def reconcileExposure (codec : Codec τ) (fetch : τ → Entry τ → Answer Value) (io : Flush)
    (id : String) (j : Journal τ) : Answer Value × Journal τ :=
  j.recordReceipt codec io id (j.exposureReceipt fetch id)

/-- `reconcile_swap`. -/
def reconcileSwap (codec : Codec τ) (fetch : τ → Entry τ → Answer Value) (io : Flush)
    (id : String) (j : Journal τ) : Answer Value × Journal τ :=
  j.recordReceipt codec io id (j.swapReceipt fetch id)

/-! ## Steps -/

/-- A request to send a transaction. -/
structure Transmission where
  id : String
  wire : List UInt8
  signature : String
  deriving DecidableEq

/-- The request that sends an entry. -/
def Entry.transmission (e : Entry τ) : Transmission := ⟨e.id, e.wire, e.signature⟩

/-- What a run does, as its history tells it. -/
inductive Event (τ : Type)
  /-- A transaction that came to be appended. -/
  | inserted (e : Entry τ)
  /-- A batch after its reads, and whether it may send. -/
  | read (allowSend : Bool) (b : Batch τ)
  /-- The record of one more attempt of `e` is on the disk. -/
  | recorded (e : Entry τ)
  | transmitted (t : Transmission)
  /-- The answer of a batch. -/
  | returned (phases : List Phase)

/-- A batch whose attempts are recorded: the chunks to come, the threads of the running chunk with the
results of those that are done, and what the finished chunks told. -/
structure Sending (τ : Type) where
  later : List (Entry τ × ℕ)
  chunk : List ((Entry τ × ℕ) × Option Bool) := []
  acknowledged : List Update := []
  phases : List Phase

/-- A node answers a request with the signature. -/
def acknowledges (e : Entry τ) : Answer Value → Bool
  | .ok response => response.asStr = some e.signature
  | .error _ => false

/-- The result of one thread. -/
def Sending.joinThread (s : Sending τ) (x : (Entry τ × ℕ) × Option Bool) : Sending τ :=
  if x.2 = some true then
    { s with
      acknowledged := s.acknowledged ++ [⟨x.1.1.id, .submitted, false⟩]
      phases := s.phases.set x.1.2 .submitted }
  else s

/-- All threads of a chunk are joined. -/
def Sending.join (s : Sending τ) : Sending τ := s.chunk.foldl joinThread { s with chunk := [] }

/-- The sender between two effects, or the file that a crash has left. -/
inductive Process (τ : Type)
  | down (file : List UInt8)
  | idle (j : Journal τ)
  /-- A batch has read the node and records nothing yet. -/
  | ready (j : Journal τ) (b : Batch τ)
  | sending (j : Journal τ) (s : Sending τ)

/-- The journal of a running sender. -/
def Process.journal : Process τ → Option (Journal τ)
  | .down _ => none
  | .idle j | .ready j _ | .sending j _ => some j

/-- The steps of a run, with what they tell. The node answers a batch and each of its requests as it
likes, and the disk does what it likes with each record. -/
inductive Process.Step (codec : Codec τ) (signing : Signing) (maxAttempts : ℕ) :
    Process τ → List (Event τ) → Process τ → Prop
  | opened (file : List UInt8) (capacity maxBytes : ℕ) (j : Journal τ)
      (h : openJournal codec capacity maxBytes file = .ok j) : Step codec signing maxAttempts
      (.down file) [] (.idle j)
  | cut (file : List UInt8) (capacity : ℕ) (s : Scan τ)
      (h : scan codec capacity file ⟨.empty, 0, 0⟩ = .ok s) : Step codec signing maxAttempts
      (.down file) [] (.down (file.take s.offset))
  | crashed (p : Process τ) (j : Journal τ) (h : p.journal = some j) : Step codec signing maxAttempts
      p [] (.down j.file)
  | inserted (j : Journal τ) (pending : List (Entry τ)) (io : Flush) : Step codec signing maxAttempts
      (.idle j) (((Call.insert pending io).handed codec j).map .inserted)
      (.idle (j.insertBatch codec io pending).2)
  | compacted (j : Journal τ) (io : Swap) : Step codec signing maxAttempts
      (.idle j) [] (.idle (j.compact codec io).2)
  | reconciledBasket (j : Journal τ) (fetch : ExpectedBasket τ → Entry τ → Answer Value) (io : Flush)
      (id : String) : Step codec signing maxAttempts
      (.idle j) [] (.idle (j.reconcileBasket codec fetch io id).2)
  | reconciledExposure (j : Journal τ) (fetch : τ → Entry τ → Answer Value) (io : Flush)
      (id : String) : Step codec signing maxAttempts
      (.idle j) [] (.idle (j.reconcileExposure codec fetch io id).2)
  | reconciledSwap (j : Journal τ) (fetch : τ → Entry τ → Answer Value) (io : Flush)
      (id : String) : Step codec signing maxAttempts
      (.idle j) [] (.idle (j.reconcileSwap codec fetch io id).2)
  /-- `step_batch` (with `allowSend`) or `observe_batch` has read the node. -/
  | read (j : Journal τ) (rpc : Rpc) (allowSend : Bool) (ids : List String) (b : Batch τ)
      (h : j.prepareBatch codec.toCrates signing maxAttempts rpc allowSend ids = .ok b) :
      Step codec signing maxAttempts (.idle j) [.read allowSend b] (.ready j b)
  | recorded (j : Journal τ) (b : Batch τ) (io : Flush) (j' : Journal τ)
      (h : j.commit codec io b.updates = (.ok (), j')) : Step codec signing maxAttempts
      (.ready j b) (b.sends.map fun x => .recorded x.1)
      (.sending j' { later := b.sends, phases := b.phases })
  | unrecorded (j : Journal τ) (b : Batch τ) (io : Flush) (message : String) (j' : Journal τ)
      (h : j.commit codec io b.updates = (.error message, j')) : Step codec signing maxAttempts
      (.ready j b) [] (.idle j')
  /-- The next four requests. -/
  | spawned (j : Journal τ) (s : Sending τ) (h : s.chunk = []) : Step codec signing maxAttempts
      (.sending j s) []
      (.sending j { s with later := s.later.drop 4, chunk := (s.later.take 4).map fun x => (x, none) })
  | transmitted (j : Journal τ) (s : Sending τ) (i : ℕ) (x : Entry τ × ℕ) (response : Answer Value)
      (h : s.chunk[i]? = some (x, none)) : Step codec signing maxAttempts
      (.sending j s) [.transmitted x.1.transmission]
      (.sending j { s with chunk := s.chunk.set i (x, some (acknowledges x.1 response)) })
  /-- A request that the client refuses or a thread that dies before it. -/
  | lost (j : Journal τ) (s : Sending τ) (i : ℕ) (x : Entry τ × ℕ)
      (h : s.chunk[i]? = some (x, none)) : Step codec signing maxAttempts
      (.sending j s) [] (.sending j { s with chunk := s.chunk.set i (x, some false) })
  | joined (j : Journal τ) (s : Sending τ) (h : ∀ x ∈ s.chunk, x.2.isSome = true) :
      Step codec signing maxAttempts (.sending j s) [] (.sending j s.join)
  | acknowledged (j : Journal τ) (s : Sending τ) (io : Flush) (j' : Journal τ) (hlater : s.later = [])
      (hchunk : s.chunk = []) (h : j.commit codec io s.acknowledged = (.ok (), j')) :
      Step codec signing maxAttempts (.sending j s) [.returned s.phases] (.idle j')
  | unacknowledged (j : Journal τ) (s : Sending τ) (io : Flush) (message : String) (j' : Journal τ)
      (hlater : s.later = []) (hchunk : s.chunk = [])
      (h : j.commit codec io s.acknowledged = (.error message, j')) :
      Step codec signing maxAttempts (.sending j s) [] (.idle j')

/-- The runs from an empty file, with their histories. -/
def Delivers (codec : Codec τ) (signing : Signing) (maxAttempts : ℕ) :
    List (Event τ) → Process τ → Prop :=
  Tells (Process.Step codec signing maxAttempts) (.down [])

end StockMesh.Journal

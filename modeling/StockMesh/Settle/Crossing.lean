import StockMesh.Settle.Records

/-! # Crossing

Signed intents of several owners are matched by transfers between them. Opcodes 3 and 5 cross up to four
intents; opcode 5 also settles what is left of the first one with a residual graph. Nothing is moved
before every owner, nonce, balance and transfer has been checked, and at the end every owner must have
spent exactly its input and received its minimum. -/

namespace StockMesh.Settle

open Stateful

/-- A signed intent (`Intent`, and `CellIntent` of a cell). -/
structure Intent (n : ℕ) where
  owner : Fin n
  nonce : Fin n
  source : Fin n
  destination : Fin n
  inputMint : Fin n
  outputMint : Fin n
  inputProgram : Fin n
  outputProgram : Fin n
  sequence : ℕ
  input : ℕ
  minOut : ℕ
  beforeIn : ℕ
  beforeOut : ℕ

/-- `MAX_INTENTS`. -/
def maxIntents : ℕ := 4

/-- `MAX_TRANSFERS`. -/
def maxTransfers : ℕ := 8

/-- `INTENT_LEN`. -/
def intentLen : ℕ := 32

/-- Bytes of a transfer. -/
def transferLen : ℕ := 10

/-- A transfer between two intents, by their positions. -/
structure Crossed where
  source : ℕ
  destination : ℕ
  amount : ℕ
  deriving DecidableEq

section Intents

variable (program : ProgramId) {n : ℕ} (ledger : Ledger) (a : Accounts n)

/-- `checked`: the balance of an intent's input or output account. -/
def checkedIntent (i : Intent n) (input inspectMint : Bool) : Outcome ℕ :=
  if input then
    checkedAsset ledger a (a.key i.owner) (a.key i.source) (a.key i.inputMint) (a.key i.inputProgram)
      inspectMint
  else
    checkedAsset ledger a (a.key i.owner) (a.key i.destination) (a.key i.outputMint)
      (a.key i.outputProgram) inspectMint

/-- The accounts and amounts of an intent, without its balances. -/
def intentRow (d : Buffer) (n cursor : ℕ) : Outcome (Intent n) := do
  let s ← okOr (d.slice cursor intentLen) .bounds
  let owner ← accountIndex n (s.getD 0 0).toNat .bounds
  let nonce ← accountIndex n (s.getD 1 0).toNat .bounds
  let source ← accountIndex n (s.getD 2 0).toNat .bounds
  let destination ← accountIndex n (s.getD 3 0).toNat .bounds
  let inputMint ← accountIndex n (s.getD 4 0).toNat .bounds
  let outputMint ← accountIndex n (s.getD 5 0).toNat .bounds
  let inputProgram ← accountIndex n (s.getD 6 0).toNat .bounds
  let outputProgram ← accountIndex n (s.getD 7 0).toNat .bounds
  let sequence ← ad (u64At d (cursor + 8))
  let input ← ad (u64At d (cursor + 16))
  let minOut ← ad (u64At d (cursor + 24))
  .ok { owner, nonce, source, destination, inputMint, outputMint, inputProgram, outputProgram, sequence,
        input, minOut, beforeIn := 0, beforeOut := 0 }

/-- One intent with its signature, nonce and balances checked. -/
def readIntent (d : Buffer) (cursor : ℕ) : Outcome (Intent n) := do
  let i ← intentRow d n cursor
  need (a.isSigner (a.key i.owner) = true ∧ a.isWritable (a.key i.nonce) = true ∧
    (ledger (a.key i.nonce)).owner = program ∧ a.key i.inputMint ≠ a.key i.outputMint ∧ 0 < i.input ∧
    i.input ≤ maxInput ∧ 0 < i.minOut ∧ i.sequence < u64Size - 1) .identity
  checkNonce (ledger (a.key i.nonce)) (a.key i.owner) i.sequence
  let beforeIn ← checkedIntent ledger a i true true
  let beforeOut ← checkedIntent ledger a i false true
  need (i.input ≤ beforeIn) .bounds
  .ok { i with beforeIn, beforeOut }

/-- The intents, one behind the other. -/
def readIntents (d : Buffer) (count : ℕ) : Outcome (List (Intent n)) :=
  (List.range count).mapM fun j => readIntent program ledger a d (12 + j * intentLen)

end Intents

/-! ## Transfers between intents -/

section Transfers

variable {n : ℕ} (a : Accounts n) (intents : List (Intent n))

/-- The amounts that intents have sent and received so far, by position. -/
structure Crossings where
  sent : ℕ → ℕ := fun _ => 0
  received : ℕ → ℕ := fun _ => 0

/-- One transfer of the payload. -/
def readTransfer (d : Buffer) (cursor : ℕ) : Outcome Crossed := do
  let s ← okOr (d.slice cursor 2) .bounds
  let amount ← ad (u64At d (cursor + 2))
  .ok { source := (s.getD 0 0).toNat, destination := (s.getD 1 0).toNat, amount }

/-- The transfers, one behind the other. -/
def readTransfers (d : Buffer) (start count : ℕ) : Outcome (List Crossed) :=
  (List.range count).mapM fun j => readTransfer d (start + j * transferLen)

/-- One transfer goes between two intents that trade the same asset, within the sender's input. Only a cell
counts what is received; a crossing without the count stops at the input before that sum is too long. -/
def crossOne (crossings : Crossings) (t : Crossed) : Outcome Crossings := do
  need (t.source < intents.length ∧ t.destination < intents.length ∧ t.source ≠ t.destination ∧
    0 < t.amount) .bounds
  let src ← okOr intents[t.source]? .bounds
  let dst ← okOr intents[t.destination]? .bounds
  need (a.key src.inputMint = a.key dst.outputMint ∧ a.key src.inputProgram = a.key dst.outputProgram)
    .identity
  let sent ← checkedSum (crossings.sent t.source) t.amount .bounds
  let received ← checkedSum (crossings.received t.destination) t.amount .bounds
  need (sent ≤ src.input) .bounds
  .ok {
    sent := Function.update crossings.sent t.source sent
    received := Function.update crossings.received t.destination received }

/-- The loop over the transfers. -/
def crossAll (transfers : List Crossed) : Outcome Crossings :=
  transfers.foldlM (crossOne a intents) {}

variable {program : ProgramId} (venues : Venues program)

/-- The CPI of one transfer. -/
def crossTransfer (t : Crossed) : Step Unit := do
  let src ← lift (okOr intents[t.source]? .overflow)
  let dst ← lift (okOr intents[t.destination]? .overflow)
  transferChecked a venues src.source src.inputMint dst.destination src.owner src.inputProgram t.amount

/-- What an intent spent and received. -/
def intentDeltas (ledger : Ledger) (i : Intent n) : Outcome (ℕ × ℕ) := do
  let input ← checkedIntent ledger a i true false
  let input ← checkedSub i.beforeIn input .conservation
  let output ← checkedIntent ledger a i false false
  let output ← checkedSub output i.beforeOut .conservation
  need (input = i.input) .conservation
  need (i.minOut ≤ output) .minOut
  .ok (input, output)

end Transfers

/-! ## Opcodes 3 and 5 -/

section Clear

variable (program : ProgramId) {n : ℕ} (ledger : Ledger) (a : Accounts n)

/-- No balance and no nonce stands for two participants. -/
def SeparateIntents (intents : List (Intent n)) : Prop :=
  intents.Pairwise (fun x y => a.key x.owner ≠ a.key y.owner ∧ a.key x.nonce ≠ a.key y.nonce ∧
    a.key x.source ≠ a.key y.source ∧ a.key x.destination ≠ a.key y.destination) ∧
  ∀ x ∈ intents, ∀ y ∈ intents, a.key x.source ≠ a.key y.destination

instance (intents : List (Intent n)) : Decidable (SeparateIntents a intents) :=
  inferInstanceAs (Decidable (_ ∧ _))

/-- No leg of the graph names an account of the other intents. -/
def LegsAvoid (g : Graph n) (others : List (Intent n)) : Prop :=
  ∀ leg ∈ g.legs, ∀ i ∈ leg.accounts, ∀ other ∈ others,
    a.key other.owner ≠ a.key i ∧ a.key other.nonce ≠ a.key i ∧ a.key other.source ≠ a.key i ∧
      a.key other.destination ≠ a.key i

instance decidableLegsAvoid (g : Graph n) (others : List (Intent n)) : Decidable (LegsAvoid a g others) :=
  inferInstanceAs (Decidable (∀ _ ∈ _, _))

/-- The residual graph settles what is left of the first intent, and no leg touches the others. -/
def checkResidual (d : Buffer) (deadline : ℕ) (intents : List (Intent n)) (crossings : Crossings) :
    Outcome Unit := do
  let g ← ad (Graph.decode d n)
  let first ← okOr intents[0]? .overflow
  need ((first.owner : ℕ) = 0 ∧ (first.nonce : ℕ) = 1 ∧ g.assetCount = 2 ∧ g.sequence = first.sequence ∧
    g.input = first.input - crossings.sent 0 ∧ g.deadline ≤ deadline ∧
    tokenKey a g g.first = a.key first.source ∧ tokenKey a g g.sink = a.key first.destination ∧
    mintKey a g g.first = a.key first.inputMint ∧ mintKey a g g.sink = a.key first.outputMint) .identity
  need (LegsAvoid a g intents.tail) .identity

/-- A checked crossing. -/
structure Cross (n : ℕ) where
  external : Bool
  intents : List (Intent n)
  transfers : List Crossed
  residual : Buffer

/-- The checks of `clear` before the first transfer. -/
def checkCross (clock : Clock) (d : Buffer) : Outcome (Cross n) := do
  need (12 ≤ d.size ∧ (d.byte 0 = 3 ∨ d.byte 0 = 5) ∧ d.byte 3 = 0 ∧ n ≤ maxAccounts) .bounds
  let count := (d.byte 1).toNat
  let transferCount := (d.byte 2).toNat
  let external := decide (d.byte 0 = 5)
  let start := 12 + count * intentLen
  let transferEnd := start + transferCount * transferLen
  need ((2 ≤ count ∧ count ≤ maxIntents) ∧ (2 ≤ transferCount ∧ transferCount ≤ maxTransfers) ∧
    if external then transferEnd + 2 < d.size else d.size = transferEnd) .bounds
  let deadline ← ad (u64At d 4)
  need (clock.slot ≤ deadline) .expired
  let intents ← readIntents program ledger a d count
  need (SeparateIntents a intents) .identity
  let transfers ← readTransfers d start transferCount
  let crossings ← crossAll a intents transfers
  need (∀ p ∈ intents.zipIdx, if external ∧ p.2 = 0 then crossings.sent p.2 < p.1.input
    else crossings.sent p.2 = p.1.input) .conservation
  if external then do
    let length ← okOr (d.number transferEnd 2) .overflow
    need (d.size = transferEnd + 2 + length) .bounds
    checkResidual a (d.drop (transferEnd + 2)) deadline intents crossings
  else .ok ()
  .ok { external, intents, transfers, residual := d.drop (transferEnd + 2) }

end Clear

section Execute

variable (natives : Natives) {n : ℕ} (a : Accounts n) (clock : Clock) {program : ProgramId}
  (venues : Venues program)

/-- Check what an intent spent and received and write its nonce; the row of the receipt. -/
def recordIntent (i : Intent n) : Step (List UInt8) := do
  let s ← get
  let (input, output) ← lift (intentDeltas a s.ledger i)
  writeData (a.key i.nonce) 40 (Buffer.toBytes 8 (i.sequence + 1) ++ Buffer.toBytes 8 input ++
    Buffer.toBytes 8 output)
  pure (Buffer.toBytes 8 i.sequence ++ Buffer.toBytes 8 input ++ Buffer.toBytes 8 output)

/-- `clear`: opcodes 3 and 5. -/
def clearCrossing (d : Buffer) : Step Unit := do
  let s ← get
  let cross ← lift (checkCross program s.ledger a clock d)
  cross.transfers.forM (crossTransfer a cross.intents venues)
  if cross.external then settleGraph natives a clock venues cross.residual else pure ()
  let rows ← cross.intents.mapM (recordIntent a)
  -- SKEWNET1 or SKEWCOW1
  let tag := if cross.external then [83, 75, 69, 87, 78, 69, 84, 49] else [83, 75, 69, 87, 67, 79, 87, 49]
  setReturnData (tag ++ Buffer.toBytes 8 cross.intents.length ++ rows.flatten)

end Execute

end StockMesh.Settle

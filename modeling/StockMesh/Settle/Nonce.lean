import StockMesh.Settle.Records

/-! # Nonces and the two-venue settlement

`initializeNonce` creates the nonce of a wallet at sequence zero. `settle` is the settlement of a single
intent over one Phoenix book and one Raydium pool: a bounded immediate-or-cancel order first, then the
whole observed residual, both for exactly what the books quote. -/

namespace StockMesh.Settle

open Stateful

/-- The seed prefix of a nonce: the bytes of stocklana. -/
def nonceSeed : List UInt8 := [115, 116, 111, 99, 107, 108, 97, 110, 97]

/-- `PHOENIX_LOG`. -/
def phoenixLog : Key := .ofNat 0x61a861737cc9018c1f7e4591f3a864c6c8a14d6ccb04cd65ec7844e03e3bd932

section Initialize

variable (rt : Runtime) (program : ProgramId) {n : ℕ} (a : Accounts n)

/-- `initialize`: opcode 0. -/
def initializeNonce : Step Unit := do
  lift (need (n = 3) .bounds)
  let owner ← lift (accountIndex n 0 .overflow)
  let nonce ← lift (accountIndex n 1 .overflow)
  let system ← lift (accountIndex n 2 .overflow)
  lift (need (a.isSigner (a.key owner) = true ∧ a.isWritable (a.key owner) = true ∧
    a.isWritable (a.key nonce) = true) .identity)
  lift (need (a.key system = systemId) .identity)
  let s ← get
  lift (need (a.key nonce = rt.address [nonceSeed, (a.key owner).toList] ∧
    (s.ledger (a.key nonce)).data.size = 0 ∧ (s.ledger (a.key nonce)).owner = systemId) .identity)
  createAccount rt program (a.key owner) (a.key nonce) nonceLen
  writeFields (a.key nonce) [(0, nonceTag), (8, (a.key owner).toList)]

end Initialize

/-! ## Settlement over two venues -/

/-- `token_amount`: the amount of a token account without extensions. -/
def legacyAmount (d : Buffer) : AdapterResult ℕ := do
  accept (d.size = 165 ∧ d.byte 108 = 1) .layout
  u64At d 64

section Settle

variable (ledger : Ledger)

/-- `token`. -/
def legacyToken (account mint authority : Key) : Outcome ℕ := do
  need ((ledger account).owner = tokenId) .identity
  let data := (ledger account).data
  let m ← ad (keyAt data 0)
  need (m = mint) .identity
  let holder ← ad (keyAt data 32)
  need (holder = authority) .identity
  ad (legacyAmount data)

/-- `amount`. -/
def amountOf (account : Key) : Outcome ℕ := ad (legacyAmount (ledger account).data)

/-- The numbers of a settlement. -/
structure SettleCall where
  mode : UInt8
  sell : Bool
  limit : ℕ
  sequence : ℕ
  input : ℕ
  minOut : ℕ
  deadline : ℕ
  phoenixBudget : ℕ

/-- The instruction data of `settle`. -/
def settleCall (d : Buffer) : Outcome SettleCall := do
  let sequence ← ad (u64At d 4)
  let input ← ad (u64At d 12)
  let minOut ← ad (u64At d 20)
  let deadline ← ad (u64At d 28)
  let phoenixBudget ← ad (u64At d 36)
  let limit := (d.byte 3).toNat
  need ((1 ≤ d.byte 1 ∧ d.byte 1 ≤ 3) ∧ d.byte 2 ≤ 1 ∧ 0 < input ∧ input ≤ maxInput ∧ 0 < minOut ∧
    phoenixBudget ≤ input ∧ 1 ≤ limit ∧ limit ≤ maxMatches) .bounds
  .ok { mode := d.byte 1, sell := d.byte 2 = 1, limit, sequence, input, minOut, deadline, phoenixBudget }

variable (a : Accounts 19)

/-- The accounts that have to be writable and different (`WRITABLE`). -/
def settleWritable : List (Fin 19) := [1, 2, 3, 9, 10, 11, 15, 16, 17, 18]

/-- The token account a swap spends from. -/
def swapSource (sell : Bool) : Fin 19 := if sell then 2 else 3

/-- The token account a swap delivers to. -/
def swapDestination (sell : Bool) : Fin 19 := if sell then 3 else 2

/-- The CPI over listed accounts with the given writable positions and signer. -/
def listInstruction (program : Key) (accounts : List (Fin 19)) (writable : List ℕ) (signer : ℕ)
    (data : List UInt8) : Instruction where
  programId := program
  accounts := accounts.zipIdx.map fun p =>
    { key := a.key p.1, isSigner := decide (p.2 = signer), isWritable := writable.contains p.2 }
  data

variable (clock : Clock) {program : ProgramId} (venues : Venues program)

/-- `phoenix`: whether the order was sent. -/
def phoenix (sell : Bool) (input limit deadline : ℕ) : Step Bool := do
  let s ← get
  let id := venueProgram .phoenix
  lift (isProgram s.ledger (a.key 7) id)
  lift (need (a.key 8 = phoenixLog ∧ (s.ledger (a.key 9)).owner = id) .identity)
  let book ← lift (ad (PhoenixBook.decode (s.ledger (a.key 9)).data))
  let expected ← lift (ad (book.quote (a.key 0) sell input limit clock.slot clock.time))
  lift (need (book.header.baseMint = a.key 5 ∧ book.header.quoteMint = a.key 6 ∧
    book.header.baseVault = a.key 10 ∧ book.header.quoteVault = a.key 11) .identity)
  lift (need ((s.ledger (a.key 10)).owner = tokenId ∧ (s.ledger (a.key 11)).owner = tokenId) .identity)
  -- an order that would fill nothing is not sent
  if expected.input = 0 ∨ expected.output = 0 ∨
      input < (if sell then book.header.baseLot else book.header.quoteLot) then pure false else
  let bytes ← lift (ad (phoenixIoc book.header sell input limit deadline))
  let beforeIn ← lift (amountOf s.ledger (a.key (swapSource sell)))
  let beforeOut ← lift (amountOf s.ledger (a.key (swapDestination sell)))
  invokeLeg venues 0 (listInstruction a id [7, 8, 9, 0, 2, 3, 10, 11, 4] [2, 4, 5, 6, 7] 3
    (bytes.take phoenixIocLen))
  let s ← get
  let afterIn ← lift (amountOf s.ledger (a.key (swapSource sell)))
  lift (need (afterIn ≤ beforeIn ∧ beforeIn - afterIn = expected.input) .conservation)
  let afterOut ← lift (amountOf s.ledger (a.key (swapDestination sell)))
  lift (need (beforeOut ≤ afterOut ∧ afterOut - beforeOut = expected.output) .conservation)
  pure true

/-- `RAYDIUM_AUTH`. -/
def raydiumAuth : Key := .ofNat 0xeb00d9f5b292b4214ac7d037b4d6f06450b964600df373052bb5e84f2f8e9a67

/-- `raydium_swap`. -/
def raydiumSwap (amount minOut : ℕ) : List UInt8 :=
  [143, 190, 90, 218, 196, 30, 51, 222] ++ Buffer.toBytes 8 amount ++ Buffer.toBytes 8 minOut

/-- `raydium`. -/
def raydium (sell : Bool) (input : ℕ) : Step Unit := do
  let s ← get
  let id := venueProgram .raydiumCpmm
  lift (isProgram s.ledger (a.key 12) id)
  lift (need (a.key 13 = raydiumAuth ∧ (s.ledger (a.key 14)).owner = id ∧
    (s.ledger (a.key 15)).owner = id) .identity)
  let pool ← lift (ad (RaydiumPool.decode (s.ledger (a.key 15)).data clock.time))
  lift (need (pool.config = a.key 14 ∧ pool.observation = a.key 18 ∧
    (pool.mints 0 = a.key 5 ∧ pool.mints 1 = a.key 6) ∧
    (pool.vaults 0 = a.key 16 ∧ pool.vaults 1 = a.key 17) ∧
    (pool.tokenPrograms 0 = tokenId ∧ pool.tokenPrograms 1 = tokenId)) .identity)
  let balance₀ ← lift (legacyToken s.ledger (a.key 16) (a.key 5) raydiumAuth)
  let balance₁ ← lift (legacyToken s.ledger (a.key 17) (a.key 6) raydiumAuth)
  let exactOut ← lift (ad (pool.quote (s.ledger (a.key 14)).data (both balance₀ balance₁) sell input))
  let before ← lift (amountOf s.ledger (a.key (swapDestination sell)))
  let vaults := if sell then [16, 17] else [17, 16]
  let mints := if sell then [5, 6] else [6, 5]
  invokeLeg venues 1 (listInstruction a id
    ([0, 13, 14, 15, swapSource sell, swapDestination sell] ++ vaults ++ [4, 4] ++ mints ++ [18])
    [0, 3, 4, 5, 6, 7, 12] 0 (raydiumSwap input exactOut))
  let s ← get
  let after ← lift (amountOf s.ledger (a.key (swapDestination sell)))
  lift (need (before ≤ after ∧ after - before = exactOut) .conservation)

/-- What `settle` establishes before the first CPI. -/
structure SettleStart where
  call : SettleCall
  next : ℕ
  beforeIn : ℕ
  beforeOut : ℕ

/-- The checks of `settle` before the first CPI. -/
def settleStart (program : ProgramId) (d : Buffer) : Outcome SettleStart := do
  let call ← settleCall d
  need (a.isSigner (a.key 0) = true ∧ a.isWritable (a.key 0) = true ∧ a.isWritable (a.key 1) = true ∧
    (ledger (a.key 1)).owner = program) .identity
  checkNonce (ledger (a.key 1)) (a.key 0) call.sequence
  let next ← checkedSum call.sequence 1 .bounds
  need (clock.slot ≤ call.deadline ∧ 0 ≤ clock.unixTimestamp) .expired
  isProgram ledger (a.key 4) tokenId
  need ((ledger (a.key 5)).owner = tokenId ∧ (ledger (a.key 6)).owner = tokenId ∧ a.key 5 ≠ a.key 6)
    .identity
  need ((∀ i ∈ settleWritable, a.isWritable (a.key i) = true) ∧ (settleWritable.map a.key).Nodup)
    .identity
  let base ← legacyToken ledger (a.key 2) (a.key 5) (a.key 0)
  let quote ← legacyToken ledger (a.key 3) (a.key 6) (a.key 0)
  let beforeIn := if call.sell then base else quote
  let beforeOut := if call.sell then quote else base
  need (call.input ≤ beforeIn) .bounds
  .ok { call, next, beforeIn, beforeOut }

/-- The two CPIs: what Phoenix took, and the number of CPIs made. -/
def settleLegs (call : SettleCall) (beforeIn : ℕ) : Step (ℕ × ℕ) := do
  let filled ← if call.mode &&& 1 ≠ 0 ∧ 0 < call.phoenixBudget then
    phoenix a clock venues call.sell call.phoenixBudget call.limit call.deadline else pure false
  let s ← get
  let afterPhoenix ← lift (amountOf s.ledger (a.key (swapSource call.sell)))
  let spent ← lift (checkedSub beforeIn afterPhoenix .conservation)
  lift (need (spent ≤ call.input ∧ spent ≤ call.phoenixBudget) .conservation)
  let residual := call.input - spent
  if call.mode &&& 2 ≠ 0 ∧ 0 < residual then do
    raydium a clock venues call.sell residual
    pure (spent, filled.toNat + 1)
  else pure (spent, filled.toNat)

/-- `settle`: opcode 1. -/
def settle (d : Buffer) : Step Unit := do
  let s ← get
  let start ← lift (settleStart s.ledger a clock program d)
  let call := start.call
  let (spent, legs) ← settleLegs a clock venues call start.beforeIn
  let s ← get
  let afterIn ← lift (amountOf s.ledger (a.key (swapSource call.sell)))
  let actualIn ← lift (checkedSub start.beforeIn afterIn .conservation)
  let afterOut ← lift (amountOf s.ledger (a.key (swapDestination call.sell)))
  let actualOut ← lift (checkedSub afterOut start.beforeOut .conservation)
  lift (need (actualIn = call.input) .conservation)
  lift (need (call.minOut ≤ actualOut) .minOut)
  writeData (a.key 1) 40 (Buffer.toBytes 8 start.next ++ Buffer.toBytes 8 actualIn ++
    Buffer.toBytes 8 actualOut)
  setReturnData (Buffer.toBytes 8 call.sequence ++ Buffer.toBytes 8 actualIn ++
    Buffer.toBytes 8 actualOut ++ Buffer.toBytes 8 spent ++ Buffer.toBytes 8 legs)

end Settle

end StockMesh.Settle

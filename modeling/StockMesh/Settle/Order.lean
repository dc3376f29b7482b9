import StockMesh.Settle.Claim

/-! # Resting orders

An order account is the authority of an escrow that holds its stock, and records what is left, what was
received and how often it was used. `place` funds it, `validateFill` and `transferFill` serve a fill,
`recordFill` commits one after all CPIs, and `cancel` returns the rest and leaves the record as a
tombstone. -/

namespace StockMesh.Settle

open Stateful

/-- `TAG` of an order: the bytes of SKEWORD1. -/
def orderTag : List UInt8 := [83, 75, 69, 87, 79, 82, 68, 49]

/-- Length of an order account (`LEN`). -/
def orderLen : ℕ := 336

/-- The seed prefix of an order: the bytes of onebook. -/
def orderSeed : List UInt8 := [111, 110, 101, 98, 111, 111, 107]

/-- `OPEN`. -/
def openStatus : UInt8 := 1

/-- `CANCELLED`. -/
def cancelledStatus : UInt8 := 2

/-- A CPI that executes no leg of a graph. -/
def invokeToken {program : ProgramId} (venues : Venues program) (ix : Instruction) : Step Unit :=
  invokeLeg venues 0 ix

/-- Overwrite an account's data with zeros. -/
def zeroData (key : Key) : Step Unit := modify fun s =>
  let account := s.ledger key
  { s with
    ledger := Function.update s.ledger key
      { account with data := ⟨account.data.size, fun _ => 0⟩ } }

/-- The CPI of `transfer_checked`; the decimals are those of the mint. -/
def transferInstruction (ledger : Ledger) (source mint destination authority tokenProgram : Key)
    (amount : ℕ) : Outcome Instruction := do
  need (45 ≤ (ledger mint).data.size) .overflow
  .ok {
    programId := tokenProgram
    accounts := [⟨source, false, true⟩, ⟨mint, false, false⟩, ⟨destination, false, true⟩,
      ⟨authority, true, false⟩]
    data := [12] ++ Buffer.toBytes 8 amount ++ [(ledger mint).data.byte 44] }

/-- `ceil_q32`. -/
def ceilQ32 (value price : ℕ) : Outcome ℕ := do
  let product ← within u128Size (value * price) .bounds
  let sum ← within u128Size (product + (2 ^ 32 - 1)) .bounds
  within u64Size (sum / 2 ^ 32) .bounds

theorem ceilQ32_eq_ok {value price cash : ℕ} (h : ceilQ32 value price = .ok cash) :
    cash = (value * price + (2 ^ 32 - 1)) / 2 ^ 32 := by
  rw [ceilQ32, bind_eq_ok] at h
  obtain ⟨product, hproduct, h⟩ := h
  obtain ⟨sum, hsum, h⟩ := bind_eq_ok.mp h
  obtain ⟨-, rfl⟩ := within_eq_ok.mp hproduct
  obtain ⟨-, rfl⟩ := within_eq_ok.mp hsum
  exact (within_eq_ok.mp h).2.symm

section Transfer

variable {n : ℕ} (a : Accounts n) {program : ProgramId} (venues : Venues program)

/-- `transfer_checked`. -/
def transferChecked (source mint destination authority tokenProgram : Fin n) (amount : ℕ) :
    Step Unit := do
  let s ← get
  let ix ← lift (transferInstruction s.ledger (a.key source) (a.key mint) (a.key destination)
    (a.key authority) (a.key tokenProgram) amount)
  invokeToken venues ix

/-- The address of an order. -/
def orderAddress (rt : Runtime) (owner : Key) (nonce : ℕ) : Key :=
  rt.address [orderSeed, owner.toList, Buffer.toBytes 8 nonce]

/-- `transfer_checked_signed`: the order signs with its seeds. -/
def transferCheckedSigned (rt : Runtime) (source mint destination order tokenProgram owner : Fin n)
    (nonce amount : ℕ) : Step Unit := do
  let s ← get
  let ix ← lift (transferInstruction s.ledger (a.key source) (a.key mint) (a.key destination)
    (a.key order) (a.key tokenProgram) amount)
  lift (need (a.key order = orderAddress rt (a.key owner) nonce) .identity)
  invokeToken venues ix

end Transfer

/-- The fields of a new order. -/
structure NewOrder where
  owner : Key
  instrument : Key
  claim : Key
  cashMint : Key
  productMint : Key
  escrow : Key
  cashDestination : Key
  nonce : ℕ
  stock : ℕ
  minimumCashPerShare : ℕ
  expiresSlot : ℕ
  createdSlot : ℕ
  policyVersion : ℕ
  conversion : ConversionTerms

/-- The windows of a new order. The account field named after the policy holds the claim. -/
def NewOrder.fields (o : NewOrder) : List (ℕ × List UInt8) :=
  [(0, orderTag), (8, o.owner.toList), (40, o.instrument.toList), (72, o.claim.toList),
    (104, o.cashMint.toList), (136, o.productMint.toList), (168, o.escrow.toList),
    (200, o.cashDestination.toList), (232, Buffer.toBytes 8 o.nonce), (240, Buffer.toBytes 8 o.stock),
    (248, Buffer.toBytes 8 o.stock), (256, Buffer.toBytes 8 o.minimumCashPerShare),
    (264, Buffer.toBytes 8 o.expiresSlot), (272, Buffer.toBytes 8 0), (280, Buffer.toBytes 8 0),
    (288, Buffer.toBytes 8 o.createdSlot), (296, Buffer.toBytes 8 o.policyVersion),
    (312, Buffer.toBytes 8 o.conversion.numerator), (320, Buffer.toBytes 8 o.conversion.denominator),
    (304, [o.conversion.model]), (305, Buffer.toBytes 2 o.conversion.conservativeBps),
    (328, [openStatus])]

/-- The accounts of `place`. -/
structure PlaceAccounts (n : ℕ) where
  owner : Fin n
  order : Fin n
  source : Fin n
  escrow : Fin n
  cash : Fin n
  cashMint : Fin n
  productMint : Fin n
  productProgram : Fin n
  cashProgram : Fin n
  policy : Fin n
  claim : Fin n
  system : Fin n

/-- The first twelve accounts. -/
def placeAccounts (n : ℕ) : Outcome (PlaceAccounts n) := do
  let owner ← accountIndex n 0 .overflow
  let order ← accountIndex n 1 .overflow
  let source ← accountIndex n 2 .overflow
  let escrow ← accountIndex n 3 .overflow
  let cash ← accountIndex n 4 .overflow
  let cashMint ← accountIndex n 5 .overflow
  let productMint ← accountIndex n 6 .overflow
  let productProgram ← accountIndex n 7 .overflow
  let cashProgram ← accountIndex n 8 .overflow
  let policy ← accountIndex n 9 .overflow
  let claim ← accountIndex n 10 .overflow
  let system ← accountIndex n 11 .overflow
  .ok { owner, order, source, escrow, cash, cashMint, productMint, productProgram, cashProgram, policy,
        claim, system }

section Place

variable (rt : Runtime) (program : ProgramId) {n : ℕ} (ledger : Ledger) (a : Accounts n)
  (clock : Clock)

/-- The checks of `place` before the order account is created. -/
def placeOrder (p : PlaceAccounts n) (d : Buffer) : Outcome NewOrder := do
  need (a.isSigner (a.key p.owner) = true ∧ a.isWritable (a.key p.owner) = true ∧
    a.isWritable (a.key p.order) = true ∧ a.isWritable (a.key p.source) = true ∧
    a.isWritable (a.key p.escrow) = true ∧ a.isWritable (a.key p.cash) = true ∧
    a.key p.system = systemId) .identity
  let conservativeBps ← okOr (d.number 4 2) .overflow
  let nonce ← ad (u64At d 8)
  let stock ← ad (u64At d 16)
  let minimumCashPerShare ← ad (u64At d 24)
  let expiresSlot ← ad (u64At d 32)
  let policyVersion ← ad (u64At d 40)
  let maxAge ← ad (u64At d 48)
  let numerator ← ad (u64At d 56)
  let denominator ← ad (u64At d 64)
  let instrument ← ad (keyAt d 72)
  let conversion : ConversionTerms := { model := d.byte 2, conservativeBps, numerator, denominator }
  need (nonce < u64Size - 1 ∧ 0 < stock ∧ stock ≤ maxInput ∧ 0 < minimumCashPerShare ∧
    0 < policyVersion ∧ 1 ≤ maxAge ∧ maxAge ≤ 150 ∧ 1 ≤ conservativeBps ∧ conservativeBps ≤ 10000 ∧
    0 < numerator ∧ 0 < denominator ∧ instrument ≠ .ofFn (fun _ => 0)) .bounds
  need (0 ≤ clock.unixTimestamp ∧ clock.slot < expiresSlot) .expired
  let latest ← checkedSum clock.slot 1000000 .bounds
  need (expiresSlot ≤ latest) .expired
  need (a.key p.order = orderAddress rt (a.key p.owner) nonce ∧ (ledger (a.key p.order)).data.size = 0 ∧
    (ledger (a.key p.order)).owner = systemId) .identity
  validateClaim rt program ledger a clock
    { claim := p.claim, policy := p.policy, cashMint := p.cashMint, productMint := p.productMint,
      tokenProgram := p.productProgram, policyVersion, conversion }
    maxAge (d.byte 1 = 1) clock.slot
  need ((ledger (a.key p.policy)).data.slice 40 32 = some instrument.toList) .identity
  let source ← checkedAsset ledger a (a.key p.owner) (a.key p.source) (a.key p.productMint)
    (a.key p.productProgram) true
  let escrow ← checkedAsset ledger a (a.key p.order) (a.key p.escrow) (a.key p.productMint)
    (a.key p.productProgram) false
  let _ ← checkedAsset ledger a (a.key p.owner) (a.key p.cash) (a.key p.cashMint)
    (a.key p.cashProgram) true
  need (stock ≤ source ∧ escrow = 0) .bounds
  let exposure ← convert (ledger (a.key p.productMint)) conversion stock clock.unixTimestamp
  need (0 < exposure) .bounds
  let cash ← ceilQ32 exposure minimumCashPerShare
  need (0 < cash) .bounds
  .ok { owner := a.key p.owner, instrument, claim := a.key p.claim, cashMint := a.key p.cashMint,
        productMint := a.key p.productMint, escrow := a.key p.escrow, cashDestination := a.key p.cash,
        nonce, stock, minimumCashPerShare, expiresSlot, createdSlot := clock.slot, policyVersion,
        conversion }

variable {program} (venues : Venues program)

/-- `place`: opcode 15. -/
def place (d : Buffer) : Step Unit := do
  lift (need (d.size = 104 ∧ d.byte 0 = 15 ∧ d.byte 1 ≤ 1 ∧
    (d.byte 2 = fixedRational ∨ d.byte 2 = token2022ScaledUi) ∧ d.byte 3 = 0 ∧ zeroWindow d 6 2 ∧
    n = 12) .bounds)
  let p ← lift (placeAccounts n)
  let s ← get
  let o ← lift (placeOrder rt program s.ledger a clock p d)
  let sourceBefore := tokenAmount s.ledger (a.key p.source)
  createAccount rt program (a.key p.owner) (a.key p.order) orderLen
  transferChecked a venues p.source p.productMint p.escrow p.owner p.productProgram o.stock
  let s ← get
  let sourceAfter ← lift (checkedAsset s.ledger a (a.key p.owner) (a.key p.source)
    (a.key p.productMint) (a.key p.productProgram) false)
  let escrowAfter ← lift (checkedAsset s.ledger a (a.key p.order) (a.key p.escrow)
    (a.key p.productMint) (a.key p.productProgram) false)
  -- the escrow was empty
  lift (need (sourceAfter ≤ sourceBefore ∧ sourceBefore - sourceAfter = o.stock ∧
    escrowAfter = o.stock) .conservation)
  zeroData (a.key p.order)
  writeFields (a.key p.order) o.fields
  let s ← get
  setReturnData (((s.ledger (a.key p.order)).data.slice 0 orderLen).getD [])

end Place

/-- The request of a fill. -/
structure Fill (n : ℕ) where
  order : Fin n
  owner : Fin n
  escrow : Fin n
  cashDestination : Fin n
  claim : Fin n
  cashMint : Fin n
  productMint : Fin n
  productProgram : Fin n
  revision : ℕ
  stock : ℕ
  cash : ℕ
  conversion : ConversionTerms

/-- `validate_fill`: the nonce of an order that may be filled. -/
def validateFill (rt : Runtime) (program : ProgramId) {n : ℕ} (ledger : Ledger) (a : Accounts n)
    (clock : Clock) (f : Fill n) : Outcome ℕ := do
  let account := ledger (a.key f.order)
  let state := account.data
  need (a.isWritable (a.key f.order) = true ∧ account.owner = program ∧
    a.isWritable (a.key f.owner) = false ∧ 0 < f.stock ∧ 0 < f.cash) .identity
  need (state.size = orderLen ∧ state.slice 0 8 = some orderTag ∧
    state.slice 8 32 = some (a.key f.owner).toList ∧ state.slice 72 32 = some (a.key f.claim).toList ∧
    state.slice 104 32 = some (a.key f.cashMint).toList ∧
    state.slice 136 32 = some (a.key f.productMint).toList ∧
    state.slice 168 32 = some (a.key f.escrow).toList ∧
    state.slice 200 32 = some (a.key f.cashDestination).toList) .identity
  need (state.byte 328 = openStatus) .replay
  let revision ← ad (u64At state 272)
  need (revision = f.revision) .replay
  let expires ← ad (u64At state 264)
  need (clock.slot ≤ expires) .expired
  let nonce ← ad (u64At state 232)
  need (a.key f.order = orderAddress rt (a.key f.owner) nonce) .identity
  let remaining ← ad (u64At state 248)
  let minimumCashPerShare ← ad (u64At state 256)
  need (f.stock ≤ remaining) .bounds
  let escrow ← checkedAsset ledger a (a.key f.order) (a.key f.escrow) (a.key f.productMint)
    (a.key f.productProgram) false
  need (remaining ≤ escrow) .conservation
  let exposure ← convert (ledger (a.key f.productMint)) f.conversion f.stock clock.unixTimestamp
  need (0 < exposure) .minOut
  let cash ← ceilQ32 exposure minimumCashPerShare
  need (cash ≤ f.cash) .minOut
  .ok nonce

/-- `transfer_fill`. -/
def transferFill (rt : Runtime) {n : ℕ} (a : Accounts n) {program : ProgramId}
    (venues : Venues program) (source mint destination order tokenProgram owner : Fin n)
    (nonce amount : ℕ) : Step Unit :=
  transferCheckedSigned a venues rt source mint destination order tokenProgram owner nonce amount

/-- The windows that a fill changes. -/
def fillFields (remaining revision filledCash : ℕ) : List (ℕ × List UInt8) :=
  [(248, Buffer.toBytes 8 remaining), (272, Buffer.toBytes 8 revision),
    (280, Buffer.toBytes 8 filledCash)]

/-- The remaining stock, revision and filled cash of an order after a fill. -/
def filledOrder (state : Buffer) (expectedRevision stock cash : ℕ) : Outcome (ℕ × ℕ × ℕ) := do
  need (state.size = orderLen ∧ state.slice 0 8 = some orderTag ∧ state.byte 328 = openStatus) .replay
  let revision ← ad (u64At state 272)
  need (revision = expectedRevision) .replay
  let remaining ← ad (u64At state 248)
  let remaining ← checkedSub remaining stock .conservation
  let filledCash ← ad (u64At state 280)
  let filledCash ← checkedSum filledCash cash .conservation
  let revision ← checkedSum expectedRevision 1 .bounds
  .ok (remaining, revision, filledCash)

/-- `record_fill`. -/
def recordFill (order : Key) (expectedRevision stock cash : ℕ) : Step Unit := do
  let s ← get
  let (remaining, revision, filledCash) ←
    lift (filledOrder (s.ledger order).data expectedRevision stock cash)
  writeFields order (fillFields remaining revision filledCash)

/-- The windows that cancelling changes. -/
def cancelFields (revision : ℕ) : List (ℕ × List UInt8) :=
  [(248, Buffer.toBytes 8 0), (272, Buffer.toBytes 8 revision), (328, [cancelledStatus])]

/-- The accounts of `cancel`. -/
structure CancelAccounts (n : ℕ) where
  owner : Fin n
  order : Fin n
  escrow : Fin n
  destination : Fin n
  mint : Fin n
  tokenProgram : Fin n

/-- The first six accounts. -/
def cancelAccounts (n : ℕ) : Outcome (CancelAccounts n) := do
  let owner ← accountIndex n 0 .overflow
  let order ← accountIndex n 1 .overflow
  let escrow ← accountIndex n 2 .overflow
  let destination ← accountIndex n 3 .overflow
  let mint ← accountIndex n 4 .overflow
  let tokenProgram ← accountIndex n 5 .overflow
  .ok { owner, order, escrow, destination, mint, tokenProgram }

/-- The remaining stock and the revision of an order that its owner may cancel. -/
def cancelOrder (rt : Runtime) (program : ProgramId) {n : ℕ} (ledger : Ledger) (a : Accounts n)
    (p : CancelAccounts n) (nonce : ℕ) : Outcome (ℕ × ℕ) := do
  let account := ledger (a.key p.order)
  let state := account.data
  need (a.isSigner (a.key p.owner) = true ∧ a.isWritable (a.key p.owner) = true ∧
    a.isWritable (a.key p.order) = true ∧ account.owner = program ∧
    a.isWritable (a.key p.escrow) = true ∧ a.isWritable (a.key p.destination) = true) .identity
  need (a.key p.order = orderAddress rt (a.key p.owner) nonce) .identity
  need (state.size = orderLen ∧ state.slice 0 8 = some orderTag ∧ state.byte 328 = openStatus ∧
    state.slice 8 32 = some (a.key p.owner).toList ∧
    state.slice 136 32 = some (a.key p.mint).toList ∧
    state.slice 168 32 = some (a.key p.escrow).toList) .identity
  let remaining ← ad (u64At state 248)
  let revision ← ad (u64At state 272)
  .ok (remaining, revision)

/-- `cancel`: opcode 16. -/
def cancel (rt : Runtime) {n : ℕ} (a : Accounts n) {program : ProgramId} (venues : Venues program)
    (d : Buffer) : Step Unit := do
  lift (need (d.size = 16 ∧ d.byte 0 = 16 ∧ zeroWindow d 1 7 ∧ n = 6) .bounds)
  let p ← lift (cancelAccounts n)
  let nonce ← lift (ad (u64At d 8))
  let s ← get
  let (remaining, revision) ← lift (cancelOrder rt program s.ledger a p nonce)
  let escrow (ledger : Ledger) (inspectMint : Bool) := checkedAsset ledger a (a.key p.order)
    (a.key p.escrow) (a.key p.mint) (a.key p.tokenProgram) inspectMint
  let destination (ledger : Ledger) := checkedAsset ledger a (a.key p.owner) (a.key p.destination)
    (a.key p.mint) (a.key p.tokenProgram) false
  let before ← lift (escrow s.ledger true)
  let destinationBefore ← lift (destination s.ledger)
  lift (need (remaining ≤ before) .conservation)
  if 0 < remaining then
    transferCheckedSigned a venues rt p.escrow p.mint p.destination p.order p.tokenProgram p.owner
      nonce remaining
  let s ← get
  let after ← lift (escrow s.ledger false)
  let destinationAfter ← lift (destination s.ledger)
  lift (need (after ≤ before ∧ before - after = remaining ∧ destinationBefore ≤ destinationAfter ∧
    destinationAfter - destinationBefore = remaining) .conservation)
  let next ← lift (checkedSum revision 1 .bounds)
  writeFields (a.key p.order) (cancelFields next)
  setReturnData (orderTag ++ Buffer.toBytes 8 nonce ++ Buffer.toBytes 8 remaining ++
    Buffer.toBytes 8 next)

end StockMesh.Settle

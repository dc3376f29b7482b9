import StockMesh.Settle.Records

/-! # Publication and reverse settlement

The authority of a policy or a claim publishes it anew with the next version; what identifies it never
changes. `executeReverse` settles the way back from the product to the cash under the same policy. -/

namespace StockMesh.Settle

open Stateful

section Policy

variable (rt : Runtime) {n : ℕ} (a : Accounts n) (clock : Clock)

/-- What a published policy states. -/
structure PolicyTerms where
  instrument : Key
  issuer : Key
  input : Key
  output : Key
  rights : Key
  version : ℕ
  expires : ℕ
  flags : UInt8

/-- The instruction data of `publish`. -/
def policyTerms (d : Buffer) : Outcome PolicyTerms := do
  let instrument ← ad (keyAt d 1)
  let issuer ← ad (keyAt d 33)
  let input ← ad (keyAt d 65)
  let output ← ad (keyAt d 97)
  let rights ← ad (keyAt d 129)
  let version ← ad (u64At d 161)
  let expires ← ad (u64At d 169)
  let flags := d.byte 177
  let latest ← checkedSum clock.slot 3600 .bounds
  need (0 < version ∧ flags &&& ~~~31 = 0 ∧ input ≠ output ∧ instrument ≠ zeroKey ∧ issuer ≠ zeroKey ∧
    rights ≠ zeroKey ∧ clock.slot ≤ expires ∧ expires ≤ latest) .bounds
  .ok { instrument, issuer, input, output, rights, version, expires, flags }

/-- The windows of a policy. -/
def PolicyTerms.fields (t : PolicyTerms) (authority : Key) (slot : ℕ) : List (ℕ × List UInt8) :=
  [(0, policyTag), (8, authority.toList), (40, t.instrument.toList), (72, t.issuer.toList),
    (104, t.input.toList), (136, t.output.toList), (168, t.rights.toList),
    (200, Buffer.toBytes 8 t.version), (208, Buffer.toBytes 8 slot), (216, Buffer.toBytes 8 t.expires),
    (224, [t.flags])]

/-- A published policy takes the next version of the same policy. -/
def succeedsPolicy (old : Buffer) (authority : Key) (t : PolicyTerms) : Outcome Unit := do
  need (old.size = policyLen ∧ old.slice 0 8 = some policyTag ∧ old.slice 8 32 = some authority.toList ∧
    old.slice 40 32 = some t.instrument.toList ∧ old.slice 72 32 = some t.issuer.toList ∧
    old.slice 104 32 = some t.input.toList ∧ old.slice 136 32 = some t.output.toList ∧
    old.slice 168 32 = some t.rights.toList) .identity
  let version ← ad (u64At old 200)
  need (version + 1 = t.version) .replay

/-- The account of a policy: an old version, or a new account for the first one. -/
def policyAccount (program : ProgramId) (authority policy : Key) (t : PolicyTerms) : Step Unit := do
  let s ← get
  let account := s.ledger policy
  if account.owner = program then lift (succeedsPolicy account.data authority t)
  else do
    lift (need (account.data.size = 0 ∧ account.owner = systemId ∧ t.version = 1) .identity)
    createAccount rt program authority policy policyLen

/-- `stock::publish`: opcode 19. -/
def publishPolicy (program : ProgramId) (d : Buffer) : Step Unit := do
  lift (need (n = 3 ∧ d.size = 178 ∧ d.byte 0 = 19) .bounds)
  let authority ← lift (accountIndex n 0 .overflow)
  let policy ← lift (accountIndex n 1 .overflow)
  let system ← lift (accountIndex n 2 .overflow)
  lift (need (a.isSigner (a.key authority) = true ∧ a.isWritable (a.key authority) = true ∧
    a.isWritable (a.key policy) = true ∧ a.key system = systemId) .identity)
  let t ← lift (policyTerms clock d)
  lift (need (a.key policy = rt.address [policySeed, (a.key authority).toList, t.instrument.toList,
    t.input.toList, t.output.toList, t.rights.toList]) .identity)
  policyAccount rt program (a.key authority) (a.key policy) t
  writeFields (a.key policy) (t.fields (a.key authority) clock.slot)

end Policy

section Claim

variable (rt : Runtime) {n : ℕ} (a : Accounts n) (clock : Clock)

/-- The accounts of `claim::publish`. -/
structure ClaimAccounts (n : ℕ) where
  authority : Fin n
  claim : Fin n
  policy : Fin n
  cashMint : Fin n
  productMint : Fin n
  tokenProgram : Fin n
  system : Fin n

/-- The first seven accounts. -/
def claimAccounts (n : ℕ) : Outcome (ClaimAccounts n) := do
  let authority ← accountIndex n 0 .overflow
  let claim ← accountIndex n 1 .overflow
  let policy ← accountIndex n 2 .overflow
  let cashMint ← accountIndex n 3 .overflow
  let productMint ← accountIndex n 4 .overflow
  let tokenProgram ← accountIndex n 5 .overflow
  let system ← accountIndex n 6 .overflow
  .ok { authority, claim, policy, cashMint, productMint, tokenProgram, system }

/-- What a published claim states. -/
structure NewClaim where
  instrument : Key
  issuer : Key
  policyVersion : ℕ
  maxAge : ℕ
  claimVersion : ℕ
  expiresSlot : ℕ
  conversion : ConversionTerms

/-- The instruction data of `publish`. -/
def newClaim (d : Buffer) : Outcome NewClaim := do
  let conservativeBps ← okOr (d.number 4 2) .overflow
  let instrument ← ad (keyAt d 8)
  let issuer ← ad (keyAt d 40)
  let policyVersion ← ad (u64At d 72)
  let maxAge ← ad (u64At d 80)
  let claimVersion ← ad (u64At d 88)
  let numerator ← ad (u64At d 96)
  let denominator ← ad (u64At d 104)
  let expiresSlot ← ad (u64At d 112)
  need (instrument ≠ zeroKey ∧ issuer ≠ zeroKey ∧ 0 < policyVersion ∧ 0 < claimVersion ∧ 1 ≤ maxAge ∧
    maxAge ≤ 150 ∧ 1 ≤ conservativeBps ∧ conservativeBps ≤ 10000 ∧ 0 < numerator ∧ 0 < denominator)
    .bounds
  .ok { instrument, issuer, policyVersion, maxAge, claimVersion, expiresSlot,
        conversion := { model := d.byte 1, conservativeBps, numerator, denominator } }

/-- The windows of a claim; a claim holds zeros elsewhere. -/
def NewClaim.fields (c : NewClaim) (p : ClaimAccounts n) (slot : ℕ) (flags : UInt8) :
    List (ℕ × List UInt8) :=
  [(0, claimTag), (8, (a.key p.authority).toList), (40, c.instrument.toList), (72, c.issuer.toList),
    (104, (a.key p.cashMint).toList), (136, (a.key p.productMint).toList),
    (168, (a.key p.policy).toList), (200, (a.key p.tokenProgram).toList),
    (232, Buffer.toBytes 8 c.policyVersion), (240, Buffer.toBytes 8 c.claimVersion),
    (248, Buffer.toBytes 8 c.conversion.numerator), (256, Buffer.toBytes 8 c.conversion.denominator),
    (264, Buffer.toBytes 8 slot), (272, Buffer.toBytes 8 c.expiresSlot),
    (280, Buffer.toBytes 2 c.conversion.conservativeBps), (282, [c.conversion.model]), (283, [flags])]

/-- A published claim takes the next version of the same claim. -/
def succeedsClaim (old : Buffer) (p : ClaimAccounts n) (c : NewClaim) : Outcome Unit := do
  need (old.size = claimLen ∧ old.slice 0 8 = some claimTag ∧
    old.slice 8 32 = some (a.key p.authority).toList ∧ old.slice 40 32 = some c.instrument.toList ∧
    old.slice 72 32 = some c.issuer.toList ∧ old.slice 104 32 = some (a.key p.cashMint).toList ∧
    old.slice 136 32 = some (a.key p.productMint).toList ∧
    old.slice 168 32 = some (a.key p.policy).toList ∧
    old.slice 200 32 = some (a.key p.tokenProgram).toList) .identity
  let version ← ad (u64At old 240)
  need (version + 1 = c.claimVersion) .identity

/-- The account of a claim: an old version, or a new account for the first one. -/
def claimAccount (program : ProgramId) (p : ClaimAccounts n) (c : NewClaim) : Step Unit := do
  let s ← get
  let account := s.ledger (a.key p.claim)
  if account.owner = program then lift (succeedsClaim a account.data p c)
  else do
    lift (need (account.data.size = 0 ∧ account.owner = systemId ∧ c.claimVersion = 1) .identity)
    createAccount rt program (a.key p.authority) (a.key p.claim) claimLen

/-- The checks of `publish` before the claim account is touched. -/
def checkClaim (program : ProgramId) (ledger : Ledger) (p : ClaimAccounts n) (d : Buffer) :
    Outcome NewClaim := do
  need (a.isSigner (a.key p.authority) = true ∧ a.isWritable (a.key p.authority) = true ∧
    a.isWritable (a.key p.claim) = true ∧ a.isWritable (a.key p.policy) = false ∧
    a.isWritable (a.key p.cashMint) = false ∧ a.isWritable (a.key p.productMint) = false ∧
    a.isWritable (a.key p.tokenProgram) = false ∧ (ledger (a.key p.tokenProgram)).executable = true ∧
    (ledger (a.key p.productMint)).owner = a.key p.tokenProgram ∧
    (a.key p.tokenProgram = tokenId ∨ a.key p.tokenProgram = token2022Id) ∧
    ((ledger (a.key p.cashMint)).owner = tokenId ∨ (ledger (a.key p.cashMint)).owner = token2022Id) ∧
    a.key p.system = systemId) .identity
  let c ← newClaim d
  need (clock.slot ≤ c.expiresSlot) .expired
  let latest ← checkedSum clock.slot 1000000 .bounds
  need (c.expiresSlot ≤ latest) .expired
  validatePolicyForPair rt program ledger a clock p.policy c.policyVersion c.maxAge false p.cashMint
    p.productMint clock.slot
  let policy := (ledger (a.key p.policy)).data
  need (policy.slice 40 32 = some c.instrument.toList ∧ policy.slice 72 32 = some c.issuer.toList)
    .identity
  need (a.key p.claim = rt.address [claimSeed, (a.key p.authority).toList, c.instrument.toList,
    (a.key p.productMint).toList]) .identity
  .ok c

/-- `claim::publish`: opcode 17. -/
def publishClaim (program : ProgramId) (d : Buffer) : Step Unit := do
  lift (need (d.size = 120 ∧ d.byte 0 = 17 ∧ (d.byte 1 = fixedRational ∨ d.byte 1 = token2022ScaledUi) ∧
    d.byte 2 = 1 ∧ d.byte 3 = 0 ∧ zeroWindow d 6 2 ∧ n = 7) .bounds)
  let p ← lift (claimAccounts n)
  let s ← get
  let c ← lift (checkClaim rt a clock program s.ledger p d)
  claimAccount rt a program p c
  zeroData (a.key p.claim)
  writeFields (a.key p.claim) (c.fields a p clock.slot (d.byte 2))
  let s ← get
  setReturnData (((s.ledger (a.key p.claim)).data.slice 0 claimLen).getD [])

end Claim

section Reverse

variable (rt : Runtime) {n : ℕ} (ledger : Ledger) (a : Accounts n) (clock : Clock)

/-- One pass over the legs of a graph. -/
def reachOnce (g : Graph n) (reached : Fin g.assetCount → Bool) : Fin g.assetCount → Bool :=
  g.legs.foldl (fun reached leg =>
    if reached leg.source then Function.update reached leg.destination true else reached) reached

/-- The assets that a path of legs leads to from the first, after as many passes as assets. -/
def reachable (g : Graph n) : Fin g.assetCount → Bool :=
  (reachOnce g)^[g.assetCount] fun i => decide (i = g.first)

/-- `validate_policy_for_reverse_graph`. -/
def validatePolicyForReverseGraph (program : ProgramId) (index version maxAge : ℕ) (allowClosed : Bool)
    (g : Graph n) : Outcome Unit := do
  need (index < n ∧ 1 < index ∧ 1 ≤ maxAge ∧ maxAge ≤ 150) .bounds
  let policy ← accountIndex n index .bounds
  let account := ledger (a.key policy)
  need (account.owner = program ∧ a.isWritable (a.key policy) = false ∧ account.executable = false)
    .identity
  let p := account.data
  need (p.size = policyLen ∧ p.slice 0 8 = some policyTag) .identity
  let authority ← ad (keyAt p 8)
  let instrument ← ad (keyAt p 40)
  let cashMint ← ad (keyAt p 104)
  let productMint ← ad (keyAt p 136)
  let rights ← ad (keyAt p 168)
  let stored ← ad (u64At p 200)
  need (a.key policy = rt.address [policySeed, authority.toList, instrument.toList, cashMint.toList,
    productMint.toList, rights.toList] ∧ stored = version) .identity
  let updated ← ad (u64At p 208)
  let expires ← ad (u64At p 216)
  need (updated ≤ clock.slot ∧ clock.slot - updated ≤ maxAge ∧ clock.slot ≤ expires ∧
    g.deadline ≤ expires) .expired
  let flags := p.byte 224
  need (flags &&& secondary ≠ 0 ∧ flags &&& halted = 0 ∧
    (flags &&& underlyingOpen ≠ 0 ∨ allowClosed = true)) .expired
  need (mintKey a g g.first = productMint) .identity
  need (∃ i, reachable g i = true ∧ mintKey a g i = cashMint) .identity

/-- `stock::execute_reverse`: opcode 20. -/
def executeReverse (natives : Natives) {program : ProgramId} (venues : Venues program) (d : Buffer) :
    Step Unit := do
  lift (need (20 < d.size ∧ d.byte 0 = 20 ∧ d.byte 2 ≤ 1 ∧ d.byte 3 = 0) .bounds)
  let index := (d.byte 1).toNat
  lift (need (index < n ∧ 1 < index) .bounds)
  let version ← lift (ad (u64At d 4))
  let maxAge ← lift (ad (u64At d 12))
  lift (need (1 ≤ maxAge ∧ maxAge ≤ 150) .bounds)
  let graph ← lift (ad (Graph.decode (d.drop 20) n))
  let s ← get
  lift (validatePolicyForReverseGraph rt s.ledger a clock program index version maxAge (d.byte 2 = 1)
    graph)
  settleGraph natives a clock venues (d.drop 20)
  let s ← get
  lift (need (s.returnData.length ≤ 224) .conservation)
  setReturnData (policyTag ++ Buffer.toBytes 8 version ++ s.returnData)

end Reverse

end StockMesh.Settle

import StockMesh.Settle.Economic
import StockMesh.Settle.Funding

/-! # Mesh cells

Opcode 14: one buyer signs a cash debit and a least exposure, up to three sellers give stock for exact cash,
and what is left of the cash is routed through typed graphs. A seller signs, or is a resting order of the
program. Everything is checked before the first transfer; the balances of every party are checked again
before the nonces and orders are written. Opcode 18 funds the cash by one graph first. -/

namespace StockMesh.Settle

open Stateful

/-- `MAX_SELLERS`. -/
def maxSellers : ℕ := 3

/-- Bytes before the products (`HEADER_LEN`). -/
def cellHeaderLen : ℕ := 56

/-- `PRODUCT_LEN`. -/
def cellProductLen : ℕ := 32

/-- `SELLER_LEN`. -/
def cellSellerLen : ℕ := 40

/-- The signed header with the buyer's accounts. -/
structure CellHeader (n : ℕ) where
  productCount : ℕ
  sellerCount : ℕ
  residualCount : ℕ
  allowClosed : Bool
  /-- The last byte of the flags asks for a graph over all products without funding. -/
  directReflow : Bool
  deadline : ℕ
  maximumPolicyAge : ℕ
  sequence : ℕ
  input : ℕ
  minimumExposure : ℕ
  buyer : Fin n
  nonce : Fin n
  source : Fin n
  cashMint : Fin n
  cashProgram : Fin n

/-- An issuer's product (`Product`). -/
structure CellProduct (n : ℕ) where
  policy : Fin n
  claim : Option (Fin n)
  destination : Fin n
  mint : Fin n
  tokenProgram : Fin n
  policyVersion : ℕ
  conversion : ConversionTerms
  instrument : Key
  beforeOutput : ℕ

/-- A seller (`Seller`). A resting one is an order, whose revision is the sequence. -/
structure CellSeller (n : ℕ) where
  position : ℕ
  product : CellProduct n
  owner : Fin n
  nonce : Fin n
  source : Fin n
  cashDestination : Fin n
  sequence : ℕ
  stockInput : ℕ
  cashOutput : ℕ
  minimumCashOutput : ℕ
  resting : Bool
  orderNonce : ℕ
  beforeStock : ℕ
  beforeCash : ℕ

namespace CellSeller

variable {n : ℕ} (s : CellSeller n)

/-- The accounts that belong to one seller alone. -/
def financial : List (Fin n) := [s.owner, s.nonce, s.source, s.cashDestination]

/-- The authority over the stock. -/
def stockAuthority : Fin n := if s.resting then s.nonce else s.owner

end CellSeller

section Header

variable (program : ProgramId) {n : ℕ} (ledger : Ledger) (a : Accounts n) (clock : Clock)

/-- The cell needs one graph over all products. -/
def CellHeader.globalReflow (h : CellHeader n) (funding : Option Funding) : Bool :=
  funding.any (·.globalReflow) || h.directReflow

/-- The numbers and accounts of the header. -/
def readCellHeader (d : Buffer) (n : ℕ) : Outcome (CellHeader n) := do
  let deadline ← ad (u64At d 8)
  let maximumPolicyAge ← ad (u64At d 16)
  let sequence ← ad (u64At d 24)
  let input ← ad (u64At d 32)
  let minimumExposure ← ad (u64At d 40)
  need ((1 ≤ maximumPolicyAge ∧ maximumPolicyAge ≤ 150) ∧ sequence < u64Size - 1 ∧ 0 < input ∧
    input ≤ maxInput ∧ 0 < minimumExposure) .bounds
  need (zeroWindow d 53 3) .identity
  let buyer ← accountIndex n (d.byte 48).toNat .identity
  let nonce ← accountIndex n (d.byte 49).toNat .identity
  let source ← accountIndex n (d.byte 50).toNat .identity
  let cashMint ← accountIndex n (d.byte 51).toNat .identity
  let cashProgram ← accountIndex n (d.byte 52).toNat .identity
  .ok { productCount := (d.byte 1).toNat, sellerCount := (d.byte 2).toNat,
        residualCount := (d.byte 3).toNat, allowClosed := d.byte 4 = 1, directReflow := d.byte 5 = 1,
        deadline, maximumPolicyAge, sequence, input, minimumExposure, buyer, nonce, source, cashMint,
        cashProgram }

/-- The form of the payload. -/
def CellForm (d : Buffer) (n : ℕ) (funding : Option Funding) : Prop :=
  let direct := decide (d.byte 5 = 1)
  let global := funding.any (·.globalReflow) || direct
  (cellHeaderLen ≤ d.size ∧ d.byte 0 = 14 ∧ d.byte 4 ≤ 1 ∧ d.byte 5 ≤ 1 ∧ zeroWindow d 6 2 ∧
    ¬(funding.isSome = true ∧ direct = true) ∧ n ≤ maxAccounts) ∧
  (1 ≤ (d.byte 1).toNat ∧ (d.byte 1).toNat ≤ maxProducts) ∧ (d.byte 2).toNat ≤ maxSellers ∧
  (0 < (d.byte 2).toNat ∨ funding.isSome = true ∨ direct = true) ∧
  if global then (d.byte 3).toNat = 1 else (d.byte 3).toNat ≤ (d.byte 1).toNat

instance decidableCellForm (d : Buffer) (n : ℕ) (funding : Option Funding) :
    Decidable (CellForm d n funding) := inferInstanceAs (Decidable (_ ∧ _))

/-- The buyer's balance of a token account. -/
def CellHeader.cash (h : CellHeader n) (ledger : Ledger) (inspectMint : Bool) : Outcome ℕ :=
  checkedAsset ledger a (a.key h.buyer) (a.key h.source) (a.key h.cashMint) (a.key h.cashProgram)
    inspectMint

/-- The funding graph, or enough cash without one. -/
def inspectFunding (h : CellHeader n) (cash : ℕ) : Option Funding → Outcome (Option (Funded n))
  | some f => do
    let funded ← f.inspect ledger a h.buyer h.sequence h.source h.cashMint h.cashProgram h.deadline h.input
    .ok (some funded)
  | none => do
    need (h.input ≤ cash) .bounds
    .ok none

/-- The checks of the header: the buyer signs, its nonce has the sequence, and it has the cash. -/
def checkCellHeader (d : Buffer) (funding : Option Funding) :
    Outcome (CellHeader n × ℕ × Option (Funded n)) := do
  need (CellForm d n funding) .bounds
  let h ← readCellHeader d n
  need (a.isSigner (a.key h.buyer) = true ∧ a.isWritable (a.key h.nonce) = true ∧
    (ledger (a.key h.nonce)).owner = program) .identity
  checkNonce (ledger (a.key h.nonce)) (a.key h.buyer) h.sequence
  let cash ← h.cash a ledger true
  let funded ← inspectFunding ledger a h cash funding
  need (clock.slot ≤ h.deadline ∧ 0 ≤ clock.unixTimestamp) .expired
  .ok (h, cash, funded)

end Header

/-! ## Products -/

section Products

variable (rt : Runtime) (program : ProgramId) {n : ℕ} (ledger : Ledger) (a : Accounts n) (clock : Clock)
  (h : CellHeader n) (funded : Option (Funded n))

/-- The account of a claim; zero is none. -/
def claimIndex (n : ℕ) (b : UInt8) : Outcome (Option (Fin n)) :=
  if b = 0 then .ok none else (accountIndex n b.toNat .bounds).map some

/-- The row of a product. -/
def cellProductRow (d : Buffer) (n start : ℕ) : Outcome (CellProduct n) := do
  let row ← okOr (d.slice start cellProductLen) .bounds
  let policy ← accountIndex n (row.getD 0 0).toNat .bounds
  let destination ← accountIndex n (row.getD 1 0).toNat .bounds
  let mint ← accountIndex n (row.getD 2 0).toNat .bounds
  let tokenProgram ← accountIndex n (row.getD 3 0).toNat .bounds
  let claim ← claimIndex n (row.getD 5 0)
  let conservativeBps ← okOr (d.number (start + 6) 2) .overflow
  let policyVersion ← ad (u64At d (start + 8))
  let numerator ← ad (u64At d (start + 16))
  let denominator ← ad (u64At d (start + 24))
  let conversion : ConversionTerms := { model := row.getD 4 0, conservativeBps, numerator, denominator }
  .ok { policy, claim, destination, mint, tokenProgram, policyVersion, conversion, instrument := zeroKey,
        beforeOutput := 0 }

/-- The policy of a product, by its claim if it names one. -/
def validateProduct (p : CellProduct n) : Outcome Unit :=
  match p.claim with
  | none => validatePolicyForPair rt program ledger a clock p.policy p.policyVersion h.maximumPolicyAge
      h.allowClosed h.cashMint p.mint h.deadline
  | some claim => validateClaim rt program ledger a clock
      { claim, policy := p.policy, cashMint := h.cashMint, productMint := p.mint,
        tokenProgram := p.tokenProgram, policyVersion := p.policyVersion, conversion := p.conversion }
      h.maximumPolicyAge h.allowClosed h.deadline

/-- The buyer's balance of a product. -/
def CellProduct.balance (p : CellProduct n) (inspectMint : Bool) : Outcome ℕ :=
  checkedAsset ledger a (a.key h.buyer) (a.key p.destination) (a.key p.mint) (a.key p.tokenProgram)
    inspectMint

/-- Two products are of different issuers. -/
def SeparateProducts (p q : CellProduct n) : Prop :=
  a.key p.mint ≠ a.key q.mint ∧ a.key p.destination ≠ a.key q.destination ∧
  a.key p.policy ≠ a.key q.policy ∧ ∀ x ∈ p.claim, ∀ y ∈ q.claim, a.key x ≠ a.key y

instance decidableSeparateProducts (p q : CellProduct n) : Decidable (SeparateProducts a p q) :=
  inferInstanceAs (Decidable (_ ∧ _))

/-- One product more. All are products of one instrument. -/
def scanCellProduct (d : Buffer) (products : List (CellProduct n)) (position : ℕ) :
    Outcome (List (CellProduct n)) := do
  let p ← cellProductRow d n (cellHeaderLen + position * cellProductLen)
  need (0 < p.policyVersion ∧ p.conversion.Admitted ∧ a.key p.mint ≠ a.key h.cashMint) .bounds
  need (∀ claim ∈ p.claim, a.isWritable (a.key claim) = false ∧ a.isSigner (a.key claim) = false) .identity
  need (Excludes funded ([p.policy, p.destination, p.mint] ++ p.claim.toList)) .identity
  need (∀ prior ∈ products, SeparateProducts a prior p) .identity
  let beforeOutput ← p.balance ledger a h true
  validateProduct rt program ledger a clock h p
  let instrument ← ad (keyAt (ledger (a.key p.policy)).data 40)
  need (∀ first ∈ products.head?, instrument = first.instrument) .identity
  .ok (products ++ [{ p with instrument, beforeOutput }])

end Products

/-! ## Sellers -/

section Sellers

variable (rt : Runtime) (program : ProgramId) {n : ℕ} (ledger : Ledger) (a : Accounts n) (clock : Clock)
  (h : CellHeader n) (funded : Option (Funded n)) (products : List (CellProduct n))

/-- The row of a seller. -/
def cellSellerRow (d : Buffer) (start : ℕ) : Outcome (CellSeller n) := do
  let row ← okOr (d.slice start cellSellerLen) .bounds
  need (row.getD 5 0 ≤ 1 ∧ zeroWindow d (start + 6) 2) .bounds
  let sequence ← ad (u64At d (start + 8))
  let stockInput ← ad (u64At d (start + 16))
  let cashOutput ← ad (u64At d (start + 24))
  let minimumCashOutput ← ad (u64At d (start + 32))
  let position := (row.getD 0 0).toNat
  let product ← okOr products[position]? .identity
  let owner ← accountIndex n (row.getD 1 0).toNat .identity
  let nonce ← accountIndex n (row.getD 2 0).toNat .identity
  let source ← accountIndex n (row.getD 3 0).toNat .identity
  let cashDestination ← accountIndex n (row.getD 4 0).toNat .identity
  .ok { position, product, owner, nonce, source, cashDestination, sequence, stockInput, cashOutput,
        minimumCashOutput, resting := row.getD 5 0 = 1, orderNonce := 0, beforeStock := 0,
        beforeCash := 0 }

/-- What a seller's row has to satisfy. -/
def SellerForm (s : CellSeller n) : Prop :=
  s.owner ≠ h.buyer ∧ a.isWritable (a.key s.nonce) = true ∧ (ledger (a.key s.nonce)).owner = program ∧
  s.sequence < u64Size - 1 ∧ 0 < s.stockInput ∧ s.stockInput ≤ maxInput ∧ 0 < s.minimumCashOutput ∧
  s.minimumCashOutput ≤ s.cashOutput ∧ (a.isSigner (a.key s.owner) = true ∨ s.resting = true) ∧
  (s.resting = true → a.isWritable (a.key s.owner) = false)

instance decidableSellerForm (s : CellSeller n) : Decidable (SellerForm program ledger a h s) :=
  inferInstanceAs (Decidable (_ ∧ _))

/-- The accounts of a seller are its own: not twice its own, not the buyer's, not another seller's. -/
def SeparateSeller (sellers : List (CellSeller n)) (s : CellSeller n) : Prop :=
  (s.financial.map a.key).Nodup ∧
  (∀ i ∈ s.financial, a.key i ≠ a.key h.buyer ∧ a.key i ≠ a.key h.nonce ∧ a.key i ≠ a.key h.source) ∧
  (∀ i ∈ s.financial, ∀ p ∈ products, a.key i ≠ a.key p.destination) ∧
  ∀ i ∈ s.financial, ∀ prior ∈ sellers, ∀ j ∈ prior.financial, a.key i ≠ a.key j

instance decidableSeparateSeller (sellers : List (CellSeller n)) (s : CellSeller n) :
    Decidable (SeparateSeller a h products sellers s) := inferInstanceAs (Decidable (_ ∧ _))

/-- The fill that a resting seller is. -/
def CellSeller.fill (s : CellSeller n) (claim : Fin n) : Fill n where
  order := s.nonce
  owner := s.owner
  escrow := s.source
  cashDestination := s.cashDestination
  claim := claim
  cashMint := h.cashMint
  productMint := s.product.mint
  productProgram := s.product.tokenProgram
  revision := s.sequence
  stock := s.stockInput
  cash := s.cashOutput
  conversion := s.product.conversion

/-- A seller's sequence: of its nonce, or of its order. The value is the nonce of the order. -/
def checkSeller (s : CellSeller n) : Outcome ℕ :=
  if s.resting then do
    let claim ← okOr s.product.claim .identity
    validateFill rt program ledger a clock (s.fill h claim)
  else do
    checkNonce (ledger (a.key s.nonce)) (a.key s.owner) s.sequence
    .ok 0

/-- A seller's balance of the stock. -/
def CellSeller.stock (s : CellSeller n) (inspectMint : Bool) : Outcome ℕ :=
  checkedAsset ledger a (a.key s.stockAuthority) (a.key s.source) (a.key s.product.mint)
    (a.key s.product.tokenProgram) inspectMint

/-- A seller's balance of the cash. -/
def CellSeller.cash (s : CellSeller n) (inspectMint : Bool) : Outcome ℕ :=
  checkedAsset ledger a (a.key s.owner) (a.key s.cashDestination) (a.key h.cashMint)
    (a.key h.cashProgram) inspectMint

/-- The sellers read so far, the stock that they give by product, and the cash that they get. -/
structure SellerScan (n : ℕ) where
  sellers : List (CellSeller n) := []
  internalRaw : ℕ → ℕ := fun _ => 0
  internalCash : ℕ := 0

/-- One seller more. -/
def scanSeller (d : Buffer) (scan : SellerScan n) (position : ℕ) : Outcome (SellerScan n) := do
  let start := cellHeaderLen + h.productCount * cellProductLen + position * cellSellerLen
  let s ← cellSellerRow products d start
  need (SellerForm program ledger a h s) .identity
  need (Excludes funded s.financial) .identity
  need (SeparateSeller a h products scan.sellers s) .identity
  let orderNonce ← checkSeller rt program ledger a clock h s
  let beforeStock ← s.stock ledger a true
  let beforeCash ← s.cash ledger a h true
  need (s.stockInput ≤ beforeStock) .bounds
  let raw ← checkedSum (scan.internalRaw s.position) s.stockInput .bounds
  let internalCash ← checkedSum scan.internalCash s.cashOutput .bounds
  need (internalCash ≤ h.input) .bounds
  .ok {
    sellers := scan.sellers ++ [{ s with orderNonce, beforeStock, beforeCash }]
    internalRaw := Function.update scan.internalRaw s.position raw
    internalCash }

end Sellers

/-! ## Residual graphs -/

section Residuals

variable {n : ℕ} (a : Accounts n) (h : CellHeader n) (funded : Option (Funded n))
  (products : List (CellProduct n)) (sellers : List (CellSeller n))

/-- The graphs read so far. -/
structure CellScan (n : ℕ) where
  residuals : ℕ → Option (Buffer × Graph n) := fun _ => none
  global : Option (Buffer × Graph n) := none
  globalProducts : ℕ → Bool := fun _ => false
  residualInput : ℕ := 0
  externalLegs : ℕ
  cursor : ℕ

/-- An asset is the buyer's account of a product. -/
def IsProduct (asset : Asset n) (p : CellProduct n) : Prop :=
  a.key asset.token = a.key p.destination ∧ a.key asset.mint = a.key p.mint ∧
    a.key asset.program = a.key p.tokenProgram

instance decidableIsProduct (asset : Asset n) (p : CellProduct n) : Decidable (IsProduct a asset p) :=
  inferInstanceAs (Decidable (_ ∧ _))

/-- A leg begins at the cash, or where a leg from the cash ends. No leg ends at the cash, since its source comes
before its destination. -/
def Rooted (g : Graph n) (leg : Leg n g.assetCount) : Prop :=
  leg.source = g.first ∨ ∃ head ∈ g.legs, head.source = g.first ∧ head.destination = leg.source

instance decidableRooted (g : Graph n) (leg : Leg n g.assetCount) : Decidable (Rooted g leg) :=
  inferInstanceAs (Decidable (_ ∨ _))

/-- The product of an asset of the graph over all products; each is taken once and reached by a leg. -/
def globalAsset (g : Graph n) (taken : ℕ → Bool) (i : Fin g.assetCount) : Outcome (ℕ → Bool) := do
  let matching := products.zipIdx.filter fun p => decide (IsProduct a (g.assets i) p.1)
  need (matching.length ≤ 1 ∧ ∀ p ∈ matching, taken p.2 = false) .identity
  let found ← okOr matching.head? .identity
  need (∃ leg ∈ g.legs, leg.destination = i ∧ Rooted g leg) .conservation
  .ok (Function.update taken found.2 true)

/-- The graph over all products. -/
def scanGlobal (position : ℕ) (bytes : Buffer) (g : Graph n) (scan : CellScan n) : Outcome (CellScan n) := do
  need (position = 255 ∧ scan.global.isNone ∧ bytes.byte 0 = 4 ∧ 0 < g.reflowCalls ∧
    g.assetCount ≤ products.length + 1 ∧ scan.externalLegs < 4 ∧ ∀ leg ∈ g.legs, Rooted g leg) .bounds
  let globalProducts ← (List.finRange g.assetCount).tail.foldlM (globalAsset a products g)
    scan.globalProducts
  .ok { scan with global := some (bytes, g), globalProducts, residualInput := g.input }

/-- The graph of one product. -/
def scanProductResidual (position : ℕ) (bytes : Buffer) (g : Graph n) (scan : CellScan n) :
    Outcome (CellScan n) := do
  need ((scan.residuals position).isNone) .bounds
  let product ← okOr products[position]? .bounds
  need (IsProduct a (g.assets g.sink) product) .identity
  let residualInput ← checkedSum scan.residualInput g.input .bounds
  let externalLegs := scan.externalLegs + maximumLegs g
  need (externalLegs ≤ 4) .bounds
  .ok { scan with
    residuals := Function.update scan.residuals position (some (bytes, g))
    residualInput
    externalLegs }

/-- A graph spends the buyer's cash under the buyer's sequence. -/
def SpendsCash (g : Graph n) : Prop :=
  let source := g.assets g.first
  g.sequence = h.sequence ∧ g.deadline ≤ h.deadline ∧ a.key source.token = a.key h.source ∧
  a.key source.mint = a.key h.cashMint ∧ a.key source.program = a.key h.cashProgram

instance decidableSpendsCash (g : Graph n) : Decidable (SpendsCash a h g) :=
  inferInstanceAs (Decidable (_ ∧ _))

/-- The graph names no account of a seller. -/
def AvoidsSellers (g : Graph n) (sellers : List (CellSeller n)) : Prop :=
  ∀ s ∈ sellers, ∀ i ∈ s.financial, Avoids g i

instance decidableAvoidsSellers (g : Graph n) (sellers : List (CellSeller n)) :
    Decidable (AvoidsSellers g sellers) := inferInstanceAs (Decidable (∀ _ ∈ _, _))

/-- One residual record. -/
def scanCellResidual (d : Buffer) (scan : CellScan n) : Outcome (CellScan n) := do
  let header ← okOr (d.slice scan.cursor 4) .bounds
  let position := (header.getD 0 0).toNat
  let length ← okOr (d.number (scan.cursor + 1) 2) .overflow
  need (header.getD 3 0 = 0) .bounds
  let bytes ← window d (scan.cursor + 4) length
  let g ← ad (Graph.decode bytes n)
  need (SpendsCash a h g) .identity
  let next ← (if h.globalReflow (funded.map (·.funding)) then scanGlobal a products position bytes g scan
    else scanProductResidual a products position bytes g scan)
  need (SeparateFunding a funded g h.buyer h.source) .identity
  need (AvoidsSellers g sellers) .identity
  .ok { next with cursor := scan.cursor + 4 + length }

end Residuals

/-! ## The checked cell -/

/-- A checked cell. -/
structure Cell (n : ℕ) where
  header : CellHeader n
  beforeCash : ℕ
  funded : Option (Funded n)
  products : List (CellProduct n)
  sellers : List (CellSeller n)
  internalRaw : ℕ → ℕ
  internalCash : ℕ
  residuals : ℕ → Option (Buffer × Graph n)
  global : Option (Buffer × Graph n)
  externalLegs : ℕ

namespace Cell

variable {n : ℕ} (cell : Cell n)

/-- The graphs of single products, in the order of the products. -/
def graphs : List (Buffer × Graph n) := (List.range cell.products.length).filterMap cell.residuals

/-- The token accounts that the graphs of the cell may see. -/
def tokens : List ℕ :=
  cell.products.map (fun p => (p.destination : ℕ)) ++
  (cell.graphs ++ cell.global.toList).flatMap (fun r => graphTokens r.2) ++
  cell.funded.toList.flatMap fun f => graphTokens f.graph

end Cell

section Check

variable (rt : Runtime) (program : ProgramId) {n : ℕ} (ledger : Ledger) (a : Accounts n) (clock : Clock)

/-- A product is bought somewhere, and its graph shares no writable account but the cash with an earlier one. -/
def checkCellProduct (cell : Cell n) (globalProducts : ℕ → Bool) (position : ℕ) : Outcome Unit := do
  need (0 < cell.internalRaw position ∨ (cell.residuals position).isSome = true ∨
    globalProducts position = true) .conservation
  match cell.residuals position with
  | none => .ok ()
  | some r => need (∀ prior ∈ (List.range position).filterMap cell.residuals,
      SeparateGraphs a prior.2 r.2 [cell.header.source]) .identity

/-- The funding graph fits the cell: its surplus goes to a product that takes all it gets. -/
def checkSurplus (cell : Cell n) (f : Funded n) : Outcome Unit :=
  if f.funding.globalReflow then need (cell.global.isSome = true) .bounds
  else do
    need (f.funding.surplusProduct < cell.products.length) .bounds
    let (bytes, g) ← okOr (cell.residuals f.funding.surplusProduct) .bounds
    need (bytes.byte 0 = 2 ∧ ∃ leg ∈ g.legs.reverse.find? fun leg : Leg n g.assetCount =>
      decide (leg.source = g.first),
      leg.budget = u64Size - 1) .bounds

/-- The checks of the funding graph before any CPI. -/
def preflightFunding (cell : Cell n) : Outcome Unit :=
  match cell.funded with
  | none => .ok ()
  | some f => do
    checkSurplus cell f
    preflightGraph program ledger a clock f.funding.bytes cell.header.buyer cell.header.nonce cell.tokens 0

/-- The checks of all graphs before any CPI. Cash that is still to be funded counts as there. -/
def preflightCell (cell : Cell n) : Outcome Unit := do
  let h := cell.header
  preflightFunding program ledger a clock cell
  cell.graphs.forM fun r => preflightGraph program ledger a clock r.1 h.buyer h.nonce cell.tokens
    (if cell.funded.isSome then h.input else 0)
  cell.global.toList.forM fun r =>
    preflightGraph program ledger a clock r.1 h.buyer h.nonce cell.tokens h.input

/-- The checks of `clear_inner` before the first CPI. -/
def checkCell (d : Buffer) (funding : Option Funding) : Outcome (Cell n) := do
  let (h, beforeCash, funded) ← checkCellHeader program ledger a clock d funding
  let start := cellHeaderLen + h.productCount * cellProductLen + h.sellerCount * cellSellerLen
  need (start ≤ d.size) .bounds
  let products ← (List.range h.productCount).foldlM
    (scanCellProduct rt program ledger a clock h funded d) []
  let scan ← (List.range h.sellerCount).foldlM
    (scanSeller rt program ledger a clock h funded products d) {}
  let graphs ← (List.range h.residualCount).foldlM
    (fun graphs _ => scanCellResidual a h funded products scan.sellers d graphs)
    { externalLegs := (funded.map fun f => f.graph.legs.length).getD 0, cursor := start }
  need (graphs.cursor = d.size ∧ scan.internalCash + graphs.residualInput = h.input) .conservation
  let cell : Cell n :=
    { header := h, beforeCash, funded, products, sellers := scan.sellers,
      internalRaw := scan.internalRaw, internalCash := scan.internalCash, residuals := graphs.residuals,
      global := graphs.global, externalLegs := graphs.externalLegs }
  (List.range products.length).forM (checkCellProduct a cell graphs.globalProducts)
  preflightCell program ledger a clock cell
  .ok cell

end Check

/-! ## Execution -/

section Execute

variable (natives : Natives) (rt : Runtime) {n : ℕ} (a : Accounts n) (clock : Clock) {program : ProgramId}
  (venues : Venues program)

/-- A graph with another input. -/
def withInput (bytes : Buffer) (input : ℕ) : Outcome Buffer :=
  okOr (bytes.splice 12 (Buffer.toBytes 8 input)) .overflow

/-- The cash that a graph adds to the signed one, and the cell that spends it. -/
structure Financed (n : ℕ) where
  cell : Cell n
  fundedCash : ℕ
  input : ℕ

variable (program) in
/-- Give the funded cash to the graph over all products, or the surplus to one of them. -/
def spendFunded (ledger : Ledger) (cell : Cell n) (f : Funded n) (cash : ℕ) : Outcome (Cell n) := do
  let h := cell.header
  if f.funding.globalReflow then do
    let external ← checkedSub cash cell.internalCash .conservation
    need (0 < external) .conservation
    let global ← okOr cell.global .bounds
    let bytes ← withInput global.1 external
    preflightGraph program ledger a clock bytes h.buyer h.nonce cell.tokens 0
    let g ← ad (Graph.decode bytes n)
    .ok { cell with global := some (bytes, g) }
  else do
    let surplus ← checkedSub cash h.input .conservation
    let residual ← okOr (cell.residuals f.funding.surplusProduct) .bounds
    let previous ← ad (u64At residual.1 12)
    let increased ← checkedSum previous surplus .bounds
    let bytes ← withInput residual.1 increased
    preflightGraph program ledger a clock bytes h.buyer h.nonce cell.tokens 0
    let g ← ad (Graph.decode bytes n)
    .ok { cell with
      residuals := Function.update cell.residuals f.funding.surplusProduct (some (bytes, g)) }

/-- Run the funding graph, if there is one. -/
def fundCell (cell : Cell n) : Step (Financed n) :=
  match cell.funded with
  | none => pure { cell, fundedCash := 0, input := cell.header.input }
  | some f => do
    let outcome ← executePreflightedGraphFor natives a clock venues f.funding.bytes cell.header.buyer
    let cash := outcome.actualOut
    lift (need (outcome.sequence = cell.header.sequence ∧ cell.header.input ≤ cash ∧ cash ≤ maxInput)
      .conservation)
    let s ← get
    let cell ← lift (spendFunded a clock program s.ledger cell f cash)
    pure { cell, fundedCash := cash, input := cash }

/-- The transfers of a seller: cash from the buyer, then stock from the seller or its order. -/
def transferSeller (h : CellHeader n) (s : CellSeller n) : Step Unit := do
  transferChecked a venues h.source h.cashMint s.cashDestination h.buyer h.cashProgram s.cashOutput
  if s.resting then
    transferFill rt a venues s.source s.product.mint s.product.destination s.nonce s.product.tokenProgram
      s.owner s.orderNonce s.stockInput
  else
    transferChecked a venues s.source s.product.mint s.product.destination s.owner s.product.tokenProgram
      s.stockInput

/-- Execute the graph of one product. -/
def executeResidual (h : CellHeader n) (bytes : Buffer) : Step Unit := do
  let outcome ← executePreflightedGraphFor natives a clock venues bytes h.buyer
  lift (need (outcome.sequence = h.sequence) .replay)

/-- The converter of an asset of the graph over all products. -/
def cellConverter (ledger : Ledger) (products : List (CellProduct n)) (g : Graph n)
    (i : Fin g.assetCount) : Outcome Converter := do
  let p ← okOr (products.find? fun p => decide (IsProduct a (g.assets i) p)) .identity
  Converter.decode (ledger (a.key p.mint)) p.conversion clock.unixTimestamp

/-- The converters of the assets behind the cash. -/
def cellConverters (ledger : Ledger) (products : List (CellProduct n)) (g : Graph n) :
    Outcome (ℕ → Option Converter) :=
  (List.finRange g.assetCount).tail.foldlM (fun converters i => do
    let converter ← cellConverter a clock ledger products g i
    .ok (Function.update converters i (some converter))) fun _ => none

/-- Execute the graph over all products, if there is one. -/
def executeGlobal (financed : Financed n) : Step Unit :=
  let cell := financed.cell
  match cell.global with
  | none => pure ()
  | some (bytes, g) => do
    let s ← get
    let converters ← lift (cellConverters a clock s.ledger cell.products g)
    let legs ← lift (checkedSub 4 cell.externalLegs .bounds)
    let outcome ← executeEconomicReflowFor natives a clock venues bytes cell.header.buyer converters legs
    let input ← lift (checkedSub financed.input cell.internalCash .conservation)
    lift (need (outcome.sequence = cell.header.sequence ∧ outcome.actualIn = input ∧
      0 < outcome.exposureQ32 ∧ 0 < outcome.executed) .conservation)

/-! ## The last checks -/

/-- What the buyer's authority covers: the cash, or what the funding graph spent. -/
def authorizedInput (ledger : Ledger) (financed : Financed n) : Outcome ℕ := do
  let cell := financed.cell
  let h := cell.header
  let after ← h.cash a ledger false
  let total ← checkedSum cell.beforeCash financed.fundedCash .conservation
  need (after ≤ total ∧ total - after = financed.input) .conservation
  match cell.funded with
  | none => .ok financed.input
  | some f => do
    let after ← checkedAsset ledger a (a.key h.buyer) (a.key f.source.token) (a.key f.source.mint)
      (a.key f.source.program) false
    need (after ≤ f.beforeInput ∧ f.beforeInput - after = f.graph.input) .conservation
    .ok f.graph.input

/-- What the buyer received of a product, with its exposure. -/
def productRow (ledger : Ledger) (cell : Cell n) (p : CellProduct n × ℕ) : Outcome (ℕ × ℕ) := do
  let after ← p.1.balance ledger a cell.header false
  let raw ← checkedSub after p.1.beforeOutput .conservation
  need (cell.internalRaw p.2 ≤ raw) .conservation
  let exposure ← (if raw = 0 then .ok 0
    else convert (ledger (a.key p.1.mint)) p.1.conversion raw clock.unixTimestamp)
  .ok (raw, exposure)

/-- The rows of the products and the total exposure. -/
def productRows (ledger : Ledger) (cell : Cell n) :
    List (CellProduct n × ℕ) → ℕ → Outcome (List (ℕ × ℕ) × ℕ)
  | [], total => .ok ([], total)
  | p :: rest, total => do
    let row ← productRow a clock ledger cell p
    let total ← checkedSum total row.2 .bounds
    let (rows, total) ← productRows ledger cell rest total
    .ok (row :: rows, total)

/-- A seller has given exactly its stock for exactly its cash. -/
def settledSeller (ledger : Ledger) (h : CellHeader n) (s : CellSeller n) : Outcome Unit := do
  let stock ← s.stock ledger a false
  let cash ← s.cash ledger a h false
  need ((stock ≤ s.beforeStock ∧ s.beforeStock - stock = s.stockInput) ∧
    (s.beforeCash ≤ cash ∧ cash - s.beforeCash = s.cashOutput) ∧ s.minimumCashOutput ≤ s.cashOutput)
    .conservation

/-- What a cell has done, after all CPIs. -/
structure Cleared where
  authorized : ℕ
  rows : List (ℕ × ℕ)
  exposure : ℕ

/-- The checks after the last CPI. -/
def settleCell (ledger : Ledger) (financed : Financed n) : Outcome Cleared := do
  let cell := financed.cell
  let authorized ← authorizedInput a ledger financed
  let (rows, exposure) ← productRows a clock ledger cell cell.products.zipIdx 0
  need (cell.header.minimumExposure ≤ exposure) .minOut
  cell.sellers.forM (settledSeller a ledger cell.header)
  .ok { authorized, rows, exposure }

/-- Write a seller's nonce or order. -/
def recordSeller (s : CellSeller n) : Step Unit :=
  if s.resting then recordFill (a.key s.nonce) s.sequence s.stockInput s.cashOutput
  else writeData (a.key s.nonce) 40 (Buffer.toBytes 8 (s.sequence + 1) ++
    Buffer.toBytes 8 s.stockInput ++ Buffer.toBytes 8 s.cashOutput)

/-- The tag of a receipt. -/
def cellTag (h : CellHeader n) (funding : Option Funding) : List UInt8 :=
  if funding.isSome ∧ h.globalReflow funding then [83, 75, 69, 87, 77, 83, 70, 50]
  else if h.directReflow then [83, 75, 69, 87, 77, 83, 82, 49]
  else if funding.isSome then [83, 75, 69, 87, 77, 83, 70, 49]
  else [83, 75, 69, 87, 77, 83, 72, 49]

/-- The receipt of a cell. -/
def cellReceipt (financed : Financed n) (funding : Option Funding) (cleared : Cleared) : List UInt8 :=
  let cell := financed.cell
  cellTag cell.header funding ++
  [cell.header.sequence, cleared.authorized, cleared.exposure, cell.products.length,
    cell.sellers.length].flatMap (Buffer.toBytes 8) ++
  (if funding.isSome then Buffer.toBytes 8 financed.fundedCash else []) ++
  cleared.rows.flatMap (fun row => Buffer.toBytes 8 row.1 ++ Buffer.toBytes 8 row.2) ++
  cell.sellers.flatMap fun s =>
    Buffer.toBytes 8 s.sequence ++ Buffer.toBytes 8 s.stockInput ++ Buffer.toBytes 8 s.cashOutput

/-- The CPIs of a checked cell. -/
def executeCell (cell : Cell n) : Step (Financed n) := do
  let financed ← fundCell natives a clock venues cell
  financed.cell.sellers.forM (transferSeller rt a venues financed.cell.header)
  financed.cell.graphs.forM fun r => executeResidual natives a clock venues financed.cell.header r.1
  executeGlobal natives a clock venues financed
  pure financed

/-- The nonces and orders of a cleared cell. -/
def recordCell (cell : Cell n) (cleared : Cleared) : Step Unit := do
  let h := cell.header
  writeData (a.key h.nonce) 40 (Buffer.toBytes 8 (h.sequence + 1) ++
    Buffer.toBytes 8 cleared.authorized ++ Buffer.toBytes 8 cleared.exposure)
  cell.sellers.forM (recordSeller a)

/-- `clear_inner`. -/
def clearInner (d : Buffer) (funding : Option Funding) : Step Unit := do
  let s ← get
  let cell ← lift (checkCell rt program s.ledger a clock d funding)
  let financed ← executeCell natives rt a clock venues cell
  let s ← get
  let cleared ← lift (settleCell a clock s.ledger financed)
  recordCell a financed.cell cleared
  setReturnData (cellReceipt financed funding cleared)

/-- `meshcell::clear`: opcode 14. -/
def clearMeshCell (d : Buffer) : Step Unit := clearInner natives rt a clock venues d none

/-- The form of opcode 18. -/
def FundingForm (d : Buffer) (n : ℕ) : Prop :=
  (8 ≤ d.size ∧ d.size ≤ 1024) ∧ d.byte 0 = 18 ∧ (d.byte 1 = 1 ∨ d.byte 1 = 2) ∧
    (d.byte 1 = 1 ∨ d.byte 2 = 0) ∧ d.byte 3 = 0 ∧ n ≤ maxAccounts

instance decidableFundingForm (d : Buffer) (n : ℕ) : Decidable (FundingForm d n) :=
  inferInstanceAs (Decidable (_ ∧ _))

/-- `funding::execute`: opcode 18. -/
def executeFunding (d : Buffer) : Step Unit := do
  lift (need (FundingForm d n) .bounds)
  -- no account is listed twice
  lift (need (∀ i j, a.key i = a.key j → i = j) .identity)
  let fundingLen ← lift (okOr (d.number 4 2) .overflow)
  let cellLen ← lift (okOr (d.number 6 2) .overflow)
  lift (need (8 + fundingLen + cellLen = d.size) .bounds)
  let bytes ← lift (window d 8 fundingLen)
  let cell ← lift (window d (8 + fundingLen) cellLen)
  clearInner natives rt a clock venues cell
    (some { bytes, surplusProduct := (d.byte 2).toNat, globalReflow := d.byte 1 = 2 })

end Execute

end StockMesh.Settle

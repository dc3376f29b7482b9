import StockMesh.Settle.Claim
import StockMesh.Settle.Records

/-! # Settlement by exposure

Opcode 13 settles several graphs, one for each product of a stock, under one nonce. Every graph and policy is
checked before the first CPI, and no two graphs share a writable account but the source. The products stay
apart; only the total of their conservative exposures has to reach the signed minimum. -/

namespace StockMesh.Settle

open Stateful

/-- `MAX_PRODUCTS`. -/
def maxProducts : ℕ := 4

/-- Bytes before the products of opcode 13 (`HEADER_LEN`). -/
def exposureHeaderLen : ℕ := 28

/-- Bytes of a product before its graph (`DESCRIPTOR_LEN`). -/
def descriptorLen : ℕ := 32

/-- A part of a payload. -/
def window (d : Buffer) (offset length : ℕ) : Outcome Buffer := do
  need (offset + length ≤ d.size) .bounds
  .ok ⟨length, fun i => d.byte (offset + i)⟩

/-- One product of the payload (`ProductGraph`). -/
structure ProductGraph (n : ℕ) where
  policyIndex : ℕ
  policyVersion : ℕ
  conversion : ConversionTerms
  bytes : Buffer
  graph : Graph n

namespace ProductGraph

variable {n : ℕ} (p : ProductGraph n)

/-- The asset that the graph spends. -/
def source : Asset n := p.graph.assets p.graph.first

/-- The asset that the graph delivers. -/
def sink : Asset n := p.graph.assets p.graph.sink

end ProductGraph

/-- CPIs that a graph may make. -/
def maximumLegs {n : ℕ} (g : Graph n) : ℕ := if 0 < g.reflowCalls then 4 else g.legs.length

/-- No writable account but the excepted one belongs to both graphs (`references`). -/
def SeparateGraphs {n : ℕ} (a : Accounts n) (x y : Graph n) (except : List (Fin n)) : Prop :=
  ∀ i : Fin n, a.isWritable (a.key i) = true → i ∉ except → Avoids x i ∨ Avoids y i

instance decidableSeparateGraphs {n : ℕ} (a : Accounts n) (x y : Graph n) (except : List (Fin n)) :
    Decidable (SeparateGraphs a x y except) := inferInstanceAs (Decidable (∀ _, _))

/-- The tokens of a graph, by account index. -/
def graphTokens {n : ℕ} (g : Graph n) : List ℕ :=
  (List.finRange g.assetCount).map fun i => ((g.assets i).token : ℕ)

section Scan

variable (rt : Runtime) (program : ProgramId) {n : ℕ} (ledger : Ledger) (a : Accounts n) (clock : Clock)

/-- The terms of a conversion that a payload may name. -/
def ConversionTerms.Admitted (t : ConversionTerms) : Prop :=
  0 < t.numerator ∧ 0 < t.denominator ∧ 1 ≤ t.conservativeBps ∧ t.conservativeBps ≤ 10000 ∧
    (t.model = fixedRational ∨ t.model = token2022ScaledUi)

instance decidableAdmitted (t : ConversionTerms) : Decidable t.Admitted :=
  inferInstanceAs (Decidable (_ ∧ _))

/-- The numbers of opcode 13. -/
structure ExposureCall where
  allowClosed : Bool
  deadline : ℕ
  minimumExposure : ℕ
  maximumPolicyAge : ℕ

/-- The descriptor and the graph at a position of the payload, with the position behind them. -/
def readProductGraph (d : Buffer) (n cursor : ℕ) : Outcome (ProductGraph n × ℕ) := do
  let descriptor ← okOr (d.slice cursor descriptorLen) .bounds
  need (descriptor.getD 30 0 = 0 ∧ descriptor.getD 31 0 = 0) .bounds
  let length ← okOr (d.number (cursor + 28) 2) .overflow
  let bytes ← window d (cursor + descriptorLen) length
  let graph ← ad (Graph.decode bytes n)
  let conservativeBps ← okOr (d.number (cursor + 2) 2) .overflow
  let policyVersion ← ad (u64At d (cursor + 4))
  let numerator ← ad (u64At d (cursor + 12))
  let denominator ← ad (u64At d (cursor + 20))
  let conversion : ConversionTerms :=
    { model := descriptor.getD 1 0, conservativeBps, numerator, denominator }
  .ok ({ policyIndex := (descriptor.getD 0 0).toNat, policyVersion, conversion, bytes, graph },
    cursor + descriptorLen + length)

/-- The products read so far. -/
structure ProductScan (n : ℕ) where
  products : List (ProductGraph n) := []
  totalInput : ℕ := 0
  legs : ℕ := 0
  cursor : ℕ := exposureHeaderLen

/-- One product more. All spend the same account under the same sequence. -/
def scanProduct (call : ExposureCall) (d : Buffer) (scan : ProductScan n) : Outcome (ProductScan n) := do
  let (p, cursor) ← readProductGraph d n scan.cursor
  let g := p.graph
  need (g.deadline ≤ call.deadline ∧ 0 < g.minOut) .bounds
  need (∀ first ∈ scan.products.head?, p.source.token = first.source.token ∧
    p.source.mint = first.source.mint ∧ p.source.program = first.source.program) .identity
  need (∀ first ∈ scan.products.head?, g.sequence = first.graph.sequence) .replay
  let totalInput ← checkedSum scan.totalInput g.input .bounds
  let legs := scan.legs + maximumLegs g
  need (totalInput ≤ maxInput ∧ legs ≤ 4) .bounds
  need (0 < p.policyVersion ∧ p.conversion.Admitted) .bounds
  validatePolicyForGraph rt program ledger a clock p.policyIndex p.policyVersion call.maximumPolicyAge
    call.allowClosed g
  need (∀ prior ∈ scan.products, a.key prior.sink.mint ≠ a.key p.sink.mint ∧
    SeparateGraphs a prior.graph g [p.source.token]) .identity
  .ok { products := scan.products ++ [p], totalInput, legs, cursor }

/-- A checked payload of opcode 13. -/
structure ExposurePlan (n : ℕ) where
  call : ExposureCall
  wallet : Fin n
  nonce : Fin n
  first : ProductGraph n
  products : List (ProductGraph n)
  totalInput : ℕ
  beforeInput : ℕ

/-- The wallet's balance of the source. -/
def sourceBalance (ledger : Ledger) (wallet : Fin n) (first : ProductGraph n) : Outcome ℕ :=
  checkedAsset ledger a (a.key wallet) (a.key first.source.token) (a.key first.source.mint)
    (a.key first.source.program) false

/-- The tokens of all graphs. -/
def productTokens (products : List (ProductGraph n)) : List ℕ :=
  products.flatMap fun p => graphTokens p.graph

/-- The header of opcode 13 and the number of products. -/
def exposureHeader (d : Buffer) : Outcome (ExposureCall × ℕ) := do
  need (exposureHeaderLen ≤ d.size ∧ d.byte 0 = 13 ∧ d.byte 2 ≤ 1 ∧ d.byte 3 = 0) .bounds
  let count := (d.byte 1).toNat
  need ((1 ≤ count ∧ count ≤ maxProducts) ∧ n ≤ maxAccounts) .bounds
  let deadline ← ad (u64At d 4)
  let minimumExposure ← ad (u64At d 12)
  let maximumPolicyAge ← ad (u64At d 20)
  need (0 < minimumExposure ∧ 1 ≤ maximumPolicyAge ∧ maximumPolicyAge ≤ 150) .bounds
  need (clock.slot ≤ deadline ∧ 0 ≤ clock.unixTimestamp) .expired
  .ok ({ allowClosed := d.byte 2 = 1, deadline, minimumExposure, maximumPolicyAge }, count)

/-- The checks of `execute` before the first CPI. -/
def checkExposure (d : Buffer) : Outcome (ExposurePlan n) := do
  let (call, count) ← exposureHeader (n := n) clock d
  need (2 < n) .identity
  let wallet ← accountIndex n 0 .identity
  let nonce ← accountIndex n 1 .identity
  need (a.isSigner (a.key wallet) = true ∧ a.isWritable (a.key nonce) = true ∧
    (ledger (a.key nonce)).owner = program) .identity
  let scan ← (List.range count).foldlM (fun scan _ => scanProduct rt program ledger a clock call d scan) {}
  need (scan.cursor = d.size) .bounds
  scan.products.forM fun p =>
    preflightGraph program ledger a clock p.bytes 0 1 (productTokens scan.products) 0
  let first ← okOr scan.products.head? .bounds
  let beforeInput ← sourceBalance a ledger wallet first
  need (scan.totalInput ≤ beforeInput) .bounds
  .ok { call, wallet, nonce, first, products := scan.products, totalInput := scan.totalInput, beforeInput }

end Scan

section Execute

variable (natives : Natives) (rt : Runtime) {n : ℕ} (a : Accounts n) (clock : Clock) {program : ProgramId}
  (venues : Venues program)

/-- Execute one product: what it delivered, and its exposure. -/
def executeProduct (wallet : Fin n) (sequence : ℕ) (p : ProductGraph n) : Step (ℕ × ℕ) := do
  let outcome ← executePreflightedGraphFor natives a clock venues p.bytes wallet
  lift (need (outcome.sequence = sequence) .replay)
  let s ← get
  let exposure ← lift (convert (s.ledger (a.key p.sink.mint)) p.conversion outcome.actualOut
    clock.unixTimestamp)
  pure (outcome.actualOut, exposure)

/-- The loop over the products, with the total exposure. -/
def executeProducts (wallet : Fin n) (sequence : ℕ) :
    List (ProductGraph n) → ℕ → Step (List (ℕ × ℕ) × ℕ)
  | [], total => pure ([], total)
  | p :: rest, total => do
    let row ← executeProduct natives a clock venues wallet sequence p
    let total ← lift (checkedSum total row.2 .bounds)
    let (rows, total) ← executeProducts wallet sequence rest total
    pure (row :: rows, total)

/-- `exposure::execute`: opcode 13. -/
def executeExposure (d : Buffer) : Step Unit := do
  let s ← get
  let plan ← lift (checkExposure rt program s.ledger a clock d)
  let sequence := plan.first.graph.sequence
  let (rows, total) ← executeProducts natives a clock venues plan.wallet sequence plan.products 0
  let s ← get
  let afterInput ← lift (sourceBalance a s.ledger plan.wallet plan.first)
  lift (need (afterInput ≤ plan.beforeInput ∧ plan.beforeInput - afterInput = plan.totalInput)
    .conservation)
  lift (need (plan.call.minimumExposure ≤ total) .minOut)
  let next ← lift (checkedSum sequence 1 .bounds)
  writeData (a.key plan.nonce) 40 (Buffer.toBytes 8 next ++ Buffer.toBytes 8 plan.totalInput ++
    Buffer.toBytes 8 total)
  -- SKEWEXP1
  setReturnData ([83, 75, 69, 87, 69, 88, 80, 49] ++ Buffer.toBytes 8 sequence ++
    Buffer.toBytes 8 plan.totalInput ++ Buffer.toBytes 8 total ++ Buffer.toBytes 8 plan.products.length ++
    rows.flatMap fun row => Buffer.toBytes 8 row.1 ++ Buffer.toBytes 8 row.2)

end Execute

end StockMesh.Settle

import StockMesh.Settle.Crossing
import StockMesh.Settle.Exposure

/-! # Cells of signed intents

Opcode 12 crosses up to four intents by transfers and settles what is left of each by a graph of its own
owner. The owners, nonces and balances of all intents are different accounts, no graph touches another
owner's, and no two graphs share a writable account. -/

namespace StockMesh.Settle

open Stateful

/-- `MAX_EXTERNAL_LEGS`. -/
def maxExternalLegs : ℕ := 4

/-- The graph of what is left of an intent. -/
structure Residual (n : ℕ) where
  slot : ℕ
  bytes : Buffer
  graph : Graph n

section Check

variable (program : ProgramId) {n : ℕ} (ledger : Ledger) (a : Accounts n) (clock : Clock)

/-- The accounts that belong to one intent alone. -/
def Intent.financial (i : Intent n) : List Key :=
  [a.key i.owner, a.key i.nonce, a.key i.source, a.key i.destination]

/-- The accounts that a graph names. -/
def graphAccounts (g : Graph n) : List (Fin n) :=
  (List.finRange g.assetCount).flatMap (fun i =>
    [(g.assets i).token, (g.assets i).mint, (g.assets i).program]) ++
  g.legs.flatMap fun leg => leg.program :: leg.accounts

/-- No account of a graph belongs to an intent. -/
def GraphAvoids (g : Graph n) (i : Intent n) : Prop :=
  ∀ index ∈ graphAccounts g, a.key index ∉ i.financial a

instance decidableGraphAvoids (g : Graph n) (i : Intent n) : Decidable (GraphAvoids a g i) :=
  inferInstanceAs (Decidable (∀ _ ∈ _, _))

/-- A residual graph spends what is left of its intent for what it still has to receive. -/
def ResidualOf (deadline : ℕ) (crossings : Crossings) (slot : ℕ) (i : Intent n) (g : Graph n) : Prop :=
  let source := g.assets g.first
  let sink := g.assets g.sink
  g.sequence = i.sequence ∧ g.input = i.input - crossings.sent slot ∧ g.deadline ≤ deadline ∧
  a.key source.token = a.key i.source ∧ a.key source.mint = a.key i.inputMint ∧
  a.key source.program = a.key i.inputProgram ∧ a.key sink.token = a.key i.destination ∧
  a.key sink.mint = a.key i.outputMint ∧ a.key sink.program = a.key i.outputProgram ∧
  max (i.minOut - crossings.received slot) 1 ≤ g.minOut

instance decidableResidualOf (deadline : ℕ) (crossings : Crossings) (slot : ℕ) (i : Intent n)
    (g : Graph n) : Decidable (ResidualOf a deadline crossings slot i g) :=
  inferInstanceAs (Decidable (_ ∧ _))

/-- The residual graphs read so far. -/
structure ResidualScan (n : ℕ) where
  residuals : List (Residual n) := []
  legs : ℕ := 0
  cursor : ℕ

/-- One residual graph more. -/
def scanResidual (deadline : ℕ) (d : Buffer) (intents : List (Intent n)) (crossings : Crossings)
    (scan : ResidualScan n) : Outcome (ResidualScan n) := do
  let header ← okOr (d.slice scan.cursor 3) .bounds
  let slot := (header.getD 0 0).toNat
  let length ← okOr (d.number (scan.cursor + 1) 2) .overflow
  let bytes ← window d (scan.cursor + 3) length
  need (slot < intents.length ∧ ∀ r ∈ scan.residuals, r.slot ≠ slot) .bounds
  let i ← okOr intents[slot]? .bounds
  let left ← checkedSub i.input (crossings.sent slot) .conservation
  need (0 < left) .conservation
  let g ← ad (Graph.decode bytes n)
  need (ResidualOf a deadline crossings slot i g) .identity
  let legs := scan.legs + maximumLegs g
  need (legs ≤ maxExternalLegs) .bounds
  need (∀ other ∈ intents, other.owner ≠ i.owner → GraphAvoids a g other) .identity
  preflightGraph program ledger a clock bytes i.owner i.nonce [] 0
  .ok { residuals := scan.residuals ++ [{ slot, bytes, graph := g }], legs,
        cursor := scan.cursor + 3 + length }

/-- The legs of two graphs share no writable account. -/
def SeparateResiduals (x y : Graph n) : Prop :=
  ∀ l ∈ x.legs, ∀ i ∈ l.accounts, a.isWritable (a.key i) = true →
    ∀ m ∈ y.legs, ∀ j ∈ m.accounts, a.isWritable (a.key j) = true → a.key i ≠ a.key j

instance decidableSeparateResiduals (x y : Graph n) : Decidable (SeparateResiduals a x y) :=
  inferInstanceAs (Decidable (∀ _ ∈ _, _))

/-- The residual graph of an intent. -/
def residualOf (residuals : List (Residual n)) (slot : ℕ) : Option (Residual n) :=
  residuals.find? fun r => decide (r.slot = slot)

/-- A checked cell. -/
structure FlowCell (n : ℕ) where
  intents : List (Intent n)
  transfers : List Crossed
  residuals : List (Residual n)

/-- The checks of `clear` before the first transfer. -/
def checkFlowCell (d : Buffer) : Outcome (FlowCell n) := do
  need (12 ≤ d.size ∧ d.byte 0 = 12 ∧ n ≤ maxAccounts) .bounds
  let count := (d.byte 1).toNat
  let transferCount := (d.byte 2).toNat
  let residualCount := (d.byte 3).toNat
  need ((2 ≤ count ∧ count ≤ maxIntents) ∧ (1 ≤ transferCount ∧ transferCount ≤ maxTransfers) ∧
    residualCount ≤ count) .bounds
  let deadline ← ad (u64At d 4)
  need (clock.slot ≤ deadline) .expired
  let start := 12 + count * intentLen
  let transferEnd := start + transferCount * transferLen
  need (transferEnd ≤ d.size) .bounds
  let intents ← readIntents program ledger a d count
  need ((intents.flatMap (Intent.financial a)).Nodup) .identity
  let transfers ← readTransfers d start transferCount
  let crossings ← crossAll a intents transfers
  let scan ← (List.range residualCount).foldlM
    (fun scan _ => scanResidual program ledger a clock deadline d intents crossings scan)
    { cursor := transferEnd }
  need (scan.cursor = d.size) .bounds
  need (∀ p ∈ intents.zipIdx, crossings.sent p.2 < p.1.input ↔
    (residualOf scan.residuals p.2).isSome = true) .conservation
  need (scan.residuals.Pairwise fun x y => SeparateResiduals a x.graph y.graph) .identity
  .ok { intents, transfers, residuals := scan.residuals }

end Check

section Execute

variable (natives : Natives) {n : ℕ} (a : Accounts n) (clock : Clock) {program : ProgramId}
  (venues : Venues program)

/-- Settle the residual graph of an intent, if it has one. -/
def settleResidual (cell : FlowCell n) (p : Intent n × ℕ) : Step Unit :=
  match residualOf cell.residuals p.2 with
  | some r => settleGraphFor natives a clock venues r.bytes p.1.owner p.1.nonce
  | none => pure ()

/-- Write what an intent spent and received; its residual graph has advanced the nonce already. -/
def writeIntent (settled : Bool) (i : Intent n) (input output : ℕ) : Step Unit := do
  let s ← get
  let rest := Buffer.toBytes 8 input ++ Buffer.toBytes 8 output
  if settled then do
    let stored ← lift (ad (u64At (s.ledger (a.key i.nonce)).data 40))
    lift (need (stored = i.sequence + 1) .replay)
    writeData (a.key i.nonce) 48 rest
  else writeData (a.key i.nonce) 40 (Buffer.toBytes 8 (i.sequence + 1) ++ rest)

/-- Check what an intent spent and received and write its nonce; the row of the receipt. -/
def recordResidual (cell : FlowCell n) (p : Intent n × ℕ) : Step (List UInt8) := do
  let s ← get
  let (input, output) ← lift (intentDeltas a s.ledger p.1)
  writeIntent a (residualOf cell.residuals p.2).isSome p.1 input output
  pure (Buffer.toBytes 8 p.1.sequence ++ Buffer.toBytes 8 input ++ Buffer.toBytes 8 output)

/-- `flowcell::clear`: opcode 12. -/
def clearFlowCell (d : Buffer) : Step Unit := do
  let s ← get
  let cell ← lift (checkFlowCell program s.ledger a clock d)
  cell.transfers.forM (crossTransfer a cell.intents venues)
  cell.intents.zipIdx.forM (settleResidual natives a clock venues cell)
  let rows ← cell.intents.zipIdx.mapM (recordResidual a cell)
  -- SKEWCEL2
  setReturnData ([83, 75, 69, 87, 67, 69, 76, 50] ++ Buffer.toBytes 8 cell.intents.length ++ rows.flatten)

end Execute

end StockMesh.Settle

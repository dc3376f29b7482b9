import StockMesh.Settle.Exposure

/-! # Funding of a cell

Opcode 18 runs one fixed graph that turns another asset of the buyer into the cash of a cell, before the cell
itself. `inspect` fixes what the graph spends; none of its accounts may be one of the cell's. -/

namespace StockMesh.Settle

/-- `Funding`. -/
structure Funding where
  bytes : Buffer
  surplusProduct : ℕ
  /-- All funded cash goes through one graph over several products. -/
  globalReflow : Bool

/-- An inspected funding graph (`State`). -/
structure Funded (n : ℕ) where
  funding : Funding
  graph : Graph n
  beforeInput : ℕ

namespace Funded

variable {n : ℕ} (f : Funded n)

/-- The asset that the graph spends. -/
def source : Asset n := f.graph.assets f.graph.first

end Funded

section Funding

variable {n : ℕ} (ledger : Ledger) (a : Accounts n)

/-- `Funding::inspect`. -/
def Funding.inspect (f : Funding) (buyer : Fin n) (sequence : ℕ) (cash cashMint cashProgram : Fin n)
    (deadline minimumCash : ℕ) : Outcome (Funded n) := do
  let g ← ad (Graph.decode f.bytes n)
  let sink := g.assets g.sink
  need (f.bytes.byte 0 = 2 ∧ g.legs.length ≤ 3 ∧ g.sequence = sequence ∧ g.deadline ≤ deadline ∧
    minimumCash ≤ g.minOut ∧ a.key sink.token = a.key cash ∧ a.key sink.mint = a.key cashMint ∧
    a.key sink.program = a.key cashProgram) .identity
  let source := g.assets g.first
  need (a.key source.token ≠ a.key cash ∧ a.key source.mint ≠ a.key cashMint) .identity
  let beforeInput ← checkedAsset ledger a (a.key buyer) (a.key source.token) (a.key source.mint)
    (a.key source.program) true
  need (g.input ≤ beforeInput) .bounds
  .ok { funding := f, graph := g, beforeInput }

/-- `Funding::exclude`, when there is funding. -/
def Excludes (funded : Option (Funded n)) (indices : List (Fin n)) : Prop :=
  ∀ f ∈ funded, ∀ i ∈ indices, Avoids f.graph i

instance decidableExcludes (funded : Option (Funded n)) (indices : List (Fin n)) :
    Decidable (Excludes funded indices) := inferInstanceAs (Decidable (∀ _ ∈ _, _))

/-- `Funding::separate`, when there is funding. -/
def SeparateFunding (funded : Option (Funded n)) (other : Graph n) (buyer cash : Fin n) : Prop :=
  ∀ f ∈ funded, SeparateGraphs a f.graph other [buyer, cash]

instance decidableSeparateFunding (funded : Option (Funded n)) (other : Graph n) (buyer cash : Fin n) :
    Decidable (SeparateFunding a funded other buyer cash) := inferInstanceAs (Decidable (∀ _ ∈ _, _))

end Funding

end StockMesh.Settle

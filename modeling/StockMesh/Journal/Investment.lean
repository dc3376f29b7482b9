import StockMesh.Host.Answer
import StockMesh.Adapters.Layout
import StockMesh.Foundation.Table

/-! # Investment plans

A plan splits one budget over the stocks of a strategy. It is carried out in tranches, each a range of
consecutive allocations bought by one signed transaction, and the journal of transactions is the only
record of how far it has come. `Plan.cursor` reads that record: the reconciled tranches pave the
allocations from the first one, and at most one tranche after them is still pending. -/

namespace StockMesh.Journal

open Host (Answer refuse refuse_of_not bounded bounded_eq_ok)

/-- Most stocks of one transaction (`MAX_ATOMIC_STOCKS`). -/
def maxAtomicStocks : ℕ := 3

/-- The phases of a journaled transaction. -/
inductive Phase
  | prepared
  | submitted
  | unknown
  | finalized
  | failed
  | reconciled
  deriving DecidableEq, Repr

/-- The amount of one stock of a plan. -/
structure Allocation where
  instrument : String
  inputAtoms : String
  deriving DecidableEq

/-- A budget and its split over stocks. -/
structure Plan where
  id : String
  nonce : String
  owner : String
  strategyId : String
  versionHash : String
  totalInputAtoms : String
  retainedCashAtoms : String
  maxSlippageBps : ℕ
  allocations : List Allocation
  deriving DecidableEq

/-- The allocations from `start` up to `finish`. -/
structure StockRange where
  start : ℕ
  finish : ℕ
  deriving DecidableEq

/-- The number of allocations of a range. -/
def StockRange.length (r : StockRange) : ℕ := r.finish - r.start

/-- One step of a plan. A tranche without a stock range is one of the fixed ranges of its plan. -/
structure Tranche where
  plan : Plan
  index : ℕ
  stockRange : Option StockRange
  deriving DecidableEq

/-- How far a plan has come. -/
inductive Progress
  | ready (index : ℕ)
  | pending (index : ℕ)
  | complete
  deriving DecidableEq

/-- One stock of a basket. -/
structure Target where
  instrument : String
  inputAtoms : ℕ
  deriving DecidableEq

/-- What the owner of a basket asked for. -/
structure Intent where
  owner : String
  strategyVersion : List UInt8
  totalInputAtoms : ℕ
  retainedCashAtoms : ℕ
  targets : List Target
  deriving DecidableEq

/-- The expected outcome of a basket transaction. `rest` is what only its reconciliation reads. -/
structure ExpectedBasket (τ : Type) where
  intent : Intent
  investment : Option Tranche
  rest : τ
  deriving DecidableEq

/-- A journaled transaction. The exposure and the swap it may expect instead of a basket are read by
their reconciliation only. -/
structure Entry (τ : Type) where
  id : String
  quoteId : Option String
  signature : String
  wire : List UInt8
  messageHash : List UInt8
  lastValidHeight : ℕ
  resources : List Key
  expectedExposure : Option τ
  expectedSwap : Option τ
  expectedBasket : Option (ExpectedBasket τ)
  phase : Phase
  attempts : ℕ
  deriving DecidableEq

/-- Functions of other crates. -/
structure Crates where
  /-- `Pubkey::from_str`. -/
  parseKey : String → Option Key
  /-- `Pubkey::to_string`. -/
  showKey : Key → String
  /-- `serde_json::to_vec` of a plan. -/
  planJson : Plan → List UInt8
  /-- `Sha256::digest`. -/
  sha256 : List UInt8 → List UInt8

/-! ## Numbers and identities as text -/

/-- A lower-case hexadecimal digit. -/
def isHexDigit (c : Char) : Bool := c.isDigit || ('a' ≤ c && c ≤ 'f')

/-- `hex`: `n` lower-case hexadecimal digits. -/
def hex (s : List Char) (n : ℕ) : Prop := s.length = n ∧ s.all isHexDigit

instance (s : List Char) (n : ℕ) : Decidable (hex s n) := inferInstanceAs (Decidable (_ ∧ _))

/-- The two hexadecimal digits of a byte (`{b:02x}`). -/
def hexByte (b : UInt8) : List Char := [Nat.digitChar (b.toNat / 16), Nat.digitChar (b.toNat % 16)]

/-- The number with the given decimal digits. -/
def decimal (digits : List Char) : ℕ := digits.foldl (fun n c => 10 * n + (c.toNat - '0'.toNat)) 0

/-- `str::parse::<u64>`. -/
def parseU64 (s : String) : Option ℕ :=
  let digits := if s.toList.head? = some '+' then s.toList.tail else s.toList
  if digits ≠ [] ∧ digits.all Char.isDigit ∧ decimal digits < u64Size then some (decimal digits)
  else none

/-- `atoms`: the canonical decimal form of an amount. -/
def atoms (s : String) : Answer ℕ := do
  let n ← okOr (parseU64 s) "investment atoms"
  refuse (toString n ≠ s) "investment atoms encoding"
  .ok n

/-- `catalog::valid_instrument`. -/
def validInstrument (value : String) : Prop :=
  value.toList ≠ [] ∧ value.toList.length ≤ 32 ∧
    value.toList.all fun c => c.isUpper || c.isDigit || c = '.'

instance (value : String) : Decidable (validInstrument value) :=
  inferInstanceAs (Decidable (_ ∧ _ ∧ _))

/-! ## Plans -/

namespace Plan

variable (crates : Crates)

/-- `Plan::digest`: the identity that the content of a plan hashes to. -/
def digest (plan : Plan) : String :=
  .ofList ("stki_".toList ++ (crates.sha256 ("XTXC_STOCK_INVESTMENT_V1\x00".toUTF8.data.toList ++
    crates.planJson { plan with id := "" })).flatMap hexByte)

/-- One allocation of `validate`: its stock is new and its amount is added to the sum. -/
def addAllocation (state : List String × ℕ) (a : Allocation) : Answer (List String × ℕ) := do
  let n ← atoms a.inputAtoms
  refuse (¬validInstrument a.instrument ∨ n = 0 ∨ a.instrument ∈ state.1)
    "investment stock allocation"
  let sum ← bounded u64Size (state.2 + n) "investment sum overflow"
  .ok (a.instrument :: state.1, sum)

/-- `Plan::validate`. -/
def validate (plan : Plan) : Answer Unit := do
  let owner ← okOr (crates.parseKey plan.owner) "investment owner"
  refuse (owner = .replicate 32 0 ∨ crates.showKey owner ≠ plan.owner ∨ ¬hex plan.nonce.toList 32 ∨
    ¬hex plan.versionHash.toList 64 ∨ ¬"stks_".toList <+: plan.strategyId.toList ∨
    ¬hex (plan.strategyId.toList.drop 5) 64 ∨
    ¬(2 ≤ plan.allocations.length ∧ plan.allocations.length ≤ 16) ∨
    ¬(1 ≤ plan.maxSlippageBps ∧ plan.maxSlippageBps ≤ 100) ∨ plan.id ≠ plan.digest crates)
    "investment identity/bounds"
  let total ← atoms plan.totalInputAtoms
  let cash ← atoms plan.retainedCashAtoms
  refuse (total = 0 ∨ maxInput < total) "investment input bound"
  let (_, sum) ← plan.allocations.foldlM addAllocation ([], cash)
  refuse (sum ≠ total) "investment cash conservation"

/-- The fixed ranges from `start` on, in groups of three without a last group of one. -/
def rangesFrom : ℕ → ℕ → ℕ → List StockRange
  | 0, _, _ => []
  | fuel + 1, start, left =>
    if left = 0 then []
    else
      let n := if left = 4 then 2 else min left 3
      ⟨start, start + n⟩ :: rangesFrom fuel (start + n) (left - n)

/-- `Plan::ranges`. Every group takes an allocation, so the number of allocations is fuel enough. -/
def ranges (plan : Plan) : List StockRange :=
  rangesFrom plan.allocations.length 0 plan.allocations.length

/-- The allocations of a range. -/
def slice (plan : Plan) (r : StockRange) : List Allocation :=
  (plan.allocations.drop r.start).take r.length

end Plan

/-! ## Tranches -/

namespace Tranche

variable (crates : Crates)

/-- `Tranche::range`. -/
def range (t : Tranche) : Answer StockRange := do
  t.plan.validate crates
  match t.stockRange with
  | some r => do
    refuse (r.finish ≤ r.start ∨ t.plan.allocations.length < r.finish ∨ maxAtomicStocks < r.length ∨
      r.start < t.index ∨ u64Size ≤ t.index * maxAtomicStocks ∨ t.index * maxAtomicStocks < r.start)
      "investment adaptive range"
    .ok r
  | none => okOr t.plan.ranges[t.index]? "investment step"

/-- One step of the sum of `input`. -/
def addInput (n : ℕ) (a : Allocation) : Answer ℕ := do
  let v ← atoms a.inputAtoms
  bounded u64Size (n + v) "tranche sum overflow"

/-- `Tranche::input`: the sum of the amounts of the range. -/
def input (t : Tranche) : Answer ℕ := do
  let range ← t.range crates
  (t.plan.slice range).foldlM addInput 0

/-- A target of the transaction is the allocation at its place. -/
def bindTarget (p : Target × Allocation) : Answer Unit := do
  refuse (p.1.instrument ≠ p.2.instrument) "investment target binding"
  let n ← atoms p.2.inputAtoms
  refuse (p.1.inputAtoms ≠ n) "investment target binding"

/-- `Tranche::validate`: the transaction buys exactly the range. -/
def validate (t : Tranche) (intent : Intent) : Answer Unit := do
  let range ← t.range crates
  let version := String.ofList (intent.strategyVersion.flatMap hexByte)
  refuse (intent.owner ≠ t.plan.owner ∨ version ≠ t.plan.versionHash ∨ intent.retainedCashAtoms ≠ 0)
    "investment wire binding"
  let input ← t.input crates
  refuse (intent.totalInputAtoms ≠ input ∨ intent.targets.length ≠ range.length)
    "investment wire binding"
  (intent.targets.zip (t.plan.slice range)).forM bindTarget

end Tranche

/-! ## Progress of a plan -/

variable {τ : Type} (crates : Crates)

/-- The tranche of an entry, with the intent that buys it. -/
def Entry.investment (e : Entry τ) : Option (Tranche × Intent) :=
  e.expectedBasket.bind fun b => b.investment.map fun t => (t, b.intent)

/-- A recorded tranche that has not failed. -/
structure Step where
  index : ℕ
  range : StockRange
  phase : Phase
  deriving DecidableEq

/-- One entry of the first loop of `cursor`. -/
def Plan.collect (plan : Plan) (states : Table Step.index) (e : Entry τ) :
    Answer (Table Step.index) :=
  match e.investment with
  | none => .ok states
  | some (t, intent) =>
    if t.plan.id ≠ plan.id then .ok states
    else do
      refuse (t.plan ≠ plan) "investment identity collision"
      t.validate crates intent
      if e.phase = .failed then .ok states
      else do
        let range ← t.range crates
        refuse ((states.find t.index).isSome = true) "investment duplicate tranche"
        .ok (states.insert ⟨t.index, range, e.phase⟩)

/-- The prefix read so far: the next allocation, the next index and the pending index. -/
structure Cursor where
  start : ℕ
  index : ℕ
  pending : Option ℕ
  deriving DecidableEq

/-- One step of the second loop of `cursor`. -/
def Cursor.advance (c : Cursor) (s : Step) : Answer Cursor := do
  refuse (c.pending.isSome = true ∨ s.index ≠ c.index ∨ s.range.start ≠ c.start)
    "investment predecessor not reconciled or stock overlap"
  if s.phase = .reconciled then .ok { c with start := s.range.finish, index := c.index + 1 }
  else .ok { c with pending := some s.index }

/-- The progress that the prefix of a plan of `n` allocations tells. -/
def Cursor.progress (c : Cursor) (n : ℕ) : Progress :=
  match c.pending with
  | some i => .pending i
  | none => if c.start = n then .complete else .ready c.index

/-- `Plan::cursor`: the progress of a plan and the next allocation. -/
def Plan.cursor (plan : Plan) (entries : List (Entry τ)) : Answer (Progress × ℕ) := do
  plan.validate crates
  let states ← entries.foldlM (plan.collect crates) .empty
  let c ← states.rows.foldlM Cursor.advance ⟨0, 0, none⟩
  .ok (c.progress plan.allocations.length, c.start)

/-- `Plan::progress`. -/
def Plan.progress (plan : Plan) (entries : List (Entry τ)) : Answer Progress := do
  let (progress, _) ← plan.cursor crates entries
  .ok progress

/-- `admission`: a new tranche is the next one of its plan, from the next allocation on. -/
def admission (e : Entry τ) (prior : List (Entry τ)) : Answer Unit :=
  match e.investment with
  | none => .ok ()
  | some (t, intent) => do
    t.validate crates intent
    let (progress, start) ← t.plan.cursor crates prior
    refuse (progress ≠ .ready t.index) "investment already recorded or predecessor unresolved"
    let range ← t.range crates
    refuse (range.start ≠ start) "investment already recorded or predecessor unresolved"

end StockMesh.Journal

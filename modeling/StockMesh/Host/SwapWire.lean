import StockMesh.Host.Feed
import StockMesh.Adapters.Graph
import StockMesh.Settle.Graph

/-! # Compiling a swap graph

`compileGraph` lowers a swap graph of the host to an instruction of the settlement program: it checks the
graph against one bank, orders its assets topologically and writes them, the budgets and the accounts of
its legs by their indices in one account list, whose flags it collects on the way. -/

namespace StockMesh.Host

open Settle (AccountMeta Instruction tokenId token2022Id venueProgram nonceTag)

/-- An account of the frozen bank. -/
structure AccountView where
  owner : Key
  executable : Bool
  data : Buffer

/-- The accounts of an asset. -/
structure TokenAsset where
  token : Key
  mint : Key
  tokenProgram : Key
  deriving DecidableEq

/-- What a leg may spend. -/
inductive Budget
  /-- An amount of the solver. -/
  | exact (amount : ℕ)
  /-- The rest, for the last consumer of an asset. -/
  | remaining
  deriving DecidableEq

/-- A swap of a graph. -/
structure SwapLeg where
  venue : Venue
  direction : Bool
  source : Key
  destination : Key
  budget : Budget
  accounts : List Key

/-- A graph of the host. -/
structure SwapGraph where
  owner : Key
  sequence : ℕ
  inputAtoms : ℕ
  minimumOutputAtoms : ℕ
  deadlineSlot : ℕ
  input : TokenAsset
  output : TokenAsset
  intermediates : List TokenAsset
  legs : List SwapLeg
  minimum_lt : minimumOutputAtoms < u64Size
  deadline_lt : deadlineSlot < u64Size

/-- How the settlement program runs the legs. -/
inductive Routing
  | fixed
  | reflow (calls : UInt8) (seed : Option UInt64)
  | economic (calls : UInt8)
  deriving DecidableEq

namespace Routing

/-- `!matches!(routing, Routing::Fixed)`. -/
def isReflow : Routing → Bool
  | fixed => false
  | _ => true

/-- `matches!(routing, Routing::Economic { .. })`. -/
def isEconomic : Routing → Bool
  | economic _ => true
  | _ => false

/-- The opcode of the payload. -/
def opcode : Routing → UInt8
  | fixed => 2
  | reflow _ (some _) => 9
  | reflow _ none | economic _ => 4

/-- Quotes of each round. -/
def calls : Routing → UInt8
  | fixed => 0
  | reflow calls _ | economic calls => calls

/-- The signed input of the first candidate. -/
def seed : Routing → Option ℕ
  | reflow _ seed => seed.map UInt64.toNat
  | _ => none

end Routing

/-- The address of the instructions sysvar. -/
def instructionsId : Key := .ofNat 0x6a7d517187bd16635dad40455fdc2c0c124c68f215675a5dbbacb5f08000000

/-- The owner of sysvars. -/
def sysvarId : Key := .ofNat 0x6a7d5171875f729c73d93408f216120067ed88c76e08c287fc1946000000000

/-- The bank with the instructions sysvar, which the runtime makes up. -/
def withInstructions (read : Key → Answer AccountView) (key : Key) : Answer AccountView :=
  if key = instructionsId then .ok ⟨sysvarId, false, .ofList []⟩ else read key

namespace SwapGraph

variable (spec : SwapGraph)

/-- The assets in the order of the specification. -/
def assets : List TokenAsset := spec.input :: (spec.intermediates ++ [spec.output])

/-- The bounds of the fields. -/
def InBounds (program : Key) (routing : Routing) : Prop :=
  program ≠ .ofNat 0 ∧ spec.owner ≠ .ofNat 0 ∧ program ≠ spec.owner ∧ spec.sequence ≠ u64Size - 1 ∧
    spec.deadlineSlot ≠ 0 ∧ spec.minimumOutputAtoms ≠ 0 ∧
    (1 ≤ spec.inputAtoms ∧ spec.inputAtoms ≤ maxInput) ∧
    (1 ≤ spec.legs.length ∧
      spec.legs.length ≤ if routing.isReflow then maxCandidates else maxGraphLegs) ∧
    spec.intermediates.length + 2 ≤ maxGraphAssets

instance (program : Key) (routing : Routing) : Decidable (spec.InBounds program routing) := by
  unfold InBounds
  infer_instance

/-- The nonce account belongs to the owner and stands at the sequence. -/
def NonceBound (program : Key) (n : AccountView) : Prop :=
  n.owner = program ∧ n.executable = false ∧ n.data.size = 64 ∧ n.data.slice 0 8 = some nonceTag ∧
    n.data.slice 8 32 = some spec.owner.toList ∧ n.data.number 40 8 = some spec.sequence

instance (program : Key) (n : AccountView) : Decidable (spec.NonceBound program n) :=
  inferInstanceAs (Decidable (_ ∧ _))

/-! ## Assets -/

/-- The keys that the assets have taken. -/
structure Identities where
  tokens : List Key
  mints : List Key
  readonly : List Key

/-- The accounts of an asset in the bank. -/
def AssetBound (asset : TokenAsset) (t m p : AccountView) : Prop :=
  t.owner = asset.tokenProgram ∧ m.owner = asset.tokenProgram ∧ t.executable = false ∧
    m.executable = false ∧ p.executable = true ∧ 165 ≤ t.data.size ∧ t.data.byte 108 = 1 ∧
    t.data.slice 72 4 = some (.replicate 4 0) ∧ t.data.slice 121 8 = some (.replicate 8 0) ∧
    t.data.slice 129 4 = some (.replicate 4 0) ∧ t.data.slice 0 32 = some asset.mint.toList ∧
    t.data.slice 32 32 = some spec.owner.toList ∧ 82 ≤ m.data.size ∧ m.data.byte 45 = 1

instance (asset : TokenAsset) (t m p : AccountView) : Decidable (spec.AssetBound asset t m p) := by
  unfold AssetBound
  infer_instance

/-- One asset of the specification. -/
def checkAsset (read : Key → Answer AccountView) (ids : Identities) (asset : TokenAsset) :
    Answer Identities := do
  refuse (¬(asset.token ∉ ids.tokens ∧ asset.mint ∉ ids.mints ∧
    (asset.tokenProgram = tokenId ∨ asset.tokenProgram = token2022Id))) "swap asset identity"
  let t ← read asset.token
  let m ← read asset.mint
  let p ← read asset.tokenProgram
  refuse (¬spec.AssetBound asset t m p) "swap asset bank binding"
  .ok ⟨asset.token :: ids.tokens, asset.mint :: ids.mints,
    asset.tokenProgram :: asset.mint :: ids.readonly⟩

/-- The keys of the owner, the nonce, the tokens and the read-only accounts are apart. -/
def Apart (nonce : Key) (ids : Identities) : Prop :=
  (∀ t ∈ ids.tokens, t ∉ ids.readonly) ∧ spec.owner ∉ ids.tokens ∧ nonce ∉ ids.tokens ∧
    spec.owner ∉ ids.readonly ∧ nonce ∉ ids.readonly

instance (nonce : Key) (ids : Identities) : Decidable (spec.Apart nonce ids) :=
  inferInstanceAs (Decidable (_ ∧ _))

/-- An asset that all its producers precede. -/
def Ready (ordered : List TokenAsset) (asset : TokenAsset) : Prop :=
  asset.token ≠ spec.output.token ∧ asset ∉ ordered ∧
    ∀ leg ∈ spec.legs, leg.destination = asset.token → ∃ a ∈ ordered, a.token = leg.source

instance (ordered : List TokenAsset) (asset : TokenAsset) : Decidable (spec.Ready ordered asset) :=
  inferInstanceAs (Decidable (_ ∧ _))

/-- The topological order, of which each round of the loop finds one asset. -/
def topological : ℕ → List TokenAsset → Answer (List TokenAsset)
  | 0, ordered => .ok ordered
  | k + 1, ordered => do
    let next ← present (spec.assets.find? fun a => spec.Ready ordered a) "swap graph cycle"
    topological k (ordered ++ [next])

/-- The place of a token in the order. -/
def position (ordered : List TokenAsset) (token : Key) : Option ℕ :=
  ordered.findIdx? fun a => a.token = token

/-! ## Budgets -/

/-- What the legs so far spend of the input. -/
structure Spending where
  fixedInput : ℕ
  inputRemainder : Bool

/-- No later leg spends the same asset. -/
def LastConsumer (i : ℕ) (leg : SwapLeg) : Prop :=
  ∀ later ∈ spec.legs.drop (i + 1), later.source ≠ leg.source

instance (i : ℕ) (leg : SwapLeg) : Decidable (spec.LastConsumer i leg) :=
  inferInstanceAs (Decidable (∀ _ ∈ _, _))

/-- The producers of the asset that a leg spends are before it. -/
def Produced (i : ℕ) (leg : SwapLeg) : Prop :=
  (∃ earlier ∈ spec.legs.take i, earlier.destination = leg.source) ∧
    ∀ later ∈ spec.legs.drop i, later.destination ≠ leg.source

instance (i : ℕ) (leg : SwapLeg) : Decidable (spec.Produced i leg) :=
  inferInstanceAs (Decidable (_ ∧ _))

/-- The budget of a leg of a fixed graph. -/
def spendBudget (i : ℕ) (leg : SwapLeg) (source : ℕ) (state : Spending) : Answer Spending :=
  match leg.budget with
  | .remaining => do
    refuse (¬spec.LastConsumer i leg) "swap remainder must be last consumer"
    .ok { state with inputRemainder := state.inputRemainder || source = 0 }
  | .exact amount => do
    refuse (¬(1 ≤ amount ∧ amount ≤ maxInput)) "swap exact budget"
    if source = 0 then do
      let fixedInput ← bounded u64Size (state.fixedInput + amount) "swap input overflow"
      .ok { state with fixedInput }
    else .ok state

/-- A leg of a fixed graph. -/
def checkFixedLeg (i : ℕ) (leg : SwapLeg) (source : ℕ) (state : Spending) : Answer Spending := do
  refuse (source ≠ 0 ∧ ¬spec.Produced i leg) "swap intermediate producer order"
  refuse (source ≠ 0 ∧ spec.LastConsumer i leg ∧ leg.budget ≠ .remaining)
    "swap intermediate must drain observed output"
  spec.spendBudget i leg source state

/-- The cap of a candidate. -/
def checkCandidate (leg : SwapLeg) : Answer Unit :=
  match leg.budget with
  | .exact amount => refuse (¬(1 ≤ amount ∧ amount ≤ maxInput)) "reflow candidate cap"
  | .remaining => .ok ()

/-- One leg. -/
def checkLeg (routing : Routing) (ordered : List TokenAsset) (state : Spending) (p : SwapLeg × ℕ) :
    Answer Spending := do
  let source ← present (position ordered p.1.source) "swap source asset"
  let destination ← present (position ordered p.1.destination) "swap destination asset"
  refuse (¬source < destination) "swap topological edge"
  if routing.isReflow then do
    checkCandidate p.1
    .ok state
  else spec.checkFixedLeg p.2 p.1 source state

/-- The legs spend the input. -/
def Conserves (routing : Routing) (state : Spending) : Prop :=
  routing.isReflow = true ∨
    if state.inputRemainder then state.fixedInput < spec.inputAtoms
    else state.fixedInput = spec.inputAtoms

instance (routing : Routing) (state : Spending) : Decidable (spec.Conserves routing state) :=
  inferInstanceAs (Decidable (_ ∨ _))

/-- An asset after the first one is produced and, if it is an intermediate, consumed. -/
def checkUse (routing : Routing) (asset : TokenAsset) : Answer Unit := do
  refuse (¬∃ leg ∈ spec.legs, leg.destination = asset.token) "swap unproduced asset"
  refuse (routing.isEconomic = false ∧ asset.token ≠ spec.output.token ∧
    ¬∃ leg ∈ spec.legs, leg.source = asset.token) "swap unconsumed asset"

/-! ## The account list -/

/-- The index of a key in the account list, which grows by a new key; its writable flags add up. -/
def index (readonly : List Key) (metas : List AccountMeta) (key : Key) (writable : Bool) :
    Answer (List AccountMeta × UInt8) := do
  refuse (writable = true ∧ key ∈ readonly) "swap writable protected account"
  match metas.findIdx? fun m => m.key = key with
  | some i =>
    .ok (metas.modify i fun m => { m with isWritable := m.isWritable || writable }, .ofNat i)
  | none => do
    refuse (maxAccounts ≤ metas.length) "swap account bound"
    .ok (metas ++ [⟨key, key = spec.owner, writable⟩], .ofNat metas.length)

/-- The account list and the data so far. -/
abbrev Output := List AccountMeta × List UInt8

/-- The indices of an asset. -/
def writeAsset (readonly : List Key) (out : Output) (asset : TokenAsset) : Answer Output := do
  let (metas, token) ← spec.index readonly out.1 asset.token true
  let (metas, mint) ← spec.index readonly metas asset.mint false
  let (metas, program) ← spec.index readonly metas asset.tokenProgram false
  .ok (metas, out.2 ++ [token, mint, program])

/-- The writable flag of a CPI account. -/
def cpiWritable (leg : SwapLeg) (key : Key) (place : ℕ) (info : AccountView) : Bool :=
  key ≠ venueProgram leg.venue &&
    leg.venue.writableWithOwner place (info.owner = venueProgram leg.venue)

/-- A token account of the owner that is none of the assets. -/
def UndeclaredToken (ids : Identities) (key : Key) (info : AccountView) : Prop :=
  (info.owner = tokenId ∨ info.owner = token2022Id) ∧ 165 ≤ info.data.size ∧
    info.data.slice 32 32 = some spec.owner.toList ∧ key ∉ ids.tokens

instance (ids : Identities) (key : Key) (info : AccountView) :
    Decidable (spec.UndeclaredToken ids key info) :=
  inferInstanceAs (Decidable (_ ∧ _))

/-- One account of a leg. -/
def writeAccount (read : Key → Answer AccountView) (nonce : Key) (ids : Identities) (leg : SwapLeg)
    (out : Output) (p : Key × ℕ) : Answer Output := do
  let b := leg.venue.bindings leg.direction
  refuse (¬(p.1 ≠ nonce ∧ (p.1 ∉ ids.tokens ∨ p.2 = b.src ∨ p.2 = b.dst))) "swap CPI asset alias"
  let info ← read p.1
  let writable := cpiWritable leg p.1 p.2 info
  refuse (writable = true ∧ info.executable = true) "swap writable executable"
  refuse (writable = true ∧ spec.UndeclaredToken ids p.1 info) "swap undeclared wallet token"
  let (metas, i) ← spec.index ids.readonly out.1 p.1 writable
  .ok (metas, out.2 ++ [i])

/-- The budget as it is signed. -/
def budgetAtoms : Budget → ℕ
  | .exact amount => amount
  | .remaining => u64Size - 1

/-- The program and the bound accounts of a leg. -/
def bindLeg (read : Key → Answer AccountView) (program : Key) (leg : SwapLeg) : Answer Unit := do
  let id := venueProgram leg.venue
  refuse (id = program) "swap executable program"
  let venue ← read id
  refuse (venue.executable = false) "swap executable program"
  refuse (¬(leg.venue.accountBounds.1 ≤ leg.accounts.length ∧
    leg.accounts.length ≤ leg.venue.accountBounds.2)) "swap CPI account count"
  let b := leg.venue.bindings leg.direction
  refuse (¬(leg.accounts[b.signer]? = some spec.owner ∧ leg.accounts[b.src]? = some leg.source ∧
    leg.accounts[b.dst]? = some leg.destination)) "swap venue account binding"
  let key ← present leg.accounts[b.pool]? "index out of bounds"
  let pool ← read key
  refuse (pool.owner ≠ id ∨ pool.executable = true) "swap venue account binding"

/-- One leg: its header and its accounts. -/
def writeLeg (read : Key → Answer AccountView) (program nonce : Key) (ids : Identities)
    (ordered : List TokenAsset) (out : Output) (leg : SwapLeg) : Answer Output := do
  spec.bindLeg read program leg
  let si ← present (position ordered leg.source) "swap source"
  let di ← present (position ordered leg.destination) "swap sink"
  let (metas, i) ← spec.index ids.readonly out.1 (venueProgram leg.venue) false
  let header := [UInt8.ofNat leg.venue.toByte, .ofNat si, .ofNat di, if leg.direction then 1 else 0] ++
    (Buffer.toBytes 8 (budgetAtoms leg.budget) ++ [i, .ofNat leg.accounts.length])
  leg.accounts.zipIdx.foldlM (spec.writeAccount read nonce ids leg) (metas, out.2 ++ header)

/-- The bytes before the assets. -/
def header (routing : Routing) (ordered : List TokenAsset) : List UInt8 :=
  [routing.opcode, .ofNat ordered.length, .ofNat spec.legs.length, routing.calls] ++
  (Buffer.toBytes 8 spec.sequence ++ (Buffer.toBytes 8 spec.inputAtoms ++
    (Buffer.toBytes 8 spec.minimumOutputAtoms ++ Buffer.toBytes 8 spec.deadlineSlot)))

/-- The account list and the payload. -/
def write (read : Key → Answer AccountView) (program nonce : Key) (routing : Routing)
    (ids : Identities) (ordered : List TokenAsset) : Answer Output := do
  let metas := [⟨spec.owner, true, false⟩, ⟨nonce, false, true⟩]
  let out ← ordered.foldlM (spec.writeAsset ids.readonly) (metas, spec.header routing ordered)
  let seed := (routing.seed.map (Buffer.toBytes 8)).getD []
  spec.legs.foldlM (spec.writeLeg read program nonce ids ordered) (out.1, out.2 ++ seed)

/-- Two candidates that use one writable account that is neither the owner nor an asset. -/
def Shared (ordered : List TokenAsset) (metas : List AccountMeta) {n : ℕ} (g : Graph n) : Prop :=
  ∃ p ∈ g.legs.zipIdx, ∃ prior ∈ g.legs.take p.2, ∃ i ∈ p.1.accounts, ∃ m ∈ metas[i.val]?,
    m.key ≠ spec.owner ∧ (∀ a ∈ ordered, a.token ≠ m.key) ∧ m.isWritable = true ∧ i ∈ prior.accounts

instance (ordered : List TokenAsset) (metas : List AccountMeta) {n : ℕ} (g : Graph n) :
    Decidable (spec.Shared ordered metas g) := by
  unfold Shared
  infer_instance

end SwapGraph

/-- `Error` as `Debug` prints it. -/
def debugError : AdapterError → String
  | .layout => "Layout"
  | .status => "Status"
  | .arithmetic => "Arithmetic"
  | .amount => "Amount"
  | .unsupported => "Unsupported"
  | .overflow => "panic"

/-- `Graph::decode` with its message. -/
def decodeOutput (out : SwapGraph.Output) : Answer (Graph out.1.length) :=
  match Graph.decode (.ofList out.2) out.1.length with
  | .ok g => .ok g
  | .error e => .error ("swap graph ABI: " ++ debugError e)

/-- `compile_graph`, with `Pubkey::find_program_address` as `find`. -/
def compileGraph (find : List (List UInt8) → Key → Key) (program : Key) (spec : SwapGraph)
    (routing : Routing) (readBank : Key → Answer AccountView) : Answer Instruction := do
  let read := withInstructions readBank
  refuse (¬spec.InBounds program routing) "swap graph bounds"
  let nonce := find [("stocklana".toUTF8).toList, spec.owner.toList] program
  let n ← read nonce
  refuse (¬spec.NonceBound program n) "swap graph nonce binding"
  let ids ← spec.assets.foldlM (spec.checkAsset read) ⟨[], [], [program, instructionsId]⟩
  refuse (¬spec.Apart nonce ids) "swap reserved account alias"
  let middle ← spec.topological spec.intermediates.length [spec.input]
  let ordered := middle ++ [spec.output]
  let spending ← spec.legs.zipIdx.foldlM (spec.checkLeg routing ordered) ⟨0, false⟩
  refuse (¬spec.Conserves routing spending) "swap input allocation conservation"
  ordered.tail.forM (spec.checkUse routing)
  let out ← spec.write read program nonce routing ids ordered
  let g ← decodeOutput out
  refuse (routing.isReflow = true ∧ spec.Shared ordered out.1 g) "reflow shared market resource"
  .ok { programId := program, accounts := out.1, data := out.2 }

/-- `compile_swap_graph`. -/
def compileSwapGraph (find : List (List UInt8) → Key → Key) (program : Key) (spec : SwapGraph)
    (read : Key → Answer AccountView) : Answer Instruction :=
  compileGraph find program spec .fixed read

/-- `compile_reflow_graph`: candidates for one pair of assets. -/
def compileReflowGraph (find : List (List UInt8) → Key → Key) (program : Key) (spec : SwapGraph)
    (queriesPerRound : UInt8) (seedInputAtoms : Option UInt64) (read : Key → Answer AccountView) :
    Answer Instruction := do
  refuse (¬(8 ≤ queriesPerRound.toNat ∧ queriesPerRound.toNat ≤ 64)) "reflow oracle work bound"
  refuse (spec.intermediates ≠ []) "reflow direct candidate assets"
  refuse (∃ seed ∈ seedInputAtoms, ¬(0 < seed.toNat ∧ seed.toNat < spec.inputAtoms))
    "reflow seed bounds"
  refuse (∃ leg ∈ spec.legs, ¬(leg.source = spec.input.token ∧ leg.destination = spec.output.token ∧
    (leg.venue = .raydiumClmm ∨ leg.venue = .byrealClmm))) "reflow native candidate admission"
  compileGraph find program spec (.reflow queriesPerRound seedInputAtoms) read

namespace SwapGraph

/-- The token accounts of the equivalent products. -/
def outputs (spec : SwapGraph) : List Key := (spec.intermediates ++ [spec.output]).map TokenAsset.token

/-- A candidate pays cash or a product that cash buys directly, and delivers a product. -/
def EconomicLeg (spec : SwapGraph) (leg : SwapLeg) : Prop :=
  leg.destination ∈ spec.outputs ∧
    (leg.source = spec.input.token ∨
      ∃ direct ∈ spec.legs, direct.source = spec.input.token ∧ direct.destination = leg.source) ∧
    (leg.venue = .raydiumClmm ∨ leg.venue = .byrealClmm ∨ leg.venue = .orcaWhirlpool ∨
      leg.venue = .meteoraDlmm)

instance (spec : SwapGraph) (leg : SwapLeg) : Decidable (spec.EconomicLeg leg) :=
  inferInstanceAs (Decidable (_ ∧ _))

end SwapGraph

/-- `compile_economic_reflow_graph`: candidates for equivalent products. -/
def compileEconomicReflowGraph (find : List (List UInt8) → Key → Key) (program : Key)
    (spec : SwapGraph) (queriesPerRound : UInt8) (read : Key → Answer AccountView) :
    Answer Instruction := do
  refuse (¬(8 ≤ queriesPerRound.toNat ∧ queriesPerRound.toNat ≤ 64))
    "economic reflow oracle work bound"
  refuse (¬((∀ leg ∈ spec.legs, spec.EconomicLeg leg) ∧
    ∀ output ∈ spec.outputs, ∃ leg ∈ spec.legs, leg.destination = output))
    "economic reflow bounded path admission"
  compileGraph find program spec (.economic queriesPerRound) read

end StockMesh.Host

import StockMesh.Host.Mesh
import StockMesh.Foundation.Table
import StockMesh.Foundation.History
import Mathlib.Data.List.Sort
import Mathlib.Data.Finset.Card

/-! # The fair-price engine

Sources sign intervals for the price of a stock. `Engine.evaluate` checks them against the policy and the
watermarks, takes one hull for each group of correlated sources and asks `consensus` for a band. The
watermarks are staged while a call reads its observations and stored when it succeeds. -/

namespace StockMesh.Host.Fair

/-! ## Consensus -/

/-- The prices that one group supports. -/
structure Interval where
  group : ℕ
  low : ℕ
  high : ℕ
  deriving DecidableEq

/-- The prices that a quorum supports. -/
structure Band where
  low : ℕ
  high : ℕ
  groups : ℕ
  quorum : ℕ
  deriving DecidableEq

/-- `MAX_GROUPS`. -/
abbrev maxGroups : ℕ := 16

/-- The first loop of `consensus`: the groups so far and their endpoints. -/
def collect (state : List ℕ × List ℕ) (x : Interval) : Result (List ℕ × List ℕ) := do
  rejectIf (x.low = 0 ∨ x.high < x.low ∨ x.group ∈ state.1) .invalidCurve
  .ok (x.group :: state.1, state.2 ++ [x.low, x.high])

/-- How many intervals hold two prices. -/
def through (xs : List Interval) (p q : ℕ) : ℕ := xs.countP fun x => x.low ≤ p ∧ q ≤ x.high

/-- The scan of the endpoints. -/
structure Scan where
  low : Option ℕ := none
  high : ℕ := 0
  ended : Bool := false

/-- A supported endpoint extends the band, an unsupported one ends it. -/
def Scan.cover (s : Scan) (covered : Prop) [Decidable covered] (p : ℕ) : Result Scan :=
  if covered then do
    rejectIf (s.ended = true) .invalidCurve
    .ok { s with low := some (s.low.getD p), high := p }
  else .ok { s with ended := s.ended || s.low.isSome }

/-- The open interval to the next endpoint ends the band if it is not supported. -/
def Scan.gap (s : Scan) (xs : List Interval) (quorum p : ℕ) (right : Option ℕ) : Scan :=
  match right with
  | some right => { s with
      ended := s.ended || (decide (p < right) && s.low.isSome && decide (through xs p right < quorum)) }
  | none => s

/-- The second loop of `consensus`, over the sorted endpoints. -/
def scan (xs : List Interval) (quorum : ℕ) : List ℕ → Scan → Result Scan
  | [], s => .ok s
  | p :: rest, s => do
    let s ← s.cover (quorum ≤ through xs p p) p
    scan xs quorum rest (s.gap xs quorum p rest.head?)

/-- `fair::consensus`. -/
def consensus (xs : List Interval) (faults maxWidthBps : ℕ) : Result Band := do
  let n := xs.length
  rejectIf (n < 3 ∨ maxGroups < n ∨ faults = 0 ∨ n ≤ faults ∨ n ≤ 2 * faults ∨ maxWidthBps = 0 ∨
    2000 < maxWidthBps) .bounds
  let (_, points) ← xs.foldlM collect ([], [])
  let quorum := n - faults
  let s ← scan xs quorum (points.insertionSort (· ≤ ·)) {}
  let low ← okOr s.low .venueUnavailable
  rejectIf (low * maxWidthBps < (s.high - low) * 10000) .invalidCurve
  .ok ⟨low, s.high, n, quorum⟩

/-! ## Policy and observations -/

/-- A signer of observations, with the group that it is correlated with. -/
structure Source where
  id : ℕ
  group : ℕ
  publicKey : String

/-- What an engine is configured with. -/
structure Policy where
  instrument : String
  issuer : String
  baseMint : String
  quoteMint : String
  version : ℕ
  stockPolicyHash : Key
  sources : List Source
  faultyGroups : ℕ
  maxAgeSlots : ℕ
  maxAgeMs : ℕ
  maxWidthBps : ℕ

/-- An interval of a source, bound to a policy and a state of the stock. -/
structure Observation where
  sourceId : ℕ
  policyHash : Key
  stockStateHash : Key
  sequence : ℕ
  slot : ℕ
  observedMs : ℕ
  expiresSlot : ℕ
  expiresMs : ℕ
  lowQ32 : ℕ
  highQ32 : ℕ
  deriving DecidableEq

/-- An observation with the text of its signature. -/
structure SignedObservation where
  observation : Observation
  signature : String

/-- A product of a stock policy. -/
structure Product where
  mint : String
  issuer : String
  primaryIsSynchronous : Bool

/-- The policy of a stock. -/
structure StockPolicy where
  instrument : String
  version : ℕ
  attestor : String
  quoteMint : String
  products : List Product
  maxStateLagSlots : ℕ

/-- The state of a product. -/
structure ProductState where
  mint : String
  secondary : Bool
  rfq : Bool
  primary : Bool
  corporateActionHalt : Bool

/-- The state of a stock. -/
structure StockState where
  instrument : String
  version : ℕ
  sequence : ℕ
  slot : ℕ
  expiresSlot : ℕ
  underlyingOpen : Bool
  products : List ProductState

/-- A stock policy with a signed state. -/
structure StockContext where
  policy : StockPolicy
  state : StockState
  signature : String

/-- The newest accepted observation of a source. -/
structure Watermark where
  source : ℕ
  sequence : ℕ
  digest : Key
  deriving DecidableEq

/-- Functions of other modules and crates. -/
structure Services where
  /-- `key`: base 58 of 32 bytes. -/
  key : String → Answer Key
  /-- `VerifyingKey::from_bytes`. -/
  verifyingKey : Key → Answer Unit
  /-- `hash` of a policy. -/
  hashPolicy : Policy → Answer Key
  /-- `hash` of a stock policy. -/
  hashStockPolicy : StockPolicy → Answer Key
  /-- `hash` of what a decision commits to. -/
  hashDecision : Key → Key → List (ℕ × Key) → Band → ℕ → ℕ → Answer Key
  /-- `StockContext::verify`. -/
  verifyContext : StockContext → ℕ → Answer Key
  /-- `Observation::signing_bytes`. -/
  signingBytes : Observation → Answer (List UInt8)
  /-- The signature of a text under a key. -/
  verifySignature : Key → List UInt8 → String → Answer Unit
  /-- `Sha256::digest`. -/
  sha256 : List UInt8 → Key

/-! ## The engine -/

/-- A configured engine with its watermarks. -/
structure Engine where
  policy : Policy
  policyHash : Key
  keys : List Key
  groups : Finset ℕ
  latest : Table Watermark.source
  lastClock : Option (ℕ × ℕ)

/-- The replay state of an engine. -/
structure Watermarks where
  policyHash : Key
  latest : Table Watermark.source
  lastClock : Option (ℕ × ℕ)

/-- The result of an evaluation. -/
structure Decision where
  band : Band
  commitment : Key
  stockHash : Key
  policy : Policy
  slot : ℕ
  nowMs : ℕ
  expiresSlot : ℕ
  expiresMs : ℕ

/-- One source of `Engine::new`: the identities and keys so far. -/
def addSource (services : Services) (state : List ℕ × List Key) (source : Source) :
    Answer (List ℕ × List Key) := do
  let k ← services.key source.publicKey
  refuse (source.id ∈ state.1 ∨ k ∈ state.2) "duplicate source identity/key"
  services.verifyingKey k
  .ok (source.id :: state.1, state.2 ++ [k])

/-- The groups of some sources. -/
def groupsOf (sources : List Source) : Finset ℕ := (sources.map Source.group).toFinset

namespace Engine

/-- `Engine::new`. -/
def new (services : Services) (policy : Policy) : Answer Engine := do
  let n := policy.sources.length
  refuse (n < 3 ∨ 32 < n ∨ policy.version = 0 ∨ policy.instrument = "" ∨
    32 < policy.instrument.utf8ByteSize ∨ policy.issuer = "" ∨ 64 < policy.issuer.utf8ByteSize ∨
    policy.maxAgeSlots = 0 ∨ 150 < policy.maxAgeSlots ∨ policy.maxAgeMs = 0 ∨ 60000 < policy.maxAgeMs ∨
    policy.maxWidthBps < 1 ∨ 2000 < policy.maxWidthBps) "fair policy bounds"
  let base ← services.key policy.baseMint
  let quote ← services.key policy.quoteMint
  refuse (base = quote) "fair policy bounds"
  let (_, keys) ← policy.sources.foldlM (addSource services) ([], [])
  let groups := groupsOf policy.sources
  refuse (groups.card < 3 ∨ maxGroups < groups.card ∨ policy.faultyGroups = 0 ∨
    groups.card ≤ policy.faultyGroups ∨ groups.card ≤ 2 * policy.faultyGroups)
    "independent group fault budget"
  let policyHash ← services.hashPolicy policy
  .ok { policy, policyHash, keys, groups, latest := .empty, lastClock := none }

/-- `watermarks`. -/
def watermarks (e : Engine) : Watermarks := ⟨e.policyHash, e.latest, e.lastClock⟩

/-- `restore_watermarks`. -/
def restoreWatermarks (e : Engine) (state : Watermarks) : Answer Unit × Engine :=
  let configured := (e.policy.sources.map Source.id).toFinset
  if state.policyHash ≠ e.policyHash ∨ configured.card < state.latest.rows.length ∨
      (∃ w ∈ state.latest.rows, w.source ∉ configured ∨ w.sequence = 0) ∨
      (∃ clock ∈ state.lastClock, clock.1 = 0 ∨ clock.2 = 0) then
    (.error "fair watermark snapshot binding", e)
  else (.ok (), { e with latest := state.latest, lastClock := state.lastClock })

end Engine

/-! ## Evaluation -/

/-- The first checks of `evaluate`. -/
def Engine.bind (services : Services) (e : Engine) (context : StockContext)
    (xs : List SignedObservation) (slot nowMs : ℕ) : Answer Key := do
  refuse (xs.length < e.groups.card ∨ e.policy.sources.length < xs.length ∨
    ∃ clock ∈ e.lastClock, slot < clock.1 ∨ nowMs < clock.2) "fair policy/context/clock binding"
  let policyHash ← services.hashStockPolicy context.policy
  refuse (policyHash ≠ e.policy.stockPolicyHash ∨ context.policy.instrument ≠ e.policy.instrument ∨
    context.policy.version ≠ e.policy.version ∨ context.policy.quoteMint ≠ e.policy.quoteMint ∨
    ¬∃ p ∈ context.policy.products, p.mint = e.policy.baseMint ∧ p.issuer = e.policy.issuer)
    "fair policy/context/clock binding"
  let stockHash ← services.verifyContext context slot
  let state ← present (context.state.products.find? fun p => p.mint = e.policy.baseMint)
    "missing stock state"
  refuse (state.corporateActionHalt = true ∨ state.secondary = false) "stock execution unavailable"
  .ok stockHash

/-- What `evaluate` stages while it reads the observations. -/
structure Staged where
  groups : Table Interval.group
  next : Table Watermark.source
  seen : List ℕ
  proofs : Table Watermark.source
  expiresSlot : ℕ
  expiresMs : ℕ

/-- The hull of a group after one more observation. -/
def widen (groups : Table Interval.group) (group : ℕ) (o : Observation) : Interval :=
  match groups.find group with
  | some g => ⟨group, min g.low o.lowQ32, max g.high o.highQ32⟩
  | none => ⟨group, o.lowQ32, o.highQ32⟩

/-- An observation is out of its bounds. -/
def Engine.Unfit (e : Engine) (stockHash : Key) (slot nowMs : ℕ) (seen : List ℕ) (o : Observation) : Prop :=
  o.sourceId ∈ seen ∨ o.policyHash ≠ e.policyHash ∨ o.stockStateHash ≠ stockHash ∨ o.sequence = 0 ∨
    slot < o.slot ∨ nowMs < o.observedMs ∨ e.policy.maxAgeSlots < slot - o.slot ∨
    e.policy.maxAgeMs < nowMs - o.observedMs ∨ o.expiresSlot < slot ∨ o.expiresMs < nowMs ∨
    o.lowQ32 = 0 ∨ o.highQ32 < o.lowQ32

instance (e : Engine) (stockHash : Key) (slot nowMs : ℕ) (seen : List ℕ) (o : Observation) :
    Decidable (e.Unfit stockHash slot nowMs seen o) := inferInstanceAs (Decidable (_ ∨ _))

/-- An accepted observation does not go back behind its watermark, nor contradict it. -/
def Replays (latest : Table Watermark.source) (w : Watermark) : Prop :=
  ∃ old ∈ latest.find w.source, w.sequence < old.sequence ∨
    w.sequence = old.sequence ∧ w.digest ≠ old.digest

instance (latest : Table Watermark.source) (w : Watermark) : Decidable (Replays latest w) :=
  inferInstanceAs (Decidable (∃ old ∈ latest.find w.source, _))

/-- One observation of `evaluate`. -/
def Engine.stage (services : Services) (e : Engine) (stockHash : Key) (slot nowMs : ℕ) (st : Staged)
    (signed : SignedObservation) : Answer Staged := do
  let o := signed.observation
  let (source, key) ← present ((e.policy.sources.zip e.keys).find? fun x => x.1.id = o.sourceId)
    "unknown price source"
  refuse (e.Unfit stockHash slot nowMs st.seen o) "interval identity/freshness/shape"
  let bytes ← services.signingBytes o
  services.verifySignature key bytes signed.signature
  let w : Watermark := ⟨o.sourceId, o.sequence, services.sha256 bytes⟩
  refuse (Replays st.next w) "interval replay/equivocation"
  let ageSlot ← bounded u64Size (o.slot + e.policy.maxAgeSlots) "slot overflow"
  let ageMs ← bounded u64Size (o.observedMs + e.policy.maxAgeMs) "time overflow"
  .ok {
    groups := st.groups.insert (widen st.groups source.group o)
    next := st.next.insert w
    seen := o.sourceId :: st.seen
    proofs := st.proofs.insert w
    expiresSlot := min (min st.expiresSlot o.expiresSlot) ageSlot
    expiresMs := min (min st.expiresMs o.expiresMs) ageMs }

/-- The errors of `consensus` as `evaluate` reports them. -/
def admissible (x : Result Band) : Answer Band :=
  match x with
  | .ok band => .ok band
  | .error .bounds => .error "no admissible interval: Bounds"
  | .error .venueUnavailable => .error "no admissible interval: VenueUnavailable"
  | .error _ => .error "no admissible interval: InvalidCurve"

/-- `evaluate` up to its commit. -/
def Engine.decide (services : Services) (e : Engine) (context : StockContext)
    (xs : List SignedObservation) (slot nowMs : ℕ) : Answer (Decision × Table Watermark.source) := do
  let stockHash ← e.bind services context xs slot nowMs
  let st ← xs.foldlM (e.stage services stockHash slot nowMs)
    ⟨.empty, e.latest, [], .empty, context.state.expiresSlot, u64Size - 1⟩
  refuse (st.groups.rows.length ≠ e.groups.card) "missing independent price group"
  let band ← admissible (consensus st.groups.rows e.policy.faultyGroups e.policy.maxWidthBps)
  let commitment ← services.hashDecision e.policyHash stockHash
    (st.proofs.rows.map fun w => (w.source, w.digest)) band st.expiresSlot st.expiresMs
  .ok ({ band, commitment, stockHash, policy := e.policy, slot, nowMs, expiresSlot := st.expiresSlot,
         expiresMs := st.expiresMs }, st.next)

/-- `evaluate`. -/
def Engine.evaluate (services : Services) (e : Engine) (context : StockContext)
    (xs : List SignedObservation) (slot nowMs : ℕ) : Answer Decision × Engine :=
  match e.decide services context xs slot nowMs with
  | .error message => (.error message, e)
  | .ok (d, next) => (.ok d, { e with latest := next, lastClock := some (slot, nowMs) })

end StockMesh.Host.Fair

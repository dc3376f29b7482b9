import StockMesh.Host.Feed
import StockMesh.Journal.Progress
import Mathlib.Data.Prod.Lex

/-! # Frozen intents and executor bids

An owner signs a frozen intent, and executors compete with bids for it. `select` takes the valid bid with
the most guaranteed exposure; fee, compute units and the executor's key break ties. -/

namespace StockMesh.Host

open Journal (refuse_eq_ok)

/-- Functions of other crates on identities. -/
structure MeshCrates where
  /-- `bs58::decode(value).into_vec()`. -/
  base58 : String → Option (List UInt8)
  /-- `Sha256::digest`. -/
  sha256 : List UInt8 → Key

/-- The zero key. -/
def zeroKey : Key := Key.ofNat 0

/-- `key`. -/
def MeshCrates.key (crates : MeshCrates) (value : String) : Answer Key := do
  let bytes ← present (crates.base58 value) "invalid base58 identity"
  refuse (bytes.length ≠ 32) "identity must be 32 bytes"
  .ok (Key.ofBytes bytes)

/-- `field`: a text after its length. -/
def field (value : List UInt8) : Answer (List UInt8) := do
  refuse (256 ≤ value.length) "identity field too long"
  .ok (UInt8.ofNat value.length :: value)

/-! ## Products -/

/-- An issuer's product for an instrument. -/
structure ProductIdentity where
  instrument : String
  issuer : String
  mint : String
  tokenProgram : String
  rightsHash : Key
  rawDecimals : ℕ
  deriving DecidableEq

namespace ProductIdentity

/-- `u8::is_ascii_graphic`, of a character. -/
def isGraphic (c : Char) : Bool := 0x21 ≤ c.toNat && c.toNat ≤ 0x7e

/-- What `validate` checks before it reads a key. A text of printable ASCII is trimmed if no blank starts or
ends it. -/
def Malformed (product : ProductIdentity) : Prop :=
  ¬Journal.validInstrument product.instrument ∨ product.issuer = "" ∨ 64 < product.issuer.utf8ByteSize ∨
    product.issuer.toList.head? = some ' ' ∨ product.issuer.toList.getLast? = some ' ' ∨
    ¬product.issuer.toList.all (fun c => isGraphic c || c == ' ') ∨ product.rightsHash = zeroKey ∨
    12 < product.rawDecimals

instance (product : ProductIdentity) : Decidable product.Malformed :=
  inferInstanceAs (Decidable (_ ∨ _))

variable (crates : MeshCrates) (product : ProductIdentity)

/-- `validate`. -/
def validate : Answer Unit := do
  refuse product.Malformed "invalid StockMesh product identity"
  let mint ← crates.key product.mint
  let tokenProgram ← crates.key product.tokenProgram
  refuse (mint = tokenProgram) "invalid StockMesh product identity"

/-- The bytes that `id` hashes. -/
def idBytes : Answer (List UInt8) := do
  product.validate crates
  let instrument ← field product.instrument.toUTF8.toList
  let issuer ← field product.issuer.toUTF8.toList
  let mint ← crates.key product.mint
  let tokenProgram ← crates.key product.tokenProgram
  .ok ("SKEW_STOCKMESH_PRODUCT_V1\x00".toUTF8.toList ++ instrument ++ issuer ++ mint.toList ++
    tokenProgram.toList ++ product.rightsHash.toList ++ [UInt8.ofNat product.rawDecimals])

/-- `id`. -/
def id : Answer Key := do
  let bytes ← product.idBytes crates
  .ok (crates.sha256 bytes)

end ProductIdentity

/-! ## Intents -/

/-- What an owner wants, and until when. -/
structure FrozenIntent where
  intentId : Key
  owner : String
  ownerNonce : ℕ
  instrument : String
  inputMint : String
  inputAtoms : ℕ
  minimumExposureQ32 : ℕ
  admittedProductIds : List Key
  productPolicyHash : Key
  worldGenerationHash : Key
  deadlineSlot : ℕ
  deriving DecidableEq

namespace FrozenIntent

/-- What `commitment` checks before it reads a key. -/
def Malformed (intent : FrozenIntent) (currentSlot : ℕ) : Prop :=
  intent.intentId = zeroKey ∨ intent.ownerNonce = u64Size - 1 ∨ intent.instrument = "" ∨
    32 < intent.instrument.utf8ByteSize ∨ intent.inputAtoms = 0 ∨
    10000000000000000 < intent.inputAtoms ∨ intent.minimumExposureQ32 = 0 ∨
    intent.admittedProductIds = [] ∨ 8 < intent.admittedProductIds.length ∨
    intent.productPolicyHash = zeroKey ∨ intent.worldGenerationHash = zeroKey ∨
    intent.deadlineSlot < currentSlot

instance (intent : FrozenIntent) (currentSlot : ℕ) : Decidable (intent.Malformed currentSlot) :=
  inferInstanceAs (Decidable (_ ∨ _))

/-- The bytes that `commitment` hashes. -/
def commitmentBytes (intent : FrozenIntent) (owner inputMint : Key) (instrument : List UInt8) : List UInt8 :=
  "SKEW_STOCKMESH_INTENT_V1\x00".toUTF8.toList ++ intent.intentId.toList ++ owner.toList ++
    Buffer.toBytes 8 intent.ownerNonce ++ instrument ++ inputMint.toList ++
    Buffer.toBytes 8 intent.inputAtoms ++ Buffer.toBytes 16 intent.minimumExposureQ32 ++
    [UInt8.ofNat intent.admittedProductIds.length] ++ intent.admittedProductIds.flatMap Vector.toList ++
    intent.productPolicyHash.toList ++ intent.worldGenerationHash.toList ++
    Buffer.toBytes 8 intent.deadlineSlot

/-- `commitment`. -/
def commitment (crates : MeshCrates) (intent : FrozenIntent) (currentSlot : ℕ) : Answer Key := do
  refuse (intent.Malformed currentSlot) "invalid frozen StockMesh intent"
  let owner ← crates.key intent.owner
  let inputMint ← crates.key intent.inputMint
  refuse (owner = inputMint) "invalid frozen StockMesh intent"
  refuse ((∃ id ∈ intent.admittedProductIds, id = zeroKey) ∨ ¬intent.admittedProductIds.Nodup)
    "duplicate or empty admitted product"
  let instrument ← field intent.instrument.toUTF8.toList
  .ok (crates.sha256 (intent.commitmentBytes owner inputMint instrument))

/-- The slot only decides whether there is a commitment. -/
theorem commitment_unique {crates : MeshCrates} {intent : FrozenIntent} {slot slot' : ℕ} {h h' : Key}
    (hc : intent.commitment crates slot = .ok h) (hc' : intent.commitment crates slot' = .ok h') :
    h = h' := by
  simp only [commitment, bind_eq_ok] at hc hc'
  obtain ⟨-, -, owner, howner, mint, hmint, -, -, -, -, text, htext, hok⟩ := hc
  obtain ⟨-, -, owner', howner', mint', hmint', -, -, -, -, text', htext', hok'⟩ := hc'
  cases howner.symm.trans howner'
  cases hmint.symm.trans hmint'
  cases htext.symm.trans htext'
  cases hok.symm.trans hok'
  rfl

end FrozenIntent

/-! ## Bids -/

/-- What an executor offers for an intent. -/
structure ExecutorBid where
  executor : String
  sequence : ℕ
  intentCommitment : Key
  worldGenerationHash : Key
  transactionMessageHash : Key
  guaranteedExposureQ32 : ℕ
  executorFeeInputAtoms : ℕ
  predictedComputeUnits : ℕ
  expiresSlot : ℕ
  signature : String
  deriving DecidableEq

/-- Functions of the signature crate. -/
structure SignatureCrate where
  /-- `VerifyingKey::from_bytes` accepts the key. -/
  verifyingKey : Key → Bool
  /-- `verify_strict` of a message and a signature. -/
  verifyStrict : Key → List UInt8 → List UInt8 → Bool

namespace ExecutorBid

/-- What `signing_bytes` checks. -/
def Malformed (bid : ExecutorBid) : Prop :=
  bid.sequence = 0 ∨ bid.intentCommitment = zeroKey ∨ bid.worldGenerationHash = zeroKey ∨
    bid.transactionMessageHash = zeroKey ∨ bid.guaranteedExposureQ32 = 0 ∨
    10000000000000000 < bid.executorFeeInputAtoms ∨ bid.predictedComputeUnits = 0 ∨
    1400000 < bid.predictedComputeUnits

instance (bid : ExecutorBid) : Decidable bid.Malformed := inferInstanceAs (Decidable (_ ∨ _))

variable (crates : MeshCrates) (signatures : SignatureCrate) (bid : ExecutorBid)

/-- `signing_bytes`. -/
def signingBytes : Answer (List UInt8) := do
  refuse bid.Malformed "invalid executor bid"
  let executor ← crates.key bid.executor
  .ok ("SKEW_STOCKMESH_EXECUTOR_BID_V1\x00".toUTF8.toList ++ executor.toList ++
    Buffer.toBytes 8 bid.sequence ++ bid.intentCommitment.toList ++ bid.worldGenerationHash.toList ++
    bid.transactionMessageHash.toList ++ Buffer.toBytes 16 bid.guaranteedExposureQ32 ++
    Buffer.toBytes 8 bid.executorFeeInputAtoms ++ Buffer.toBytes 4 bid.predictedComputeUnits ++
    Buffer.toBytes 8 bid.expiresSlot)

/-- `verify`. The digest that it returns has no use here. -/
def verify (intent : FrozenIntent) (currentSlot : ℕ) : Answer Unit := do
  let intentCommitment ← intent.commitment crates currentSlot
  refuse (bid.intentCommitment ≠ intentCommitment ∨
    bid.worldGenerationHash ≠ intent.worldGenerationHash ∨ bid.expiresSlot < currentSlot ∨
    intent.deadlineSlot < bid.expiresSlot ∨ bid.guaranteedExposureQ32 < intent.minimumExposureQ32)
    "executor bid does not bind the frozen intent"
  let bytes ← bid.signingBytes crates
  let executor ← crates.key bid.executor
  refuse (signatures.verifyingKey executor = false) "invalid executor public key"
  let signature ← present (crates.base58 bid.signature) "invalid executor signature encoding"
  refuse (signature.length ≠ 64) "invalid executor signature length"
  refuse (signatures.verifyStrict executor bytes signature = false) "invalid executor bid signature"

end ExecutorBid

/-- The order of bids: more exposure, then less fee, fewer compute units and the smaller key. Keys of one
length compare as big-endian numbers. -/
abbrev Rank := ℕ ×ₗ ℕᵒᵈ ×ₗ ℕᵒᵈ ×ₗ ℕᵒᵈ

/-- The rank of a bid of the executor with a key. -/
def ExecutorBid.rank (bid : ExecutorBid) (executor : Key) : Rank :=
  toLex (bid.guaranteedExposureQ32, toLex (OrderDual.toDual bid.executorFeeInputAtoms,
    toLex (OrderDual.toDual bid.predictedComputeUnits,
      OrderDual.toDual (executor.toList.foldl (fun n b => 256 * n + b.toNat) 0))))

/-- The checks of `ExecutorBid::verify`. -/
abbrev Verify := ExecutorBid → FrozenIntent → ℕ → Answer Unit

/-- The winner after one more bid. -/
def best (winner : Option (ExecutorBid × Key)) (bid : ExecutorBid) (executor : Key) : ExecutorBid × Key :=
  match winner with
  | none => (bid, executor)
  | some (winner, winnerExecutor) =>
    if winner.rank winnerExecutor < bid.rank executor then (bid, executor) else (winner, winnerExecutor)

theorem best_none (bid : ExecutorBid) (executor : Key) : best none bid executor = (bid, executor) := rfl

theorem best_some_of_lt {winner bid : ExecutorBid} {winnerExecutor executor : Key}
    (h : winner.rank winnerExecutor < bid.rank executor) :
    best (some (winner, winnerExecutor)) bid executor = (bid, executor) := if_pos h

theorem best_some_of_not_lt {winner bid : ExecutorBid} {winnerExecutor executor : Key}
    (h : ¬winner.rank winnerExecutor < bid.rank executor) :
    best (some (winner, winnerExecutor)) bid executor = (winner, winnerExecutor) := if_neg h

/-- One bid of `select`: the identities so far and the winner. -/
def selectBid (crates : MeshCrates) (verify : Verify) (intent : FrozenIntent) (currentSlot : ℕ)
    (state : List (Key × ℕ) × Option (ExecutorBid × Key)) (bid : ExecutorBid) :
    Answer (List (Key × ℕ) × Option (ExecutorBid × Key)) := do
  verify bid intent currentSlot
  let executor ← crates.key bid.executor
  refuse ((executor, bid.sequence) ∈ state.1) "duplicate executor sequence"
  .ok ((executor, bid.sequence) :: state.1, some (best state.2 bid executor))

/-- `select`. -/
def select (crates : MeshCrates) (verify : Verify) (intent : FrozenIntent) (bids : List ExecutorBid)
    (currentSlot : ℕ) : Answer ExecutorBid := do
  refuse (bids = [] ∨ 32 < bids.length) "executor bid count"
  let state ← bids.foldlM (selectBid crates verify intent currentSlot) ([], none)
  let winner ← present state.2 "no valid executor bid"
  .ok winner.1

/-- A bid that comes after another one in the order. -/
def Better (crates : MeshCrates) (worse bid : ExecutorBid) : Prop :=
  ∃ a b, crates.key worse.executor = .ok a ∧ crates.key bid.executor = .ok b ∧ worse.rank a < bid.rank b

/-- Of two bids the second wins only if it is the better one. -/
theorem better_of_select {crates : MeshCrates} {verify : Verify} {intent : FrozenIntent} {slot : ℕ}
    {a b : ExecutorBid} (h : select crates verify intent [a, b] slot = .ok b) : Better crates a b := by
  simp only [select, selectBid, List.foldlM_cons, List.foldlM_nil, bind_eq_ok, refuse_eq_ok,
    present_eq_ok] at h
  obtain ⟨_, -, _, ⟨_, ⟨_, -, ka, hka, _, -, hfirst⟩, _, ⟨_, -, kb, hkb, _, hnew, hsecond⟩, hstate⟩,
    winner, hwinner, hout⟩ := h
  cases hfirst
  cases hsecond
  cases hstate
  cases hout
  refine ⟨ka, kb, hka, hkb, ?_⟩
  by_contra hle
  -- then the first bid wins, so that the two are one and the second is a duplicate
  have hfirst : some (best (some (a, ka)) winner.1 kb) = some winner := hwinner
  rw [best_some_of_not_lt hle, Option.some.injEq] at hfirst
  subst hfirst
  cases hka.symm.trans hkb
  exact hnew List.mem_cons_self

end StockMesh.Host

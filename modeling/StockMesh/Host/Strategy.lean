import StockMesh.Host.Mesh
import StockMesh.Journal.Json

/-! # Signed strategies

A creator signs documents that describe the composition of a strategy, one version after another.
`StrategyStore` keeps the published documents in a file of chained records: `publish` appends one, and
`open` reads them back, up to a frame that was not written whole. -/

namespace StockMesh.Host.Strategy

open Journal (Flush hexByte isHexDigit validInstrument utf8)

/-- `MAX_RECORD`. -/
def maxRecord : ℕ := 16 * 1024

/-- `MAX_LOG`. -/
def maxLog : ℕ := 64 * 1024 * 1024

/-- `MAX_VERSIONS`. -/
def maxVersions : ℕ := 10000

/-- A stock with its weight. -/
structure Leg where
  instrument : String
  weightBps : ℕ
  deriving DecidableEq

/-- One version of a strategy. -/
structure Document where
  creator : String
  nonce : String
  version : ℕ
  previousVersionHash : Option String
  catalogRevision : String
  name : String
  description : String
  legs : List Leg
  cashWeightBps : ℕ
  creatorFeeBps : ℕ
  issuedAt : ℕ
  expiresAt : ℕ
  deriving DecidableEq

/-- A signed version with its identities. -/
structure Published where
  strategyId : String
  versionHash : String
  document : Document
  signature : String
  deriving DecidableEq

/-- A record of the file. -/
structure Record where
  sequence : ℕ
  previous : String
  publication : Published
  deriving DecidableEq

/-- Functions of other crates. -/
structure StrategyCrates where
  /-- `bs58::decode(value).into_vec()`. -/
  decode58 : String → Option (List UInt8)
  /-- `bs58::encode(key).into_string()`. -/
  encode58 : Key → String
  /-- `VerifyingKey::from_bytes`, and whether the key `is_weak`. -/
  verifyingKey : Key → Option Bool
  /-- `verify_strict` of a message and a signature. -/
  verifyStrict : Key → List UInt8 → List UInt8 → Bool
  /-- `STANDARD.decode`. -/
  decode64 : String → Option (List UInt8)
  /-- `STANDARD.encode`. -/
  encode64 : List UInt8 → String
  /-- `Sha256::digest`. -/
  sha256 : List UInt8 → Key
  /-- `serde_json::to_vec` of a record. -/
  encode : Record → List UInt8
  /-- `serde_json::from_slice`. -/
  decode : List UInt8 → Option Record
  decode_encode : ∀ r, decode (encode r) = some r
  encode_ne_nil : ∀ r, encode r ≠ []

/-! ## Texts -/

/-- `hex` of a digest. -/
def hexKey (k : Key) : String := String.ofList (k.toList.flatMap hexByte)

/-- `hash`. -/
def StrategyCrates.hash (crates : StrategyCrates) (text : String) : String :=
  hexKey (crates.sha256 (utf8 text.toList))

/-- `hex_field`: `n` lower-case hexadecimal digits that are not all zero. -/
def HexField (s : String) (n : ℕ) : Prop :=
  s.utf8ByteSize = n ∧ s.toList.all isHexDigit ∧ s.toList.any (· ≠ '0')

instance (s : String) (n : ℕ) : Decidable (HexField s n) := inferInstanceAs (Decidable (_ ∧ _ ∧ _))

/-- `char::is_control`. -/
def isControl (c : Char) : Bool := c.toNat < 0x20 || (0x7f ≤ c.toNat && c.toNat < 0xa0)

/-- `char::is_whitespace`. -/
def isSpace (c : Char) : Bool :=
  (0x09 ≤ c.toNat && c.toNat ≤ 0x0d) || (0x2000 ≤ c.toNat && c.toNat ≤ 0x200a) ||
    [0x20, 0x85, 0xa0, 0x1680, 0x2028, 0x2029, 0x202f, 0x205f, 0x3000].contains c.toNat

/-- Line and paragraph separators, and marks that change the direction of text. -/
def isLayout (c : Char) : Bool :=
  (0x2028 ≤ c.toNat && c.toNat ≤ 0x202e) || (0x2066 ≤ c.toNat && c.toNat ≤ 0x2069)

/-- `text`. -/
def Text (s : String) (max : ℕ) (empty : Bool) : Prop :=
  (empty = true ∨ s.toList ≠ []) ∧ s.utf8ByteSize ≤ max ∧
    -- `trim` removes nothing
    (∀ c ∈ s.toList.head?, isSpace c = false) ∧ (∀ c ∈ s.toList.getLast?, isSpace c = false) ∧
    ∀ c ∈ s.toList, isControl c = false ∧ isLayout c = false

instance (s : String) (max : ℕ) (empty : Bool) : Decidable (Text s max empty) :=
  have : Decidable (∀ c ∈ s.toList.head?, isSpace c = false) := Option.decidableForallMem _
  have : Decidable (∀ c ∈ s.toList.getLast?, isSpace c = false) := Option.decidableForallMem _
  have : Decidable (∀ c ∈ s.toList, isControl c = false ∧ isLayout c = false) := List.decidableBAll _ _
  inferInstanceAs (Decidable (_ ∧ _ ∧ _ ∧ _ ∧ _))

/-! ## Documents -/

/-- The key of a creator. -/
def StrategyCrates.creatorKey (crates : StrategyCrates) (creator : String) : Answer Key := do
  let bytes ← present (crates.decode58 creator) "creator key"
  refuse (bytes.length ≠ 32) "creator key"
  .ok (Key.ofBytes bytes)

/-- One leg of the loop of `validate`. -/
def addLeg (state : List String × ℕ) (leg : Leg) : Answer (List String × ℕ) := do
  refuse (¬validInstrument leg.instrument ∨ leg.instrument = "XTXCCASHRESERVE" ∨ leg.weightBps = 0 ∨
    leg.instrument ∈ state.1) "strategy duplicate or invalid stock"
  .ok (leg.instrument :: state.1, state.2 + leg.weightBps)

namespace Document

/-- The bounds of the fields. -/
def OutOfBounds (d : Document) : Prop :=
  ¬HexField d.nonce 32 ∨ ¬HexField d.catalogRevision 64 ∨ ¬(1 ≤ d.version ∧ d.version ≤ 1000) ∨
    ¬Text d.name 64 false ∨ ¬Text d.description 280 true ∨
    ¬(2 ≤ d.legs.length ∧ d.legs.length ≤ 16) ∨ 1000 < d.creatorFeeBps ∨ 10000 ≤ d.cashWeightBps ∨
    d.issuedAt = 0 ∨ d.expiresAt ≤ d.issuedAt ∨ 600 < d.expiresAt - d.issuedAt ∨
    decide (d.version = 1) ≠ d.previousVersionHash.isNone ∨
    ∃ s ∈ d.previousVersionHash, ¬HexField s 64

instance (d : Document) : Decidable d.OutOfBounds := by
  unfold OutOfBounds
  infer_instance

variable (crates : StrategyCrates) (d : Document)

/-- `Document::validate`. -/
def validate : Answer Unit := do
  let key ← crates.creatorKey d.creator
  refuse (crates.encode58 key ≠ d.creator) "strategy document bounds"
  let weak ← present (crates.verifyingKey key) "creator key"
  refuse (weak = true ∨ d.OutOfBounds) "strategy document bounds"
  let (_, weight) ← d.legs.foldlM addLeg ([], d.cashWeightBps)
  refuse (weight ≠ 10000) "strategy weights must total 10000"

/-- `Document::strategy_id`. -/
def strategyId : Answer String := do
  d.validate crates
  .ok ("stks_" ++ crates.hash ("XTXC_STRATEGY_V1\x00" ++ d.creator ++ "\x00" ++ d.nonce))

/-- `Document::message`: the text that the creator signs. -/
def message : Answer String := do
  d.validate crates
  let legs := "\n".intercalate
    (d.legs.map fun l => l.instrument ++ ": " ++ toString l.weightBps ++ " bps")
  .ok ("XTXC Strategy Publication\nNetwork: solana:mainnet\nCreator: " ++ d.creator ++
    "\nStrategy nonce: " ++ d.nonce ++ "\nVersion: " ++ toString d.version ++
    "\nPrevious version: " ++ d.previousVersionHash.getD "none" ++ "\nCatalog: " ++
    d.catalogRevision ++ "\nName: " ++ d.name ++ "\nDescription: " ++ d.description ++ "\n" ++ legs ++
    "\nCash: " ++ toString d.cashWeightBps ++ " bps\nCreator fee: " ++ toString d.creatorFeeBps ++
    " bps of new profits\nIssued at: " ++ toString d.issuedAt ++ "\nExpires at: " ++
    toString d.expiresAt ++
    "\nPublish composition only. No trade, transfer or spending permission.")

/-- `Document::version_hash`. -/
def versionHash : Answer String := do
  let message ← d.message crates
  .ok (crates.hash message)

end Document

/-- `Published::verify`. -/
def Published.verify (crates : StrategyCrates) (p : Published) : Answer Unit := do
  let id ← p.document.strategyId crates
  refuse (p.strategyId ≠ id) "strategy identity mismatch"
  let hash ← p.document.versionHash crates
  refuse (p.versionHash ≠ hash) "strategy identity mismatch"
  let key ← crates.creatorKey p.document.creator
  let bytes ← present (crates.decode64 p.signature) "publication signature"
  refuse (crates.encode64 bytes ≠ p.signature) "publication signature encoding"
  refuse (bytes.length ≠ 64) "publication signature"
  let _ ← present (crates.verifyingKey key) "creator key"
  let message ← p.document.message crates
  refuse (crates.verifyStrict key (utf8 message.toList) bytes = false)
    "publication signature mismatch"

/-! ## The store -/

/-- Publications by their version hashes. -/
abbrev Rows := Table Published.versionHash

/-- Version hashes by the identities of strategies. -/
abbrev Latest := Table (Prod.fst : String × String → String)

end Strategy

/-- The published versions, with the file that they are appended to. -/
structure StrategyStore where
  file : List UInt8
  rows : Strategy.Rows
  latest : Strategy.Latest
  bytes : ℕ
  sequence : ℕ
  head : String
  poisoned : Bool

namespace StrategyStore

open Strategy
open Journal (Flush)

/-- The store before the records of a file are read. -/
def start (file : List UInt8) : StrategyStore :=
  ⟨file, .empty, .empty, 0, 0, String.ofList (List.replicate 64 '0'), false⟩

variable (crates : StrategyCrates) (s : StrategyStore)

/-- `check_next`. -/
def checkNext (p : Published) : Answer Unit := do
  refuse (maxVersions ≤ s.rows.rows.length) "strategy version capacity"
  match s.latest.find p.strategyId with
  | some (_, hash) => do
    -- `rows[hash]` panics on a missing row
    let old ← present (s.rows.find hash) "no entry found for key"
    refuse (p.document.version ≠ old.document.version + 1 ∨
      p.document.previousVersionHash ≠ some hash ∨ p.document.creator ≠ old.document.creator ∨
      p.document.nonce ≠ old.document.nonce) "strategy version conflict"
  | none =>
    refuse (p.document.version ≠ 1 ∨ p.document.previousVersionHash.isSome = true)
      "strategy first version"

/-- `install`. -/
def install (p : Published) : StrategyStore :=
  { s with
    latest := s.latest.insert (p.strategyId, p.versionHash)
    rows := s.rows.insert p }

/-- The checks of one frame of `open`. -/
def readFrame (body digest : List UInt8) : Answer StrategyStore := do
  refuse ((crates.sha256 body).toList ≠ digest) "strategy log corruption"
  let record ← present (crates.decode body) "strategy record encoding"
  refuse (record.sequence ≠ s.sequence + 1 ∨ record.previous ≠ s.head) "strategy log chain"
  record.publication.verify crates
  s.checkNext record.publication
  refuse ((s.rows.find record.publication.versionHash).isSome = true) "strategy duplicate record"
  .ok { s.install record.publication with
    sequence := record.sequence
    head := hexKey (crates.sha256 body) }

/-- The loop of `open`, over the bytes from `at` on. -/
def load (bytes : List UInt8) (s : StrategyStore) (offset : ℕ) : Answer (StrategyStore × ℕ) :=
  if _h : bytes.length < 4 then .ok (s, offset)
  else do
    let len := Buffer.ofBytes (bytes.take 4)
    refuse (len = 0 ∨ maxRecord < len) "strategy record size"
    if bytes.length < 4 + len + 32 then .ok (s, offset)
    else do
      let s ← s.readFrame crates ((bytes.drop 4).take len) ((bytes.drop (4 + len)).take 32)
      load (bytes.drop (4 + len + 32)) s (offset + (4 + len + 32))
  termination_by bytes.length
  decreasing_by
    rw [List.length_drop]
    omega

/-- `StrategyStore::open` on the bytes of a file that no other process holds. -/
def openStore (file : List UInt8) : Answer StrategyStore := do
  refuse (maxLog < file.length) "strategy log size"
  let (s, offset) ← load crates file (start file) 0
  .ok { s with file := file.take offset, bytes := offset }

/-- What `publish` does before it writes: it finds the publication, or has the body of a new record. -/
def stage (p : Published) (now : ℕ) : Answer (Option (List UInt8)) := do
  p.verify crates
  match s.rows.find p.versionHash with
  | some old => do
    refuse (old ≠ p) "strategy publication collision"
    .ok none
  | none => do
    refuse (min (now + 30) (u64Size - 1) < p.document.issuedAt ∨ p.document.expiresAt < now)
      "strategy publication expired"
    s.checkNext p
    let body := crates.encode ⟨s.sequence + 1, s.head, p⟩
    refuse (maxRecord < body.length ∨ maxLog < s.bytes + body.length + 36) "strategy log capacity"
    .ok (some body)

/-- A record as it stands in the file: length, body and digest. -/
def frame (body : List UInt8) : List UInt8 :=
  Buffer.toBytes 4 body.length ++ body ++ (crates.sha256 body).toList

/-- The store after a record that was written whole. -/
def extend (p : Published) : StrategyStore :=
  let body := crates.encode ⟨s.sequence + 1, s.head, p⟩
  { s.install p with
    file := s.file ++ frame crates body
    bytes := s.bytes + (frame crates body).length
    sequence := s.sequence + 1
    head := hexKey (crates.sha256 body) }

/-- `StrategyStore::publish`, where the disk may fail and keep a part of the frame. -/
def publish (p : Published) (now : ℕ) (io : Flush) : Answer Published × StrategyStore :=
  if s.poisoned then (.error "strategy store requires recovery", s)
  else
    match s.stage crates p now with
    | .error message => (.error message, s)
    | .ok none => (.ok p, s)
    | .ok (some body) =>
      match io with
      | .done => (.ok p, s.extend crates p)
      | .torn message kept =>
        (.error message,
          { s with file := s.file ++ (frame crates body).take kept, poisoned := true })

/-- `StrategyStore::get`. -/
def get (id : String) (version : Option String) : Option Published := do
  let hash ← version <|> (s.latest.find id).map Prod.snd
  (s.rows.find hash).filter fun r => r.strategyId = id

end StrategyStore

end StockMesh.Host

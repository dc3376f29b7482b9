import StockMesh.Foundation.Format
import StockMesh.Journal.Log

/-! # Records as JSON

The text that `serde_json` writes for a record whose entry expects no exposure, swap or basket, as the
entries of the generic sender do, with its reader and the checksum of frames. -/

namespace StockMesh.Journal

open Host (Answer)
open Format (number string isDigit_comma isDigit_brace)

/-- Bytes as numbers. -/
def byteFormat : Format UInt8 :=
  number.map UInt8.toNat (fun n => if n < 256 then some (.ofNat n) else none) fun b => by
    simp [b.toNat_lt]

/-- A list of bytes. -/
def bytesFormat : Format (List UInt8) :=
  byteFormat.list fun b rest => Format.number_head b.toNat rest

/-- A key as a list of 32 bytes. -/
def keyFormat : Format Key :=
  bytesFormat.map Vector.toList (fun l => if h : l.length = 32 then some ⟨l.toArray, by simpa⟩ else none)
    fun k => by
      cases k
      simp_all [Vector.toList]

theorem bytesFormat_head (l : List UInt8) (rest : List Char) :
    ∀ c ∈ (bytesFormat.write l ++ rest).head?, c ≠ ']' := by
  intro c hc
  cases l <;> simp [bytesFormat, Format.list] at hc <;> subst hc <;> decide

/-- The resources of an entry. -/
def resourcesFormat : Format (List Key) :=
  keyFormat.list fun k rest => bytesFormat_head k.toList rest

/-- The name of a phase. -/
def Phase.name : Phase → String
  | .prepared => "Prepared"
  | .submitted => "Submitted"
  | .unknown => "Unknown"
  | .finalized => "Finalized"
  | .failed => "Failed"
  | .reconciled => "Reconciled"

/-- The phase of a name. -/
def Phase.ofName (name : String) : Option Phase :=
  [Phase.prepared, .submitted, .unknown, .finalized, .failed, .reconciled].find? (·.name = name)

/-- Phases by their names. -/
def phaseFormat : Format Phase :=
  string.map Phase.name Phase.ofName fun p => by cases p <;> decide

/-- The fields of a record in the order of the source. -/
def fieldsFormat : Format (ℕ × String × Option String × String × List UInt8 × List UInt8 × ℕ ×
    List Key × Phase × ℕ) :=
  let attempts := number.before '}' ['}'] isDigit_brace
  let phase := phaseFormat.follow ',' "\"attempts\":".toList isDigit_comma attempts
  let resources := resourcesFormat.follow ',' "\"phase\":".toList isDigit_comma phase
  let height := number.follow ',' "\"resources\":".toList isDigit_comma resources
  let hash := bytesFormat.follow ',' "\"last_valid_height\":".toList isDigit_comma height
  let wire := bytesFormat.follow ',' "\"message_hash\":".toList isDigit_comma hash
  let signature := string.follow ',' "\"wire\":".toList isDigit_comma wire
  let id := string.optional ',' ',' "\"quote_id\":".toList "\"signature\":".toList rfl rfl (by decide)
    (by decide) string signature
  (number.after "\x7b\"seq\":".toList).follow ',' "\"entry\":\x7b\"id\":".toList isDigit_comma id

/-- A record of an entry that expects nothing. -/
def recordFormat : Format (ℕ × Entry Empty) :=
  fieldsFormat.map
    (fun r => (r.1, r.2.id, r.2.quoteId, r.2.signature, r.2.wire, r.2.messageHash,
      r.2.lastValidHeight, r.2.resources, r.2.phase, r.2.attempts))
    (fun (seq, id, quoteId, signature, wire, messageHash, lastValidHeight, resources, phase,
      attempts) => some (seq, ⟨id, quoteId, signature, wire, messageHash, lastValidHeight, resources,
        none, none, none, phase, attempts⟩))
    fun r => by
      obtain ⟨seq, e⟩ := r
      have hexposure : e.expectedExposure = none := by
        cases h : e.expectedExposure with
        | none => rfl
        | some x => exact x.elim
      have hswap : e.expectedSwap = none := by
        cases h : e.expectedSwap with
        | none => rfl
        | some x => exact x.elim
      have hbasket : e.expectedBasket = none := by
        cases h : e.expectedBasket with
        | none => rfl
        | some b => exact b.rest.elim
      cases e
      simp_all

/-- A plan as JSON. -/
def Plan.json (p : Plan) : List Char :=
  let allocation := fun a : Allocation => "\x7b\"instrument\":".toList ++ string.write a.instrument ++
    ",\"inputAtoms\":".toList ++ string.write a.inputAtoms ++ ['}']
  "\x7b\"id\":".toList ++ string.write p.id ++ ",\"nonce\":".toList ++ string.write p.nonce ++
    ",\"owner\":".toList ++ string.write p.owner ++ ",\"strategyId\":".toList ++
    string.write p.strategyId ++ ",\"versionHash\":".toList ++ string.write p.versionHash ++
    ",\"totalInputAtoms\":".toList ++ string.write p.totalInputAtoms ++
    ",\"retainedCashAtoms\":".toList ++ string.write p.retainedCashAtoms ++
    ",\"maxSlippageBps\":".toList ++ number.write p.maxSlippageBps ++ ",\"allocations\":[".toList ++
    [','].intercalate (p.allocations.map allocation) ++ "]\x7d".toList

/-- The checksum of a byte after eight shifts. -/
def crcByte (crc : UInt32) (b : UInt8) : UInt32 :=
  let shift := fun c : UInt32 => if c &&& 1 = 1 then (c >>> 1) ^^^ 0xEDB88320 else c >>> 1
  shift^[8] (crc ^^^ b.toUInt32)

/-- The CRC-32 checksum. -/
def crc32 (bytes : List UInt8) : UInt32 := (bytes.foldl crcByte 0xFFFFFFFF) ^^^ 0xFFFFFFFF

/-- Text in UTF-8. -/
def utf8 (text : List Char) : List UInt8 := text.flatMap String.utf8EncodeChar

theorem fromUTF8_utf8 (text : List Char) :
    String.fromUTF8? (utf8 text).toByteArray = some (.ofList text) := by
  have hvalid : (utf8 text).toByteArray.IsValidUTF8 := ⟨text, rfl⟩
  rw [String.fromUTF8?, dif_pos hvalid]
  rfl

/-- The encoding of entries that expect nothing. They have no plan, so that nothing of a plan is ever
parsed, hashed or written. -/
def plainCodec : Codec Empty where
  parseKey _ := none
  showKey _ := ""
  planJson _ := []
  sha256 _ := []
  encode seq e := utf8 (recordFormat.write (seq, e))
  decode bytes :=
    match (String.fromUTF8? bytes.toByteArray).bind fun s => recordFormat.read s.toList with
    | some (record, []) => .ok record
    | _ => .error "invalid record"
  decode_encode seq e := by
    have hread := recordFormat.read_write (seq, e) [] fun c hc => by cases hc
    rw [List.append_nil] at hread
    rw [fromUTF8_utf8, Option.bind_some, String.toList_ofList, hread]
  crc32 := crc32

end StockMesh.Journal

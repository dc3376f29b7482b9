import StockMesh.Host.Strategy

/-! # Strategy records as JSON

The text that `serde_json` writes for a record of the store, with its reader. -/

namespace StockMesh.Host.Strategy

open Journal (utf8 fromUTF8_utf8)
open Format (number string isDigit_comma isDigit_brace)

/-- A leg. -/
def legFormat : Format Leg :=
  ((string.after "\x7b\"instrument\":".toList).follow ',' "\"weightBps\":".toList isDigit_comma
    (number.before '}' [] isDigit_brace)).map (fun l => (l.instrument, l.weightBps))
    (fun p => some ⟨p.1, p.2⟩) fun _ => rfl

/-- The legs of a document. -/
def legsFormat : Format (List Leg) :=
  legFormat.list fun l rest c hc => by
    have hhead : (legFormat.write l ++ rest).head? = some '\x7b' := rfl
    rw [hhead, Option.mem_some_iff] at hc
    subst hc
    decide

/-- The hash of the previous version. -/
def previousFormat : Format (Option String) :=
  string.nullable fun s rest c hc => by
    have hhead : (string.write s ++ rest).head? = some '"' := rfl
    rw [hhead, Option.mem_some_iff] at hc
    subst hc
    decide

/-- The fields of a document in the order of the source. -/
def documentFields : Format (String × String × ℕ × Option String × String × String × String ×
    List Leg × ℕ × ℕ × ℕ × ℕ) :=
  let expiresAt := number.before '}' [] isDigit_brace
  let issuedAt := number.follow ',' "\"expiresAt\":".toList isDigit_comma expiresAt
  let creatorFee := number.follow ',' "\"issuedAt\":".toList isDigit_comma issuedAt
  let cashWeight := number.follow ',' "\"creatorFeeBps\":".toList isDigit_comma creatorFee
  let legs := legsFormat.follow ',' "\"cashWeightBps\":".toList isDigit_comma cashWeight
  let description := string.follow ',' "\"legs\":".toList isDigit_comma legs
  let name := string.follow ',' "\"description\":".toList isDigit_comma description
  let catalog := string.follow ',' "\"name\":".toList isDigit_comma name
  let previous := previousFormat.follow ',' "\"catalogRevision\":".toList isDigit_comma catalog
  let version := number.follow ',' "\"previousVersionHash\":".toList isDigit_comma previous
  let nonce := string.follow ',' "\"version\":".toList isDigit_comma version
  (string.after "\x7b\"creator\":".toList).follow ',' "\"nonce\":".toList isDigit_comma nonce

/-- A document. -/
def documentFormat : Format Document :=
  documentFields.map
    (fun d => (d.creator, d.nonce, d.version, d.previousVersionHash, d.catalogRevision, d.name,
      d.description, d.legs, d.cashWeightBps, d.creatorFeeBps, d.issuedAt, d.expiresAt))
    (fun (creator, nonce, version, previous, catalog, name, description, legs, cash, fee, issued,
      expires) => some ⟨creator, nonce, version, previous, catalog, name, description, legs, cash, fee,
      issued, expires⟩) fun _ => rfl

/-- A publication. -/
def publishedFormat : Format Published :=
  let signature := string.before '}' [] isDigit_brace
  let document := documentFormat.follow ',' "\"signature\":".toList isDigit_comma signature
  let hash := string.follow ',' "\"document\":".toList isDigit_comma document
  ((string.after "\x7b\"strategyId\":".toList).follow ',' "\"versionHash\":".toList isDigit_comma hash).map
    (fun p => (p.strategyId, p.versionHash, p.document, p.signature))
    (fun (id, hash, document, signature) => some ⟨id, hash, document, signature⟩) fun _ => rfl

/-- A record. -/
def recordFormat : Format Record :=
  let publication := publishedFormat.before '}' [] isDigit_brace
  let previous := string.follow ',' "\"publication\":".toList isDigit_comma publication
  ((number.after "\x7b\"sequence\":".toList).follow ',' "\"previous\":".toList isDigit_comma previous).map
    (fun r => (r.sequence, r.previous, r.publication))
    (fun (sequence, previous, publication) => some ⟨sequence, previous, publication⟩) fun _ => rfl

/-- `serde_json::to_vec`. -/
def encodeRecord (r : Record) : List UInt8 := utf8 (recordFormat.write r)

/-- `serde_json::from_slice`. -/
def decodeRecord (bytes : List UInt8) : Option Record :=
  match (String.fromUTF8? bytes.toByteArray).bind fun s => recordFormat.read s.toList with
  | some (record, []) => some record
  | _ => none

theorem decodeRecord_encodeRecord (r : Record) : decodeRecord (encodeRecord r) = some r := by
  have hread := recordFormat.read_write r [] fun c hc => by cases hc
  rw [List.append_nil] at hread
  rw [decodeRecord, encodeRecord, fromUTF8_utf8, Option.bind_some, String.toList_ofList, hread]

theorem encodeRecord_ne_nil (r : Record) : encodeRecord r ≠ [] := by
  -- a record starts with its brace
  have hwrite : ∃ rest, recordFormat.write r = '\x7b' :: rest := ⟨_, rfl⟩
  obtain ⟨rest, hrest⟩ := hwrite
  rw [encodeRecord, hrest, utf8, List.flatMap_cons]
  simp [String.utf8EncodeChar]

end StockMesh.Host.Strategy

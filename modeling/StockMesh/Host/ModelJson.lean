import StockMesh.Host.ModelStore
import StockMesh.Journal.Json

/-! # Snapshots as JSON

The text that `serde_json` writes for a snapshot, with its reader. -/

namespace StockMesh.Host

open Format (number string isDigit_comma isDigit_brace isDigit_bracket)
open Journal (keyFormat bytesFormat crc32 utf8 fromUTF8_utf8)

/-- A watermark as an entry of the map of watermarks. -/
def watermarkFormat : Format Fair.Watermark :=
  let newest := ((number.after ['[']).follow ',' [] isDigit_comma keyFormat).before ']' [] isDigit_bracket
  ((number.after ['"']).follow '"' [':'] rfl newest).map (fun w => (w.source, w.sequence, w.digest))
    (fun (source, sequence, digest) => some ⟨source, sequence, digest⟩) fun _ => rfl

/-- The map of watermarks. -/
def latestFormat : Format (Table Fair.Watermark.source) :=
  (watermarkFormat.object fun _ _ => rfl).map Table.rows
    (fun rows => if h : rows.Pairwise (fun a b => a.source < b.source) then some ⟨rows, h⟩ else none)
    fun t => dif_pos t.sorted

/-- The clock of a watermark. -/
def clockFormat : Format (Option (ℕ × ℕ)) :=
  let pair := ((number.after ['[']).follow ',' [] isDigit_comma number).before ']' [] isDigit_bracket
  pair.nullable fun p rest c hc => by
    obtain rfl : c = '[' := by simpa [pair, Format.before, Format.follow, Format.after] using hc.symm
    decide

/-- The watermarks of a snapshot. -/
def fairFormat : Format Fair.Watermarks :=
  let clock := clockFormat.before '\x7d' [] isDigit_brace
  let latest := latestFormat.follow ',' "\"last_clock\":".toList isDigit_comma clock
  ((keyFormat.after "\x7b\"policy_hash\":".toList).follow ',' "\"latest\":".toList isDigit_comma latest).map
    (fun w => (w.policyHash, w.latest, w.lastClock))
    (fun (policyHash, latest, lastClock) => some ⟨policyHash, latest, lastClock⟩) fun _ => rfl

/-- The signatures of a cost model. -/
def seenFormat : Format (Table (id : String → String)) :=
  (string.list fun s rest c hc => by
    obtain rfl : c = '"' := by simpa [string] using hc.symm
    decide).map Table.rows
    (fun rows => if h : rows.Pairwise (fun a b => (id a : String) < id b) then some ⟨rows, h⟩ else none)
    fun t => dif_pos t.sorted

/-- The routes of a cost model. -/
def routesFormat : Format (List RouteCost) :=
  let penalty := number.before ']' [] isDigit_bracket
  let count := number.follow ',' [] isDigit_comma penalty
  let route := ((keyFormat.after ['[']).follow ',' [] isDigit_comma count).map
    (fun r : RouteCost => (r.route, r.count, r.penaltyBps))
    (fun (route, count, penaltyBps) => some ⟨route, count, penaltyBps⟩) fun _ => rfl
  route.list fun r rest c hc => by
    obtain rfl : c = '[' := by simpa [route, Format.map, Format.follow, Format.after] using hc.symm
    decide

/-- The cost model of a snapshot. -/
def costFormat : Format CostState :=
  let routes := routesFormat.before '\x7d' [] isDigit_brace
  let seen := seenFormat.follow ',' "\"routes\":".toList isDigit_comma routes
  ((number.after "\x7b\"epoch\":".toList).follow ',' "\"seen\":".toList isDigit_comma seen).map
    (fun c => (c.epoch, c.seen, c.routes)) (fun (epoch, seen, routes) => some ⟨epoch, seen, routes⟩)
    fun _ => rfl

/-- A snapshot. -/
def modelFormat : Format ModelState :=
  let cost := costFormat.before '\x7d' [] isDigit_brace
  let fair := fairFormat.follow ',' "\"cost\":".toList isDigit_comma cost
  ((number.after "\x7b\"generation\":".toList).follow ',' "\"fair\":".toList isDigit_comma fair).map
    (fun s => (s.generation, s.fair, s.cost)) (fun (generation, fair, cost) => some ⟨generation, fair, cost⟩)
    fun _ => rfl

/-- The encoding of snapshots. -/
def modelCodec : ModelCodec where
  encode s := utf8 (modelFormat.write s)
  decode bytes :=
    match (String.fromUTF8? bytes.toByteArray).bind fun s => modelFormat.read s.toList with
    | some (s, []) => .ok s
    | _ => .error "invalid snapshot"
  decode_encode s := by
    have hread := modelFormat.read_write s [] fun c hc => by cases hc
    rw [List.append_nil] at hread
    rw [fromUTF8_utf8, Option.bind_some, String.toList_ofList, hread]
  crc32 := crc32

end StockMesh.Host

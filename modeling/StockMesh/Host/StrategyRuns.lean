import StockMesh.Host.StrategyJson
import StockMesh.Foundation.History
import Mathlib.Data.List.Chain
import Mathlib.Data.List.GetD

/-! # Runs of a strategy store

Stores grow by records that pass the checks (`Grown`). The versions of every strategy in a grown store are
one line (`History`), and `open` reads a grown store back from its file, in front of every frame that was
not written whole (`openStore_grown`). -/

namespace StockMesh.Host

open Journal (Flush refuse_eq_ok utf8)
open Strategy

namespace StrategyStore

variable {crates : StrategyCrates} {s : StrategyStore} {p : Published}

/-! ## Grown stores -/

/-- A publication that may follow. -/
structure Accepts (crates : StrategyCrates) (s : StrategyStore) (p : Published) : Prop where
  verified : p.verify crates = .ok ()
  next : s.checkNext p = .ok ()
  new : s.rows.find p.versionHash = none
  body : (crates.encode ⟨s.sequence + 1, s.head, p⟩).length ≤ maxRecord
  size : (s.extend crates p).file.length ≤ maxLog

/-- The stores that grow from an empty file by records that pass the checks. -/
inductive Grown (crates : StrategyCrates) : StrategyStore → Prop
  | start : Grown crates (start [])
  | extend {s : StrategyStore} {p : Published} (h : Grown crates s) (hp : Accepts crates s p) :
      Grown crates (s.extend crates p)

theorem length_frame (body : List UInt8) : (frame crates body).length = body.length + 36 := by
  simp only [frame, List.length_append, Buffer.length_toBytes, Vector.length_toList]
  omega

theorem Grown.poisoned (h : Grown crates s) : s.poisoned = false := by
  induction h with
  | start => rfl
  | extend h hp ih => exact ih

theorem Grown.bytes (h : Grown crates s) : s.bytes = s.file.length := by
  induction h with
  | start => rfl
  | extend h hp ih => simp only [StrategyStore.extend, List.length_append, ih]

theorem bytes_extend_le (h : s.bytes ≤ s.file.length) :
    (s.extend crates p).bytes ≤ (s.extend crates p).file.length := by
  simp only [StrategyStore.extend, List.length_append]
  exact Nat.add_le_add_right h _

theorem Grown.size (h : Grown crates s) : s.file.length ≤ maxLog := by
  cases h with
  | start => exact Nat.zero_le _
  | extend h hp => exact hp.size

theorem Grown.verified (h : Grown crates s) : ∀ p ∈ s.rows, p.verify crates = .ok () := by
  induction h with
  | start => exact fun p hp => absurd hp (Table.notMem_empty p)
  | @extend s q h hq ih =>
    intro p hp
    obtain rfl | ⟨hp, -⟩ := Table.mem_insert.mp hp
    · exact hq.verified
    · exact ih p hp

/-- What `publish` stages is accepted. -/
theorem Grown.accepts (h : Grown crates s) {now : ℕ} {body : List UInt8}
    (hstage : s.stage crates p now = .ok (some body)) :
    Accepts crates s p ∧ body = crates.encode ⟨s.sequence + 1, s.head, p⟩ := by
  obtain ⟨_, hverify, hstage⟩ := bind_eq_ok.mp hstage
  cases hfind : s.rows.find p.versionHash with
  | some old =>
    rw [hfind] at hstage
    obtain ⟨_, -, hstage⟩ := bind_eq_ok.mp hstage
    cases hstage
  | none =>
    rw [hfind] at hstage
    obtain ⟨_, -, hstage⟩ := bind_eq_ok.mp hstage
    obtain ⟨_, hnext, hstage⟩ := bind_eq_ok.mp hstage
    obtain ⟨_, hsize, hstage⟩ := bind_eq_ok.mp hstage
    cases hstage
    rw [refuse_eq_ok, h.bytes] at hsize
    refine ⟨⟨hverify, hnext, hfind, by omega, ?_⟩, rfl⟩
    simp only [StrategyStore.extend, List.length_append, length_frame]
    omega

/-! ## The line of a strategy -/

/-- A version that follows another. -/
structure Succeeds (old p : Published) : Prop where
  version : p.document.version = old.document.version + 1
  previous : p.document.previousVersionHash = some old.versionHash
  creator : p.document.creator = old.document.creator
  nonce : p.document.nonce = old.document.nonce

/-- Versions from the first one on, of one creator and nonce. -/
structure Line (versions : List Published) : Prop where
  numbered : versions.map (fun p => p.document.version) = List.range' 1 versions.length
  first : ∀ p ∈ versions.head?, p.document.previousVersionHash = none
  chained : versions.IsChain Succeeds
  owned : ∃ creator nonce, ∀ p ∈ versions,
    p.document.creator = creator ∧ p.document.nonce = nonce

theorem Line.nil : Line [] where
  numbered := rfl
  first p hp := by cases hp
  chained := .nil
  owned := ⟨"", "", fun p hp => absurd hp List.not_mem_nil⟩

theorem Line.single (hversion : p.document.version = 1)
    (hprevious : p.document.previousVersionHash = none) : Line [p] where
  numbered := by simp [hversion]
  first q hq := by
    obtain rfl : p = q := by simpa using hq
    exact hprevious
  chained := .singleton p
  owned := ⟨p.document.creator, p.document.nonce, fun q hq => by simp [List.mem_singleton.mp hq]⟩

theorem Line.append {before : List Published} {old : Published} (h : Line (before ++ [old]))
    (hp : Succeeds old p) : Line (before ++ [old] ++ [p]) where
  numbered := by
    have hlast := congrArg List.getLast? h.numbered
    rw [List.getLast?_range'] at hlast
    have hold : old.document.version = before.length + 1 := by simpa [Nat.add_comm] using hlast
    rw [List.map_append, h.numbered, List.map_singleton, hp.version, hold]
    simp [List.range'_1_concat, Nat.add_comm, Nat.add_left_comm]
  first q hq := h.first q (by simpa using hq)
  chained := by
    refine h.chained.append (.singleton p) fun x hx y hy => ?_
    obtain rfl : old = x := by simpa using hx
    obtain rfl : p = y := by simpa using hy
    exact hp
  owned := by
    obtain ⟨creator, nonce, howned⟩ := h.owned
    obtain ⟨hcreator, hnonce⟩ := howned old (by simp)
    refine ⟨creator, nonce, fun q hq => ?_⟩
    rcases List.mem_append.mp hq with hq | hq
    · exact howned q hq
    · obtain rfl := List.mem_singleton.mp hq
      exact ⟨hp.creator.trans hcreator, hp.nonce.trans hnonce⟩

/-- The stored versions of a strategy are a line, and its latest version is the last one. -/
structure History (s : StrategyStore) (id : String) (versions : List Published) : Prop where
  stored : ∀ p, p ∈ versions ↔ p ∈ s.rows ∧ p.strategyId = id
  line : Line versions
  latest : s.latest.find id = versions.getLast?.map fun p => (id, p.versionHash)

/-- `check_next` lets the line of a strategy go on. -/
theorem History.line_next {versions : List Published} (h : s.History p.strategyId versions)
    (hnext : s.checkNext p = .ok ()) : Line (versions ++ [p]) := by
  obtain ⟨_, -, hnext⟩ := bind_eq_ok.mp hnext
  rcases List.eq_nil_or_concat versions with rfl | ⟨before, old, rfl⟩
  · -- the first version
    have hnone : s.latest.find p.strategyId = none := h.latest
    simp only [hnone, refuse_eq_ok, not_or, not_not, Bool.not_eq_true, Option.isSome_eq_false_iff,
      Option.isNone_iff_eq_none] at hnext
    exact .single hnext.1 hnext.2
  · -- the version after `old`
    rw [List.concat_eq_append] at h ⊢
    have hsome : s.latest.find p.strategyId = some (p.strategyId, old.versionHash) := by
      simpa using h.latest
    have hold : old ∈ s.rows := ((h.stored old).mp (by simp)).1
    rw [hsome] at hnext
    obtain ⟨found, hfound, hnext⟩ := bind_eq_ok.mp hnext
    rw [present_eq_ok, Table.find_key hold, Option.some.injEq] at hfound
    subst hfound
    simp only [refuse_eq_ok, not_or, not_not] at hnext
    obtain ⟨hversion, hprevious, hcreator, hnonce⟩ := hnext
    exact h.line.append ⟨hversion, hprevious, hcreator, hnonce⟩

theorem mem_rows_extend (hnew : s.rows.find p.versionHash = none) (q : Published) :
    q ∈ (s.extend crates p).rows ↔ q = p ∨ q ∈ s.rows :=
  Table.mem_insert.trans (or_congr_right (and_iff_left_of_imp fun hq =>
    Table.find_eq_none.mp hnew q hq))

theorem find_latest_extend (id : String) : (s.extend crates p).latest.find id =
    if p.strategyId = id then some (p.strategyId, p.versionHash) else s.latest.find id :=
  Table.find_insert s.latest (p.strategyId, p.versionHash) id

/-- The versions of a strategy after one more record. -/
theorem History.extend {id : String} {versions : List Published} (h : s.History id versions)
    (hp : Accepts crates s p) :
    (s.extend crates p).History id (if p.strategyId = id then versions ++ [p] else versions) := by
  have hstored := @mem_rows_extend crates s p hp.new
  have hlatest := @find_latest_extend crates s p id
  by_cases hid : p.strategyId = id
  · subst hid
    rw [if_pos rfl] at hlatest ⊢
    refine ⟨fun q => ?_, h.line_next hp.next, hlatest.trans (by simp)⟩
    rw [List.mem_append, h.stored, hstored, List.mem_singleton]
    constructor
    · rintro (⟨hq, hid⟩ | rfl)
      · exact ⟨.inr hq, hid⟩
      · exact ⟨.inl rfl, rfl⟩
    · rintro ⟨rfl | hq, hid⟩
      · exact .inr rfl
      · exact .inl ⟨hq, hid⟩
  · rw [if_neg hid] at hlatest ⊢
    refine ⟨fun q => ?_, h.line, hlatest.trans h.latest⟩
    rw [h.stored, hstored]
    refine and_congr_left fun hq => (or_iff_right ?_).symm
    rintro rfl
    exact hid hq

/-- The stored versions of every strategy are one line. -/
theorem Grown.history (h : Grown crates s) (id : String) : ∃ versions, s.History id versions := by
  induction h with
  | start =>
    refine ⟨[], fun p => ?_, .nil, rfl⟩
    exact ⟨fun hp => absurd hp List.not_mem_nil, fun hp => absurd hp.1 (Table.notMem_empty p)⟩
  | extend h hp ih =>
    obtain ⟨versions, hversions⟩ := ih
    exact ⟨_, hversions.extend hp⟩

/-! ## Reading the file -/

/-- A body that may stand in a frame. -/
def Fits (body : List UInt8) : Prop := body ≠ [] ∧ body.length ≤ maxRecord

/-- What is left of a frame that was not written whole. -/
def Torn (crates : StrategyCrates) (torn : List UInt8) : Prop :=
  ∃ body k, Fits body ∧ k < (frame crates body).length ∧ torn = (frame crates body).take k

theorem Accepts.fits (hp : Accepts crates s p) : Fits (crates.encode ⟨s.sequence + 1, s.head, p⟩) :=
  ⟨crates.encode_ne_nil _, hp.body⟩

theorem torn_nil : Torn crates [] :=
  ⟨[0], 0, ⟨List.cons_ne_nil _ _, by decide⟩, by rw [length_frame]; omega, rfl⟩

theorem take_four_frame (body rest : List UInt8) :
    (frame crates body ++ rest).take 4 = Buffer.toBytes 4 body.length := by
  have hlen : (Buffer.toBytes 4 body.length).length = 4 := Buffer.length_toBytes _ _
  rw [frame, List.append_assoc, List.append_assoc, List.take_append_of_le_length hlen.ge,
    List.take_of_length_le hlen.le]

theorem drop_four_frame (body rest : List UInt8) :
    (frame crates body ++ rest).drop 4 = body ++ ((crates.sha256 body).toList ++ rest) := by
  have hlen : (Buffer.toBytes 4 body.length).length = 4 := Buffer.length_toBytes _ _
  rw [frame, List.append_assoc, List.append_assoc, List.drop_left' hlen]

theorem Fits.ofBytes_length {body : List UInt8} (h : Fits body) :
    Buffer.ofBytes (Buffer.toBytes 4 body.length) = body.length := by
  have hbody := h.2
  rw [Buffer.ofBytes_toBytes, Nat.mod_eq_of_lt]
  unfold maxRecord at hbody
  omega

/-- The length of a body passes the size check. -/
theorem Fits.not_record_size {body : List UInt8} (h : Fits body) :
    ¬(body.length = 0 ∨ maxRecord < body.length) := by
  have hpos := List.length_pos_iff.mpr h.1
  have hbody := h.2
  omega

/-- A store whose file is still being read. -/
def reading (s : StrategyStore) (file : List UInt8) : StrategyStore := { s with file, bytes := 0 }

/-- The checks of `open` let an accepted record pass. -/
theorem readFrame_accepted (hp : Accepts crates s p) (file : List UInt8) :
    let body := crates.encode ⟨s.sequence + 1, s.head, p⟩
    (s.reading file).readFrame crates body (crates.sha256 body).toList =
      .ok ((s.extend crates p).reading file) := by
  intro body
  have hverified := hp.verified
  have hnext : (s.reading file).checkNext p = .ok () := hp.next
  have hnew : (s.reading file).rows.find p.versionHash = none := hp.new
  unfold readFrame
  rw [refuse_of_not (not_not.mpr rfl), ok_bind, crates.decode_encode, present, ok_bind]
  dsimp only
  rw [refuse_of_not (by simp [reading]), ok_bind, hverified, ok_bind, hnext, ok_bind, hnew,
    refuse_of_not (by simp), ok_bind]
  rfl

/-- One whole record of the loop. -/
theorem load_frame (hp : Accepts crates s p) (file rest : List UInt8) (offset : ℕ) :
    let body := crates.encode ⟨s.sequence + 1, s.head, p⟩
    load crates (frame crates body ++ rest) (s.reading file) offset =
      load crates rest ((s.extend crates p).reading file) (offset + (frame crates body).length) := by
  intro body
  have hbody : Fits body := hp.fits
  have hlen : (frame crates body).length = body.length + 36 := length_frame body
  have hdigest : (crates.sha256 body).toList.length = 32 := Vector.length_toList
  have hlong : ¬(frame crates body ++ rest).length < 4 := by
    rw [List.length_append]
    omega
  have hwhole : ¬(frame crates body ++ rest).length < 4 + body.length + 32 := by
    rw [List.length_append]
    omega
  have hrest : (frame crates body ++ rest).drop (4 + body.length + 32) = rest :=
    List.drop_left' (by omega)
  have hafter : (frame crates body ++ rest).drop (4 + body.length) =
      (crates.sha256 body).toList ++ rest := by
    rw [← List.drop_drop, drop_four_frame, List.drop_left]
  rw [load, dif_neg hlong]
  simp only [take_four_frame, hbody.ofBytes_length]
  rw [refuse_of_not hbody.not_record_size, ok_bind, if_neg hwhole, hafter, drop_four_frame,
    List.take_left, List.take_left' hdigest, readFrame_accepted hp, ok_bind, hrest]
  congr 1
  omega

/-- The loop stops before a frame that was not written whole. -/
theorem load_torn {torn : List UInt8} (h : Torn crates torn) (s : StrategyStore) (offset : ℕ) :
    load crates torn s offset = .ok (s, offset) := by
  obtain ⟨body, k, hbody, hk, rfl⟩ := h
  rw [load]
  by_cases hshort : ((frame crates body).take k).length < 4
  · rw [dif_pos hshort]
  -- the length is whole and asks for more bytes than there are
  have hlen := @length_frame crates body
  have hhead : ((frame crates body).take k).take 4 = Buffer.toBytes 4 body.length := by
    rw [List.length_take] at hshort
    rw [List.take_take, min_eq_left (by omega)]
    simpa using @take_four_frame crates body []
  have hpart : ((frame crates body).take k).length < 4 + body.length + 32 := by
    rw [List.length_take]
    omega
  rw [dif_neg hshort]
  simp only [hhead, hbody.ofBytes_length]
  rw [refuse_of_not hbody.not_record_size, ok_bind, if_pos hpart]

/-- The loop reads a grown store back from the start of a file. -/
theorem load_grown (h : Grown crates s) (file rest : List UInt8) :
    load crates (s.file ++ rest) (start file) 0 =
      load crates rest (s.reading file) s.file.length := by
  induction h generalizing rest with
  | start => rfl
  | @extend s p h hp ih =>
    have hfile : (s.extend crates p).file =
        s.file ++ frame crates (crates.encode ⟨s.sequence + 1, s.head, p⟩) := rfl
    rw [hfile, List.append_assoc, ih, load_frame hp, List.length_append]

/-- `open` reads a grown store back, and drops what was not written whole. -/
theorem openStore_grown (h : Grown crates s) {torn : List UInt8} (htorn : Torn crates torn)
    (hsize : (s.file ++ torn).length ≤ maxLog) : openStore crates (s.file ++ torn) = .ok s := by
  have hbytes := h.bytes
  unfold openStore
  rw [refuse_of_not (not_lt.mpr hsize), ok_bind, load_grown h, load_torn htorn, ok_bind]
  dsimp only
  rw [List.take_left, ← hbytes]
  rfl

/-! ## Runs -/

/-- A running store, or the file that a crash has left. -/
inductive Disk
  | running (s : StrategyStore)
  | down (file : List UInt8)

/-- The publications that an answer acknowledges. -/
def acknowledged : Answer Published → List Published
  | .ok p => [p]
  | .error _ => []

/-- The steps of a run, with the publications that they acknowledge. A crash keeps the bytes that `open`
has found and those of acknowledged records, which `bytes` counts, and any prefix of the others. -/
inductive Step (crates : StrategyCrates) : Disk → List Published → Disk → Prop
  | opened (file : List UInt8) (s : StrategyStore) (hopen : openStore crates file = .ok s) :
      Step crates (.down file) [] (.running s)
  /-- An `open` that cut the torn frame and came no further. -/
  | cut (file : List UInt8) (s : StrategyStore) (offset : ℕ)
      (hload : load crates file (start file) 0 = .ok (s, offset)) :
      Step crates (.down file) [] (.down (file.take offset))
  | published (s : StrategyStore) (p : Published) (now : ℕ) (io : Flush) :
      Step crates (.running s) (acknowledged (s.publish crates p now io).1)
        (.running (s.publish crates p now io).2)
  | crashed (s : StrategyStore) (kept : ℕ) (hkept : s.bytes ≤ kept) :
      Step crates (.running s) [] (.down (s.file.take kept))

/-- A store after a write that failed. -/
structure Failed (crates : StrategyCrates) (s₀ s : StrategyStore) (p : Published) (kept : ℕ) :
    Prop where
  accepts : Accepts crates s₀ p
  state : s = { s₀ with
    file := s₀.file ++ (frame crates (crates.encode ⟨s₀.sequence + 1, s₀.head, p⟩)).take kept
    poisoned := true }

/-- What `publish` can do: nothing, find the publication, store it, or fail to write it. -/
inductive Outcome (crates : StrategyCrates) (s : StrategyStore) (p : Published) :
    Flush → Answer Published × StrategyStore → Prop
  | refused (io : Flush) (message : String) : Outcome crates s p io (.error message, s)
  | found (io : Flush) (hp : p ∈ s.rows) : Outcome crates s p io (.ok p, s)
  | stored (hp : Accepts crates s p) : Outcome crates s p .done (.ok p, s.extend crates p)
  | torn (message : String) (kept : ℕ) (s' : StrategyStore) (hfailed : Failed crates s s' p kept) :
      Outcome crates s p (.torn message kept) (.error message, s')

/-- What `stage` finds is stored. -/
theorem mem_of_stage {now : ℕ} (h : s.stage crates p now = .ok none) : p ∈ s.rows := by
  obtain ⟨_, -, h⟩ := bind_eq_ok.mp h
  cases hfind : s.rows.find p.versionHash with
  | none =>
    rw [hfind] at h
    obtain ⟨_, -, h⟩ := bind_eq_ok.mp h
    obtain ⟨_, -, h⟩ := bind_eq_ok.mp h
    obtain ⟨_, -, h⟩ := bind_eq_ok.mp h
    cases h
  | some old =>
    rw [hfind] at h
    obtain ⟨_, hsame, -⟩ := bind_eq_ok.mp h
    rw [refuse_eq_ok, not_not] at hsame
    exact hsame ▸ (Table.find_eq_some.mp hfind).1

theorem publish_poisoned (h : s.poisoned = true) (p : Published) (now : ℕ) (io : Flush) :
    s.publish crates p now io = (.error "strategy store requires recovery", s) := if_pos h

/-- A call of `publish` on a grown store. -/
theorem Grown.outcome (h : Grown crates s) (p : Published) (now : ℕ) (io : Flush) :
    Outcome crates s p io (s.publish crates p now io) := by
  unfold publish
  rw [if_neg (by simp [h.poisoned])]
  cases hstage : s.stage crates p now with
  | error message => exact .refused io message
  | ok staged =>
    cases staged with
    | none => exact .found io (mem_of_stage hstage)
    | some body =>
      obtain ⟨hp, rfl⟩ := h.accepts hstage
      cases io with
      | done => exact .stored hp
      | torn message kept => exact .torn message kept _ ⟨hp, rfl⟩

/-- A stored publication is found again. -/
theorem Grown.publish_stored (h : Grown crates s) (hp : p ∈ s.rows) (now : ℕ) (io : Flush) :
    s.publish crates p now io = (.ok p, s) := by
  have hstage : s.stage crates p now = .ok none := by
    unfold stage
    rw [h.verified p hp, ok_bind, Table.find_key hp]
    dsimp only
    rw [refuse_of_not (not_not.mpr rfl), ok_bind]
  unfold publish
  rw [if_neg (by simp [h.poisoned]), hstage]

/-- A file that tells the acknowledged publications. -/
def Recoverable (crates : StrategyCrates) (log : List Published) (file : List UInt8) : Prop :=
  ∃ s torn, Grown crates s ∧ (∀ p ∈ log, p ∈ s.rows) ∧ Torn crates torn ∧ file = s.file ++ torn ∧
    file.length ≤ maxLog

theorem Recoverable.opens {log : List Published} {file : List UInt8}
    (h : Recoverable crates log file) :
    ∃ s, openStore crates file = .ok s ∧ Grown crates s ∧ ∀ p ∈ log, p ∈ s.rows := by
  obtain ⟨s, torn, hgrown, hlog, htorn, rfl, hsize⟩ := h
  exact ⟨s, openStore_grown hgrown htorn hsize, hgrown, hlog⟩

/-- The part of a record that a failed write has left is torn, or it is whole. -/
theorem Accepts.append_take (hp : Accepts crates s p) (kept : ℕ) :
    ∃ s' torn, (s' = s ∨ s' = s.extend crates p) ∧ Torn crates torn ∧
      s.file ++ (frame crates (crates.encode ⟨s.sequence + 1, s.head, p⟩)).take kept =
        s'.file ++ torn := by
  by_cases hkept : kept < (frame crates (crates.encode ⟨s.sequence + 1, s.head, p⟩)).length
  · exact ⟨s, _, .inl rfl, ⟨_, kept, hp.fits, hkept, rfl⟩, rfl⟩
  · refine ⟨s.extend crates p, [], .inr rfl, torn_nil, ?_⟩
    rw [List.take_of_length_le (not_lt.mp hkept), List.append_nil]
    rfl

/-- A grown store, or one after a failed write of a record that may follow it. -/
structure Kept (crates : StrategyCrates) (log : List Published) (s₀ s : StrategyStore) : Prop where
  grown : Grown crates s₀
  log : ∀ p ∈ log, p ∈ s₀.rows
  state : s = s₀ ∨ ∃ p kept, Failed crates s₀ s p kept

/-- What holds after every step. -/
def Disk.Invariant (crates : StrategyCrates) (log : List Published) : Disk → Prop
  | .running s => ∃ s₀, Kept crates log s₀ s
  | .down file => Recoverable crates log file

theorem Kept.bytes_le {log : List Published} {s₀ : StrategyStore} (h : Kept crates log s₀ s) :
    s.bytes ≤ s.file.length := by
  obtain ⟨hgrown, -, rfl | ⟨p, whole, hp, rfl⟩⟩ := h
  · exact hgrown.bytes.le
  · rw [List.length_append]
    exact hgrown.bytes.le.trans (Nat.le_add_right _ _)

/-- Every part of the file that a crash leaves tells the records of a store, and perhaps the one whose
write has failed. -/
theorem Kept.crashed {log : List Published} {s₀ : StrategyStore} (h : Kept crates log s₀ s) {kept : ℕ}
    (hkept : s.bytes ≤ kept) :
    ∃ s' torn, (s' = s₀ ∨ ∃ p, Accepts crates s₀ p ∧ s' = s₀.extend crates p) ∧ Torn crates torn ∧
      s.file.take kept = s'.file ++ torn ∧ (s'.file ++ torn).length ≤ maxLog := by
  obtain ⟨hgrown, -, rfl | ⟨p, whole, hp, rfl⟩⟩ := h
  · refine ⟨s, [], .inl rfl, torn_nil, ?_, ?_⟩
    · rw [List.take_of_length_le (hgrown.bytes ▸ hkept), List.append_nil]
    · rw [List.append_nil]
      exact hgrown.size
  · have hlen : s₀.file.length ≤ kept := hgrown.bytes ▸ hkept
    have htake : (s₀.file ++ (frame crates (crates.encode ⟨s₀.sequence + 1, s₀.head, p⟩)).take
        whole).take kept = s₀.file ++ (frame crates (crates.encode
          ⟨s₀.sequence + 1, s₀.head, p⟩)).take (min (kept - s₀.file.length) whole) := by
      rw [List.take_append, List.take_of_length_le hlen, List.take_take]
    obtain ⟨s', torn, hs', htorn, hfile⟩ := hp.append_take (min (kept - s₀.file.length) whole)
    refine ⟨s', torn, hs'.imp_right fun h => ⟨p, hp, h⟩, htorn, htake.trans hfile, ?_⟩
    -- the part is no longer than the record
    have hsize := hp.size
    simp only [StrategyStore.extend, List.length_append] at hsize
    rw [← hfile, List.length_append, List.length_take]
    omega

theorem mem_extend {q : Published} (hp : Accepts crates s p) (hq : q ∈ s.rows) :
    q ∈ (s.extend crates p).rows :=
  (mem_rows_extend hp.new q).mpr (.inr hq)

/-- What a crash leaves opens to the records before the crash. -/
theorem Kept.recoverable {log : List Published} {s₀ : StrategyStore} (h : Kept crates log s₀ s)
    {kept : ℕ} (hkept : s.bytes ≤ kept) : Recoverable crates log (s.file.take kept) := by
  obtain ⟨s', torn, rfl | ⟨p, hp, rfl⟩, htorn, hfile, hsize⟩ := h.crashed hkept
  · exact ⟨s', torn, h.grown, h.log, htorn, hfile, hfile ▸ hsize⟩
  · exact ⟨_, torn, h.grown.extend hp, fun q hq => mem_extend hp (h.log q hq), htorn, hfile,
      hfile ▸ hsize⟩

/-- One call keeps the invariant and stores what it acknowledges. -/
theorem Kept.publish {log : List Published} {s₀ : StrategyStore} (h : Kept crates log s₀ s)
    (p : Published) (now : ℕ) (io : Flush) :
    ∃ s₁, Kept crates (log ++ acknowledged (s.publish crates p now io).1) s₁
      (s.publish crates p now io).2 := by
  obtain ⟨hgrown, hlog, rfl | ⟨q, whole, hq, rfl⟩⟩ := h
  · have hout := hgrown.outcome p now io
    generalize s.publish crates p now io = out at hout
    cases hout with
    | refused _ message => exact ⟨s, hgrown, by simpa [acknowledged] using hlog, .inl rfl⟩
    | found _ hp =>
      refine ⟨s, hgrown, fun q hq => ?_, .inl rfl⟩
      rcases List.mem_append.mp hq with hq | hq
      · exact hlog q hq
      · exact List.mem_singleton.mp hq ▸ hp
    | stored hp =>
      refine ⟨_, hgrown.extend hp, fun q hq => ?_, .inl rfl⟩
      rcases List.mem_append.mp hq with hq | hq
      · exact mem_extend hp (hlog q hq)
      · exact (mem_rows_extend hp.new q).mpr (.inl (List.mem_singleton.mp hq))
    | torn message kept s' hfailed =>
      exact ⟨s, hgrown, by simpa [acknowledged] using hlog, .inr ⟨p, kept, hfailed⟩⟩
  · -- the write of `q` has failed before
    rw [publish_poisoned rfl]
    exact ⟨s₀, hgrown, by simpa [acknowledged] using hlog, .inr ⟨q, whole, hq, rfl⟩⟩

/-- One step keeps the invariant. -/
theorem Step.invariant {log events : List Published} {d d' : Disk} (hstep : Step crates d events d')
    (h : d.Invariant crates log) : d'.Invariant crates (log ++ events) := by
  cases hstep with
  | opened file s hopen =>
    obtain ⟨s', hopen', hgrown, hlog⟩ := Recoverable.opens h
    obtain rfl : s' = s := Except.ok.inj (hopen'.symm.trans hopen)
    exact ⟨s', hgrown, by simpa using hlog, .inl rfl⟩
  | cut file s offset hload =>
    obtain ⟨s', torn, hgrown, hlog, htorn, rfl, -⟩ := h
    rw [load_grown hgrown, load_torn htorn] at hload
    obtain ⟨-, rfl⟩ := Prod.mk.inj (Except.ok.inj hload)
    refine ⟨s', [], hgrown, by simpa using hlog, torn_nil, ?_, ?_⟩
    · rw [List.take_left, List.append_nil]
    · rw [List.take_left]
      exact hgrown.size
  | published s p now io =>
    obtain ⟨s₀, h⟩ := h
    exact h.publish p now io
  | crashed s kept hkept =>
    obtain ⟨s₀, h⟩ := h
    rw [List.append_nil]
    exact h.recoverable hkept

theorem invariant_of_run {log : List Published} {d : Disk}
    (h : Tells (Step crates) (.down []) log d) : d.Invariant crates log := by
  refine h.invariant ?_ fun _ _ _ _ hinv hstep => hstep.invariant hinv
  exact ⟨start [], [], .start, fun p hp => absurd hp List.not_mem_nil, torn_nil, rfl, Nat.zero_le _⟩

/-! ## What a store promises -/

/-- The same publications, latest versions and head of the log. -/
def Same (s s' : StrategyStore) : Prop := s'.rows = s.rows ∧ s'.latest = s.latest ∧ s'.head = s.head

/-- What a running store promises, after the acknowledged publications of `log`. -/
structure Sound (crates : StrategyCrates) (log : List Published) (s : StrategyStore) : Prop where
  linear : ∀ id, ∃ versions, s.History id versions
  durable : ∀ p ∈ log, s.get p.strategyId (some p.versionHash) = some p
  reopens : s.poisoned = false → openStore crates s.file = .ok s
  recovers : ∃ s', openStore crates s.file = .ok s' ∧
    (s.Same s' ∨ s.poisoned = true ∧ ∃ p, p.verify crates = .ok () ∧ s.checkNext p = .ok () ∧
      (s.extend crates p).Same s')
  idempotent : s.poisoned = false → ∀ p ∈ s.rows, ∀ now io, s.publish crates p now io = (.ok p, s)
  refused : ∀ p now io message s', s.publish crates p now io = (.error message, s') →
    s' = s ∨ ∃ kept, io = .torn message kept ∧ s'.poisoned = true ∧ s.Same s'
  fenced : s.poisoned = true →
    ∀ p now io, s.publish crates p now io = (.error "strategy store requires recovery", s)

theorem get_of_mem (hp : p ∈ s.rows) :
    s.get p.strategyId (some p.versionHash) = some p := by
  have hfind : s.rows.find p.versionHash = some p := Table.find_key hp
  simp [StrategyStore.get, hfind]

/-- A grown store is sound. -/
theorem Grown.sound (h : Grown crates s) {log : List Published} (hlog : ∀ p ∈ log, p ∈ s.rows) :
    Sound crates log s where
  linear := h.history
  durable p hp := get_of_mem (hlog p hp)
  reopens _ := by
    have hopen := openStore_grown h torn_nil (by rw [List.append_nil]; exact h.size)
    rwa [List.append_nil] at hopen
  recovers := by
    have hopen := openStore_grown h torn_nil (by rw [List.append_nil]; exact h.size)
    rw [List.append_nil] at hopen
    exact ⟨s, hopen, .inl ⟨rfl, rfl, rfl⟩⟩
  idempotent _ p hp now io := h.publish_stored hp now io
  refused p now io message s' hpublish := by
    have hout := h.outcome p now io
    rw [hpublish] at hout
    cases hout with
    | refused => exact .inl rfl
    | torn _ kept _ hfailed =>
      obtain ⟨-, rfl⟩ := hfailed
      exact .inr ⟨kept, rfl, rfl, rfl, rfl, rfl⟩
  fenced hpoisoned := by
    rw [h.poisoned] at hpoisoned
    cases hpoisoned

/-- A store after a failed write is sound. -/
theorem Failed.sound {s₀ : StrategyStore} {kept : ℕ} (hfailed : Failed crates s₀ s p kept)
    (h : Grown crates s₀) {log : List Published} (hlog : ∀ p ∈ log, p ∈ s₀.rows) :
    Sound crates log s := by
  have hkept : Kept crates log s₀ s := ⟨h, hlog, .inr ⟨p, kept, hfailed⟩⟩
  obtain ⟨hp, rfl⟩ := hfailed
  exact {
    linear := fun id => (h.history id).imp fun _ hline => ⟨hline.stored, hline.line, hline.latest⟩
    durable := fun q hq => get_of_mem (hlog q hq)
    reopens := fun hclean => by cases hclean
    recovers := by
      obtain ⟨s', torn, hs', htorn, hfile, hsize⟩ := hkept.crashed hkept.bytes_le
      rw [List.take_length] at hfile
      rcases hs' with rfl | ⟨q, hq, rfl⟩
      · exact ⟨s', hfile ▸ openStore_grown h htorn hsize, .inl ⟨rfl, rfl, rfl⟩⟩
      · exact ⟨s₀.extend crates q, hfile ▸ openStore_grown (h.extend hq) htorn hsize,
          .inr ⟨rfl, q, hq.verified, hq.next, rfl, rfl, rfl⟩⟩
    idempotent := fun hclean => by cases hclean
    refused := fun q now io message s' hpublish => by
      rw [publish_poisoned rfl] at hpublish
      exact .inl (Prod.mk.inj hpublish).2.symm
    fenced := fun hpoisoned q now io => publish_poisoned hpoisoned q now io }

/-- What a run promises: its running store is sound, and what a crash has left opens to a sound store. -/
def Disk.Sound (crates : StrategyCrates) (log : List Published) : Disk → Prop
  | .running s => StrategyStore.Sound crates log s
  | .down file => ∃ s, openStore crates file = .ok s ∧ StrategyStore.Sound crates log s

/-- Whatever is published, wherever writes fail and crashes stop them, and however often the store is
opened again: its strategies are lines of versions, it has every acknowledged publication, and it opens
again from its file. -/
theorem strategy_store (crates : StrategyCrates) {log : List Published} {d : Disk}
    (h : Tells (Step crates) (.down []) log d) : d.Sound crates log := by
  have hinv := invariant_of_run h
  cases d with
  | running s =>
    obtain ⟨s₀, hgrown, hlog, rfl | ⟨p, kept, hfailed⟩⟩ := hinv
    · exact hgrown.sound hlog
    · exact hfailed.sound hgrown hlog
  | down file =>
    obtain ⟨s, hopen, hgrown, hlog⟩ := Recoverable.opens hinv
    exact ⟨s, hopen, hgrown.sound hlog⟩

/-! ## An example -/

/-- The document of an example. -/
def exampleDocument : Document where
  creator := "GmaDrppBC7P5ARKV8g3djiwP89vz1jLK23V2GBjuAEGB"
  nonce := "12121212121212121212121212121212"
  version := 1
  previousVersionHash := none
  catalogRevision := "abababababababababababababababababababababababababababababababab"
  name := "AI portfolio"
  description := "Chips and software"
  legs := [⟨"NVDA", 4500⟩, ⟨"MSFT", 4500⟩]
  cashWeightBps := 1000
  creatorFeeBps := 500
  issuedAt := 1000
  expiresAt := 1600

/-- The signed document. -/
def examplePublication : Published where
  strategyId := "stks_78789ac0a1e2c95449f7b642f8e14827692fc8cc3df8f309ef6f54466a910506"
  versionHash := "f2c3003f217bbc6ec02875e901acb04b4ee2b059a2b9f3ee529df5eaf783c337"
  document := exampleDocument
  signature :=
    "MXZS4kN3CckmAc3nMxd0ejz/z1Y8t+MK4sRs+0+EQSbfTZ5IvolxUcjYV/TH9IlahfPuNAbJJ+41mAmmuGCrBQ=="

/-- Its signature and the key of its creator. -/
def exampleSignature : List UInt8 :=
  (Key.ofNat 0x317652e2437709c92601cde73317747a3cffcf563cb7e30ae2c46cfb4f844126).toList ++
    (Key.ofNat 0xdf4d9e48be897151c8d857f4c7f4895a85f3ee3406c927ee359809a6b860ab05).toList

def exampleKey : Key := Key.ofNat 0xea4a6c63e29c520abef5507b132ec5f9954776aebebe7b92421eea691446d22c

/-- Other crates on the values of the example. -/
def exampleStrategyCrates : StrategyCrates where
  decode58 text := if text = exampleDocument.creator then some exampleKey.toList else none
  encode58 _ := exampleDocument.creator
  verifyingKey _ := some false
  verifyStrict key _ signature := key = exampleKey ∧ signature = exampleSignature
  decode64 text := if text = examplePublication.signature then some exampleSignature else none
  encode64 _ := examplePublication.signature
  sha256 bytes :=
    -- the texts of the identity and of the version, and the record
    match (bytes.getD 4 0).toNat with
    | 95 => Key.ofNat 0x78789ac0a1e2c95449f7b642f8e14827692fc8cc3df8f309ef6f54466a910506
    | 32 => Key.ofNat 0xf2c3003f217bbc6ec02875e901acb04b4ee2b059a2b9f3ee529df5eaf783c337
    | _ => Key.ofNat 0xf69c1538b21f3b557afb1fb4579064570a2b9e3c4f7b7bb0ebfe601a9592c115
  encode := encodeRecord
  decode := decodeRecord
  decode_encode := decodeRecord_encodeRecord
  encode_ne_nil := encodeRecord_ne_nil

/-- The digest of a text is told by its start. -/
theorem example_sha256 {lead : String} (rest : List Char) (h : 4 < (utf8 lead.toList).length) :
    exampleStrategyCrates.sha256 (utf8 (lead.toList ++ rest)) =
      exampleStrategyCrates.sha256 (utf8 lead.toList) := by
  have hget : (utf8 (lead.toList ++ rest)).getD 4 0 = (utf8 lead.toList).getD 4 0 := by
    rw [utf8, List.flatMap_append]
    exact List.getD_append _ _ _ _ h
  simp only [exampleStrategyCrates, hget]

theorem example_valid : exampleDocument.validate exampleStrategyCrates = .ok () := by
  decide

theorem example_id :
    exampleDocument.strategyId exampleStrategyCrates = .ok examplePublication.strategyId := by
  have hstart : exampleStrategyCrates.sha256 (utf8 "XTXC_STRATEGY_V1\x00".toList) =
      Key.ofNat 0x78789ac0a1e2c95449f7b642f8e14827692fc8cc3df8f309ef6f54466a910506 := by decide
  rw [Document.strategyId, example_valid, ok_bind, StrategyCrates.hash]
  simp only [String.toList_append, List.append_assoc]
  rw [example_sha256 _ (by decide), hstart]
  decide

theorem example_message : ∃ text, exampleDocument.message exampleStrategyCrates = .ok text ∧
    exampleStrategyCrates.hash text = examplePublication.versionHash := by
  have hstart : exampleStrategyCrates.sha256
      (utf8 "XTXC Strategy Publication\nNetwork: solana:mainnet\nCreator: ".toList) =
      Key.ofNat 0xf2c3003f217bbc6ec02875e901acb04b4ee2b059a2b9f3ee529df5eaf783c337 := by decide
  refine ⟨_, by rw [Document.message, example_valid, ok_bind], ?_⟩
  rw [StrategyCrates.hash]
  simp only [String.toList_append, List.append_assoc]
  rw [example_sha256 _ (by decide), hstart]
  decide

theorem example_verified : examplePublication.verify exampleStrategyCrates = .ok () := by
  obtain ⟨text, hmessage, hhash⟩ := example_message
  have hkey : exampleStrategyCrates.creatorKey exampleDocument.creator = .ok exampleKey := by
    decide
  have hsignature : exampleSignature.length = 64 := by decide
  have hdocument : examplePublication.document = exampleDocument := rfl
  have hdecode : exampleStrategyCrates.decode64 examplePublication.signature =
      some exampleSignature := by decide
  have hencode : exampleStrategyCrates.encode64 exampleSignature = examplePublication.signature := rfl
  rw [Published.verify, hdocument, example_id, ok_bind, refuse_of_not (not_not.mpr rfl), ok_bind,
    Document.versionHash, hmessage, ok_bind, ok_bind, hhash, refuse_of_not (not_not.mpr rfl), ok_bind,
    hkey, ok_bind, hdecode, present, ok_bind]
  rw [refuse_of_not (not_not.mpr hencode), ok_bind, refuse_of_not (not_not.mpr hsignature), ok_bind]
  simp [present, refuse, exampleStrategyCrates]

theorem example_body : (exampleStrategyCrates.encode
    ⟨(start []).sequence + 1, (start []).head, examplePublication⟩).length ≤ maxRecord := by
  decide +kernel

/-- A new publication that passes the checks has the body of its record. -/
theorem stage_eq_some {now : ℕ} (hverify : p.verify crates = .ok ())
    (hnew : s.rows.find p.versionHash = none)
    (hcurrent : ¬(min (now + 30) (u64Size - 1) < p.document.issuedAt ∨ p.document.expiresAt < now))
    (hnext : s.checkNext p = .ok ())
    (hroom : ¬(maxRecord < (crates.encode ⟨s.sequence + 1, s.head, p⟩).length ∨
      maxLog < s.bytes + (crates.encode ⟨s.sequence + 1, s.head, p⟩).length + 36)) :
    s.stage crates p now = .ok (some (crates.encode ⟨s.sequence + 1, s.head, p⟩)) := by
  rw [stage, hverify, ok_bind, hnew]
  dsimp only
  rw [refuse_of_not hcurrent, ok_bind, hnext, ok_bind, refuse_of_not hroom, ok_bind]

/-- The first publication is stored. -/
theorem example_publish : (start []).publish exampleStrategyCrates examplePublication 1000 .done =
    (.ok examplePublication, (start []).extend exampleStrategyCrates examplePublication) := by
  have hbody := example_body
  have hlog : ¬maxLog < (start []).bytes + maxRecord + 36 := by decide
  have hcurrent : ¬(min (1000 + 30) (u64Size - 1) < examplePublication.document.issuedAt ∨
      examplePublication.document.expiresAt < 1000) := by decide
  have hnext : (start []).checkNext examplePublication = .ok () := by decide
  have hnew : (start []).rows.find examplePublication.versionHash = none := rfl
  have hpoisoned : ¬(start []).poisoned = true := by decide
  rw [publish, if_neg hpoisoned, stage_eq_some example_verified hnew hcurrent hnext (by omega)]

/-- A store with one publication crashes. -/
theorem strategy_store_example : Disk.Sound exampleStrategyCrates [examplePublication]
    (.down ((start []).extend exampleStrategyCrates examplePublication).file) := by
  have hopen : openStore exampleStrategyCrates [] = .ok (start []) := by
    simpa [start] using openStore_grown (.start : Grown exampleStrategyCrates (start [])) torn_nil
      (Nat.zero_le _)
  have hpublished := @Step.published exampleStrategyCrates (start []) examplePublication 1000 .done
  have hbytes : ((start []).extend exampleStrategyCrates examplePublication).bytes ≤
      ((start []).extend exampleStrategyCrates examplePublication).file.length :=
    bytes_extend_le (Nat.zero_le _)
  rw [example_publish] at hpublished
  have hrun : Tells (Step exampleStrategyCrates) (.down []) ([] ++ [examplePublication] ++ [])
      (.down (((start []).extend exampleStrategyCrates examplePublication).file.take
        ((start []).extend exampleStrategyCrates examplePublication).file.length)) :=
    .tail (.tail (.single (.opened [] _ hopen)) hpublished) (.crashed _ _ hbytes)
  rw [List.take_length] at hrun
  exact strategy_store exampleStrategyCrates hrun

end StrategyStore

end StockMesh.Host

import StockMesh.Settle.Conservation
import Mathlib.Data.Fin.VecNotation

/-! # The settlement receipt

A receipt has one row for each leg of a fixed graph, and one row for each executed CPI of a reflow
graph. The row of a CPI is placed by the loop iteration, the length counts executed CPIs. The two agree
unless the seeded first iteration executes nothing: then row zero is blank and the last CPI is cut off
(`receipt_complete_iff`). A later iteration that executes nothing repeats itself until the loop ends
without having spent the input, so it never belongs to a settled graph. -/

namespace StockMesh.Settle

open Stateful

/-- What a CPI gave to a token account. -/
def Cpi.received (c : Cpi) (key : Key) : ℕ := tokenAmount c.after key - tokenAmount c.before key

/-- Everything a leg gave to a token account over a log. -/
def receivedThrough (log : List Cpi) (leg : ℕ) (key : Key) : ℕ :=
  ((log.filter fun c => c.leg = leg).map fun c => c.received key).sum

/-- An eight-byte field. -/
def fieldAt (bytes : List UInt8) (offset : ℕ) : ℕ := Buffer.ofBytes ((bytes.drop offset).take 8)

/-- The leg and the amounts of a receipt row. -/
structure Row where
  leg : ℕ
  spent : ℕ
  received : ℕ
  deriving DecidableEq

/-- Row `k` of a receipt. A fixed graph does not repeat the leg. -/
def rowAt (reflow : Bool) (receipt : List UInt8) (k : ℕ) : Row :=
  let p := 32 + k * receiptStride reflow
  { leg := if reflow then fieldAt receipt (p + 32) else k
    spent := fieldAt receipt (p + 16)
    received := fieldAt receipt (p + 24) }

/-- The rows of the returned data, as many as its length holds. -/
def receiptRows (reflow : Bool) (returned : List UInt8) : List Row :=
  (List.range ((returned.length - 32) / receiptStride reflow)).map (rowAt reflow returned)

section Statement

variable {n : ℕ} (a : Accounts n) (g : Graph n)

/-- The row a CPI should have. -/
def cpiRow (c : Cpi) : Row :=
  match g.legs[c.leg]? with
  | some leg => ⟨c.leg, c.spent (tokenKey a g leg.source), c.received (tokenKey a g leg.destination)⟩
  | none => ⟨c.leg, 0, 0⟩

/-- The row a leg of a fixed graph should have: zero when it was skipped. -/
def legRow (log : List Cpi) (i : ℕ) : Row :=
  match g.legs[i]? with
  | some leg => ⟨i, spentThrough log i (tokenKey a g leg.source),
      receivedThrough log i (tokenKey a g leg.destination)⟩
  | none => ⟨i, 0, 0⟩

/-- The rows a receipt should have. -/
def expectedRows (log : List Cpi) : List Row :=
  if g.reflow then log.map (cpiRow a g) else (List.range g.legs.length).map (legRow a g log)

/-- The row's leg spends the graph's input. -/
def SpendsInput (row : Row) : Prop := ∃ leg ∈ g.legs[row.leg]?, leg.source = g.first

/-- The row's leg delivers the graph's output. -/
def FeedsSink (row : Row) : Prop := ∃ leg ∈ g.legs[row.leg]?, leg.destination = g.sink

instance (row : Row) : Decidable (SpendsInput g row) := inferInstanceAs (Decidable (∃ _ ∈ _, _))

instance (row : Row) : Decidable (FeedsSink g row) := inferInstanceAs (Decidable (∃ _ ∈ _, _))

/-- The receipt reports every executed CPI and accounts for the whole input and output. -/
structure ReceiptComplete (log : List Cpi) (outcome : GraphOutcome) : Prop where
  rows : receiptRows g.reflow (outcome.receipt.take outcome.receiptLen) = expectedRows a g log
  input : (((receiptRows g.reflow (outcome.receipt.take outcome.receiptLen)).filter
    fun row => SpendsInput g row).map Row.spent).sum = outcome.actualIn
  output : (((receiptRows g.reflow (outcome.receipt.take outcome.receiptLen)).filter
    fun row => FeedsSink g row).map Row.received).sum = outcome.actualOut

/-- The Phoenix book of a leg fills nothing of an amount. -/
def BookIdle (clock : Clock) (ledger : Ledger) (wallet : Key) (leg : Leg n g.assetCount)
    (amount : ℕ) : Prop :=
  leg.venue = .phoenix ∧ ∃ book fill,
    PhoenixBook.decode (ledger (a.key leg.pool)).data = .ok book ∧
    book.quote wallet leg.direction amount maxMatches clock.slot clock.time = .ok fill ∧
    (fill.input = 0 ∨ fill.output = 0)

/-- The signed seed executes nothing: its leg does not spend the input, or its Phoenix book fills no
lot of it. -/
def SeedSkipped (clock : Clock) (ledger : Ledger) (wallet : Key) : Prop :=
  g.seedInput ≠ 0 ∧ ∃ leg, g.legs[0]? = some leg ∧
    (leg.source ≠ g.first ∨ BookIdle a g clock ledger wallet leg g.seedInput)

end Statement

/-! ## Bytes of a receipt -/

section Bytes

variable {dst bytes : List UInt8} {offset : ℕ}

theorem length_overwrite (h : offset + bytes.length ≤ dst.length) :
    (overwrite dst offset bytes).length = dst.length := by
  rw [overwrite, List.length_append, List.length_append, List.length_take, List.length_drop]
  omega

/-- A window that an overwrite does not touch keeps its bytes. -/
theorem window_overwrite_of_disjoint (h : offset + bytes.length ≤ dst.length) {i k : ℕ}
    (hdisj : i + k ≤ offset ∨ offset + bytes.length ≤ i) :
    ((overwrite dst offset bytes).drop i).take k = (dst.drop i).take k := by
  apply List.ext_getElem?
  intro j
  rw [List.getElem?_take, List.getElem?_take, List.getElem?_drop, List.getElem?_drop]
  split
  · next hj =>
    rw [overwrite]
    rcases hdisj with hlo | hhi
    · rw [List.getElem?_append_left (by simp; omega), List.getElem?_append_left (by simp; omega),
        List.getElem?_take_of_lt (by omega)]
    · rw [List.getElem?_append_right (by simp; omega), List.getElem?_drop]
      congr 1
      simp
      omega
  · rfl

/-- A window inside an overwrite holds what was written. -/
theorem window_overwrite (h : offset + bytes.length ≤ dst.length) {i k : ℕ}
    (hle : i + k ≤ bytes.length) :
    ((overwrite dst offset bytes).drop (offset + i)).take k = (bytes.drop i).take k := by
  apply List.ext_getElem?
  intro j
  rw [List.getElem?_take, List.getElem?_take, List.getElem?_drop, List.getElem?_drop]
  split
  · next hj =>
    rw [overwrite, List.getElem?_append_left (by simp; omega),
      List.getElem?_append_right (by simp; omega)]
    congr 1
    simp
    omega
  · rfl

theorem fieldAt_overwrite_of_disjoint (h : offset + bytes.length ≤ dst.length) {i : ℕ}
    (hdisj : i + 8 ≤ offset ∨ offset + bytes.length ≤ i) :
    fieldAt (overwrite dst offset bytes) i = fieldAt dst i := by
  rw [fieldAt, fieldAt, window_overwrite_of_disjoint h hdisj]

theorem fieldAt_overwrite (h : offset + bytes.length ≤ dst.length) {i : ℕ}
    (hle : i + 8 ≤ bytes.length) :
    fieldAt (overwrite dst offset bytes) (offset + i) = fieldAt bytes i := by
  rw [fieldAt, fieldAt, window_overwrite h hle]

/-- A field of the returned prefix is the field of the receipt. -/
theorem fieldAt_take {receipt : List UInt8} {length i : ℕ} (h : i + 8 ≤ length) :
    fieldAt (receipt.take length) i = fieldAt receipt i := by
  rw [fieldAt, fieldAt, List.drop_take, List.take_take]
  congr 2
  omega

/-- The first field of a record. -/
theorem fieldAt_head {v : ℕ} (rest : List UInt8) (hv : v < u64Size) :
    fieldAt (Buffer.toBytes 8 v ++ rest) 0 = v := by
  rw [fieldAt, List.drop_zero, List.take_left' (Buffer.length_toBytes 8 v), Buffer.ofBytes_toBytes]
  exact Nat.mod_eq_of_lt hv

/-- The fields behind the first. -/
theorem fieldAt_tail (v : ℕ) (rest : List UInt8) (i : ℕ) :
    fieldAt (Buffer.toBytes 8 v ++ rest) (8 + i) = fieldAt rest i := by
  rw [fieldAt, fieldAt, List.drop_append, Buffer.length_toBytes,
    List.drop_eq_nil_of_le (by rw [Buffer.length_toBytes]; omega), List.nil_append,
    Nat.add_sub_cancel_left]

end Bytes

section Rows

variable {natives : Natives} {n : ℕ} {a : Accounts n} {g : Graph n} {clock : Clock}
  {before : Fin g.assetCount → ℕ} {program : ProgramId} {venues : Venues program} {wallet : Fin n}

theorem length_receiptRow (reflow : Bool) (leg : Leg n g.assetCount) (budget spent received : ℕ)
    (selection : Selection) :
    (receiptRow g reflow leg budget spent received selection).length = receiptStride reflow := by
  cases reflow <;> simp [receiptRow, receiptStride]

/-- The fields of a row. -/
theorem fieldAt_receiptRow (reflow : Bool) (leg : Leg n g.assetCount) (budget : ℕ)
    {spent received : ℕ} {selection : Selection} (hspent : spent < u64Size)
    (hreceived : received < u64Size) (hindex : selection.index < u64Size) :
    fieldAt (receiptRow g reflow leg budget spent received selection) 16 = spent ∧
    fieldAt (receiptRow g reflow leg budget spent received selection) 24 = received ∧
    (reflow = true →
      fieldAt (receiptRow g reflow leg budget spent received selection) 32 = selection.index) := by
  have hrow : ∃ rest, receiptRow g reflow leg budget spent received selection =
      Buffer.toBytes 8 leg.venue.toByte ++ (Buffer.toBytes 8 budget ++ (Buffer.toBytes 8 spent ++
        (Buffer.toBytes 8 received ++ rest))) ∧
      (reflow = true → ∃ calls, rest = Buffer.toBytes 8 selection.index ++ calls) := by
    cases reflow
    · exact ⟨[], by simp [receiptRow], fun h => by cases h⟩
    · exact ⟨Buffer.toBytes 8 selection.index ++ Buffer.toBytes 8 selection.calls,
        by simp [receiptRow], fun _ => ⟨_, rfl⟩⟩
  obtain ⟨rest, hrow, hrest⟩ := hrow
  rw [hrow]
  refine ⟨?_, ?_, ?_⟩
  · rw [fieldAt_tail _ _ 8, fieldAt_tail _ _ 0, fieldAt_head _ hspent]
  · rw [fieldAt_tail _ _ 16, fieldAt_tail _ _ 8, fieldAt_tail _ _ 0, fieldAt_head _ hreceived]
  · intro hreflow
    obtain ⟨calls, rfl⟩ := hrest hreflow
    rw [fieldAt_tail _ _ 24, fieldAt_tail _ _ 16, fieldAt_tail _ _ 8, fieldAt_tail _ _ 0,
      fieldAt_head _ hindex]

/-- Rows fit the receipt. -/
theorem row_le {reflow : Bool} {k : ℕ} (hk : k < 4) :
    32 + k * receiptStride reflow + receiptStride reflow ≤ 224 := by
  cases reflow <;> simp [receiptStride] <;> omega

variable {ledger : Ledger} {key : Key} {lamports iteration budget : ℕ} {selection : Selection}
  {leg : Leg n g.assetCount} {run next : Run natives g.assetCount}

theorem Recorded.length_receipts
    (hrec : Recorded a g ledger key lamports iteration budget selection leg run next)
    (hlength : run.receipts.length = 224) (hiteration : iteration < 4) :
    next.receipts.length = 224 := by
  rw [hrec.receipts_eq, length_overwrite, hlength]
  rw [length_receiptRow, hlength]
  exact row_le hiteration

/-- The row of the iteration reports the CPI. -/
theorem Recorded.rowAt_self
    (hrec : Recorded a g ledger key lamports iteration budget selection leg run next)
    (hlength : run.receipts.length = 224) (hiteration : iteration < 4)
    (hcurrent : ∀ i, run.current i < u64Size) (hindex : selection.index < u64Size) :
    rowAt run.oracle.isSome next.receipts iteration =
      ⟨if run.oracle.isSome then selection.index else iteration,
        run.current leg.source - next.current leg.source,
        next.current leg.destination - run.current leg.destination⟩ := by
  have hfits : 32 + iteration * receiptStride run.oracle.isSome +
      (receiptRow g run.oracle.isSome leg budget
        (run.current leg.source - next.current leg.source)
        (next.current leg.destination - run.current leg.destination) selection).length
      ≤ run.receipts.length := by
    rw [length_receiptRow, hlength]
    exact row_le hiteration
  have hspent : run.current leg.source - next.current leg.source < u64Size :=
    (Nat.sub_le _ _).trans_lt (hcurrent _)
  have hreceived : next.current leg.destination - run.current leg.destination < u64Size := by
    rw [hrec.current_eq leg.destination]
    exact (Nat.sub_le _ _).trans_lt (tokenAmount_lt _ _)
  obtain ⟨h16, h24, h32⟩ := fieldAt_receiptRow (g := g) run.oracle.isSome leg budget hspent hreceived
    hindex
  have hread : ∀ i, i + 8 ≤ receiptStride run.oracle.isSome →
      fieldAt next.receipts (32 + iteration * receiptStride run.oracle.isSome + i)
        = fieldAt (receiptRow g run.oracle.isSome leg budget
          (run.current leg.source - next.current leg.source)
          (next.current leg.destination - run.current leg.destination) selection) i := by
    intro i hi
    rw [hrec.receipts_eq, fieldAt_overwrite hfits]
    rwa [length_receiptRow]
  rw [rowAt]
  cases hreflow : run.oracle.isSome
  · rw [hreflow] at hread h16 h24
    rw [hread 16 (by decide), hread 24 (by decide), h16, h24]
    rfl
  · rw [hreflow] at hread h16 h24 h32
    rw [hread 16 (by decide), hread 24 (by decide), hread 32 (by decide), h16, h24, h32 rfl]

/-- The other rows stay. -/
theorem Recorded.rowAt_of_ne
    (hrec : Recorded a g ledger key lamports iteration budget selection leg run next)
    (hlength : run.receipts.length = 224) (hiteration : iteration < 4) {k : ℕ} (hk : k ≠ iteration) :
    rowAt run.oracle.isSome next.receipts k = rowAt run.oracle.isSome run.receipts k := by
  have hfits : 32 + iteration * receiptStride run.oracle.isSome +
      (receiptRow g run.oracle.isSome leg budget
        (run.current leg.source - next.current leg.source)
        (next.current leg.destination - run.current leg.destination) selection).length
      ≤ run.receipts.length := by
    rw [length_receiptRow, hlength]
    exact row_le hiteration
  have hkeep : ∀ i, i + 8 ≤ receiptStride run.oracle.isSome →
      fieldAt next.receipts (32 + k * receiptStride run.oracle.isSome + i)
        = fieldAt run.receipts (32 + k * receiptStride run.oracle.isSome + i) := by
    intro i hi
    rw [hrec.receipts_eq]
    refine fieldAt_overwrite_of_disjoint hfits ?_
    rw [length_receiptRow]
    -- whole rows lie between the two
    rcases Nat.lt_or_gt_of_ne hk with hlt | hgt
    · have hmul := Nat.mul_le_mul_right (receiptStride run.oracle.isSome) hlt
      rw [Nat.succ_mul] at hmul
      omega
    · have hmul := Nat.mul_le_mul_right (receiptStride run.oracle.isSome) hgt
      rw [Nat.succ_mul] at hmul
      omega
  rw [rowAt, rowAt]
  cases hreflow : run.oracle.isSome
  · rw [hreflow] at hkeep
    rw [hkeep 16 (by decide), hkeep 24 (by decide)]
    rfl
  · rw [hreflow] at hkeep
    rw [hkeep 16 (by decide), hkeep 24 (by decide), hkeep 32 (by decide)]

end Rows

/-! ## Iterations that execute nothing -/

section Stuck

variable {natives : Natives} {n : ℕ} {a : Accounts n} {g : Graph n} {clock : Clock}
  {before : Fin g.assetCount → ℕ} {program : ProgramId} {venues : Venues program} {wallet : Fin n}
  {lamports iteration : ℕ}

/-- A leg has no data exactly when its book fills nothing. -/
theorem legData_eq_none {ledger : Ledger} {key : Key} {leg : Leg n g.assetCount} {budget : ℕ} :
    legData a g clock ledger key leg budget = .ok none ↔ BookIdle a g clock ledger key leg budget := by
  unfold legData BookIdle
  by_cases hvenue : leg.venue = .phoenix
  · rw [if_pos hvenue, bind_eq_ok]
    constructor
    · rintro ⟨book, hbook, h⟩
      obtain ⟨fill, hfill, h⟩ := bind_eq_ok.mp h
      refine ⟨hvenue, book, fill, ad_eq_ok.mp hbook, ad_eq_ok.mp hfill, ?_⟩
      split at h
      · next hidle => exact hidle
      · obtain ⟨bytes, -, h⟩ := bind_eq_ok.mp h
        cases h
    · rintro ⟨-, book, fill, hbook, hfill, hidle⟩
      refine ⟨book, ad_eq_ok.mpr hbook, bind_eq_ok.mpr ⟨fill, ad_eq_ok.mpr hfill, ?_⟩⟩
      rw [if_pos hidle]
  · rw [if_neg hvenue, bind_eq_ok]
    constructor
    · rintro ⟨bytes, -, h⟩
      cases h
    · exact fun h => absurd h.1 hvenue

/-- Refreshing twice for the same use is refreshing once. -/
theorem Oracle.refresh_refresh (oracle : Oracle natives) (ledger : Ledger) (used : ℕ → ℕ) :
    (oracle.refresh ledger a g clock used).refresh ledger a g clock used
      = oracle.refresh ledger a g clock used := by
  simp [Oracle.refresh]

/-- The same question to the oracle has the same answer. -/
theorem Oracle.nextNormalized_again {oracle oracle' : Oracle natives} {ledger : Ledger}
    {remaining executed maximum : ℕ} {used : ℕ → ℕ} {normalize : ℕ → ℕ → Outcome ℕ}
    {selection : Selection}
    (h : oracle.nextNormalized ledger a g clock remaining used executed maximum normalize
      = .ok (selection, oracle')) :
    oracle'.nextNormalized ledger a g clock remaining used executed maximum normalize
      = .ok (selection, oracle') := by
  have horacle : oracle' = oracle.refresh ledger a g clock used := by
    rw [Oracle.nextNormalized, bind_eq_ok] at h
    obtain ⟨_, -, h⟩ := h
    dsimp only at h
    split at h
    · split at h
      · cases h
        rfl
      · cases h
    · split at h
      · cases h
      · obtain ⟨_, -, h⟩ := bind_eq_ok.mp h
        cases h
        rfl
  rw [Oracle.nextNormalized, horacle, Oracle.refresh_refresh, ← horacle]
  rw [Oracle.nextNormalized, ← horacle] at h
  exact h

/-- An iteration of the oracle that executes nothing is repeated by the next one. -/
theorem iterate_again {run : Run natives g.assetCount} {s : Chain}
    (sel : Selected a g clock before s.ledger iteration run)
    (idle : sel.budget = 0 ∨
      legData a g clock s.ledger (a.key wallet) sel.leg sel.budget = .ok none)
    (hseed : ¬(iteration = 0 ∧ g.seedInput ≠ 0)) (hsome : run.oracle.isSome = true) {j : ℕ}
    (hj : ¬(j = 0 ∧ g.seedInput ≠ 0)) :
    iterate a g clock before venues wallet lamports j sel.run' s = (.ok (some sel.run'), s) := by
  obtain ⟨o, o', ho, ho', -, hnext⟩ : ∃ o o', run.oracle = some o ∧ sel.oracle = some o' ∧ True ∧
      o.next s.ledger a g clock sel.remaining run.used run.executed = .ok (sel.selection, o') := by
    rcases selectLeg_eq_ok sel.select_eq with
      ⟨hnone, -⟩ | ⟨o, -, -, hzero, hne, -⟩ | ⟨o, o', ho, ho', -, hnext⟩
    · rw [hnone] at hsome
      cases hsome
    · exact absurd ⟨hzero, hne⟩ hseed
    · exact ⟨o, o', ho, ho', trivial, hnext⟩
  have hselect : selectLeg a g clock s.ledger j sel.remaining sel.run'
      = .ok (sel.selection, sel.oracle) := by
    unfold selectLeg
    rw [show sel.run'.oracle = some o' from ho', ho']
    dsimp only
    rw [if_neg hj]
    refine bind_eq_ok.mpr ⟨(sel.selection, o'), ?_, rfl⟩
    exact Oracle.nextNormalized_again hnext
  have hsome' : sel.run'.oracle.isSome = run.oracle.isSome := by
    rw [show sel.run'.oracle = some o' from ho', ho]
    rfl
  let again : Selected a g clock before s.ledger j sel.run' :=
    ⟨sel.remaining, sel.selection, sel.oracle, sel.leg, sel.available, sel.remaining_eq,
      hsome' ▸ sel.unfinished, hselect, sel.leg_eq, sel.available_eq⟩
  rw [again.iterate_eq]
  change (if sel.budget = 0 then pure (some sel.run') else
    (executeLeg a g clock venues wallet lamports j sel.budget sel.selection sel.leg sel.run' >>=
      fun run => pure (some run)) : Step _) s = _
  split
  · rfl
  · next hpos =>
    have hdata := idle.resolve_left hpos
    have hexecute : executeLeg a g clock venues wallet lamports j sel.budget sel.selection sel.leg
        sel.run' s = (.ok sel.run', s) := by
      rw [executeLeg, get_bind, Comp.bind_apply_ok (lift_eq_ok.mpr ⟨hdata, rfl⟩)]
      rfl
    rw [Comp.bind_apply_ok hexecute]
    rfl

variable (venues wallet lamports) in
/-- From then on the loop does nothing. -/
theorem runGraph_again {run : Run natives g.assetCount} {s : Chain}
    (sel : Selected a g clock before s.ledger iteration run)
    (idle : sel.budget = 0 ∨
      legData a g clock s.ledger (a.key wallet) sel.leg sel.budget = .ok none)
    (hseed : ¬(iteration = 0 ∧ g.seedInput ≠ 0)) (hsome : run.oracle.isSome = true)
    {iterations : List ℕ} (hiterations : ∀ j ∈ iterations, ¬(j = 0 ∧ g.seedInput ≠ 0)) :
    runGraph a g clock before venues wallet lamports iterations sel.run' s = (.ok sel.run', s) := by
  induction iterations with
  | nil => rfl
  | cons j iterations ih =>
    rw [runGraph, Comp.bind_apply_ok (iterate_again sel idle hseed hsome
      (hiterations j List.mem_cons_self))]
    exact ih fun k hk => hiterations k (List.mem_cons_of_mem _ hk)

end Stuck

/-! ## Rows of a run -/

section Loop

variable {natives : Natives} {n : ℕ} {a : Accounts n} {g : Graph n} {clock : Clock}
  {before : Fin g.assetCount → ℕ} {program : ProgramId} {venues : Venues program} {wallet : Fin n}
  {start s s' : Chain} {iteration : ℕ} {log : List Cpi} {run next : Run natives g.assetCount}

/-- The row written for an executed selection, and the rows it leaves. -/
theorem Recorded.rows (h : Accounted a g start (a.key wallet) iteration log run s)
    (sel : Selected a g clock before s.ledger iteration run) (data : List UInt8)
    (hrec : Recorded a g s'.ledger (a.key wallet) (start.ledger (a.key wallet)).lamports iteration
      sel.budget sel.selection sel.leg sel.run' next)
    (hlength : run.receipts.length = 224) (hiteration : iteration < 4) :
    next.receipts.length = 224 ∧ next.oracle.isSome = run.oracle.isSome ∧
    rowAt run.oracle.isSome next.receipts iteration =
      { cpiRow a g (sel.cpi data s'.ledger) with
        leg := if run.oracle.isSome then sel.selection.index else iteration } ∧
    ∀ k, k ≠ iteration →
      rowAt run.oracle.isSome next.receipts k = rowAt run.oracle.isSome run.receipts k := by
  have hsome : sel.run'.oracle.isSome = run.oracle.isSome := selectLeg_isSome sel.select_eq
  have hindex : sel.selection.index < u64Size := by
    have hlt := (List.getElem?_eq_some_iff.mp sel.leg_eq).1
    have hle := g.legs_le
    have hmax : maxCandidates = 8 := rfl
    have := constants
    omega
  have hcurrent : ∀ i, sel.run'.current i < u64Size := fun i => by
    rw [show sel.run'.current i = run.current i from rfl, h.current]
    exact tokenAmount_lt _ _
  have hself := hrec.rowAt_self hlength hiteration hcurrent hindex
  have hne := fun k => hrec.rowAt_of_ne (k := k) hlength hiteration
  rw [hsome] at hself
  simp only [hsome] at hne
  refine ⟨hrec.length_receipts hlength hiteration, ?_, ?_, hne⟩
  · rw [hrec.oracle_eq, hsome]
  · rw [hself, cpiRow, show (sel.cpi data s'.ledger).leg = sel.selection.index from rfl, sel.leg_eq]
    dsimp only
    rw [hrec.spent_eq h data, hrec.current_eq,
      show sel.run'.current sel.leg.destination = run.current sel.leg.destination from rfl, h.current]
    rfl

/-- The rows of an oracle's run: the CPI number `k` has row `k + shift`, and a skipped seed leaves row
zero blank. -/
structure ReflowRows (a : Accounts n) (g : Graph n) (shift iteration : ℕ) (log : List Cpi)
    (run : Run natives g.assetCount) : Prop where
  length : run.receipts.length = 224
  isSome : run.oracle.isSome = true
  iteration_eq : iteration = log.length + shift
  rows : ∀ k c, log[k]? = some c → rowAt true run.receipts (k + shift) = cpiRow a g c
  blank : shift ≠ 0 → rowAt true run.receipts 0 = ⟨0, 0, 0⟩

/-- An executed selection adds its row. -/
theorem ReflowRows.execute {shift : ℕ} (h : Accounted a g start (a.key wallet) iteration log run s)
    (hrows : ReflowRows a g shift iteration log run)
    (sel : Selected a g clock before s.ledger iteration run) (data : List UInt8)
    (hrec : Recorded a g s'.ledger (a.key wallet) (start.ledger (a.key wallet)).lamports iteration
      sel.budget sel.selection sel.leg sel.run' next) (hiteration : iteration < 4) :
    ReflowRows a g shift (iteration + 1) (log ++ [sel.cpi data s'.ledger]) next := by
  obtain ⟨hlength, hsome, hself, hne⟩ := hrec.rows h sel data hrows.length hiteration
  rw [hrows.isSome] at hself hne hsome
  constructor
  · exact hlength
  · exact hsome
  · have hiteration_eq := hrows.iteration_eq
    simp only [List.length_append, List.length_singleton]
    omega
  · intro k c hk
    rcases Nat.lt_or_ge k log.length with hlt | hge
    · rw [List.getElem?_append_left hlt] at hk
      rw [hne _ (by have := hrows.iteration_eq; omega)]
      exact hrows.rows k c hk
    · rw [List.getElem?_append_right hge] at hk
      have hzero : k - log.length = 0 := by
        by_contra hpos
        rw [List.getElem?_eq_none (by simp; omega)] at hk
        cases hk
      rw [hzero] at hk
      cases hk
      have hposition : k + shift = iteration := by
        have := hrows.iteration_eq
        omega
      rw [hposition, hself, cpiRow, show (sel.cpi data s'.ledger).leg = sel.selection.index from rfl,
        sel.leg_eq]
      rfl
  · intro hshift
    rw [hne 0 (by have := hrows.iteration_eq; omega)]
    exact hrows.blank hshift

/-- A loop that spends the input writes a row for every CPI, once no seed is pending. -/
theorem runGraph_rows {m shift : ℕ} {final : Run natives g.assetCount}
    (hbefore : ∀ i, before i = tokenAmount start.ledger (tokenKey a g i))
    (h : Accounted a g start (a.key wallet) iteration log run s)
    (hrows : ReflowRows a g shift iteration log run) (hseed : iteration ≠ 0 ∨ g.seedInput = 0)
    (hm : iteration + m ≤ 4)
    (hrun : runGraph a g clock before venues wallet (start.ledger (a.key wallet)).lamports
      (List.range' iteration m) run s = (.ok final, s'))
    (hdone : remainingInput g before final.current = .ok 0) :
    ∃ k log', Accounted a g start (a.key wallet) k log' final s' ∧
      ReflowRows a g shift k log' final := by
  have hpending : ∀ j, iteration ≤ j → ¬(j = 0 ∧ g.seedInput ≠ 0) := by
    rintro j hj ⟨rfl, hne⟩
    rcases hseed with hpos | hzero
    · omega
    · exact hne hzero
  induction m generalizing iteration log run s with
  | zero =>
    obtain ⟨hfinal, hs⟩ := pure_eq_ok.mp hrun
    cases hfinal
    cases hs
    exact ⟨iteration, log, h, hrows⟩
  | succ m ih =>
    rw [List.range'_succ, runGraph] at hrun
    obtain ⟨next, s₁, hiterate, hrest⟩ := Comp.bind_eq_ok.mp hrun
    cases next with
    | none =>
      obtain ⟨hstop, -⟩ := iterate_none hiterate
      obtain ⟨hfinal, hs⟩ := pure_eq_ok.mp hrest
      cases hfinal
      cases hs
      cases hstop
      exact ⟨iteration, log, h, hrows⟩
    | some next =>
      cases iterate_some hiterate with
      | skip sel idle =>
        -- nothing changes any more, so the input is not spent
        have hlater : ∀ j ∈ List.range' (iteration + 1) m, ¬(j = 0 ∧ g.seedInput ≠ 0) := by
          intro j hj
          rw [List.mem_range'_1] at hj
          exact hpending j (by omega)
        have hagain := runGraph_again venues wallet (start.ledger (a.key wallet)).lamports sel idle
          (hpending iteration le_rfl) hrows.isSome hlater
        have hfinal : (Except.ok final, s') = (Except.ok sel.run', s) := hrest.symm.trans hagain
        cases hfinal
        have hremaining : sel.remaining = 0 := Except.ok.inj (sel.remaining_eq.symm.trans hdone)
        exact absurd ⟨hrows.isSome, hremaining⟩ sel.unfinished
      | execute sel pos data_eq invoke_eq return_eq cpis_eq record_eq =>
        have hrec := recordLeg_eq_ok record_eq
        have hnext := h.execute hbefore sel cpis_eq hrec
        exact ih hnext (hrows.execute h sel _ hrec (by omega)) (.inl (Nat.succ_ne_zero _)) (by omega)
          hrest fun j hj => hpending j (by omega)

/-- The rows of a fixed graph: row `i` reports what leg `i` did so far. -/
structure FixedRows (a : Accounts n) (g : Graph n) (log : List Cpi)
    (run : Run natives g.assetCount) : Prop where
  length : run.receipts.length = 224
  isNone : run.oracle = none
  rows : ∀ i leg, g.legs[i]? = some leg → rowAt false run.receipts i = legRow a g log i

theorem receivedThrough_snoc_self (log : List Cpi) (c : Cpi) (key : Key) :
    receivedThrough (log ++ [c]) c.leg key = receivedThrough log c.leg key + c.received key := by
  simp [receivedThrough]

theorem receivedThrough_snoc_of_ne (log : List Cpi) {c : Cpi} {leg : ℕ} (h : c.leg ≠ leg)
    (key : Key) : receivedThrough (log ++ [c]) leg key = receivedThrough log leg key := by
  simp [receivedThrough, h]

/-- A leg that spent nothing has no CPI. -/
theorem filter_eq_nil_of_unused (h : Accounted a g start (a.key wallet) iteration log run s) {i : ℕ}
    {leg : Leg n g.assetCount} (hleg : g.legs[i]? = some leg) (hunused : run.used i = 0) :
    log.filter (fun c => c.leg = i) = [] := by
  rw [List.filter_eq_nil_iff]
  intro c hc hci
  obtain ⟨leg', hleg', hexecutes⟩ := h.executes c hc
  rw [of_decide_eq_true hci, hleg] at hleg'
  cases hleg'
  have htotal := (h.used i leg hleg).symm.trans hunused
  have hmem : c.spent (tokenKey a g leg.source)
      ∈ (log.filter fun c => c.leg = i).map fun c => c.spent (tokenKey a g leg.source) :=
    List.mem_map_of_mem (List.mem_filter.mpr ⟨hc, hci⟩)
  have hzero := List.sum_eq_zero_iff_forall_eq_nat.mp htotal _ hmem
  have htakes := hexecutes.takes
  unfold Cpi.spent at hzero
  omega

/-- An iteration of a fixed graph keeps the rows. -/
theorem FixedRows.step (hbefore : ∀ i, before i = tokenAmount start.ledger (tokenKey a g i))
    (h : Accounted a g start (a.key wallet) iteration log run s) (hrows : FixedRows a g log run)
    (hiteration : iteration < 4)
    (hstep : Iterated a g clock before venues wallet
      (start.ledger (a.key wallet)).lamports iteration run s next s') :
    ∃ log', Accounted a g start (a.key wallet) (iteration + 1) log' next s' ∧
      FixedRows a g log' next := by
  cases hstep with
  | skip sel idle =>
    have hsome := selectLeg_isSome sel.select_eq
    rw [hrows.isNone] at hsome
    have hnone : sel.oracle = none := Option.isNone_iff_eq_none.mp (Option.isSome_eq_false_iff.mp hsome)
    exact ⟨log, h.skip sel, ⟨hrows.length, hnone, hrows.rows⟩⟩
  | @execute sel data next s' pos data_eq invoke_eq return_eq cpis_eq record_eq =>
    have hrec := recordLeg_eq_ok record_eq
    refine ⟨_, h.execute hbefore sel cpis_eq hrec, ?_⟩
    obtain ⟨hlength, hsome, hself, hne⟩ := hrec.rows h sel data hrows.length hiteration
    rw [hrows.isNone] at hself hne hsome
    have hindex : sel.selection.index = iteration := by
      rcases selectLeg_eq_ok sel.select_eq with ⟨-, -, hsel⟩ | ⟨o, ho, -⟩ | ⟨o, o', ho, -⟩
      · rw [hsel]
      · rw [hrows.isNone] at ho
        cases ho
      · rw [hrows.isNone] at ho
        cases ho
    have hleg : (sel.cpi data s'.ledger).leg = iteration := hindex
    refine ⟨hlength, Option.isNone_iff_eq_none.mp (Option.isSome_eq_false_iff.mp hsome), ?_⟩
    intro i leg hi
    by_cases hii : i = iteration
    · -- before its own iteration a leg has no CPI
      subst hii
      have hnil := filter_eq_nil_of_unused h hi (h.fresh (.inr hrows.isNone) i le_rfl)
      have hlegs := sel.leg_eq
      rw [hindex, hi] at hlegs
      cases hlegs
      have hspent := spentThrough_snoc_self log (sel.cpi data s'.ledger) (tokenKey a g sel.leg.source)
      have hreceived := receivedThrough_snoc_self log (sel.cpi data s'.ledger)
        (tokenKey a g sel.leg.destination)
      rw [hleg] at hspent hreceived
      rw [show Option.isSome (none : Option (Oracle natives)) = false from rfl] at hself
      rw [hself, cpiRow, legRow, hleg, hi]
      dsimp only
      rw [hspent, hreceived, spentThrough, receivedThrough, hnil]
      simp
    · have hother : (sel.cpi data s'.ledger).leg ≠ i := by
        rw [hleg]
        exact fun heq => hii heq.symm
      have hkeep := hne i hii
      rw [show Option.isSome (none : Option (Oracle natives)) = false from rfl] at hkeep
      rw [hkeep, hrows.rows i leg hi, legRow, legRow, hi]
      dsimp only
      rw [spentThrough_snoc_of_ne log hother, receivedThrough_snoc_of_ne log hother]

/-- The loop of a fixed graph keeps the rows. -/
theorem runGraph_fixed {m : ℕ} {final : Run natives g.assetCount}
    (hbefore : ∀ i, before i = tokenAmount start.ledger (tokenKey a g i))
    (h : Accounted a g start (a.key wallet) iteration log run s) (hrows : FixedRows a g log run)
    (hm : iteration + m ≤ 4)
    (hrun : runGraph a g clock before venues wallet (start.ledger (a.key wallet)).lamports
      (List.range' iteration m) run s = (.ok final, s')) :
    ∃ k log', Accounted a g start (a.key wallet) k log' final s' ∧ FixedRows a g log' final := by
  induction m generalizing iteration log run s with
  | zero =>
    obtain ⟨hfinal, hs⟩ := pure_eq_ok.mp hrun
    cases hfinal
    cases hs
    exact ⟨iteration, log, h, hrows⟩
  | succ m ih =>
    rw [List.range'_succ, runGraph] at hrun
    obtain ⟨next, s₁, hiterate, hrest⟩ := Comp.bind_eq_ok.mp hrun
    cases next with
    | none =>
      obtain ⟨hstop, hsome, -⟩ := iterate_none hiterate
      rw [hrows.isNone] at hsome
      cases hsome
    | some next =>
      obtain ⟨log₁, h₁, hrows₁⟩ := hrows.step hbefore h (by omega) (iterate_some hiterate)
      exact ih h₁ hrows₁ (by omega) hrest

end Loop

/-! ## What the rows account for -/

theorem sum_range_filter (m : ℕ) (P : ℕ → Prop) [DecidablePred P] (f : ℕ → ℕ) :
    (((List.range m).filter fun i => P i).map f).sum = ∑ i ∈ (Finset.range m).filter P, f i := rfl

/-- Summing leg by leg is summing over the log. -/
theorem sum_fibers {log : List Cpi} {m : ℕ} (P : ℕ → Prop) [DecidablePred P] (v : ℕ → Cpi → ℕ)
    (h : ∀ c ∈ log, c.leg < m) :
    (((List.range m).filter fun i => P i).map fun i =>
      ((log.filter fun c => c.leg = i).map (v i)).sum).sum
      = ((log.filter fun c => P c.leg).map fun c => v c.leg c).sum := by
  rw [sum_range_filter]
  induction log with
  | nil => simp
  | cons c log ih =>
    have hlt := h c List.mem_cons_self
    have hrest := ih fun d hd => h d (List.mem_cons_of_mem _ hd)
    have hsplit : ∀ i, (((c :: log).filter fun c => c.leg = i).map (v i)).sum
        = (if c.leg = i then v i c else 0) + ((log.filter fun c => c.leg = i).map (v i)).sum := by
      intro i
      by_cases hi : c.leg = i
      · simp [hi]
      · simp [hi]
    simp only [hsplit, Finset.sum_add_distrib, hrest]
    rw [Finset.sum_ite_eq]
    by_cases hP : P c.leg
    · simp [hP, hlt]
    · simp [hP]

section Totals

variable {n : ℕ} {a : Accounts n} {g : Graph n} {wallet : Key} {start : Ledger}

/-- The CPI executes some leg of the graph. -/
def ExecutesLeg (a : Accounts n) (g : Graph n) (start : Ledger) (wallet : Key) (c : Cpi) : Prop :=
  ∃ leg, g.legs[c.leg]? = some leg ∧ Executes a g start wallet leg c

theorem cpiRow_eq {c : Cpi} {leg : Leg n g.assetCount} (h : g.legs[c.leg]? = some leg) :
    cpiRow a g c
      = ⟨c.leg, c.spent (tokenKey a g leg.source), c.received (tokenKey a g leg.destination)⟩ := by
  rw [cpiRow, h]

theorem spendsInput_cpiRow {c : Cpi} {leg : Leg n g.assetCount} (h : g.legs[c.leg]? = some leg) :
    SpendsInput g (cpiRow a g c) ↔ leg.source = g.first := by
  rw [cpiRow_eq h, SpendsInput, h]
  simp

theorem feedsSink_cpiRow {c : Cpi} {leg : Leg n g.assetCount} (h : g.legs[c.leg]? = some leg) :
    FeedsSink g (cpiRow a g c) ↔ leg.destination = g.sink := by
  rw [cpiRow_eq h, FeedsSink, h]
  simp

/-- The rows of a log account for what left the input. -/
theorem input_total {log : List Cpi} {l final : Ledger} (hlinked : Linked l log final)
    (hlog : ∀ c ∈ log, ExecutesLeg a g start wallet c) :
    tokenAmount final (tokenKey a g g.first) + (((log.map (cpiRow a g)).filter
      fun row => SpendsInput g row).map Row.spent).sum = tokenAmount l (tokenKey a g g.first) := by
  induction log generalizing l with
  | nil =>
    cases hlinked
    simp
  | cons c log ih =>
    obtain ⟨hbefore, hlinked⟩ := hlinked
    have hrest := ih hlinked fun d hd => hlog d (List.mem_cons_of_mem _ hd)
    obtain ⟨leg, hleg, hexecutes⟩ := hlog c List.mem_cons_self
    have hordered := leg.ordered
    rw [List.map_cons]
    by_cases hsource : leg.source = g.first
    · have hspends := (spendsInput_cpiRow (a := a) hleg).mpr hsource
      have htakes := hexecutes.takes
      rw [List.filter_cons_of_pos (by simpa using hspends), List.map_cons, List.sum_cons,
        cpiRow_eq hleg]
      rw [hsource] at htakes ⊢
      rw [← hbefore]
      show _ + (tokenAmount c.before _ - tokenAmount c.after _ + _) = tokenAmount c.before _
      omega
    · have hspends := (spendsInput_cpiRow (a := a) hleg).not.mpr hsource
      have hdestination : g.first ≠ leg.destination := by
        intro heq
        rw [← heq] at hordered
        exact Nat.not_lt_zero _ hordered
      have hsame := hexecutes.others g.first (Ne.symm hsource) hdestination
      rw [List.filter_cons_of_neg (by simpa using hspends), hrest, hsame, hbefore]

/-- The rows of a log account for what reached the sink. -/
theorem output_total {log : List Cpi} {l final : Ledger} (hlinked : Linked l log final)
    (hlog : ∀ c ∈ log, ExecutesLeg a g start wallet c) :
    tokenAmount l (tokenKey a g g.sink) + (((log.map (cpiRow a g)).filter
      fun row => FeedsSink g row).map Row.received).sum = tokenAmount final (tokenKey a g g.sink) := by
  induction log generalizing l with
  | nil =>
    cases hlinked
    simp
  | cons c log ih =>
    obtain ⟨hbefore, hlinked⟩ := hlinked
    have hrest := ih hlinked fun d hd => hlog d (List.mem_cons_of_mem _ hd)
    obtain ⟨leg, hleg, hexecutes⟩ := hlog c List.mem_cons_self
    have hordered := leg.ordered
    rw [List.map_cons]
    by_cases hdestination : leg.destination = g.sink
    · have hfeeds := (feedsSink_cpiRow (a := a) hleg).mpr hdestination
      have hgives := hexecutes.gives
      rw [List.filter_cons_of_pos (by simpa using hfeeds), List.map_cons, List.sum_cons,
        cpiRow_eq hleg]
      rw [hdestination] at hgives ⊢
      rw [← hbefore]
      show tokenAmount c.before _ + (tokenAmount c.after _ - tokenAmount c.before _ + _) = _
      omega
    · have hfeeds := (feedsSink_cpiRow (a := a) hleg).not.mpr hdestination
      have hsource : g.sink ≠ leg.source := by
        intro heq
        rw [← heq] at hordered
        have hle := leg.destination.isLt
        have hsink : (g.sink : ℕ) = g.assetCount - 1 := rfl
        have hlt : (g.sink : ℕ) < leg.destination := hordered
        omega
      have hsame := hexecutes.others g.sink hsource (Ne.symm hdestination)
      rw [List.filter_cons_of_neg (by simpa using hfeeds), ← hrest, hsame, hbefore]

/-- A value summed over chosen rows of a fixed graph is the sum over its CPIs. -/
theorem legRows_total {log : List Cpi} (hlog : ∀ c ∈ log, ExecutesLeg a g start wallet c)
    (P : ℕ → Prop) [DecidablePred P] (value : Row → ℕ)
    (v : Leg n g.assetCount → Cpi → ℕ)
    (hleg : ∀ i leg, g.legs[i]? = some leg →
      value (legRow a g log i) = ((log.filter fun c => c.leg = i).map (v leg)).sum)
    (hcpi : ∀ c leg, g.legs[c.leg]? = some leg → value (cpiRow a g c) = v leg c) :
    ((((List.range g.legs.length).map (legRow a g log)).filter fun row => P row.leg).map value).sum
      = (((log.map (cpiRow a g)).filter fun row => P row.leg).map value).sum := by
  have hlegOf : ∀ i, (legRow a g log i).leg = i := by
    intro i
    unfold legRow
    split <;> rfl
  have hcpiOf : ∀ c, (cpiRow a g c).leg = c.leg := by
    intro c
    unfold cpiRow
    split <;> rfl
  have hlt : ∀ c ∈ log, c.leg < g.legs.length := by
    intro c hc
    obtain ⟨leg, hleg, -⟩ := hlog c hc
    exact (List.getElem?_eq_some_iff.mp hleg).1
  let w : ℕ → Cpi → ℕ := fun i c => match g.legs[i]? with
    | some leg => v leg c
    | none => 0
  have hfibers := sum_fibers P w hlt
  rw [List.filter_map, List.map_map, List.filter_map, List.map_map]
  have hleft : ((List.range g.legs.length).filter fun i => P i).map
        (fun i => ((log.filter fun c => c.leg = i).map (w i)).sum)
      = ((List.range g.legs.length).filter ((fun row => decide (P row.leg)) ∘ legRow a g log)).map
        (value ∘ legRow a g log) := by
    simp only [Function.comp_def, hlegOf]
    apply List.map_congr_left
    intro i hi
    have hi := List.mem_range.mp (List.mem_filter.mp hi).1
    have hsome : g.legs[i]? = some g.legs[i] := List.getElem?_eq_getElem hi
    rw [hleg i _ hsome]
    simp only [w, hsome]
  have hright : (log.filter fun c => P c.leg).map (fun c => w c.leg c)
      = (log.filter ((fun row => decide (P row.leg)) ∘ cpiRow a g)).map (value ∘ cpiRow a g) := by
    simp only [Function.comp_def, hcpiOf]
    apply List.map_congr_left
    intro c hc
    obtain ⟨leg, hleg, -⟩ := hlog c (List.mem_filter.mp hc).1
    rw [hcpi c leg hleg]
    simp only [w, hleg]
  rw [← hleft, ← hright, hfibers]

end Totals

section Complete

variable {natives : Natives} {n : ℕ} {a : Accounts n} {g : Graph n} {clock : Clock}
  {program : ProgramId} {venues : Venues program} {wallet : Fin n}

/-- The rows of the returned data are those of the loop, as many as its length says. -/
theorem receiptRows_finish {before : Fin g.assetCount → ℕ} {ledger : Ledger}
    {run : Run natives g.assetCount} {outcome : GraphOutcome} {count : ℕ}
    (h : finishGraph a g before wallet ledger run = .ok outcome)
    (hlength : run.receipts.length = 224) (hcount : count ≤ 4)
    (hreceipt : (if run.oracle.isSome then run.executed * 48 else g.legs.length * 32)
      = count * receiptStride run.oracle.isSome) :
    receiptRows run.oracle.isSome (outcome.receipt.take outcome.receiptLen)
      = (List.range count).map (rowAt run.oracle.isSome run.receipts) := by
  rw [finishGraph, bind_eq_ok] at h
  obtain ⟨actualIn, -, h⟩ := h
  obtain ⟨actualOut, -, h⟩ := bind_eq_ok.mp h
  obtain ⟨_, -, h⟩ := bind_eq_ok.mp h
  obtain ⟨_, -, h⟩ := bind_eq_ok.mp h
  obtain ⟨_, -, h⟩ := bind_eq_ok.mp h
  obtain ⟨after, -, h⟩ := bind_eq_ok.mp h
  obtain ⟨_, -, h⟩ := bind_eq_ok.mp h
  cases h
  dsimp only
  rw [hreceipt]
  have hheader : (Buffer.toBytes 8 g.sequence ++ Buffer.toBytes 8 actualIn ++
      Buffer.toBytes 8 actualOut ++ Buffer.toBytes 8 run.executed).length = 32 := by
    simp
  generalize Buffer.toBytes 8 g.sequence ++ Buffer.toBytes 8 actualIn ++
      Buffer.toBytes 8 actualOut ++ Buffer.toBytes 8 run.executed = header at hheader ⊢
  have hfits : 0 + header.length ≤ run.receipts.length := by omega
  have hstride : 32 ≤ receiptStride run.oracle.isSome := by
    cases run.oracle.isSome <;> decide
  have hmax : count * receiptStride run.oracle.isSome ≤ 192 := by
    calc count * receiptStride run.oracle.isSome ≤ 4 * 48 :=
          Nat.mul_le_mul hcount (by cases run.oracle.isSome <;> decide)
      _ = 192 := rfl
  have htake : ((overwrite run.receipts 0 header).take
      (32 + count * receiptStride run.oracle.isSome)).length
      = 32 + count * receiptStride run.oracle.isSome := by
    rw [List.length_take, length_overwrite hfits, hlength]
    omega
  rw [receiptRows, htake, Nat.add_sub_cancel_left, Nat.mul_div_cancel _ (by omega)]
  apply List.map_congr_left
  intro k hk
  have hk := List.mem_range.mp hk
  have hmul := Nat.mul_le_mul_right (receiptStride run.oracle.isSome) hk
  rw [Nat.succ_mul] at hmul
  have hfield : ∀ i, i + 8 ≤ receiptStride run.oracle.isSome →
      fieldAt ((overwrite run.receipts 0 header).take
        (32 + count * receiptStride run.oracle.isSome))
        (32 + k * receiptStride run.oracle.isSome + i)
      = fieldAt run.receipts (32 + k * receiptStride run.oracle.isSome + i) := by
    intro i hi
    rw [fieldAt_take (by omega), fieldAt_overwrite_of_disjoint hfits (by omega)]
  rw [rowAt, rowAt]
  cases hreflow : run.oracle.isSome
  · rw [hreflow] at hfield
    rw [hfield 16 (by decide), hfield 24 (by decide)]
    rfl
  · rw [hreflow] at hfield
    rw [hfield 16 (by decide), hfield 24 (by decide), hfield 32 (by decide)]

/-- Rows as expected account for the whole input and output. -/
theorem receiptComplete_of_rows {start s' : Chain} {before : Fin g.assetCount → ℕ}
    {run : Run natives g.assetCount} {outcome : GraphOutcome} {k : ℕ} {log : List Cpi}
    (hbefore : ∀ i, before i = tokenAmount start.ledger (tokenKey a g i))
    (hlog : Accounted a g start (a.key wallet) k log run s')
    (hfinish : finishGraph a g before wallet s'.ledger run = .ok outcome)
    (hrows : receiptRows g.reflow (outcome.receipt.take outcome.receiptLen) = expectedRows a g log) :
    ReceiptComplete a g log outcome := by
  obtain ⟨hconserved, -, hin, hout, -⟩ :=
    finishGraph_conserved hbefore hlog.current hlog.lamports hfinish
  have hinput := input_total hlog.linked hlog.executes
  have houtput := output_total hlog.linked hlog.executes
  -- both kinds of row sum up to the same
  have htotalIn : (((expectedRows a g log).filter fun row => SpendsInput g row).map Row.spent).sum
      = (((log.map (cpiRow a g)).filter fun row => SpendsInput g row).map Row.spent).sum := by
    unfold expectedRows
    split
    · rfl
    · refine legRows_total hlog.executes (fun i => ∃ leg ∈ g.legs[i]?, leg.source = g.first)
        Row.spent (fun leg c => c.spent (tokenKey a g leg.source)) ?_ ?_
      · intro i leg hleg
        rw [legRow, hleg]
        rfl
      · intro c leg hleg
        rw [cpiRow_eq hleg]
  have htotalOut : (((expectedRows a g log).filter fun row => FeedsSink g row).map
      Row.received).sum
      = (((log.map (cpiRow a g)).filter fun row => FeedsSink g row).map Row.received).sum := by
    unfold expectedRows
    split
    · rfl
    · refine legRows_total hlog.executes (fun i => ∃ leg ∈ g.legs[i]?, leg.destination = g.sink)
        Row.received (fun leg c => c.received (tokenKey a g leg.destination)) ?_ ?_
      · intro i leg hleg
        rw [legRow, hleg]
        rfl
      · intro c leg hleg
        rw [cpiRow_eq hleg]
  have hconservedIn := hconserved.input
  constructor
  · exact hrows
  · rw [hrows, htotalIn, hin]
    omega
  · rw [hrows, htotalOut, hout]
    omega

/-- What the seed's iteration spends: all of it from the input, nothing from a transit asset. -/
theorem Selected.seed_budget {before : Fin g.assetCount → ℕ} {ledger : Ledger}
    {run : Run natives g.assetCount} (sel : Selected a g clock before ledger 0 run)
    (hcurrent : run.current = before)
    (hselection : sel.selection = ⟨0, g.seedInput, 0⟩) :
    sel.budget = if sel.leg.source = g.first then g.seedInput else 0 := by
  have havailable := sel.available_eq
  have hremaining := sel.remaining_eq
  unfold availableFor at havailable
  unfold Selected.budget
  rw [hselection]
  split
  · next hsource =>
    rw [if_pos hsource, Except.ok.injEq] at havailable
    rw [remainingInput, hcurrent, bind_eq_ok] at hremaining
    obtain ⟨spent, hspent, hremaining⟩ := hremaining
    obtain ⟨-, rfl⟩ := checkedSub_eq_ok.mp hspent
    obtain ⟨-, hremaining⟩ := checkedSub_eq_ok.mp hremaining
    have hleg := sel.leg_eq
    rw [hselection] at hleg
    have hle := g.seed_le _ hleg
    have hlt := g.seed_lt
    show min (min sel.available sel.leg.budget) g.seedInput = g.seedInput
    omega
  · next hsource =>
    rw [if_neg hsource, hcurrent] at havailable
    obtain ⟨-, havailable⟩ := checkedSub_eq_ok.mp havailable
    omega

section Run

variable {before : Fin g.assetCount → ℕ} {oracle : Option (Oracle natives)}
  {run : Run natives g.assetCount} {start s' : Chain} {outcome : GraphOutcome} {log : List Cpi}
  {k shift : ℕ}

/-- The returned rows of an oracle's run. -/
theorem ReflowRows.receiptRows_eq (hrows : ReflowRows a g shift k log run)
    (hlog : Accounted a g start (a.key wallet) k log run s') (hreflow : g.reflow = true)
    (hle : log.length ≤ 4) (hfinish : finishGraph a g before wallet s'.ledger run = .ok outcome) :
    receiptRows g.reflow (outcome.receipt.take outcome.receiptLen)
      = (List.range log.length).map (rowAt true run.receipts) := by
  have hcount : (if run.oracle.isSome then run.executed * 48 else g.legs.length * 32)
      = log.length * receiptStride run.oracle.isSome := by
    rw [hrows.isSome, hlog.executed]
    rfl
  have hfinal := receiptRows_finish hfinish hrows.length hle hcount
  rw [hrows.isSome] at hfinal
  rwa [hreflow]

/-- Unshifted rows are complete. -/
theorem ReflowRows.complete (hbefore : ∀ i, before i = tokenAmount start.ledger (tokenKey a g i))
    (hrows : ReflowRows a g 0 k log run)
    (hlog : Accounted a g start (a.key wallet) k log run s') (hreflow : g.reflow = true)
    (hle : log.length ≤ 4) (hfinish : finishGraph a g before wallet s'.ledger run = .ok outcome) :
    ReceiptComplete a g log outcome := by
  refine receiptComplete_of_rows hbefore hlog hfinish ?_
  rw [hrows.receiptRows_eq hlog hreflow hle hfinish, expectedRows, if_pos hreflow]
  apply List.ext_getElem
  · simp
  · intro j hj hj'
    rw [List.length_map] at hj'
    simp only [List.getElem_map, List.getElem_range]
    exact hrows.rows j _ (List.getElem?_eq_getElem hj')

/-- Shifted rows are not: the first is blank, and some CPI spent the input. -/
theorem ReflowRows.not_complete (hshift : shift ≠ 0)
    (hbefore : ∀ i, before i = tokenAmount start.ledger (tokenKey a g i))
    (hrows : ReflowRows a g shift k log run)
    (hlog : Accounted a g start (a.key wallet) k log run s') (hreflow : g.reflow = true)
    (hle : log.length ≤ 4) (hfinish : finishGraph a g before wallet s'.ledger run = .ok outcome) :
    ¬ReceiptComplete a g log outcome := by
  intro hcomplete
  have hrow := hcomplete.rows
  rw [hrows.receiptRows_eq hlog hreflow hle hfinish, expectedRows, if_pos hreflow] at hrow
  cases log with
  | nil =>
    have hinput := input_total hlog.linked hlog.executes
    obtain ⟨hconserved, -⟩ := finishGraph_conserved hbefore hlog.current hlog.lamports hfinish
    have hin := hconserved.input
    have hpos := g.input_pos
    simp only [List.map_nil, List.filter_nil, List.sum_nil] at hinput
    omega
  | cons c rest =>
    have hfirst := congrArg (·[0]?) hrow
    simp only [List.length_cons, List.getElem?_map, List.getElem?_cons_zero, Option.map_some]
      at hfirst
    rw [List.getElem?_range (Nat.succ_pos _), Option.map_some, hrows.blank hshift] at hfirst
    obtain ⟨leg, hlegc, hexecutes⟩ := hlog.executes c List.mem_cons_self
    rw [cpiRow_eq hlegc] at hfirst
    have hspent : 0 = c.spent (tokenKey a g leg.source) :=
      congrArg Row.spent (Option.some.inj hfirst)
    have htakes := hexecutes.takes
    unfold Cpi.spent at hspent
    omega

/-- The receipt of a fixed graph is complete. -/
theorem FixedRows.complete (hbefore : ∀ i, before i = tokenAmount start.ledger (tokenKey a g i))
    (hrows : FixedRows a g log run)
    (hlog : Accounted a g start (a.key wallet) k log run s') (hfixed : g.reflow = false)
    (hle : g.legs.length ≤ 4) (hfinish : finishGraph a g before wallet s'.ledger run = .ok outcome) :
    ReceiptComplete a g log outcome := by
  have hcount : (if run.oracle.isSome then run.executed * 48 else g.legs.length * 32)
      = g.legs.length * receiptStride run.oracle.isSome := by
    rw [hrows.isNone]
    rfl
  have hfinal := receiptRows_finish hfinish hrows.length hle hcount
  rw [hrows.isNone] at hfinal
  refine receiptComplete_of_rows hbefore hlog hfinish ?_
  rw [hfixed, expectedRows, if_neg (by rw [hfixed]; decide)]
  refine hfinal.trans (List.map_congr_left fun i hi => ?_)
  exact hrows.rows i _ (List.getElem?_eq_getElem (List.mem_range.mp hi))

/-- A graph that settles has spent its input by the end of the loop. -/
theorem remainingInput_finish (hfinish : finishGraph a g before wallet s'.ledger run = .ok outcome) :
    remainingInput g before run.current = .ok 0 := by
  rw [finishGraph, bind_eq_ok] at hfinish
  obtain ⟨actualIn, hin, hfinish⟩ := hfinish
  obtain ⟨_, -, hfinish⟩ := bind_eq_ok.mp hfinish
  obtain ⟨_, hexact, -⟩ := bind_eq_ok.mp hfinish
  obtain ⟨hle, rfl⟩ := checkedSub_eq_ok.mp hin
  have hexact := need_eq_ok.mp hexact
  refine bind_eq_ok.mpr ⟨_, checkedSub_eq_ok.mpr ⟨hle, rfl⟩, checkedSub_eq_ok.mpr ?_⟩
  omega

/-- Before the first iteration there are no rows. -/
theorem reflowRows_start (hsome : oracle.isSome = true) :
    ReflowRows a g 0 0 [] { oracle, current := before } where
  length := List.length_replicate
  isSome := hsome
  iteration_eq := rfl
  rows := fun k c hk => by simp at hk
  blank := fun hne => absurd rfl hne

theorem rowAt_replicate : ∀ k < 4, rowAt false (List.replicate 224 0) k = ⟨k, 0, 0⟩ := by decide

theorem fixedRows_start (hle : g.legs.length ≤ 4) :
    FixedRows a g [] ({ oracle := none, current := before } : Run natives g.assetCount) where
  length := List.length_replicate
  isNone := rfl
  rows := fun i leg hi => by
    have hlt := (List.getElem?_eq_some_iff.mp hi).1
    rw [legRow, hi]
    exact rowAt_replicate i (by omega)

/-- The first iteration of a seeded graph executes the seed, or leaves row zero blank and the seed is
one that executes nothing. -/
theorem seed_rows (hbefore : ∀ i, before i = tokenAmount start.ledger (tokenKey a g i))
    (hsome : oracle.isSome = true) (hseed : g.seedInput ≠ 0) {next : Run natives g.assetCount}
    (h : Iterated a g clock before venues wallet (start.ledger (a.key wallet)).lamports 0
      { oracle, current := before } start next s') :
    ∃ log shift, Accounted a g start (a.key wallet) 1 log next s' ∧
      ReflowRows a g shift 1 log next ∧
      (shift ≠ 0 ↔ SeedSkipped a g clock start.ledger (a.key wallet)) := by
  have hstart := accounted_start wallet hbefore oracle
  have hselection : ∀ sel : Selected a g clock before start.ledger 0
      ({ oracle, current := before } : Run natives g.assetCount),
      sel.selection = ⟨0, g.seedInput, 0⟩ := by
    intro sel
    rcases selectLeg_eq_ok sel.select_eq with
      ⟨hnone, -⟩ | ⟨o, -, -, -, -, hsel⟩ | ⟨o, o', -, -, hno, -⟩
    · rw [show oracle = none from hnone] at hsome
      cases hsome
    · exact hsel
    · exact absurd ⟨rfl, hseed⟩ hno
  cases h with
  | skip sel idle =>
    have hsel := hselection sel
    have hleg := sel.leg_eq
    rw [hsel] at hleg
    have hbudget := sel.seed_budget rfl hsel
    refine ⟨[], 1, hstart.skip sel, ?_, fun _ => ⟨hseed, sel.leg, hleg, ?_⟩,
      fun _ => Nat.one_ne_zero⟩
    · exact {
        length := List.length_replicate
        isSome := (selectLeg_isSome sel.select_eq).trans hsome
        iteration_eq := rfl
        rows := fun k c hk => by simp at hk
        blank := fun _ => (by decide : rowAt true (List.replicate 224 0) 0 = ⟨0, 0, 0⟩) }
    · by_cases hsource : sel.leg.source = g.first
      · rw [if_pos hsource] at hbudget
        rw [hbudget] at idle
        exact .inr (legData_eq_none.mp (idle.resolve_left hseed))
      · exact .inl hsource
  | @execute sel data next s' pos data_eq invoke_eq return_eq cpis_eq record_eq =>
    have hsel := hselection sel
    have hleg := sel.leg_eq
    rw [hsel] at hleg
    have hbudget := sel.seed_budget rfl hsel
    have hrec := recordLeg_eq_ok record_eq
    have hsource : sel.leg.source = g.first := by
      by_contra hsource
      rw [if_neg hsource] at hbudget
      exact pos hbudget
    rw [if_pos hsource] at hbudget
    refine ⟨_, 0, hstart.execute hbefore sel cpis_eq hrec,
      (reflowRows_start hsome).execute hstart sel data hrec (by decide),
      fun h => absurd rfl h, ?_⟩
    rintro ⟨-, leg, hlegs, hidle⟩
    rw [hleg] at hlegs
    cases hlegs
    rcases hidle with hother | hidle
    · exact absurd hsource hother
    · rw [hbudget, legData_eq_none.mpr hidle] at data_eq
      cases data_eq

end Run

/-- The receipt of a settled graph is complete exactly when its seed, if it has one, executed. -/
theorem receipt_complete_iff {d : Buffer} {s s' : Chain} {outcome : GraphOutcome} {log : List Cpi}
    (hdecode : Graph.decode d n = .ok g)
    (h : executePreflightedGraphFor natives a clock venues d wallet s = (.ok outcome, s'))
    (hcpis : s'.cpis = s.cpis ++ log) :
    ReceiptComplete a g log outcome ↔ ¬SeedSkipped a g clock s.ledger (a.key wallet) := by
  rw [executePreflightedGraphFor, lift_bind_eq_ok] at h
  obtain ⟨g', hg', h⟩ := h
  obtain rfl : g' = g := Except.ok.inj ((ad_eq_ok.mp hg').symm.trans hdecode)
  obtain ⟨before, oracle, run, hbefore, hsome, hrun, hfinish⟩ := executeGraph_eq_ok h
  have hstart := accounted_start wallet hbefore oracle
  have hdone := remainingInput_finish hfinish
  -- the log is the one that the loop accounts for
  have hunique : ∀ {k log'}, Accounted a g' s (a.key wallet) k log' run s' → log' = log :=
    fun hlog => List.append_cancel_left (hlog.cpis.symm.trans hcpis)
  have hle : log.length ≤ 4 := by
    obtain ⟨log', hlog', hran⟩ := (executeGraph_conserved h).1
    obtain rfl : log' = log := List.append_cancel_left (hlog'.symm.trans hcpis)
    exact hran.length_le
  by_cases hreflow : g'.reflow = true
  · rw [hreflow] at hsome
    rw [if_pos hreflow] at hrun
    by_cases hseed : g'.seedInput = 0
    · -- no seed: the oracle selects every CPI
      obtain ⟨k, log', hlog, hrows⟩ :=
        runGraph_rows hbefore hstart (reflowRows_start hsome) (.inr hseed) le_rfl hrun hdone
      cases hunique hlog
      exact ⟨fun _ hskip => hskip.1 hseed, fun _ => hrows.complete hbefore hlog hreflow hle hfinish⟩
    · rw [List.range'_succ, runGraph] at hrun
      obtain ⟨next, s₁, hiterate, hrest⟩ := Comp.bind_eq_ok.mp hrun
      cases next with
      | none =>
        -- nothing is spent before the first iteration
        obtain ⟨-, -, hzero⟩ := iterate_none hiterate
        rw [remainingInput, bind_eq_ok] at hzero
        obtain ⟨spent, hspent, hzero⟩ := hzero
        obtain ⟨-, rfl⟩ := checkedSub_eq_ok.mp hspent
        obtain ⟨-, hzero⟩ := checkedSub_eq_ok.mp hzero
        have hpos := g'.input_pos
        have hsame : before g'.first - before g'.first = 0 := Nat.sub_self _
        dsimp only at hzero
        omega
      | some next =>
        obtain ⟨log₁, shift, hlog₁, hrows₁, hshift⟩ :=
          seed_rows hbefore hsome hseed (iterate_some hiterate)
        obtain ⟨k, log', hlog, hrows⟩ :=
          runGraph_rows hbefore hlog₁ hrows₁ (.inl Nat.one_ne_zero) le_rfl hrest hdone
        cases hunique hlog
        rw [← hshift]
        by_cases hzero : shift = 0
        · subst hzero
          exact iff_of_true (hrows.complete hbefore hlog hreflow hle hfinish) (by simp)
        · exact iff_of_false (hrows.not_complete hzero hbefore hlog hreflow hle hfinish)
            (not_not_intro hzero)
  · -- a fixed graph has a row for every leg
    have hfixed : g'.reflow = false := by simpa using hreflow
    rw [hfixed] at hsome
    obtain rfl : oracle = none :=
      Option.isNone_iff_eq_none.mp (Option.isSome_eq_false_iff.mp hsome)
    have hcalls : g'.reflowCalls = 0 := by
      unfold Graph.reflow at hfixed
      simpa using hfixed
    have hlegs : g'.legs.length ≤ 4 := g'.fixed_le hcalls
    rw [if_neg hreflow] at hrun
    obtain ⟨k, log', hlog, hrows⟩ :=
      runGraph_fixed hbefore hstart (fixedRows_start hlegs) (by omega) hrun
    cases hunique hlog
    exact ⟨fun _ hskip => g'.seed_reflow hskip.1 hcalls,
      fun _ => hrows.complete hbefore hlog hfixed hlegs hfinish⟩

end Complete

/-! ## Receipts of the samples -/

/-- The bytes of a buffer that holds the given fields and zeros elsewhere. -/
def sparse (size : ℕ) (fields : List (ℕ × List UInt8)) : Buffer where
  size := size
  byte i := ((fields.find? fun f => f.1 ≤ i ∧ i < f.1 + f.2.length).bind fun f => f.2[i - f.1]?).getD 0

/-- A Phoenix market without orders, in lots of a thousand. -/
def emptyBook : Buffer := sparse 84944 [(0, phoenixDiscriminant), (8, [1]), (16, Buffer.toBytes 8 512),
  (24, Buffer.toBytes 8 512), (32, Buffer.toBytes 8 128), (48, (Key.ofNat 13).toList),
  (128, (Key.ofNat 15).toList), (112, Buffer.toBytes 8 1000), (192, [1]), (832, [1]), (840, [1])]

/-- An AMM v4 pool without fees. -/
def v4Pool : Buffer := sparse 752 [(0, [1]), (184, [1]), (336, (Key.ofNat 18).toList),
  (368, (Key.ofNat 19).toList)]

/-- The sample's accounts with a funded AMM v4 pool and a Phoenix market. -/
def seedLedger : Ledger := ledgerOf [
  (.ofNat 10, ⟨.ofNat 0, false, 5000, ⟨0, fun _ => 0⟩⟩),
  (.ofNat 11, ⟨.ofNat 1, false, 1, nonceData (.ofNat 10) 7⟩),
  (.ofNat 12, ⟨tokenId, false, 1, tokenData (.ofNat 13) (.ofNat 10) 1000⟩),
  (.ofNat 13, ⟨tokenId, false, 1, mintData⟩),
  (.ofNat 14, ⟨tokenId, false, 1, tokenData (.ofNat 15) (.ofNat 10) 50⟩),
  (.ofNat 15, ⟨tokenId, false, 1, mintData⟩),
  (tokenId, programAccount),
  (venueProgram .raydiumAmmV4, programAccount),
  (.ofNat 16, ⟨venueProgram .raydiumAmmV4, false, 1, v4Pool⟩),
  (.ofNat 18, ⟨tokenId, false, 1, tokenData (.ofNat 13) (.ofNat 17) 1000000⟩),
  (.ofNat 19, ⟨tokenId, false, 1, tokenData (.ofNat 15) (.ofNat 17) 1000000⟩),
  (venueProgram .phoenix, programAccount),
  (.ofNat 20, ⟨venueProgram .phoenix, false, 1, emptyBook⟩)]

/-- The account list of the seeded sample. -/
def seedAccounts : Accounts 17 where
  key := ![.ofNat 10, .ofNat 11, .ofNat 12, .ofNat 13, .ofNat 14, .ofNat 15, tokenId,
    venueProgram .raydiumAmmV4, .ofNat 16, .ofNat 17, .ofNat 18, .ofNat 19, venueProgram .phoenix,
    .ofNat 20, .ofNat 21, .ofNat 22, .ofNat 23]
  isSigner key := key = .ofNat 10
  isWritable key := [Key.ofNat 10, .ofNat 11, .ofNat 12, .ofNat 14, .ofNat 16, .ofNat 18, .ofNat 19,
    .ofNat 20, .ofNat 21, .ofNat 22].contains key

theorem seedAccounts_eq : seedAccounts =
    { seedAccounts with isWritable := fun key => key.number ∈ [10, 11, 12, 14, 16, 18, 19, 20, 21, 22] } :=
  congrArg (Accounts.mk _ _) (contains_ofNat [10, 11, 12, 14, 16, 18, 19, 20, 21, 22] (by decide))

/-- Spend 600 of the first asset for at least 500 of the second: one of it on the Phoenix market, and the
rest as the oracle selects. -/
def seedPayload : Buffer := .ofList ([9, 2, 2, 8] ++ Buffer.toBytes 8 7 ++ Buffer.toBytes 8 600 ++
  Buffer.toBytes 8 500 ++ Buffer.toBytes 8 100 ++ [2, 3, 6, 4, 5, 6] ++ Buffer.toBytes 8 1 ++
  [0, 0, 1, 1] ++ Buffer.toBytes 8 600 ++ [12, 9] ++ [12, 16, 13, 0, 2, 4, 14, 15, 6] ++
  [6, 0, 1, 0] ++ Buffer.toBytes 8 600 ++ [7, 8] ++ [6, 8, 9, 10, 11, 2, 4, 0])

/-- The market fills no lot of the seed; the receipt has one row, which is blank, and the CPI that spent
the whole input is cut off. -/
theorem receipt_cut_off : ∃ g outcome s', Graph.decode seedPayload 17 = .ok g ∧
    preflightGraph sampleProgram seedLedger seedAccounts sampleClock seedPayload 0 1 [] 0 = .ok () ∧
    executePreflightedGraphFor noNatives seedAccounts sampleClock sampleVenues seedPayload 0
      { ledger := seedLedger } = (.ok outcome, s') ∧
    receiptRows g.reflow (outcome.receipt.take outcome.receiptLen) = [⟨0, 0, 0⟩] ∧
    s'.cpis.map (cpiRow seedAccounts g) = [⟨1, 600, 600⟩] ∧
    ¬ReceiptComplete seedAccounts g s'.cpis outcome := by
  have hrun : (Graph.decode seedPayload 17).map (fun g =>
      let (result, s') := executePreflightedGraphFor noNatives seedAccounts sampleClock sampleVenues
        seedPayload 0 { ledger := seedLedger }
      (g.reflow, result.map fun outcome =>
        receiptRows true (outcome.receipt.take outcome.receiptLen), s'.cpis.map (cpiRow seedAccounts g)))
      = .ok (true, .ok [⟨0, 0, 0⟩], [⟨1, 600, 600⟩]) := by
    rw [seedAccounts_eq]
    decide +kernel
  rcases hg : Graph.decode seedPayload 17 with e | g
  · rw [hg] at hrun
    cases hrun
  rcases hresult : executePreflightedGraphFor noNatives seedAccounts sampleClock sampleVenues
    seedPayload 0 { ledger := seedLedger } with ⟨e | outcome, s'⟩
  · rw [hg, hresult] at hrun
    cases congrArg (fun p => p.2.1) (Except.ok.inj hrun)
  rw [hg, hresult] at hrun
  obtain ⟨hreflow, hrun⟩ := Prod.mk.inj (Except.ok.inj hrun)
  obtain ⟨hreturned, hcpis⟩ := Prod.mk.inj hrun
  have hrows : receiptRows g.reflow (outcome.receipt.take outcome.receiptLen) = [⟨0, 0, 0⟩] := by
    rw [hreflow]
    exact Except.ok.inj hreturned
  have hpreflight : preflightGraph sampleProgram seedLedger seedAccounts sampleClock seedPayload 0 1 [] 0
      = .ok () := by
    rw [seedAccounts_eq]
    decide +kernel
  refine ⟨g, outcome, s', rfl, hpreflight, rfl, hrows, hcpis, fun hcomplete => ?_⟩
  have hexpected := hcomplete.rows
  rw [hrows, expectedRows, if_pos hreflow, hcpis] at hexpected
  cases hexpected

/-- The sample graph has no seed, so its receipt is complete. -/
theorem receipt_complete_sample : ∃ g outcome s', Graph.decode samplePayload 10 = .ok g ∧
    executePreflightedGraphFor noNatives sampleAccounts sampleClock sampleVenues samplePayload 0
      { ledger := sampleLedger } = (.ok outcome, s') ∧
    ReceiptComplete sampleAccounts g s'.cpis outcome := by
  obtain ⟨g, hg⟩ := exists_of_isOk (x := Graph.decode samplePayload 10) (by decide +kernel)
  obtain ⟨outcome, s', hrun⟩ := Comp.exists_of_isOk (x := executePreflightedGraphFor noNatives
    sampleAccounts sampleClock sampleVenues samplePayload 0) (s := { ledger := sampleLedger }) (by
      rw [sampleAccounts_eq]
      decide +kernel)
  have hseed : (Graph.decode samplePayload 10).map Graph.seedInput = .ok 0 := by decide +kernel
  rw [hg] at hseed
  refine ⟨g, outcome, s', hg, hrun, (receipt_complete_iff hg hrun rfl).mpr fun hskipped => ?_⟩
  exact hskipped.1 (Except.ok.inj hseed)

end StockMesh.Settle

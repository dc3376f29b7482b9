import StockMesh.Settle.Allocation

/-! # Graph settlement

`preflightGraph` checks a signed graph against the account list before the first CPI. `executeGraph`
runs it: in the fixed order of its legs, or by the oracle's selections, the first of which the signer
may fix as a seed. Every CPI spends at most its signed budget and what is available, and every balance
is read back after it. `settleGraphFor` adds the owner's nonce. -/

namespace StockMesh.Settle

open Stateful

/-- `PROGRAMS[venue]`. -/
def venueProgram : Venue → Key
  | .phoenix => .ofNat 0x5d0ea4f33737013a563e09348edb6f4593d91fc7641f9247c2441a842a1bbeb
  | .raydiumCpmm => .ofNat 0xa92a5a8b4f295952842550aa93fd5b95b5ace6a8eb920c93942e43690c20ec73
  | .orcaWhirlpool => .ofNat 0xe03685f8e909053e458121c66f5a76aedc7706aa11c82f8aa952a8f2b7879a9
  | .raydiumClmm => .ofNat 0xa5d5ca9e04cf5db590b714ba2fe32cb159133fc1c192b72257fd07d39cb0401e
  | .meteoraDlmm => .ofNat 0x4e9e12fbc84e826c932cce9e2640cce15590c1c6273b0925708ba3b8520b0bc
  | .meteoraDammV2 => .ofNat 0x92d2135657a159c2b87d4b66a70db8e9752389ff76aaf206ced063a38f95aed
  | .raydiumAmmV4 => .ofNat 0x4bd949c43602c33f207790ed16a3524ca1b9975cf121a2a90cffec7df8b68acd
  | .byrealClmm => .ofNat 0x634d20f1bf56dd164e3c13c7836a4229ec5ab21ff54528390a51789f3cdbbdb
  | .riptide => .ofNat 0xcbcc08307b47ca54d6b52f31d59682d7ba7f1bdbc905d762b0ff05df2bc4b4a

/-- The value of every index, read in order. -/
def readEach : {k : ℕ} → (Fin k → Outcome ℕ) → Outcome (Fin k → ℕ)
  | 0, _ => .ok Fin.elim0
  | _ + 1, read => do
    let x ← read 0
    let rest ← readEach fun i => read i.succ
    .ok (Fin.cons x rest)

/-- All values are read exactly when each is. -/
theorem readEach_eq_ok {k : ℕ} {read : Fin k → Outcome ℕ} {values : Fin k → ℕ} :
    readEach read = .ok values ↔ ∀ i, read i = .ok (values i) := by
  induction k with
  | zero =>
    constructor
    · exact fun _ i => i.elim0
    · intro _
      rw [readEach]
      congr 1
      funext i
      exact i.elim0
  | succ k ih =>
    rw [readEach, bind_eq_ok]
    constructor
    · rintro ⟨x, hx, h⟩
      obtain ⟨rest, hrest, h⟩ := bind_eq_ok.mp h
      cases h
      intro i
      refine Fin.cases hx (fun j => ?_) i
      exact ih.mp hrest j
    · intro h
      refine ⟨values 0, h 0, bind_eq_ok.mpr ⟨fun i => values i.succ, ih.mpr fun i => h i.succ, ?_⟩⟩
      congr 1
      funext i
      refine Fin.cases rfl (fun j => rfl) i

section Preflight

variable {n : ℕ} (ledger : Ledger) (a : Accounts n) (g : Graph n)

/-- `asset`. -/
def asset (wallet : Key) (i : Fin g.assetCount) (inspectMint : Bool) : Outcome ℕ :=
  checkedAsset ledger a wallet (tokenKey a g i) (mintKey a g i) (a.key (g.assets i).program)
    inspectMint

/-- One asset of the preflight: admitted, and on accounts of its own. -/
def preflightAsset (wallet : Key) (i : Fin g.assetCount) : Outcome ℕ := do
  let amount ← asset ledger a g wallet i true
  need (∀ j < i, tokenKey a g i ≠ tokenKey a g j ∧ mintKey a g i ≠ mintKey a g j) .identity
  .ok amount

/-- The account is the wallet's token account of an asset (`asset_flags[index] != 0`). -/
def IsAssetToken (key : Key) : Prop := ∃ i, key = tokenKey a g i

instance (key : Key) : Decidable (IsAssetToken a g key) := inferInstanceAs (Decidable (∃ _, _))

/-- The account may be a token account. -/
def TokenLayout (account : Account) : Prop :=
  165 ≤ account.data.size ∧ (account.owner = tokenId ∨ account.data.size = 165 ∨
    (account.data.slice 165 1 = some [2]))

instance (account : Account) : Decidable (TokenLayout account) :=
  inferInstanceAs (Decidable (_ ∧ _))

/-- No other writable token account of the wallet is in the account list. -/
def NoAlias (wallet : Key) (aggregate : List ℕ) : Prop :=
  ∀ i : Fin n, ¬IsAssetToken a g (a.key i) → a.isWritable (a.key i) = true →
    ((ledger (a.key i)).owner = tokenId ∨ (ledger (a.key i)).owner = token2022Id) →
    (i : ℕ) ∉ aggregate → TokenLayout (ledger (a.key i)) →
    (ledger (a.key i)).data.slice 32 32 ≠ some wallet.toList

set_option synthInstance.maxSize 400 in
instance (wallet : Key) (aggregate : List ℕ) : Decidable (NoAlias ledger a g wallet aggregate) :=
  inferInstanceAs (Decidable (∀ _, _))

/-- `validate`: the accounts of a leg are what its CPI needs and nothing more. -/
def validateLeg (wallet nonce : Key) (leg : Leg n g.assetCount) : Outcome Unit := do
  let id := venueProgram leg.venue
  isProgram ledger (a.key leg.program) id
  need ((ledger (a.key leg.pool)).owner = id ∧ a.key leg.signer = wallet ∧
    a.key leg.src = tokenKey a g leg.source ∧ a.key leg.dst = tokenKey a g leg.destination) .identity
  need (∀ p ∈ leg.accounts.zipIdx, a.key p.1 ≠ nonce ∧
    (leg.venue.writableWithOwner p.2 (decide ((ledger (a.key p.1)).owner = id)) = true →
      a.key p.1 ≠ id → a.isWritable (a.key p.1) = true) ∧
    (p.2 ≠ leg.bindings.src → p.2 ≠ leg.bindings.dst → ¬IsAssetToken a g (a.key p.1))) .identity

/-- The nonce account of the wallet with the given sequence. -/
def checkNonce (nonce : Account) (wallet : Key) (sequence : ℕ) : Outcome Unit := do
  need (nonce.data.size = nonceLen ∧ nonce.data.slice 0 8 = some nonceTag ∧
    nonce.data.slice 8 32 = some wallet.toList) .identity
  let stored ← ad (u64At nonce.data 40)
  need (stored = sequence) .replay

/-- `preflight_graph_for_pending_input` on a decoded graph. -/
def preflightDecoded (program : ProgramId) (clock : Clock) (wallet nonce : Fin n)
    (aggregate : List ℕ) (pending : ℕ) : Outcome Unit := do
  need (wallet ≠ nonce ∧ a.isSigner (a.key wallet) = true ∧ a.isWritable (a.key nonce) = true ∧
    (ledger (a.key nonce)).owner = program) .identity
  checkNonce (ledger (a.key nonce)) (a.key wallet) g.sequence
  need (clock.slot ≤ g.deadline ∧ 0 ≤ clock.unixTimestamp) .expired
  let before ← readEach (preflightAsset ledger a g (a.key wallet))
  need (before g.first + pending < u64Size ∧ g.input ≤ before g.first + pending) .bounds
  need (NoAlias ledger a g (a.key wallet) aggregate) .identity
  g.legs.forM (validateLeg ledger a g (a.key wallet) (a.key nonce))

end Preflight

/-- `preflight_graph_for_pending_input`. -/
def preflightGraph (program : ProgramId) {n : ℕ} (ledger : Ledger) (a : Accounts n) (clock : Clock)
    (d : Buffer) (walletIndex nonceIndex : ℕ) (aggregate : List ℕ) (pending : ℕ) : Outcome Unit := do
  let g ← ad (Graph.decode d n)
  let wallet ← accountIndex n walletIndex .identity
  let nonce ← accountIndex n nonceIndex .identity
  preflightDecoded ledger a g program clock wallet nonce aggregate pending

section Execute

variable {natives : Natives} {n : ℕ} (a : Accounts n) (g : Graph n) (clock : Clock)

/-- The data of a leg's CPI; `none` when the Phoenix book would fill nothing. -/
def legData (ledger : Ledger) (wallet : Key) (leg : Leg n g.assetCount) (budget : ℕ) :
    Outcome (Option (List UInt8)) :=
  if leg.venue = .phoenix then do
    let book ← ad (PhoenixBook.decode (ledger (a.key leg.pool)).data)
    let expected ← ad (book.quote wallet leg.direction budget maxMatches clock.slot clock.time)
    if expected.input = 0 ∨ expected.output = 0 then .ok none else
    let bytes ← ad (phoenixIoc book.header leg.direction budget maxMatches g.deadline)
    .ok (some (bytes.take phoenixIocLen))
  else do
    let bytes ← ad (leg.venue.swapData budget leg.direction)
    .ok (some bytes)

/-- The CPI of a leg. -/
def legInstruction (ledger : Ledger) (leg : Leg n g.assetCount) (data : List UInt8) : Instruction :=
  let id := venueProgram leg.venue
  { programId := id
    accounts := leg.accounts.zipIdx.map fun p =>
      let key := a.key p.1
      { key
        isSigner := decide (p.2 = leg.bindings.signer)
        isWritable := leg.venue.writableWithOwner p.2 (decide ((ledger key).owner = id)) &&
          decide (key ≠ id) }
    data }

/-- The locals of the execution loop. -/
structure Run (natives : Natives) (k : ℕ) where
  oracle : Option (Oracle natives)
  current : Fin k → ℕ
  used : ℕ → ℕ := fun _ => 0
  receipts : List UInt8 := List.replicate 224 0
  executed : ℕ := 0

variable (before : Fin g.assetCount → ℕ)

/-- What is left of the signed input. -/
def remainingInput (current : Fin g.assetCount → ℕ) : Outcome ℕ := do
  let spent ← checkedSub (before g.first) (current g.first) .conservation
  checkedSub g.input spent .conservation

/-- The next leg with its budget: the oracle's choice, the signed seed, or the legs in order. -/
def selectLeg (ledger : Ledger) (iteration remaining : ℕ) (run : Run natives g.assetCount) :
    Outcome (Selection × Option (Oracle natives)) :=
  match run.oracle with
  | some oracle =>
    if iteration = 0 ∧ g.seedInput ≠ 0 then .ok (⟨0, g.seedInput, 0⟩, some oracle)
    else do
      let (selection, oracle) ← oracle.next ledger a g clock remaining run.used run.executed
      .ok (selection, some oracle)
  | none => .ok (⟨iteration, u64Size - 1, 0⟩, none)

/-- What a leg may spend: the rest of the input, or what earlier legs produced. -/
def availableFor (remaining : ℕ) (current : Fin g.assetCount → ℕ) (leg : Leg n g.assetCount) :
    Outcome ℕ :=
  if leg.source = g.first then .ok remaining
  else checkedSub (current leg.source) (before leg.source) .conservation

/-- One receipt row. -/
def receiptRow (reflow : Bool) (leg : Leg n g.assetCount) (budget spent received : ℕ)
    (selection : Selection) : List UInt8 :=
  let row := Buffer.toBytes 8 leg.venue.toByte ++ Buffer.toBytes 8 budget ++
    Buffer.toBytes 8 spent ++ Buffer.toBytes 8 received
  if reflow then row ++ Buffer.toBytes 8 selection.index ++ Buffer.toBytes 8 selection.calls else row

/-- Bytes of a receipt row. -/
def receiptStride (reflow : Bool) : ℕ := if reflow then 48 else 32

/-- What is checked and recorded after a CPI. -/
def recordLeg (ledger : Ledger) (wallet : Key) (lamports iteration budget : ℕ)
    (selection : Selection) (leg : Leg n g.assetCount) (run : Run natives g.assetCount) :
    Outcome (Run natives g.assetCount) := do
  need ((ledger wallet).lamports = lamports) .conservation
  let current ← readEach fun i => balance ledger (tokenKey a g i)
  let spent ← checkedSub (run.current leg.source) (current leg.source) .conservation
  let received ← checkedSub (current leg.destination) (run.current leg.destination) .conservation
  need (0 < spent ∧ spent ≤ budget ∧ 0 < received) .conservation
  let used ← checkedSum (run.used selection.index) spent .conservation
  need (∀ i, i ≠ leg.source → i ≠ leg.destination → current i = run.current i) .conservation
  let reflow := run.oracle.isSome
  .ok { run with
    current
    used := Function.update run.used selection.index used
    receipts := overwrite run.receipts (32 + iteration * receiptStride reflow)
      (receiptRow g reflow leg budget spent received selection)
    executed := run.executed + 1 }

variable {program : ProgramId} (venues : Venues program) (wallet : Fin n) (lamports : ℕ)

/-- Execute a selected leg with a positive budget; a Phoenix book that would fill nothing is skipped. -/
def executeLeg (iteration budget : ℕ) (selection : Selection) (leg : Leg n g.assetCount)
    (run : Run natives g.assetCount) : Step (Run natives g.assetCount) := do
  let s ← get
  let data ← lift (legData a g clock s.ledger (a.key wallet) leg budget)
  match data with
  | none => pure run
  | some data => do
    invokeLeg venues selection.index (legInstruction a g s.ledger leg data)
    let s ← get
    lift (recordLeg a g s.ledger (a.key wallet) lamports iteration budget selection leg run)

/-- One iteration; `none` when the input is spent. -/
def iterate (iteration : ℕ) (run : Run natives g.assetCount) :
    Step (Option (Run natives g.assetCount)) := do
  let remaining ← lift (remainingInput g before run.current)
  if run.oracle.isSome ∧ remaining = 0 then pure none else
  let s ← get
  let (selection, oracle) ← lift (selectLeg a g clock s.ledger iteration remaining run)
  let run := { run with oracle }
  let leg ← lift (okOr g.legs[selection.index]? .bounds)
  let available ← lift (availableFor g before remaining run.current leg)
  let budget := min (min available leg.budget) selection.amount
  if budget = 0 then pure (some run) else
  let run ← executeLeg a g clock venues wallet lamports iteration budget selection leg run
  pure (some run)

/-- The execution loop. -/
def runGraph : List ℕ → Run natives g.assetCount → Step (Run natives g.assetCount)
  | [], run => pure run
  | iteration :: rest, run => do
    let next ← iterate a g clock before venues wallet lamports iteration run
    match next with
    | none => pure run
    | some run => runGraph rest run

/-- `GraphOutcome`. -/
structure GraphOutcome where
  sequence : ℕ
  actualIn : ℕ
  actualOut : ℕ
  receipt : List UInt8
  receiptLen : ℕ

/-- The checks after the loop. -/
def finishGraph (ledger : Ledger) (run : Run natives g.assetCount) : Outcome GraphOutcome := do
  let actualIn ← checkedSub (before g.first) (run.current g.first) .conservation
  let actualOut ← checkedSub (run.current g.sink) (before g.sink) .conservation
  need (actualIn = g.input) .conservation
  need (g.minOut ≤ actualOut) .minOut
  need (∀ i, i ≠ g.first → i ≠ g.sink → run.current i = before i) .conservation
  let after ← readEach fun i => asset ledger a g (a.key wallet) i false
  need (after = run.current) .identity
  .ok {
    sequence := g.sequence
    actualIn
    actualOut
    receipt := overwrite run.receipts 0 (Buffer.toBytes 8 g.sequence ++ Buffer.toBytes 8 actualIn ++
      Buffer.toBytes 8 actualOut ++ Buffer.toBytes 8 run.executed)
    receiptLen := 32 + if run.oracle.isSome then run.executed * 48 else g.legs.length * 32 }

variable (natives) in
/-- `execute_preflighted_graph_for` on a decoded graph. -/
def executeGraph : Step GraphOutcome := do
  let s ← get
  let before ← lift (readEach fun i => asset s.ledger a g (a.key wallet) i false)
  lift (need (g.input ≤ before g.first) .bounds)
  let oracle ← lift (if 0 < g.reflowCalls then (Oracle.new natives s.ledger a g clock).map some
    else .ok none)
  let iterations := if oracle.isSome then 4 else g.legs.length
  let run ← runGraph a g clock before venues wallet (s.ledger (a.key wallet)).lamports
    (List.range iterations) { oracle, current := before }
  let s ← get
  lift (finishGraph a g before wallet s.ledger run)

end Execute

/-! ## What one iteration does -/

section Iteration

variable {natives : Natives} {n : ℕ} {a : Accounts n} {g : Graph n} {clock : Clock}
  {before : Fin g.assetCount → ℕ} {program : ProgramId} {venues : Venues program} {wallet : Fin n}
  {lamports iteration : ℕ}

/-- The selection of an iteration. -/
structure Selected (a : Accounts n) (g : Graph n) (clock : Clock) (before : Fin g.assetCount → ℕ)
    (ledger : Ledger) (iteration : ℕ) (run : Run natives g.assetCount) where
  remaining : ℕ
  selection : Selection
  oracle : Option (Oracle natives)
  leg : Leg n g.assetCount
  available : ℕ
  remaining_eq : remainingInput g before run.current = .ok remaining
  unfinished : ¬(run.oracle.isSome = true ∧ remaining = 0)
  select_eq : selectLeg a g clock ledger iteration remaining run = .ok (selection, oracle)
  leg_eq : g.legs[selection.index]? = some leg
  available_eq : availableFor g before remaining run.current leg = .ok available

namespace Selected

variable {ledger : Ledger} {run : Run natives g.assetCount}
  (sel : Selected a g clock before ledger iteration run)

/-- What the selected leg may spend. -/
def budget : ℕ := min (min sel.available sel.leg.budget) sel.selection.amount

/-- The locals with the oracle's new state. -/
def run' : Run natives g.assetCount := { run with oracle := sel.oracle }

end Selected

/-- How a leg is selected: in order, by the signed seed, or by the oracle. -/
theorem selectLeg_eq_ok {ledger : Ledger} {remaining : ℕ} {run : Run natives g.assetCount}
    {selection : Selection} {oracle : Option (Oracle natives)}
    (h : selectLeg a g clock ledger iteration remaining run = .ok (selection, oracle)) :
    (run.oracle = none ∧ oracle = none ∧ selection = ⟨iteration, u64Size - 1, 0⟩) ∨
    (∃ o, run.oracle = some o ∧ oracle = some o ∧ iteration = 0 ∧ g.seedInput ≠ 0 ∧
      selection = ⟨0, g.seedInput, 0⟩) ∨
    (∃ o o', run.oracle = some o ∧ oracle = some o' ∧ ¬(iteration = 0 ∧ g.seedInput ≠ 0) ∧
      o.next ledger a g clock remaining run.used run.executed = .ok (selection, o')) := by
  unfold selectLeg at h
  split at h
  · next o ho =>
    split at h
    · next hseed =>
      cases h
      exact .inr (.inl ⟨o, ho, rfl, hseed.1, hseed.2, rfl⟩)
    · next hseed =>
      obtain ⟨⟨selection, o'⟩, hnext, h⟩ := bind_eq_ok.mp h
      cases h
      exact .inr (.inr ⟨o, o', ho, rfl, hseed, hnext⟩)
  · next ho =>
    cases h
    exact .inl ⟨ho, rfl, rfl⟩

/-- An oracle stays, and none appears. -/
theorem selectLeg_isSome {ledger : Ledger} {remaining : ℕ} {run : Run natives g.assetCount}
    {selection : Selection} {oracle : Option (Oracle natives)}
    (h : selectLeg a g clock ledger iteration remaining run = .ok (selection, oracle)) :
    oracle.isSome = run.oracle.isSome := by
  rcases selectLeg_eq_ok h with ⟨ho, ho', -⟩ | ⟨o, ho, ho', -⟩ | ⟨o, o', ho, ho', -⟩ <;>
    rw [ho, ho']
  rfl

/-- An iteration that goes on either skips its leg or executes it. -/
inductive Iterated (a : Accounts n) (g : Graph n) (clock : Clock) (before : Fin g.assetCount → ℕ)
    (venues : Venues program) (wallet : Fin n) (lamports iteration : ℕ)
    (run : Run natives g.assetCount) (s : Chain) : Run natives g.assetCount → Chain → Prop
  | skip (sel : Selected a g clock before s.ledger iteration run)
      (idle : sel.budget = 0 ∨
        legData a g clock s.ledger (a.key wallet) sel.leg sel.budget = .ok none) :
      Iterated a g clock before venues wallet lamports iteration run s sel.run' s
  | execute (sel : Selected a g clock before s.ledger iteration run) {data : List UInt8}
      {next : Run natives g.assetCount} {s' : Chain} (pos : sel.budget ≠ 0)
      (data_eq : legData a g clock s.ledger (a.key wallet) sel.leg sel.budget = .ok (some data))
      (invoke_eq : venues.invoke s.cpis.length (legInstruction a g s.ledger sel.leg data) s.ledger
        = .ok s'.ledger)
      (return_eq : s'.returnData = s.returnData)
      (cpis_eq : s'.cpis = s.cpis ++ [⟨sel.selection.index,
        legInstruction a g s.ledger sel.leg data, s.ledger, s'.ledger⟩])
      (record_eq : recordLeg a g s'.ledger (a.key wallet) lamports iteration sel.budget sel.selection
        sel.leg sel.run' = .ok next) :
      Iterated a g clock before venues wallet lamports iteration run s next s'

/-- The iteration ends the loop only when the oracle has spent the input. -/
theorem iterate_none {run : Run natives g.assetCount} {s s' : Chain}
    (h : iterate a g clock before venues wallet lamports iteration run s = (.ok none, s')) :
    s' = s ∧ run.oracle.isSome = true ∧ remainingInput g before run.current = .ok 0 := by
  rw [iterate, lift_bind_eq_ok] at h
  obtain ⟨remaining, hremaining, h⟩ := h
  split at h
  · next hdone =>
    obtain ⟨-, rfl⟩ := pure_eq_ok.mp h
    exact ⟨rfl, hdone.1, hdone.2 ▸ hremaining⟩
  · rw [get_bind, lift_bind_eq_ok] at h
    obtain ⟨⟨selection, oracle⟩, -, h⟩ := h
    obtain ⟨leg, -, h⟩ := lift_bind_eq_ok.mp h
    obtain ⟨available, -, h⟩ := lift_bind_eq_ok.mp h
    split at h
    · cases (pure_eq_ok.mp h).1
    · obtain ⟨next, s₁, -, h⟩ := Comp.bind_eq_ok.mp h
      cases (pure_eq_ok.mp h).1

theorem iterate_some {run next : Run natives g.assetCount} {s s' : Chain}
    (h : iterate a g clock before venues wallet lamports iteration run s = (.ok (some next), s')) :
    Iterated a g clock before venues wallet lamports iteration run s next s' := by
  rw [iterate, lift_bind_eq_ok] at h
  obtain ⟨remaining, hremaining, h⟩ := h
  split at h
  · cases (pure_eq_ok.mp h).1
  · next hunfinished =>
    rw [get_bind, lift_bind_eq_ok] at h
    obtain ⟨⟨selection, oracle⟩, hselect, h⟩ := h
    obtain ⟨leg, hleg, h⟩ := lift_bind_eq_ok.mp h
    obtain ⟨available, havailable, h⟩ := lift_bind_eq_ok.mp h
    let sel : Selected a g clock before s.ledger iteration run :=
      ⟨remaining, selection, oracle, leg, available, hremaining, hunfinished, hselect,
        okOr_eq_ok.mp hleg, havailable⟩
    split at h
    · next hzero =>
      obtain ⟨hrun, rfl⟩ := pure_eq_ok.mp h
      cases hrun
      exact .skip sel (.inl hzero)
    · next hpos =>
      obtain ⟨run₁, s₁, hexecute, h⟩ := Comp.bind_eq_ok.mp h
      obtain ⟨hrun, rfl⟩ := pure_eq_ok.mp h
      cases hrun
      rw [executeLeg, get_bind, lift_bind_eq_ok] at hexecute
      obtain ⟨data, hdata, hexecute⟩ := hexecute
      cases data with
      | none =>
        obtain ⟨hrun, rfl⟩ := pure_eq_ok.mp hexecute
        cases hrun
        exact .skip sel (.inr hdata)
      | some data =>
        obtain ⟨u, s₂, hinvoke, hexecute⟩ := Comp.bind_eq_ok.mp hexecute
        rw [get_bind] at hexecute
        obtain ⟨hrecord, rfl⟩ := lift_eq_ok.mp hexecute
        obtain ⟨hinvoke, hreturn, hcpis⟩ := invokeLeg_eq_ok hinvoke
        exact .execute sel hpos hdata hinvoke hreturn hcpis hrecord

/-- An iteration with a selection executes it if it has a budget. -/
theorem Selected.iterate_eq {run : Run natives g.assetCount} {s : Chain}
    (sel : Selected a g clock before s.ledger iteration run) :
    iterate a g clock before venues wallet lamports iteration run s =
      (if sel.budget = 0 then pure (some sel.run') else do
        let next ← executeLeg a g clock venues wallet lamports iteration sel.budget sel.selection
          sel.leg sel.run'
        pure (some next) : Step _) s := by
  rw [iterate, Comp.bind_apply_ok (lift_eq_ok.mpr ⟨sel.remaining_eq, rfl⟩), if_neg sel.unfinished,
    get_bind, Comp.bind_apply_ok (lift_eq_ok.mpr ⟨sel.select_eq, rfl⟩)]
  refine (Comp.bind_apply_ok (lift_eq_ok.mpr ⟨okOr_eq_ok.mpr sel.leg_eq, rfl⟩)).trans ?_
  exact Comp.bind_apply_ok (lift_eq_ok.mpr ⟨sel.available_eq, rfl⟩)

/-- What the checks after a CPI establish. -/
structure Recorded (a : Accounts n) (g : Graph n) (ledger : Ledger) (wallet : Key)
    (lamports iteration budget : ℕ) (selection : Selection) (leg : Leg n g.assetCount)
    (run next : Run natives g.assetCount) : Prop where
  lamports_eq : (ledger wallet).lamports = lamports
  current_eq : ∀ i, next.current i = tokenAmount ledger (tokenKey a g i)
  takes : next.current leg.source < run.current leg.source
  spent_le : run.current leg.source - next.current leg.source ≤ budget
  gives : run.current leg.destination < next.current leg.destination
  others : ∀ i, i ≠ leg.source → i ≠ leg.destination → next.current i = run.current i
  used_eq : next.used = Function.update run.used selection.index
    (run.used selection.index + (run.current leg.source - next.current leg.source))
  receipts_eq : next.receipts = overwrite run.receipts
    (32 + iteration * receiptStride run.oracle.isSome)
    (receiptRow g run.oracle.isSome leg budget (run.current leg.source - next.current leg.source)
      (next.current leg.destination - run.current leg.destination) selection)
  executed_eq : next.executed = run.executed + 1
  oracle_eq : next.oracle = run.oracle

theorem recordLeg_eq_ok {ledger : Ledger} {wallet : Key} {budget : ℕ} {selection : Selection}
    {leg : Leg n g.assetCount} {run next : Run natives g.assetCount}
    (h : recordLeg a g ledger wallet lamports iteration budget selection leg run = .ok next) :
    Recorded a g ledger wallet lamports iteration budget selection leg run next := by
  rw [recordLeg, bind_eq_ok] at h
  obtain ⟨_, hlamports, h⟩ := h
  obtain ⟨current, hcurrent, h⟩ := bind_eq_ok.mp h
  obtain ⟨spent, hspent, h⟩ := bind_eq_ok.mp h
  obtain ⟨received, hreceived, h⟩ := bind_eq_ok.mp h
  obtain ⟨_, hmoved, h⟩ := bind_eq_ok.mp h
  obtain ⟨used, hused, h⟩ := bind_eq_ok.mp h
  obtain ⟨_, hothers, h⟩ := bind_eq_ok.mp h
  obtain ⟨hspent_le, rfl⟩ := checkedSub_eq_ok.mp hspent
  obtain ⟨hreceived_le, rfl⟩ := checkedSub_eq_ok.mp hreceived
  obtain ⟨hpos, hle, hgives⟩ := need_eq_ok.mp hmoved
  obtain ⟨-, rfl⟩ := checkedSum_eq_ok.mp hused
  cases h
  exact {
    lamports_eq := need_eq_ok.mp hlamports
    current_eq := fun i => balance_eq_ok (readEach_eq_ok.mp hcurrent i)
    takes := by show current leg.source < _; omega
    spent_le := hle
    gives := by show _ < current leg.destination; omega
    others := need_eq_ok.mp hothers
    used_eq := rfl
    receipts_eq := rfl
    executed_eq := rfl
    oracle_eq := rfl }

end Iteration

section Settle

variable (natives : Natives) {n : ℕ} (a : Accounts n) (clock : Clock) {program : ProgramId}
  (venues : Venues program)

/-- `execute_preflighted_graph_for`. -/
def executePreflightedGraphFor (d : Buffer) (wallet : Fin n) : Step GraphOutcome := do
  let g ← lift (ad (Graph.decode d n))
  executeGraph natives a g clock venues wallet

/-- Write bytes into an account's data. -/
def writeData (key : Key) (offset : ℕ) (bytes : List UInt8) : Step Unit := fun s =>
  match (s.ledger key).data.splice offset bytes with
  | some data => (.ok (), { s with
      ledger := Function.update s.ledger key { s.ledger key with data } })
  | none => (.error .overflow, s)

/-- `set_return_data`. -/
def setReturnData (bytes : List UInt8) : Step Unit := modify fun s => { s with returnData := bytes }

/-- `settle_graph_for`. -/
def settleGraphFor (d : Buffer) (walletIndex nonceIndex : ℕ) : Step Unit := do
  let s ← get
  lift (preflightGraph program s.ledger a clock d walletIndex nonceIndex [] 0)
  let wallet ← lift (accountIndex n walletIndex .overflow)
  let nonce ← lift (accountIndex n nonceIndex .overflow)
  let outcome ← executePreflightedGraphFor natives a clock venues d wallet
  let next ← lift (checkedSum outcome.sequence 1 .bounds)
  writeData (a.key nonce) 40 (Buffer.toBytes 8 next ++ Buffer.toBytes 8 outcome.actualIn ++
    Buffer.toBytes 8 outcome.actualOut)
  setReturnData (outcome.receipt.take outcome.receiptLen)

/-- `settle_graph`: the wallet and its nonce are the first two accounts. -/
def settleGraph (d : Buffer) : Step Unit := settleGraphFor natives a clock venues d 0 1

end Settle

end StockMesh.Settle

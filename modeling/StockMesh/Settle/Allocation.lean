import StockMesh.Settle.Token
import StockMesh.Adapters.Graph
import StockMesh.Adapters.Phoenix
import StockMesh.Adapters.Raydium
import StockMesh.Optimizer.Oracle

/-! # The residual oracle

The oracle quotes the signed candidates of a reflow graph. Concentrated and binned curves are compiled
once; a swap changes their head, which is reread for a concentrated curve and retires any other used
candidate. `next` allocates the whole residual afresh and returns one CPI; the last CPI must take all
of it. Candidates must write disjoint accounts, the wallet and the graph's own tokens apart. -/

namespace StockMesh.Settle

/-- `native(x)`. -/
def native {α : Type} (x : NativeResult α) : Outcome α :=
  match x with
  | .ok v => .ok v
  | .error _ => .error .adapter

/-- A compiled curve (`Curve`). -/
inductive CompiledCurve (natives : Natives)
  | clmm (curve : natives.Clmm)
  | orca (curve : natives.Orca)
  | dlmm (curve : natives.Dlmm)

/-- The oracle's state (`Oracle`), by candidate. -/
structure Oracle (natives : Natives) where
  curves : ℕ → Option (CompiledCurve natives)
  direction : ℕ → Bool
  active : ℕ → Bool := fun _ => true
  fees : ℕ → TransferFee × TransferFee
  observedUsed : ℕ → ℕ := fun _ => 0

section Compile

variable (natives : Natives) {n : ℕ} (ledger : Ledger) (a : Accounts n) (g : Graph n) (clock : Clock)

/-- The mint of an asset. -/
def mintKey (i : Fin g.assetCount) : Key := a.key (g.assets i).mint

/-- The wallet's token account of an asset. -/
def tokenKey (i : Fin g.assetCount) : Key := a.key (g.assets i).token

/-- The accounts of a candidate that may hold tick or bin arrays. -/
def tickAccounts (leg : Leg n g.assetCount) : List (Fin n) :=
  match leg.venue with
  | .raydiumClmm | .byrealClmm => leg.accounts.drop 13
  | .orcaWhirlpool => (leg.accounts.drop 11).take 3
  | .meteoraDlmm => leg.accounts.drop 16
  | _ => []

/-- Tick arrays of a candidate, by their size. -/
def arrayCount (leg : Leg n g.assetCount) : ℕ :=
  (tickAccounts g leg).countP fun i =>
    decide ((ledger (a.key i)).owner = a.key leg.program) &&
      [9988, 10004, 10136, 10240].contains (ledger (a.key i)).data.size

/-- Where a pool account stores its two mints. -/
def mintOffsets : Venue → Option (ℕ × ℕ)
  | .raydiumClmm | .byrealClmm => some (73, 105)
  | .meteoraDammV2 => some (168, 200)
  | .phoenix => some (48, 128)
  | .orcaWhirlpool => some (101, 181)
  | .meteoraDlmm => some (88, 120)
  | _ => none

/-- The direction of a candidate, from the mints of its pool where it stores them. -/
def poolDirection (leg : Leg n g.assetCount) : Outcome Bool :=
  match mintOffsets leg.venue with
  | none => .ok leg.direction
  | some (x, y) => do
    let p := (ledger (a.key leg.pool)).data
    let im := mintKey a g leg.source
    let om := mintKey a g leg.destination
    let ma ← ad (keyAt p x)
    let mb ← ad (keyAt p y)
    need ((im = ma ∧ om = mb) ∨ (im = mb ∧ om = ma)) .identity
    need (leg.venue = .phoenix → leg.direction = decide (im = ma)) .identity
    .ok (decide (im = ma))

/-- The accounts with a key not seen before. -/
def distinctKeys : List (Fin n) → List Key → List Key
  | [], seen => seen
  | i :: rest, seen =>
    distinctKeys rest (if seen.contains (a.key i) then seen else seen ++ [a.key i])

/-- The compiled curve of a candidate, for the venues that have one. -/
def compileCurve (leg : Leg n g.assetCount) (fees : TransferFee × TransferFee) (direction : Bool) :
    Outcome (Option (CompiledCurve natives)) := do
  let pool := a.key leg.pool
  let p := (ledger pool).data
  match leg.venue with
  | .raydiumClmm | .byrealClmm =>
    let config := a.key (leg.account 1)
    let expected ← ad (keyAt p 9)
    need ((ledger config).owner = (ledger pool).owner ∧ expected = config) .identity
    let arrays := ((leg.accounts.drop 13).filter fun i =>
      decide ((ledger (a.key i)).owner = (ledger pool).owner) &&
        decide ((ledger (a.key i)).data.size ≠ 1832)).map fun i => (ledger (a.key i)).data
    let curve ← native (natives.clmmDecode (decide (leg.venue = .byrealClmm)) pool p
      (ledger config).data arrays fees clock.time)
    .ok (some (.clmm curve))
  | .orcaWhirlpool =>
    let arrays := (distinctKeys a ((leg.accounts.drop 11).take 3) []).map fun k => (ledger k).data
    let oracle ← okOr leg.accounts[14]? .overflow
    let curve ← native (natives.orcaDecode pool p arrays (ledger (a.key oracle)).data fees clock.time
      direction)
    .ok (some (.orca curve))
  | .meteoraDlmm =>
    let arrays := (leg.accounts.drop 16).map fun i => (ledger (a.key i)).data
    let curve ← native (natives.dlmmDecode pool p arrays fees clock.slot clock.time)
    .ok (some (.dlmm curve))
  | _ => .ok none

/-- Compile the candidates in order. -/
def compileLegs : List (Leg n g.assetCount) → ℕ → Oracle natives → Outcome (Oracle natives)
  | [], _, oracle => .ok oracle
  | leg :: rest, i, oracle => do
    let feeIn ← native (TransferFee.decode (ledger (mintKey a g leg.source)).data clock.epoch)
    let feeOut ← native (TransferFee.decode (ledger (mintKey a g leg.destination)).data clock.epoch)
    let direction ← poolDirection ledger a g leg
    let curve ← compileCurve natives ledger a g clock leg (feeIn, feeOut) direction
    compileLegs rest (i + 1) { oracle with
      curves := Function.update oracle.curves i curve
      direction := Function.update oracle.direction i direction
      fees := Function.update oracle.fees i (feeIn, feeOut) }

/-- The CPI of a leg may write the account at a position. -/
def legWrites (leg : Leg n g.assetCount) (position : ℕ) (i : Fin n) : Bool :=
  leg.venue.writableWithOwner position (decide ((ledger (a.key i)).owner = a.key leg.program))

/-- An account that no second candidate may write. The wallet is taken to be the first account. -/
def Contested (leg : Leg n g.assetCount) (position : ℕ) (i : Fin n) : Prop :=
  legWrites ledger a g leg position i = true ∧ a.key i ≠ a.key g.payer ∧
    (∀ asset, a.key i ≠ tokenKey a g asset) ∧ (ledger (a.key i)).executable = false

instance (leg : Leg n g.assetCount) (position : ℕ) (i : Fin n) :
    Decidable (Contested ledger a g leg position i) := inferInstanceAs (Decidable (_ ∧ _))

/-- Two candidates write no common contested account. -/
def SeparateLegs (x y : Leg n g.assetCount) : Prop :=
  ∀ p ∈ x.accounts.zipIdx, Contested ledger a g x p.2 p.1 →
    ∀ q ∈ y.accounts.zipIdx, legWrites ledger a g y q.2 q.1 = true →
      (ledger (a.key q.1)).executable = false → a.key p.1 ≠ a.key q.1

instance (x y : Leg n g.assetCount) : Decidable (SeparateLegs ledger a g x y) :=
  inferInstanceAs (Decidable (∀ _ ∈ _, _))

/-- Every candidate is separate from those before it. -/
def Separate : List (Leg n g.assetCount) → List (Leg n g.assetCount) → Prop
  | _, [] => True
  | earlier, leg :: rest =>
    (∀ y ∈ earlier, SeparateLegs ledger a g leg y) ∧ Separate (earlier ++ [leg]) rest

instance decidableSeparate : (earlier legs : List (Leg n g.assetCount)) →
    Decidable (Separate ledger a g earlier legs)
  | _, [] => isTrue trivial
  | earlier, leg :: rest =>
    have := decidableSeparate (earlier ++ [leg]) rest
    inferInstanceAs (Decidable (_ ∧ _))

/-- `Oracle::new`. -/
def Oracle.new : Outcome (Oracle natives) := do
  need (∀ leg ∈ g.legs, leg.venue ≠ .riptide) .adapter
  -- the heap bounds the tick arrays that may be compiled
  need ((g.legs.map (arrayCount ledger a g)).sum ≤ 6) .bounds
  let oracle ← compileLegs natives ledger a g clock g.legs 0
    { curves := fun _ => none, direction := fun _ => false, fees := fun _ => ({}, {}) }
  need (Separate ledger a g [] g.legs) .identity
  .ok oracle

end Compile

section Quote

variable {natives : Natives} {n : ℕ} (ledger : Ledger) (a : Accounts n) (g : Graph n)
  (clock : Clock) (oracle : Oracle natives)

/-- A concentrated curve after a swap of its pool, and whether it can still be used. -/
def refreshCurve (i : ℕ) : Option (CompiledCurve natives) → Option (CompiledCurve natives) × Bool
  | some (.clmm curve) =>
    match g.legs[i]? with
    | some leg =>
      let (curve, usable) := natives.clmmRefresh curve (ledger (a.key (leg.account 2))).data
        (ledger (a.key (leg.account 1))).data clock.time
      (some (.clmm curve), usable)
    | none => (some (.clmm curve), false)
  | curve => (curve, false)

/-- `Oracle::refresh`. -/
def Oracle.refresh (used : ℕ → ℕ) : Oracle natives where
  curves i := if used i = oracle.observedUsed i then oracle.curves i
    else (refreshCurve ledger a g clock i (oracle.curves i)).1
  direction := oracle.direction
  active i := if used i = oracle.observedUsed i then oracle.active i
    else (refreshCurve ledger a g clock i (oracle.curves i)).2
  fees := oracle.fees
  observedUsed := used

/-- The amount of the first listed account with the given key. -/
def vaultAmount (vault : Key) : Outcome ℕ := do
  need (∃ i, a.key i = vault) .identity
  ad (u64At (ledger vault).data 64)

/-- The quote of a Raydium CPMM pool, net of the transfer fees. -/
def quoteCpmm (leg : Leg n g.assetCount) (fees : TransferFee × TransferFee) (q : ℕ) :
    Outcome ℕ := do
  let pool ← ad (RaydiumPool.decode (ledger (a.key leg.pool)).data clock.time)
  let config := a.key (leg.account 2)
  need (pool.config = config ∧ (ledger config).owner = a.key leg.program) .identity
  let balance₀ ← vaultAmount ledger a (pool.vaults 0)
  let balance₁ ← vaultAmount ledger a (pool.vaults 1)
  let im := mintKey a g leg.source
  let om := mintKey a g leg.destination
  let zero := decide (im = pool.mints 0)
  need ((zero = true ∨ im = pool.mints 1) ∧ om = pool.mints (if zero then 1 else 0)) .identity
  let net ← native (fees.1.net q)
  let out ← ad (pool.quote (ledger config).data (both balance₀ balance₁) zero net)
  native (fees.2.net out)

/-- The reserve behind one vault of a Raydium AMM v4 pool. -/
def reserveV4 (leg : Leg n g.assetCount) (j : Fin 2) : Outcome ℕ := do
  let p := (ledger (a.key leg.pool)).data
  let vault := a.key (leg.account ⟨3 + j, by omega⟩)
  let expected ← ad (keyAt p (336 + j * 32))
  need (expected = vault) .identity
  let held ← ad (u64At (ledger vault).data 64)
  let owed ← ad (u64At p (192 + j * 8))
  checkedSub held owed .adapter

/-- The quote of a Raydium AMM v4 pool. -/
def quoteV4 (leg : Leg n g.assetCount) (fees : TransferFee × TransferFee) (q : ℕ) : Outcome ℕ := do
  let p := (ledger (a.key leg.pool)).data
  let status ← ad (u64At p 0)
  need (p.size = 752 ∧ (status = 1 ∨ status = 6) ∧ fees = ({}, {})) .adapter
  let reserve₀ ← reserveV4 ledger a g leg 0
  let reserve₁ ← reserveV4 ledger a g leg 1
  let vaultMint ← ad (keyAt (ledger (a.key (leg.account 3))).data 0)
  let zero := decide (vaultMint = mintKey a g leg.source)
  let feeNumerator ← ad (u64At p 176)
  let feeDenominator ← ad (u64At p 184)
  need (feeNumerator < feeDenominator) .adapter
  let fee := (q * feeNumerator + feeDenominator - 1) / feeDenominator % u64Size
  let net ← checkedSub q fee .adapter
  let (reserveIn, reserveOut) := if zero then (reserve₀, reserve₁) else (reserve₁, reserve₀)
  need (reserveIn + net ≠ 0) .overflow
  let out := net * reserveOut / (reserveIn + net) % u64Size
  need (0 < out) .adapter
  .ok out

/-- The quote of a Phoenix book. The trader is taken to be the first account. -/
def quotePhoenix (leg : Leg n g.assetCount) (fees : TransferFee × TransferFee) (q : ℕ)
    (exact : Bool) : Outcome ℕ := do
  need (fees = ({}, {})) .adapter
  let book ← ad (PhoenixBook.decode (ledger (a.key leg.pool)).data)
  let f ← ad (book.quote (a.key g.payer) leg.direction q maxMatches clock.slot clock.time)
  need (0 < f.output ∧ 0 < f.input ∧ (exact = true → f.input = q)) .adapter
  .ok f.output

/-- `Oracle::quote`. -/
def Oracle.quote (i q : ℕ) (exact : Bool) : Outcome ℕ := do
  need (oracle.active i = true) .adapter
  let leg ← okOr g.legs[i]? .bounds
  match oracle.curves i with
  | some (.clmm curve) => native (natives.clmmQuote curve q (oracle.direction i))
  | some (.orca curve) => native (natives.orcaQuote curve q)
  | some (.dlmm curve) => native (natives.dlmmQuote curve q (oracle.direction i))
  | none =>
    match leg.venue with
    | .meteoraDammV2 => native (natives.dammQuote (ledger (a.key leg.pool)).data (oracle.fees i)
        clock.slot clock.time q (oracle.direction i))
    | .phoenix => quotePhoenix ledger a g clock leg (oracle.fees i) q exact
    | .raydiumCpmm => quoteCpmm ledger a g clock leg (oracle.fees i) q
    | .raydiumAmmV4 => quoteV4 ledger a g leg (oracle.fees i) q
    | _ => .error .adapter

/-- The quotes of one round: within the budget left and translated by `normalize`. The source keeps
the last sixteen answers, which saves work and changes none. -/
def Oracle.roundQuote (used : ℕ → ℕ) (last : Bool) (normalize : ℕ → ℕ → Outcome ℕ) (i q : ℕ) :
    Outcome ℕ := do
  let leg ← okOr g.legs[i]? .bounds
  need (q ≤ leg.budget - used i) .bounds
  let output ← oracle.quote ledger a g clock i q last
  normalize i output

/-- The first candidate with the greatest quote. -/
def bestQuote (quote : ℕ → Outcome ℕ) : List ℕ → Option (ℕ × ℕ) → Option (ℕ × ℕ)
  | [], best => best
  | i :: rest, best =>
    match quote i with
    | .ok out =>
      match best with
      | some (j, old) => bestQuote quote rest (if old < out then some (i, out) else some (j, old))
      | none => bestQuote quote rest (some (i, out))
    | .error _ => bestQuote quote rest best

/-- The first index with the greatest input. -/
def largestInput (inputs : ℕ → ℕ) (count : ℕ) : ℕ :=
  (List.range count).foldl (fun best i => if inputs best < inputs i then i else best) 0

/-- A choice of the oracle: candidate, amount and quotes made. -/
structure Selection where
  index : ℕ
  amount : ℕ
  calls : ℕ

/-- `Oracle::next_normalized`. -/
def Oracle.nextNormalized (remaining : ℕ) (used : ℕ → ℕ) (executed maximum : ℕ)
    (normalize : ℕ → ℕ → Outcome ℕ) : Outcome (Selection × Oracle natives) := do
  need ((1 ≤ maximum ∧ maximum ≤ 4) ∧ executed < maximum) .bounds
  let oracle := oracle.refresh ledger a g clock used
  let last := decide (executed + 1 = maximum)
  let quote := oracle.roundQuote ledger a g clock used last normalize
  if last then
    match bestQuote (fun i => quote i remaining) (List.range g.legs.length) none with
    | some (i, _) => .ok (⟨i, remaining, g.legs.length⟩, oracle)
    | none => .error .adapter
  else
    match ExactOracle.refine g.legs.length remaining g.reflowCalls
        (fun i q => match quote i q with
          | .ok out => .ok out
          | .error _ => .error .capacity) with
    | .error _ => .error .adapter
    | .ok plan =>
      let i := largestInput plan.inputs g.legs.length
      need (0 < plan.inputs i) .adapter
      .ok (⟨i, plan.inputs i, plan.oracleCalls⟩, oracle)

/-- `Oracle::next`. -/
def Oracle.next (remaining : ℕ) (used : ℕ → ℕ) (executed : ℕ) :
    Outcome (Selection × Oracle natives) :=
  oracle.nextNormalized ledger a g clock remaining used executed 4 fun _ output => .ok output

end Quote

section Spec

variable {natives : Natives} {n : ℕ} {ledger : Ledger} {a : Accounts n} {g : Graph n} {clock : Clock}
  {oracle : Oracle natives}

/-- A quote of a round is within the budget left. -/
theorem Oracle.roundQuote_eq_ok {used : ℕ → ℕ} {last : Bool} {normalize : ℕ → ℕ → Outcome ℕ}
    {i q v : ℕ} (h : oracle.roundQuote ledger a g clock used last normalize i q = .ok v) :
    ∃ leg, g.legs[i]? = some leg ∧ q ≤ leg.budget - used i := by
  rw [Oracle.roundQuote, bind_eq_ok] at h
  obtain ⟨leg, hleg, h⟩ := h
  obtain ⟨_, hcap, -⟩ := bind_eq_ok.mp h
  exact ⟨leg, okOr_eq_ok.mp hleg, need_eq_ok.mp hcap⟩

/-- The best quote was made. -/
theorem bestQuote_ok {quote : ℕ → Outcome ℕ} {candidates : List ℕ} {best : Option (ℕ × ℕ)} {i v : ℕ}
    (hbest : ∀ j w, best = some (j, w) → quote j = .ok w)
    (h : bestQuote quote candidates best = some (i, v)) : quote i = .ok v := by
  induction candidates generalizing best with
  | nil => exact hbest i v h
  | cons j candidates ih =>
    rw [bestQuote] at h
    split at h
    · next out hquote =>
      split at h
      · refine ih ?_ h
        intro k w hkw
        split at hkw
        · cases hkw
          exact hquote
        · cases hkw
          exact hbest _ _ rfl
      · refine ih ?_ h
        intro k w hkw
        cases hkw
        exact hquote
    · exact ih hbest h

/-- A selection stays within the budget left to its candidate. -/
theorem Oracle.nextNormalized_within {remaining executed maximum : ℕ} {used : ℕ → ℕ}
    {normalize : ℕ → ℕ → Outcome ℕ} {selection : Selection} {oracle' : Oracle natives}
    (h : oracle.nextNormalized ledger a g clock remaining used executed maximum normalize
      = .ok (selection, oracle')) :
    ∃ leg, g.legs[selection.index]? = some leg ∧
      selection.amount ≤ leg.budget - used selection.index := by
  rw [Oracle.nextNormalized, bind_eq_ok] at h
  obtain ⟨_, -, h⟩ := h
  dsimp only at h
  split at h
  · -- the last CPI takes the whole residual
    split at h
    · next hbest =>
      cases h
      have hquote := bestQuote_ok (fun _ _ hnone => by cases hnone) hbest
      exact roundQuote_eq_ok hquote
    · cases h
  · split at h
    · cases h
    · next plan hplan =>
      obtain ⟨_, hpos, h⟩ := bind_eq_ok.mp h
      cases h
      obtain ⟨out, hout⟩ := (ExactOracle.refine_served hplan).1 _ (need_eq_ok.mp hpos).ne'
      split at hout
      · next hquote => exact roundQuote_eq_ok hquote
      · cases hout

end Spec

end StockMesh.Settle

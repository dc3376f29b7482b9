import StockMesh.Adapters.Layout
import StockMesh.Foundation.Matching
import Mathlib.Data.Prod.Lex
import Mathlib.Data.List.Sort

/-! # The order book

Orders trade underlying exposure: a seller delivers one claim and a buyer accepts a set of claims.
`matchContinuous` fills the best pair that crosses, again and again, until none is left. -/

namespace StockMesh.Onebook

open Stateful

/-- `MAX_BOOK_ORDERS`. -/
abbrev maxBookOrders : ℕ := 16

/-- `MAX_CLAIMS`. -/
abbrev maxClaims : ℕ := 8

/-- `MAX_MATCHES`. -/
abbrev maxMatches : ℕ := 32

inductive Side
  | buy
  | sell
  deriving DecidableEq

/-- A signed order. A seller delivers one exact claim, a buyer lists the claims that it accepts. -/
structure SettlementOptionalOrder where
  owner : Key
  nonce : ℕ
  instrument : Key
  side : Side
  exposureQ32 : ℕ
  limitPriceQ32 : UInt64
  acceptableClaims : Vector Key maxClaims
  claimCount : ℕ
  deliveredClaim : Key
  maxConversionBps : ℕ
  expiresAtSlot : ℕ
  arrivalSequence : ℕ
  deriving DecidableEq

/-- A fill between two orders, by their places. -/
structure CrossClaimFill where
  buyer : ℕ
  seller : ℕ
  claim : Key
  exposureQ32 : ℕ
  priceQ32 : ℕ
  deriving DecidableEq

/-- The fills in order, and for each order what is filled and what is left. -/
structure MatchReport where
  fills : List CrossClaimFill
  filledExposureQ32 : ℕ → ℕ
  residualExposureQ32 : ℕ → ℕ

/-- The key of no claim, owner or instrument. -/
def noKey : Key := Key.ofNat 0

/-! ## Orders -/

/-- The listed claims. -/
def SettlementOptionalOrder.claims (o : SettlementOptionalOrder) : List Key :=
  o.acceptableClaims.toList.take o.claimCount

/-- The identity of an order. -/
def SettlementOptionalOrder.id (o : SettlementOptionalOrder) : Key × ℕ := (o.owner, o.nonce)

/-- `validate_order`. -/
def validateOrder (o : SettlementOptionalOrder) (slot : ℕ) : Result Unit := do
  rejectIf (o.owner = noKey ∨ o.instrument = noKey ∨ o.exposureQ32 = 0 ∨ maxAtoms < o.exposureQ32 ∨
    o.limitPriceQ32 = 0 ∨ o.claimCount = 0 ∨ maxClaims < o.claimCount ∨ 10000 < o.maxConversionBps ∨
    o.expiresAtSlot < slot) .invalidAmount
  rejectIf ((∃ claim ∈ o.claims, claim = noKey) ∨ ¬o.claims.Nodup) .duplicate
  match o.side with
  | .buy => rejectIf (o.deliveredClaim ≠ noKey) .identity
  | .sell => rejectIf (o.deliveredClaim = noKey ∨ o.deliveredClaim ∉ o.claims) .identity

/-- One order of the first loop of `match_continuous`, after the orders before it. -/
def checkOrder (first : Option SettlementOptionalOrder) (slot : ℕ) (prior : List SettlementOptionalOrder)
    (o : SettlementOptionalOrder) : Result (List SettlementOptionalOrder) := do
  validateOrder o slot
  rejectIf (∃ p ∈ prior, p.owner = o.owner ∧ p.nonce = o.nonce) .duplicate
  rejectIf (∃ f ∈ first, f.instrument ≠ o.instrument) .identity
  .ok (prior ++ [o])

/-- The checks of `match_continuous`. -/
def checkOrders (orders : List SettlementOptionalOrder) (slot : ℕ) : Result Unit := do
  rejectIf (orders.length < 2 ∨ maxBookOrders < orders.length) .bounds
  let _ ← orders.foldlM (checkOrder orders.head? slot) []
  .ok ()

/-- `crosses`. -/
def crosses (buyer seller : SettlementOptionalOrder) : Result Bool := do
  let adjustedAsk ← fits u128Size .arithmetic
    (seller.limitPriceQ32.toNat * (10000 + buyer.maxConversionBps))
  if seller.deliveredClaim ∈ buyer.claims then do
    let bid ← fits u128Size .arithmetic (buyer.limitPriceQ32.toNat * 10000)
    .ok (decide (adjustedAsk ≤ bid))
  else .ok false

/-! ## Matching -/

/-- An order with its place. -/
abbrev Placed := SettlementOptionalOrder × ℕ

/-- The priority of a pair: the bid price, the arrival of the buyer, the ask price, the arrival of the
seller and the places. -/
abbrev Rank := ℕᵒᵈ ×ₗ ℕ ×ₗ ℕ ×ₗ ℕ ×ₗ ℕ ×ₗ ℕ

/-- The rank of a pair. The least one is the best. -/
def rank (p : Placed × Placed) : Rank :=
  toLex (OrderDual.toDual p.1.1.limitPriceQ32.toNat, toLex (p.1.1.arrivalSequence,
    toLex (p.2.1.limitPriceQ32.toNat, toLex (p.2.1.arrivalSequence, toLex (p.1.2, p.2.2)))))

/-- The best pair after one more candidate. -/
def better (best : Option (Placed × Placed)) (candidate : Placed × Placed) : Placed × Placed :=
  match best with
  | none => candidate
  | some best => if rank candidate < rank best then candidate else best

/-- One seller of the search. -/
def consider (report : MatchReport) (buyer : Placed) (best : Option (Placed × Placed)) (seller : Placed) :
    Metered (Option (Placed × Placed)) := do
  charge 1
  if seller.1.side ≠ .sell ∨ report.residualExposureQ32 seller.2 = 0 then pure best
  else do
    let crossing ← lift (crosses buyer.1 seller.1)
    pure (if crossing then some (better best (buyer, seller)) else best)

/-- One buyer of the search. -/
def scanBuyer (orders : List SettlementOptionalOrder) (report : MatchReport)
    (best : Option (Placed × Placed)) (buyer : Placed) : Metered (Option (Placed × Placed)) :=
  if buyer.1.side ≠ .buy ∨ report.residualExposureQ32 buyer.2 = 0 then pure best
  else orders.zipIdx.foldlM (consider report buyer) best

/-- The best pair that crosses. -/
def pick (orders : List SettlementOptionalOrder) (report : MatchReport) :
    Metered (Option (Placed × Placed)) :=
  orders.zipIdx.foldlM (scanBuyer orders report) none

/-- Fill a pair with the smaller residual. -/
def MatchReport.fill (report : MatchReport) (buyer seller : Placed) : Result MatchReport := do
  let exposure := min (report.residualExposureQ32 buyer.2) (report.residualExposureQ32 seller.2)
  rejectIf (maxMatches ≤ report.fills.length) .bounds
  let filledBuyer ← checkedAdd (report.filledExposureQ32 buyer.2) exposure
  let filled := Function.update report.filledExposureQ32 buyer.2 filledBuyer
  let filledSeller ← checkedAdd (filled seller.2) exposure
  let residual := Function.update report.residualExposureQ32 buyer.2
    (report.residualExposureQ32 buyer.2 - exposure)
  .ok {
    fills := report.fills ++
      [⟨buyer.2, seller.2, seller.1.deliveredClaim, exposure, seller.1.limitPriceQ32.toNat⟩]
    filledExposureQ32 := Function.update filled seller.2 filledSeller
    residualExposureQ32 := Function.update residual seller.2 (residual seller.2 - exposure) }

/-- The loop of `match_continuous`, with the number of fills that the report has room for. -/
def matchLoop (orders : List SettlementOptionalOrder) : ℕ → MatchReport → Metered MatchReport
  | 0, report => do
    let best ← pick orders report
    match best with
    | none => pure report
    | some (buyer, seller) => lift (report.fill buyer seller)
  | room + 1, report => do
    let best ← pick orders report
    match best with
    | none => pure report
    | some (buyer, seller) => do
      let next ← lift (report.fill buyer seller)
      matchLoop orders room next

/-- The report before the first fill. -/
def openReport (orders : List SettlementOptionalOrder) : MatchReport where
  fills := []
  filledExposureQ32 _ := 0
  residualExposureQ32 i := (orders[i]?.map SettlementOptionalOrder.exposureQ32).getD 0

/-- `match_continuous`. -/
def matchContinuous (orders : List SettlementOptionalOrder) (slot : ℕ) : Metered MatchReport := do
  lift (checkOrders orders slot)
  matchLoop orders maxMatches (openReport orders)

/-! ## The reference matcher -/

/-- A buyer and a seller whose claims and limits fit. -/
def Compatible (buyer seller : SettlementOptionalOrder) : Prop :=
  buyer.side = .buy ∧ seller.side = .sell ∧ seller.deliveredClaim ∈ buyer.claims ∧
    seller.limitPriceQ32.toNat * (10000 + buyer.maxConversionBps) ≤ buyer.limitPriceQ32.toNat * 10000

instance : DecidableRel Compatible := fun _ _ => inferInstanceAs (Decidable (_ ∧ _))

/-- The priority of a buyer: price, then arrival. -/
def bidKey (o : SettlementOptionalOrder) : ℕᵒᵈ ×ₗ ℕ :=
  toLex (OrderDual.toDual o.limitPriceQ32.toNat, o.arrivalSequence)

/-- The priority of a seller: price, then arrival. -/
def askKey (o : SettlementOptionalOrder) : ℕ ×ₗ ℕ := toLex (o.limitPriceQ32.toNat, o.arrivalSequence)

/-- The buyers in the order of their priority. -/
def bids (orders : List SettlementOptionalOrder) : List SettlementOptionalOrder :=
  (orders.filter fun o => o.side = .buy).insertionSort fun a b => bidKey a ≤ bidKey b

/-- The sellers in the order of their priority. -/
def asks (orders : List SettlementOptionalOrder) : List SettlementOptionalOrder :=
  (orders.filter fun o => o.side = .sell).insertionSort fun a b => askKey a ≤ askKey b

/-- The reference: the buyers come by priority, and each walks over the compatible sellers by priority. -/
def reference (orders : List SettlementOptionalOrder) : List (Matching.Trade SettlementOptionalOrder) :=
  (Matching.sequential Compatible (asks orders) (bids orders) SettlementOptionalOrder.exposureQ32).1

end StockMesh.Onebook

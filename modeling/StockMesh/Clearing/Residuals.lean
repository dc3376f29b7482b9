import StockMesh.Clearing.Fold

/-! # Residual groups and their settlement

What a fold leaves of the orders is routed outside in groups by asset pair. `distribute` splits what
a group received among its members and `verifySettlement` checks the whole cell. A member set is the
bit mask of the source; net deltas are `i128` and checked as such. -/

namespace StockMesh

/-- The residual orders of one asset pair. -/
structure ResidualGroup where
  sell : ℕ := 0
  buy : ℕ := 0
  amountIn : ℕ := 0
  minOut : ℕ := 0
  members : ℕ := 0
  deriving DecidableEq

instance : Inhabited ResidualGroup := ⟨{}⟩

/-- Enter an order into its group. -/
def ResidualGroup.enter (group : ResidualGroup) (o : FlowIntent) (i amount output : ℕ) :
    Result ResidualGroup := do
  let amountIn ← checkedAdd group.amountIn amount
  rejectIf (maxAtoms < amountIn) .invalidAmount
  let minOut ← checkedAdd group.minOut (o.minOut - output)
  .ok { group with amountIn, minOut, members := group.members ||| (1 <<< i) }

/-- One order of `build_residuals`. -/
def residualStep (orders : List FlowIntent) (fills : ℕ → FoldFill) (groups : List ResidualGroup)
    (i : ℕ) : Result (List ResidualGroup) := do
  let o := intentAt orders i
  rejectIf (o.amount < (fills i).input) .balanceInvariant
  let amount := o.amount - (fills i).input
  if amount = 0 then do
    rejectIf ((fills i).output < o.minOut) .minOut
    .ok groups
  else
    match groups.findIdx? fun g => decide (g.sell = o.sell ∧ g.buy = o.buy) with
    | some j => do
      let group ← (groups.getD j default).enter o i amount (fills i).output
      .ok (groups.set j group)
    | none => do
      rejectIf (groups.length = maxEdges) .bounds
      let fresh : ResidualGroup := { sell := o.sell, buy := o.buy }
      let group ← fresh.enter o i amount (fills i).output
      .ok (groups ++ [group])

/-- `build_residuals`. -/
def buildResiduals (orders : List FlowIntent) (fills : ℕ → FoldFill) :
    Result (List ResidualGroup) :=
  (List.range orders.length).foldlM (residualStep orders fills) []

/-- `residuals`. -/
def residuals (orders : List FlowIntent) (report : FoldReport) : Result (List ResidualGroup) := do
  rejectIf (maxIntents < orders.length) .bounds
  validateFold orders report
  buildResiduals orders report.fills

/-- `residuals_lots`. -/
def residualsLots (orders : List FlowIntent) (report : LotFoldReport) :
    Result (List ResidualGroup) := do
  rejectIf (maxIntents < orders.length) .bounds
  validateLotFold orders report
  buildResiduals orders report.fills

/-! ## Distribution -/

/-- `(a.owner, a.nonce) < (b.owner, b.nonce)`. -/
def Earlier (a b : FlowIntent) : Prop :=
  a.owner.toList < b.owner.toList ∨ a.owner = b.owner ∧ a.nonce < b.nonce

instance (a b : FlowIntent) : Decidable (Earlier a b) := inferInstanceAs (Decidable (_ ∨ _))

/-- The state of the distribution loop. -/
structure Shares where
  out : ℕ → ℕ := fun _ => 0
  allocated : ℕ := 0
  first : Option ℕ := none

/-- The earlier of the first member so far and order `i`. -/
def firstMember (orders : List FlowIntent) (first : Option ℕ) (i : ℕ) : ℕ :=
  match first with
  | none => i
  | some j => if Earlier (intentAt orders i) (intentAt orders j) then i else j

/-- One order of the distribution loop. -/
def shareStep (orders : List FlowIntent) (fills : ℕ → FoldFill) (group : ResidualGroup)
    (surplus : ℕ) (s : Shares) (i : ℕ) : Result Shares :=
  if group.members.testBit i = false then .ok s
  else do
    let o := intentAt orders i
    let residual ← subUint o.amount (fills i).input
    let quotient ← divU128 (surplus * residual) group.amountIn
    let bonus ← asU64 quotient
    let share ← checkedAdd (o.minOut - (fills i).output) bonus
    let allocated ← checkedAdd s.allocated share
    .ok
      { out := Function.update s.out i share
        allocated
        first := some (firstMember orders s.first i) }

/-- `distribute`. -/
def distribute (orders : List FlowIntent) (folded : FoldReport) (group : ResidualGroup)
    (observedOutput : ℕ) : Result (ℕ → ℕ) := do
  let expected ← residuals orders folded
  rejectIf (group ∉ expected) .identity
  rejectIf (observedOutput < group.minOut) .minOut
  let surplus := observedOutput - group.minOut
  let s ← (List.range orders.length).foldlM (shareStep orders folded.fills group surplus) {}
  rejectIf (observedOutput < s.allocated) .balanceInvariant
  let dust := observedOutput - s.allocated
  let first ← orError .bounds s.first
  let share ← addU64 (s.out first) dust
  .ok (Function.update s.out first share)

/-! ## Verification -/

/-- `i128::checked_add(..).ok_or(Error::Arithmetic)` and its subtraction. -/
def fitsI128 (n : ℤ) : Result ℤ :=
  if -170141183460469231731687303715884105728 ≤ n ∧ n < 170141183460469231731687303715884105728 then
    .ok n
  else .error .arithmetic

/-- One order of `verify_settlement`. -/
def verifyStep (orders : List FlowIntent) (debits credits : List ℕ) (net : ℕ → ℤ) (i : ℕ) :
    Result (ℕ → ℤ) := do
  let o := intentAt orders i
  rejectIf (maxAssets ≤ o.sell ∨ maxAssets ≤ o.buy ∨ o.sell = o.buy ∨ debits.getD i 0 ≠ o.amount)
    .balanceInvariant
  rejectIf (credits.getD i 0 < o.minOut) .minOut
  let sold ← fitsI128 (net o.sell + debits.getD i 0)
  let net := Function.update net o.sell sold
  let bought ← fitsI128 (net o.buy - credits.getD i 0)
  .ok (Function.update net o.buy bought)

/-- `verify_settlement`. -/
def verifySettlement (orders : List FlowIntent) (debits credits : List ℕ) (externalDelta : ℕ → ℤ) :
    Result Unit := do
  rejectIf (maxIntents < orders.length ∨ orders.length ≠ debits.length ∨
    orders.length ≠ credits.length) .bounds
  let net ← (List.range orders.length).foldlM (verifyStep orders debits credits) externalDelta
  rejectIf (¬∀ a < maxAssets, net a = 0) .balanceInvariant

end StockMesh

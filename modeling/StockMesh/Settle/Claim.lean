import StockMesh.Settle.Stock
import StockMesh.Settle.Converter

/-! # Product claims

A claim account binds an instrument and a product mint to the issuer policy and to one versioned
conversion. Terms supplied with an order or a cell have to be those of the claim. -/

namespace StockMesh.Settle

/-- `TAG` of a claim: the bytes of SKEWCLM1. -/
def claimTag : List UInt8 := [83, 75, 69, 87, 67, 76, 77, 49]

/-- Length of a claim account (`LEN`). -/
def claimLen : ℕ := 288

/-- The seed prefix of a claim: the bytes of claim. -/
def claimSeed : List UInt8 := [99, 108, 97, 105, 109]

/-- What a validated claim has to bind. -/
structure ClaimTerms (n : ℕ) where
  claim : Fin n
  policy : Fin n
  cashMint : Fin n
  productMint : Fin n
  tokenProgram : Fin n
  policyVersion : ℕ
  conversion : ConversionTerms

/-- `validate`. Accounts are given by the list, so their indices are in range. -/
def validateClaim (rt : Runtime) (program : ProgramId) {n : ℕ} (ledger : Ledger) (a : Accounts n)
    (clock : Clock) (t : ClaimTerms n) (maxAge : ℕ) (allowClosed : Bool) (deadline : ℕ) :
    Outcome Unit := do
  let account := ledger (a.key t.claim)
  let state := account.data
  need (account.owner = program ∧ a.isWritable (a.key t.claim) = false ∧ account.executable = false ∧
    state.size = claimLen ∧ state.slice 0 8 = some claimTag ∧ state.byte 283 = 1 ∧
    state.slice 168 32 = some (a.key t.policy).toList ∧
    state.slice 104 32 = some (a.key t.cashMint).toList ∧
    state.slice 136 32 = some (a.key t.productMint).toList ∧
    state.slice 200 32 = some (a.key t.tokenProgram).toList) .identity
  let policyVersion ← ad (u64At state 232)
  let numerator ← ad (u64At state 248)
  let denominator ← ad (u64At state 256)
  let conservativeBps ← okOr (state.number 280 2) .overflow
  need (policyVersion = t.policyVersion ∧ numerator = t.conversion.numerator ∧
    denominator = t.conversion.denominator ∧ conservativeBps = t.conversion.conservativeBps ∧
    state.byte 282 = t.conversion.model) .identity
  let authority ← ad (keyAt state 8)
  let instrument ← ad (keyAt state 40)
  need (a.key t.claim = rt.address [claimSeed, authority.toList, instrument.toList,
    (a.key t.productMint).toList]) .identity
  let expires ← ad (u64At state 272)
  need (clock.slot ≤ expires ∧ deadline ≤ expires) .expired
  validatePolicyForPair rt program ledger a clock t.policy t.policyVersion maxAge allowClosed
    t.cashMint t.productMint deadline

end StockMesh.Settle

import StockMesh.Adapters.Layout

/-! # Raydium CPMM pools

The account layout of a constant-product pool and its exact-input quote: the trade fee and, when the
pool has one, the creator fee on the side the pool names. -/

namespace StockMesh

/-- A decoded pool (`RaydiumPool`). -/
structure RaydiumPool where
  config : Key
  vaults : ℕ → Key
  mints : ℕ → Key
  tokenPrograms : ℕ → Key
  observation : Key
  excluded : ℕ → ℕ
  creatorMode : ℕ
  creatorEnabled : Bool

/-- The two entries of a table. -/
def both {α : Type} (x y : α) : ℕ → α := fun i => if i = 0 then x else y

/-- The fees a pool owes, which its vault still holds. -/
def RaydiumPool.owed (data : Buffer) (i : ℕ) : AdapterResult ℕ := do
  let protocolFees ← u64At data (341 + 8 * i)
  let fundFees ← u64At data (357 + 8 * i)
  let sum ← addChecked protocolFees fundFees
  let creatorFees ← u64At data (397 + 8 * i)
  addChecked sum creatorFees

/-- `RaydiumPool::decode`. -/
def RaydiumPool.decode (data : Buffer) (timestamp : ℕ) : AdapterResult RaydiumPool := do
  accept (data.size = 637 ∧ data.slice 0 8 = some [247, 237, 227, 245, 215, 195, 222, 70]) .layout
  let opens ← u64At data 373
  accept ((data.byte 329).toNat &&& 4 = 0 ∧ opens ≤ timestamp) .status
  accept ((data.byte 389).toNat ≤ 2 ∧ (data.byte 390).toNat ≤ 1) .layout
  let owed₀ ← owed data 0
  let owed₁ ← owed data 1
  let config ← keyAt data 8
  let vault₀ ← keyAt data 72
  let vault₁ ← keyAt data 104
  let mint₀ ← keyAt data 168
  let mint₁ ← keyAt data 200
  let program₀ ← keyAt data 232
  let program₁ ← keyAt data 264
  let observation ← keyAt data 296
  .ok { config, observation
        vaults := both vault₀ vault₁
        mints := both mint₀ mint₁
        tokenPrograms := both program₀ program₁
        excluded := both owed₀ owed₁
        creatorMode := (data.byte 389).toNat
        creatorEnabled := (data.byte 390).toNat = 1 }

/-- `ceil_fee`. -/
def ceilFee (amount rate : ℕ) : AdapterResult ℕ := do
  let fee ← divCeil (amount * rate) 1000000
  narrow fee

/-- `RaydiumPool::quote`. -/
def RaydiumPool.quote (pool : RaydiumPool) (config : Buffer) (balances : ℕ → ℕ) (zeroForOne : Bool)
    (amount : ℕ) : AdapterResult ℕ := do
  accept (config.size = 236 ∧ config.slice 0 8 = some [218, 244, 33, 104, 203, 203, 43, 111]) .layout
  accept (amount ≠ 0 ∧ amount ≤ maxInput) .amount
  let trade ← u64At config 12
  let creator ← if pool.creatorEnabled then u64At config 108 else .ok 0
  let total ← addChecked trade creator
  accept (total < 1000000) .unsupported
  let i := if zeroForOne then 0 else 1
  let o := 1 - i
  let rin ← subChecked (balances i) (pool.excluded i)
  let rout ← subChecked (balances o) (pool.excluded o)
  accept (rin ≠ 0 ∧ rout ≠ 0) .amount
  let onInput := pool.creatorMode = 0 ∨ pool.creatorMode = i + 1
  let fee ← ceilFee amount (trade + if onInput then creator else 0)
  accept (fee ≤ amount) .amount
  let net := amount - fee
  let gross ← narrow (net * rout / (rin + net))
  let retained ← if onInput then .ok 0 else ceilFee gross creator
  let output ← subChecked gross retained
  accept (output ≠ 0) .amount
  .ok output

end StockMesh

import StockMesh.Adapters.Layout
import Mathlib.Data.Fin.Tuple.Basic

/-! # The swap graph wire format

A payload names assets, legs and budgets by indices into the account list of the instruction, never by
instruction bytes. A `Graph n` is a decoded payload over `n` accounts: every index is below `n`, legs
run from lower to higher assets, and the amounts are in range, so that no later step tests these
again. -/

namespace StockMesh

/-- Most assets of a graph (`MAX_ASSETS`). -/
def maxGraphAssets : ℕ := 5

/-- Most legs of a fixed graph (`MAX_LEGS`). -/
def maxGraphLegs : ℕ := 4

/-- Most candidates of a reflow graph (`MAX_CANDIDATES`). -/
def maxCandidates : ℕ := 8

/-- Most accounts of an instruction (`MAX_ACCOUNTS`). -/
def maxAccounts : ℕ := 64

/-- Bytes before the assets (`HEADER_LEN`). -/
def headerLen : ℕ := 36

/-- Bytes of a leg before its accounts (`LEG_HEADER_LEN`). -/
def legHeaderLen : ℕ := 14

/-- The supported venues (`Venue`). -/
inductive Venue
  | phoenix
  | raydiumCpmm
  | orcaWhirlpool
  | raydiumClmm
  | meteoraDlmm
  | meteoraDammV2
  | raydiumAmmV4
  | byrealClmm
  | riptide
  deriving DecidableEq, Repr

namespace Venue

/-- `Venue::try_from`. -/
def ofByte : ℕ → AdapterResult Venue
  | 0 => .ok phoenix
  | 1 => .ok raydiumCpmm
  | 2 => .ok orcaWhirlpool
  | 3 => .ok raydiumClmm
  | 4 => .ok meteoraDlmm
  | 5 => .ok meteoraDammV2
  | 6 => .ok raydiumAmmV4
  | 7 => .ok byrealClmm
  | 8 => .ok riptide
  | _ => .error .unsupported

/-- The discriminant (`venue as u64`). -/
def toByte : Venue → ℕ
  | phoenix => 0
  | raydiumCpmm => 1
  | orcaWhirlpool => 2
  | raydiumClmm => 3
  | meteoraDlmm => 4
  | meteoraDammV2 => 5
  | raydiumAmmV4 => 6
  | byrealClmm => 7
  | riptide => 8

/-- A venue is read back from its discriminant. -/
@[simp] theorem ofByte_toByte (v : Venue) : ofByte v.toByte = .ok v := by
  cases v <;> rfl

/-- Fewest and most accounts of a swap (`account_bounds`). -/
def accountBounds : Venue → ℕ × ℕ
  | phoenix => (9, 9)
  | raydiumCpmm => (13, 13)
  | orcaWhirlpool => (15, 15)
  | raydiumClmm | byrealClmm => (14, 20)
  | meteoraDlmm => (17, 22)
  | meteoraDammV2 => (14, 14)
  | raydiumAmmV4 => (8, 8)
  | riptide => (12, 13)

/-- The positions of pool, signer, source and destination among the accounts of a swap. -/
structure Bindings where
  pool : ℕ
  signer : ℕ
  src : ℕ
  dst : ℕ
  deriving DecidableEq

/-- `bindings`: the direction is A to B. -/
def bindings (direction : Bool) : Venue → Bindings
  | phoenix => ⟨2, 3, if direction then 4 else 5, if direction then 5 else 4⟩
  | raydiumCpmm => ⟨3, 0, 4, 5⟩
  | orcaWhirlpool => ⟨4, 3, if direction then 7 else 9, if direction then 9 else 7⟩
  | raydiumClmm | byrealClmm => ⟨2, 0, 3, 4⟩
  | meteoraDlmm => ⟨0, 10, 4, 5⟩
  | meteoraDammV2 => ⟨1, 8, 2, 3⟩
  | raydiumAmmV4 => ⟨1, 7, 5, 6⟩
  | riptide => ⟨1, 0, if direction then 4 else 5, if direction then 5 else 4⟩

/-- Every bound position exists in the shortest account list of the venue. -/
theorem bindings_lt (direction : Bool) (v : Venue) :
    (v.bindings direction).pool < v.accountBounds.1 ∧
    (v.bindings direction).signer < v.accountBounds.1 ∧
    (v.bindings direction).src < v.accountBounds.1 ∧
    (v.bindings direction).dst < v.accountBounds.1 := by
  cases v <;> cases direction <;> decide

/-- `writable`. -/
def writable (i : ℕ) : Venue → Bool
  | phoenix => [2, 4, 5, 6, 7].contains i
  | raydiumCpmm => [0, 3, 4, 5, 6, 7, 12].contains i
  | orcaWhirlpool => [4, 7, 8, 9, 10, 11, 12, 13, 14].contains i
  | raydiumClmm | byrealClmm => [2, 3, 4, 5, 6, 7].contains i || decide (13 ≤ i)
  | meteoraDlmm => [0, 1, 2, 3, 4, 5, 8, 9].contains i || decide (16 ≤ i)
  | meteoraDammV2 => [1, 2, 3, 4, 5, 11].contains i
  | raydiumAmmV4 => [1, 3, 4, 5, 6].contains i
  | riptide => [1, 4, 5, 6, 7].contains i

/-- `writable_with_owner`: Byreal appends read-only oracle accounts that it does not own. -/
def writableWithOwner (v : Venue) (position : ℕ) (ownedByVenue : Bool) : Bool :=
  v.writable position &&
    !(decide (v = byrealClmm) && decide (13 ≤ position) && !ownedByVenue)

/-- The discriminator of a swap and the length of its data. -/
def swapLayout : Venue → AdapterResult (List UInt8 × ℕ)
  | phoenix => .error .unsupported
  | raydiumCpmm => .ok ([143, 190, 90, 218, 196, 30, 51, 222], 24)
  | orcaWhirlpool => .ok ([43, 4, 237, 11, 26, 201, 30, 98], 43)
  | raydiumClmm => .ok ([43, 4, 237, 11, 26, 201, 30, 98], 41)
  | byrealClmm => .ok ([229, 46, 213, 132, 105, 40, 40, 228], 41)
  | meteoraDlmm => .ok ([65, 75, 63, 76, 235, 91, 91, 136], 28)
  | meteoraDammV2 => .ok ([65, 75, 63, 76, 235, 91, 91, 136], 25)
  | raydiumAmmV4 => .ok ([16], 17)
  | riptide => .ok ([2], 12)

/-- `swap_data`: the data of an exact-input swap. -/
def swapData (v : Venue) (input : ℕ) (direction : Bool) : AdapterResult (List UInt8) := do
  accept (input ≠ 0 ∧ input ≤ maxInput) .amount
  let (disc, len) ← v.swapLayout
  let dst := disc ++ Buffer.toBytes 8 input ++ List.replicate (72 - disc.length) 0
  let dst := match v with
    | orcaWhirlpool => (dst.set 40 1).set 41 (if direction then 1 else 0)
    | raydiumClmm | byrealClmm => dst.set 40 1
    | riptide => dst.set 9 (if direction then 1 else 0)
    | _ => dst
  .ok (dst.take len)

end Venue

/-- The accounts of an asset: the wallet's token account, the mint and the token program. -/
structure Asset (n : ℕ) where
  token : Fin n
  mint : Fin n
  program : Fin n

/-- One swap between two of `k` assets. -/
structure Leg (n k : ℕ) where
  venue : Venue
  source : Fin k
  destination : Fin k
  direction : Bool
  budget : ℕ
  program : Fin n
  accounts : List (Fin n)
  /-- Assets are in topological order. -/
  ordered : source < destination
  budget_pos : 0 < budget
  /-- The venue's account count, so every bound position exists. -/
  accounts_ge : venue.accountBounds.1 ≤ accounts.length

namespace Leg

variable {n k : ℕ} (leg : Leg n k)

/-- The bound positions of a leg. -/
def bindings : Venue.Bindings := leg.venue.bindings leg.direction

theorem pool_lt : leg.bindings.pool < leg.accounts.length :=
  (leg.venue.bindings_lt leg.direction).1.trans_le leg.accounts_ge

theorem signer_lt : leg.bindings.signer < leg.accounts.length :=
  (leg.venue.bindings_lt leg.direction).2.1.trans_le leg.accounts_ge

theorem src_lt : leg.bindings.src < leg.accounts.length :=
  (leg.venue.bindings_lt leg.direction).2.2.1.trans_le leg.accounts_ge

theorem dst_lt : leg.bindings.dst < leg.accounts.length :=
  (leg.venue.bindings_lt leg.direction).2.2.2.trans_le leg.accounts_ge

/-- Every venue takes eight accounts at least. -/
theorem eight_le : 8 ≤ leg.accounts.length := by
  refine le_trans ?_ leg.accounts_ge
  cases leg.venue <;> decide

/-- One of the first eight accounts. -/
def account (i : Fin 8) : Fin n := leg.accounts.get ⟨i, by have := leg.eight_le; omega⟩

/-- The pool account. -/
def pool : Fin n := leg.accounts.get ⟨_, leg.pool_lt⟩

/-- The account bound as the source. -/
def src : Fin n := leg.accounts.get ⟨_, leg.src_lt⟩

/-- The account bound as the destination. -/
def dst : Fin n := leg.accounts.get ⟨_, leg.dst_lt⟩

/-- The account bound as the signer. -/
def signer : Fin n := leg.accounts.get ⟨_, leg.signer_lt⟩

end Leg

/-- A decoded graph over `n` accounts. -/
structure Graph (n : ℕ) where
  sequence : ℕ
  input : ℕ
  minOut : ℕ
  deadline : ℕ
  assetCount : ℕ
  assets : Fin assetCount → Asset n
  legs : List (Leg n assetCount)
  /-- Quotes per allocation; zero means a fixed graph. -/
  reflowCalls : ℕ
  /-- Signed input of the first candidate; zero without a seed. -/
  seedInput : ℕ
  accounts_ge : 6 ≤ n
  accounts_le : n ≤ maxAccounts
  two_le : 2 ≤ assetCount
  input_pos : 0 < input
  input_le : input ≤ maxInput
  minOut_pos : 0 < minOut
  legs_pos : 0 < legs.length
  legs_le : legs.length ≤ maxCandidates
  fixed_le : reflowCalls = 0 → legs.length ≤ maxGraphLegs
  seed_lt : seedInput < input
  seed_reflow : seedInput ≠ 0 → reflowCalls ≠ 0
  seed_le : ∀ leg, legs[0]? = some leg → seedInput ≤ leg.budget

namespace Graph

variable {n : ℕ} (g : Graph n)

/-- The first account of the instruction. -/
def payer : Fin n := ⟨0, by have := g.accounts_ge; omega⟩

/-- The graph is settled by an oracle. -/
def reflow : Bool := decide (0 < g.reflowCalls)

/-- The asset the graph spends. -/
def first : Fin g.assetCount := ⟨0, by have := g.two_le; omega⟩

/-- The asset the graph delivers. -/
def sink : Fin g.assetCount := ⟨g.assetCount - 1, by have := g.two_le; omega⟩

/-- The first asset is not the last. -/
theorem first_ne_sink : g.first ≠ g.sink := by
  intro h
  have hval : (0 : ℕ) = g.assetCount - 1 := congrArg Fin.val h
  have := g.two_le
  omega

end Graph

/-- An account index read from the wire. -/
def indexAt (n : ℕ) (i : ℕ) : AdapterResult (Fin n) :=
  if h : i < n then .ok ⟨i, h⟩ else .error .layout

/-- A condition on a decoded value, kept as evidence. -/
def evidence (p : Prop) [Decidable p] (e : AdapterError) : AdapterResult (PLift p) :=
  if h : p then .ok ⟨h⟩ else .error e

/-- One asset: three account indices, none of them the wallet or its nonce. -/
def readAsset (d : Buffer) (n cursor : ℕ) : AdapterResult (Asset n) := do
  let s ← okOr (d.slice cursor 3) .layout
  accept (∀ i ∈ s, 2 ≤ i.toNat) .layout
  let token ← indexAt n (s.getD 0 0).toNat
  let mint ← indexAt n (s.getD 1 0).toNat
  let program ← indexAt n (s.getD 2 0).toNat
  .ok { token, mint, program }

/-- The assets, three bytes each. -/
def readAssets (d : Buffer) (n : ℕ) : (k : ℕ) → ℕ → AdapterResult (Fin k → Asset n)
  | 0, _ => .ok Fin.elim0
  | k + 1, cursor => do
    let asset ← readAsset d n cursor
    let rest ← readAssets d n k (cursor + 3)
    .ok (Fin.cons asset rest)

/-- One leg with the cursor behind it. -/
def readLeg (d : Buffer) (n k cursor : ℕ) : AdapterResult (Leg n k × ℕ) := do
  let s ← okOr (d.slice cursor legHeaderLen) .layout
  let venue ← Venue.ofByte (s.getD 0 0).toNat
  let count := (s.getD 13 0).toNat
  let source ← indexAt k (s.getD 1 0).toNat
  let destination ← indexAt k (s.getD 2 0).toNat
  let ⟨ordered⟩ ← evidence (source < destination) .layout
  accept ((s.getD 3 0).toNat ≤ 1) .layout
  let program ← indexAt n (s.getD 12 0).toNat
  accept (venue.accountBounds.1 ≤ count ∧ count ≤ venue.accountBounds.2) .layout
  let budget ← u64At d (cursor + 4)
  let ⟨budget_pos⟩ ← evidence (0 < budget) .amount
  accept (budget ≤ maxInput ∨ budget = u64Size - 1) .amount
  let indices ← okOr (d.slice (cursor + legHeaderLen) count) .layout
  accept (∀ i ∈ indices, i.toNat ≠ 1) .layout
  let accounts ← indices.mapM fun i => indexAt n i.toNat
  let ⟨accounts_ge⟩ ← evidence (venue.accountBounds.1 ≤ accounts.length) .layout
  .ok ({ venue, source, destination, direction := (s.getD 3 0).toNat = 1, budget, program, accounts,
         ordered, budget_pos, accounts_ge }, cursor + legHeaderLen + count)

/-- The legs with the cursor behind them. -/
def readLegs (d : Buffer) (n k : ℕ) :
    (count : ℕ) → ℕ → AdapterResult ({legs : List (Leg n k) // legs.length = count} × ℕ)
  | 0, cursor => .ok (⟨[], rfl⟩, cursor)
  | count + 1, cursor => do
    let (leg, cursor) ← readLeg d n k cursor
    let (rest, cursor) ← readLegs d n k count cursor
    .ok (⟨leg :: rest.1, by rw [List.length_cons, rest.2]⟩, cursor)

/-- `Graph::decode`. -/
def Graph.decode (d : Buffer) (n : ℕ) : AdapterResult (Graph n) := do
  accept (headerLen ≤ d.size) .layout
  let opcode := (d.byte 0).toNat
  let assetCount := (d.byte 1).toNat
  let legCount := (d.byte 2).toNat
  let calls := (d.byte 3).toNat
  accept (opcode = 2 ∨ opcode = 4 ∨ opcode = 9) .layout
  accept (opcode = 2 → calls = 0) .layout
  let ⟨hcalls⟩ ← evidence (opcode ≠ 2 → 8 ≤ calls ∧ calls ≤ 64) .layout
  accept (opcode = 9 → assetCount = 2) .layout
  let ⟨htwo⟩ ← evidence (2 ≤ assetCount ∧ assetCount ≤ maxGraphAssets) .layout
  let ⟨hlegs⟩ ← evidence (1 ≤ legCount ∧
    legCount ≤ if opcode ≠ 2 then maxCandidates else maxGraphLegs) .layout
  let ⟨haccounts⟩ ← evidence (6 ≤ n ∧ n ≤ maxAccounts) .layout
  let sequence ← u64At d 4
  let input ← u64At d 12
  let minOut ← u64At d 20
  let deadline ← u64At d 28
  let ⟨hinput⟩ ← evidence (0 < input ∧ input ≤ maxInput ∧ 0 < minOut) .amount
  let assets ← readAssets d n assetCount headerLen
  let cursor := headerLen + 3 * assetCount
  -- opcode 9 carries the signed input of the first candidate
  let seedInput ← if opcode = 9 then u64At d cursor else .ok 0
  accept (opcode = 9 → seedInput ≠ 0) .amount
  let ⟨hseed⟩ ← evidence (seedInput < input ∧ (seedInput ≠ 0 → opcode = 9)) .amount
  let (⟨legs, hlength⟩, cursor) ← readLegs d n assetCount legCount
    (if opcode = 9 then cursor + 8 else cursor)
  let ⟨hbudget⟩ ← evidence (∀ leg ∈ legs[0]?, seedInput ≤ leg.budget) .amount
  accept (cursor = d.size) .layout
  .ok { sequence, input, minOut, deadline, assetCount, assets, legs, seedInput
        reflowCalls := if opcode ≠ 2 then calls else 0
        accounts_ge := haccounts.1
        accounts_le := haccounts.2
        two_le := htwo.1
        input_pos := hinput.1
        input_le := hinput.2.1
        minOut_pos := hinput.2.2
        legs_pos := by omega
        legs_le := by
          have := hlegs.2
          have hmax : maxGraphLegs ≤ maxCandidates := by decide
          split at this <;> omega
        fixed_le := by
          intro h
          have := hlegs.2
          split at this
          · next hop =>
            rw [if_pos hop] at h
            have := hcalls hop
            omega
          · omega
        seed_lt := hseed.1
        seed_reflow := by
          intro h
          have hop : opcode ≠ 2 := by
            have := hseed.2 h
            omega
          rw [if_pos hop]
          have := hcalls hop
          omega
        seed_le := hbudget }

end StockMesh

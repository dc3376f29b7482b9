import StockMesh.Adapters.Layout
import StockMesh.Foundation.Stateful

/-! # The settlement program and its runtime

The on-chain program reads and writes accounts through the account list of one instruction. Entries of
that list with the same key are one account: they share its data and its signer and writable flags. A
`Chain` is the ledger with the CPIs made so far. What an invoked program does is unknown; `Venues` is
any behaviour the runtime allows, and the runtime lets only the owner of an account change its
data. -/

namespace StockMesh.Settle

open Stateful

/-! ## Identities -/

/-- `TOKEN`. -/
def tokenId : Key := .ofNat 0x6ddf6e1d765a193d9cbe146ceeb79ac1cb485ed5f5b37913a8cf5857eff00a9

/-- `TOKEN_2022`. -/
def token2022Id : Key := .ofNat 0x6ddf6e1ee758fde18425dbce46ccddab61afc4d83b90d27febdf928d8a18bfc

/-- `system_program::id()`. -/
def systemId : Key := .ofNat 0

/-- The address the program is deployed at, which is neither token program. -/
abbrev ProgramId := {program : Key // program ≠ tokenId ∧ program ≠ token2022Id}

/-- Length of a nonce account (`NONCE_LEN`). -/
def nonceLen : ℕ := 64

/-- `NONCE_TAG`: the bytes of SKEWSEQ1. -/
def nonceTag : List UInt8 := [83, 75, 69, 87, 83, 69, 81, 49]

/-! ## Errors -/

/-- The errors of the program: its stable custom codes, a malformed instruction, an error the runtime
raises, and the panic of an overflow-checked operation. -/
inductive Fault
  | identity
  | replay
  | expired
  | bounds
  | minOut
  | conservation
  | adapter
  | instruction
  | runtime
  | overflow
  deriving DecidableEq, Repr

/-- Results of the program. -/
abbrev Outcome (α : Type) := Except Fault α

/-- `need(ok, code)`. -/
def need (ok : Prop) [Decidable ok] (code : Fault) : Outcome Unit :=
  if ok then .ok () else .error code

@[simp] theorem need_eq_ok {ok : Prop} [Decidable ok] {code : Fault} {u : Unit} :
    need ok code = .ok u ↔ ok := by
  by_cases h : ok <;> simp [need, h]

theorem need_of {ok : Prop} [Decidable ok] {code : Fault} (h : ok) : need ok code = .ok () :=
  if_pos h

theorem need_of_not {ok : Prop} [Decidable ok] {code : Fault} (h : ¬ok) :
    need ok code = .error code := if_neg h

/-- `ad(value)`: every adapter error is the one code `ADAPTER`. -/
def ad {α : Type} (value : AdapterResult α) : Outcome α :=
  match value with
  | .ok a => .ok a
  | .error _ => .error .adapter

@[simp] theorem ad_eq_ok {α : Type} {value : AdapterResult α} {a : α} :
    ad value = .ok a ↔ value = .ok a := by
  cases value <;> simp [ad]

/-- `a.checked_sub(b).ok_or(err(code))`. -/
def checkedSub (a b : ℕ) (code : Fault) : Outcome ℕ :=
  if b ≤ a then .ok (a - b) else .error code

@[simp] theorem checkedSub_eq_ok {a b c : ℕ} {code : Fault} :
    checkedSub a b code = .ok c ↔ b ≤ a ∧ a - b = c := by
  by_cases h : b ≤ a <;> simp [checkedSub, h]

/-- `a.checked_add(b).ok_or(err(code))` on `u64`. -/
def checkedSum (a b : ℕ) (code : Fault) : Outcome ℕ :=
  if a + b < u64Size then .ok (a + b) else .error code

@[simp] theorem checkedSum_eq_ok {a b c : ℕ} {code : Fault} :
    checkedSum a b code = .ok c ↔ a + b < u64Size ∧ a + b = c := by
  by_cases h : a + b < u64Size <;> simp [checkedSum, h]

/-- An account index of an instruction over `n` accounts. -/
def accountIndex (n i : ℕ) (code : Fault) : Outcome (Fin n) :=
  if h : i < n then .ok ⟨i, h⟩ else .error code

theorem accountIndex_eq_ok {n i : ℕ} {code : Fault} {k : Fin n} :
    accountIndex n i code = .ok k ↔ (k : ℕ) = i := by
  unfold accountIndex
  split
  · simp [Fin.ext_iff, eq_comm]
  · next h =>
    constructor
    · rintro ⟨⟩
    · intro heq
      have hlt := k.isLt
      omega

/-! ## Accounts -/

/-- The state of one account. -/
structure Account where
  owner : Key
  executable : Bool
  lamports : ℕ
  data : Buffer

/-- All accounts. -/
abbrev Ledger := Key → Account

/-- The account list of an instruction. -/
structure Accounts (n : ℕ) where
  key : Fin n → Key
  isSigner : Key → Bool
  isWritable : Key → Bool

/-- `Clock::get()`. -/
structure Clock where
  slot : ℕ
  epoch : ℕ
  unixTimestamp : ℤ

/-- `clock.unix_timestamp as u64`: negative times wrap around. -/
def Clock.time (clock : Clock) : ℕ := (clock.unixTimestamp % (u64Size : ℤ)).toNat

/-- The amount field of a token account. -/
def tokenAmount (ledger : Ledger) (key : Key) : ℕ := ((ledger key).data.number 64 8).getD 0

/-- A balance is a machine word. -/
theorem tokenAmount_lt (ledger : Ledger) (key : Key) : tokenAmount ledger key < u64Size := by
  unfold tokenAmount
  cases hnumber : (ledger key).data.number 64 8 with
  | none =>
    show 0 < u64Size
    decide
  | some amount => exact Buffer.number_lt hnumber

/-! ## Invoked programs -/

/-- An account of a CPI with its privileges. -/
structure AccountMeta where
  key : Key
  isSigner : Bool
  isWritable : Bool
  deriving DecidableEq

/-- A CPI. -/
structure Instruction where
  programId : Key
  accounts : List AccountMeta
  data : List UInt8
  deriving DecidableEq

/-- What the invoked programs do: the outcome of the CPI with the given number. -/
structure Venues (program : ProgramId) where
  invoke : ℕ → Instruction → Ledger → Outcome Ledger
  /-- An account of the settlement program keeps its owner and data. -/
  owned : ∀ {number ix ledger ledger'}, invoke number ix ledger = .ok ledger' →
    ∀ key, (ledger key).owner = program →
      (ledger' key).owner = program ∧ (ledger' key).data = (ledger key).data

/-- A CPI that returned, with the graph leg it executed. -/
structure Cpi where
  leg : ℕ
  instruction : Instruction
  before : Ledger
  after : Ledger

/-- The ledger, the CPIs made and the return data. -/
structure Chain where
  ledger : Ledger
  cpis : List Cpi := []
  returnData : List UInt8 := []

/-- Computations of the program. -/
abbrev Step (α : Type) := Comp Fault Chain α

/-- `invoke_checked_accounts`: run a CPI and record it. -/
def invokeLeg {program : ProgramId} (venues : Venues program) (leg : ℕ) (ix : Instruction) :
    Step Unit := fun s =>
  match venues.invoke s.cpis.length ix s.ledger with
  | .ok ledger => (.ok (), { s with
      ledger, cpis := s.cpis ++ [{ leg, instruction := ix, before := s.ledger, after := ledger }] })
  | .error e => (.error e, s)

/-- A CPI that returned. -/
theorem invokeLeg_eq_ok {program : ProgramId} {venues : Venues program} {leg : ℕ}
    {ix : Instruction} {s s' : Chain} (h : invokeLeg venues leg ix s = (.ok (), s')) :
    venues.invoke s.cpis.length ix s.ledger = .ok s'.ledger ∧ s'.returnData = s.returnData ∧
    s'.cpis = s.cpis ++ [⟨leg, ix, s.ledger, s'.ledger⟩] := by
  unfold invokeLeg at h
  split at h
  · next hinvoke =>
    cases h
    exact ⟨hinvoke, rfl, rfl⟩
  · cases h

end StockMesh.Settle

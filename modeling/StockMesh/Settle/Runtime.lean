import StockMesh.Settle.Program

/-! # Program addresses and the system program

What the program takes from the runtime to create an account of its own: an address derived from
seeds, the rent-exempt minimum, and the three instructions of the system program. The system program
gives data and an owner to an empty account only, so an account is created once. -/

namespace StockMesh.Settle

open Stateful

/-- What the runtime computes for the program. -/
structure Runtime where
  /-- `Pubkey::find_program_address`: the address of the seeds and its bump. -/
  findProgramAddress : List (List UInt8) → Key × ℕ
  /-- `Rent::get()?.minimum_balance`. -/
  minimumBalance : ℕ → ℕ

/-- The address derived from seeds. -/
def Runtime.address (rt : Runtime) (seeds : List (List UInt8)) : Key := (rt.findProgramAddress seeds).1

/-- `n` as a machine word of the given size, an error when it does not fit. -/
def within (size n : ℕ) (code : Fault) : Outcome ℕ := if n < size then .ok n else .error code

@[simp] theorem within_eq_ok {size n k : ℕ} {code : Fault} :
    within size n code = .ok k ↔ n < size ∧ n = k := by
  by_cases h : n < size <;> simp [within, h]

/-- Longest data of an account. -/
def maxDataLength : ℕ := 10485760

/-- Change one account. -/
def setAccount (key : Key) (account : Account) : Step Unit :=
  modify fun s => { s with ledger := Function.update s.ledger key account }

/-- `system_instruction::transfer`. -/
def systemTransfer (source destination : Key) (lamports : ℕ) : Step Unit := do
  let s ← get
  let src := s.ledger source
  lift (need (src.owner = systemId ∧ src.data.size = 0 ∧ lamports ≤ src.lamports) .runtime)
  setAccount source { src with lamports := src.lamports - lamports }
  let s ← get
  let dst := s.ledger destination
  let sum ← lift (within u64Size (dst.lamports + lamports) .runtime)
  setAccount destination { dst with lamports := sum }

/-- `system_instruction::allocate`. -/
def systemAllocate (key : Key) (space : ℕ) : Step Unit := do
  let s ← get
  let account := s.ledger key
  lift (need (account.owner = systemId ∧ account.data.size = 0 ∧ space ≤ maxDataLength) .runtime)
  setAccount key { account with data := ⟨space, fun _ => 0⟩ }

/-- `system_instruction::assign`. -/
def systemAssign (key owner : Key) : Step Unit := do
  let s ← get
  let account := s.ledger key
  lift (need (account.owner = systemId) .runtime)
  setAccount key { account with owner }

/-- Fund, allocate and assign an account of the program. Harmless prefunding is accepted. -/
def createAccount (rt : Runtime) (program : ProgramId) (payer key : Key) (length : ℕ) :
    Step Unit := do
  let s ← get
  let rent := rt.minimumBalance length
  let lamports := (s.ledger key).lamports
  if lamports < rent then systemTransfer payer key (rent - lamports)
  systemAllocate key length
  systemAssign key program

/-- Overwrite windows of an account's data. -/
def writeFields (key : Key) (fields : List (ℕ × List UInt8)) : Step Unit := fun s =>
  match Buffer.spliceAll fields (s.ledger key).data with
  | some data => (.ok (), { s with
      ledger := Function.update s.ledger key { s.ledger key with data } })
  | none => (.error .overflow, s)

theorem writeFields_of_splice {key : Key} {fields : List (ℕ × List UInt8)} {s : Chain} {data : Buffer}
    (h : Buffer.spliceAll fields (s.ledger key).data = some data) :
    writeFields key fields s = (.ok (), { s with
      ledger := Function.update s.ledger key { s.ledger key with data } }) := by
  rw [writeFields, h]

theorem writeFields_eq_ok {key : Key} {fields : List (ℕ × List UInt8)} {s s' : Chain}
    (h : writeFields key fields s = (.ok (), s')) :
    ∃ data, Buffer.spliceAll fields (s.ledger key).data = some data ∧
      s' = { s with ledger := Function.update s.ledger key { s.ledger key with data } } := by
  unfold writeFields at h
  split at h
  · next data hdata =>
    cases h
    exact ⟨data, hdata, rfl⟩
  · cases h

/-- A created account is the program's and holds zeros. -/
theorem createAccount_eq_ok {rt : Runtime} {program : ProgramId} {payer key : Key} {length : ℕ}
    {s s' : Chain} (h : createAccount rt program payer key length s = (.ok (), s')) :
    (s'.ledger key).owner = program ∧ (s'.ledger key).data = ⟨length, fun _ => 0⟩ := by
  rw [createAccount, get_bind] at h
  dsimp only at h
  have hrest : ∃ s₁, (systemAllocate key length >>= fun _ => systemAssign key program) s₁
      = (.ok (), s') := by
    split at h
    · obtain ⟨_, s₁, -, h⟩ := Comp.bind_eq_ok.mp h
      exact ⟨s₁, h⟩
    · exact ⟨s, h⟩
  obtain ⟨s₁, h⟩ := hrest
  obtain ⟨_, s₂, hallocate, hassign⟩ := Comp.bind_eq_ok.mp h
  rw [systemAllocate, get_bind, lift_bind_eq_ok] at hallocate
  obtain ⟨_, -, hallocate⟩ := hallocate
  cases hallocate
  rw [systemAssign, get_bind, lift_bind_eq_ok] at hassign
  obtain ⟨_, -, hassign⟩ := hassign
  cases hassign
  simp

end StockMesh.Settle

import StockMesh.Settle.Program
import StockMesh.Native.Curves

/-! # Token accounts

`checkedAsset` admits a token account of the wallet: initialized, without delegate or close authority,
of the right mint and authority, and with no extension that could hide a balance. Its value is the
amount field. `balance` reads the amount after a CPI; the full check follows once at the end. -/

namespace StockMesh.Settle

/-- The kinds of extension a mint or a token account may carry. -/
def allowedExtensions (mint : Bool) : List ℕ :=
  if mint then [1, 3, 4, 6, 10, 12, 14, 16, 18, 19, 25, 26] else [2, 7, 15, 27]

/-- An extension of an allowed kind has the admitted form. -/
def extensionForm (mint : Bool) (kind : ℕ) (ext : List UInt8) : Bool :=
  match mint, kind with
  | true, 14 => ext.length = 64 && zeroTail ext 32
  | true, 16 => ext.length = 129
  | true, 26 => ext.length = 33 && ext.getD 32 0 = 0
  | true, 6 => ext.length = 1 && ext.getD 0 0 = 1
  | false, 15 => ext.length = 1 && ext.getD 0 0 = 0
  | false, 27 | false, 7 => ext.length = 0
  | false, 2 => ext.length = 8
  | _, _ => true

/-- The loop of `extensions`. Every round moves on by four bytes at least, so as many rounds as bytes
are enough. -/
def scanExtensions (d : Buffer) (mint : Bool) : ℕ → ℕ → ℕ → Outcome Unit
  | 0, _, _ => .ok ()
  | fuel + 1, p, seen => do
    if d.size ≤ p ∨ zeroFrom d p = true then .ok () else
    need (p + 4 ≤ d.size) .identity
    let kind ← okOr (d.number p 2) .identity
    let len ← okOr (d.number (p + 2) 2) .identity
    need (kind ∈ allowedExtensions mint ∧ kind < 64 ∧ seen.testBit kind = false) .identity
    let ext ← okOr (d.slice (p + 4) len) .identity
    need (extensionForm mint kind ext = true) .identity
    scanExtensions d mint fuel (p + 4 + len) (seen ||| 1 <<< kind)

/-- `extensions`. -/
def extensions (d : Buffer) (mint : Bool) : Outcome Unit := do
  if d.size = (if mint then 82 else 165) then .ok () else
  need (166 ≤ d.size ∧ d.byte 165 = if mint then 1 else 2) .identity
  need (mint = true → (List.range (165 - 82)).all (fun i => d.byte (82 + i) = 0) = true) .identity
  scanExtensions d mint d.size 166 0

/-- `executable(account, id)`. -/
def isProgram (ledger : Ledger) (key id : Key) : Outcome Unit :=
  need (key = id ∧ (ledger key).executable = true) .identity

/-- `balance`: the amount of an initialized token account. -/
def balance (ledger : Ledger) (key : Key) : Outcome ℕ := do
  need (165 ≤ (ledger key).data.size ∧ (ledger key).data.byte 108 = 1) .identity
  ad (u64At (ledger key).data 64)

/-- The bytes of a window are zero. -/
def zeroWindow (d : Buffer) (offset length : ℕ) : Prop :=
  d.slice offset length = some (List.replicate length 0)

instance (d : Buffer) (offset length : ℕ) : Decidable (zeroWindow d offset length) :=
  inferInstanceAs (Decidable (_ = _))

variable {n : ℕ} (ledger : Ledger) (a : Accounts n)

/-- `checked_asset`: the token account `t` of the wallet for the mint `m` under the program `p`. -/
def checkedAsset (wallet t m p : Key) (inspectMint : Bool) : Outcome ℕ := do
  need ((p = tokenId ∨ p = token2022Id) ∧ (ledger p).executable = true ∧ (ledger t).owner = p ∧
    (ledger m).owner = p ∧ a.isWritable t = true ∧ a.isWritable m = false) .identity
  let td := (ledger t).data
  -- no delegate and no close authority, on an initialized account
  need (165 ≤ td.size ∧ td.byte 108 = 1 ∧ zeroWindow td 72 4 ∧ zeroWindow td 121 8 ∧
    zeroWindow td 129 4) .identity
  let mint ← ad (keyAt td 0)
  let authority ← ad (keyAt td 32)
  need (mint = m ∧ authority = wallet) .identity
  if p = tokenId then need (td.size = 165) .identity else extensions td false
  if inspectMint then
    let md := (ledger m).data
    need (82 ≤ md.size ∧ md.byte 45 = 1) .identity
    if p = tokenId then need (md.size = 82) .identity else extensions md true
  ad (u64At td 64)

variable {ledger a}

/-- `balance` reads the amount field. -/
theorem balance_eq_ok {key : Key} {v : ℕ} (h : balance ledger key = .ok v) :
    v = tokenAmount ledger key := by
  rw [balance, bind_eq_ok] at h
  obtain ⟨_, -, h⟩ := h
  have hnumber := okOr_eq_ok.mp (ad_eq_ok.mp h)
  rw [tokenAmount, hnumber, Option.getD_some]

/-- What an admitted token account is. -/
theorem checkedAsset_eq_ok {wallet t m p : Key} {inspectMint : Bool} {v : ℕ}
    (h : checkedAsset ledger a wallet t m p inspectMint = .ok v) :
    v = tokenAmount ledger t ∧ (p = tokenId ∨ p = token2022Id) ∧ (ledger t).owner = p := by
  rw [checkedAsset, bind_eq_ok] at h
  obtain ⟨_, howner, h⟩ := h
  obtain ⟨hp, -, ht, -⟩ := need_eq_ok.mp howner
  dsimp only at h
  obtain ⟨_, -, h⟩ := bind_eq_ok.mp h
  obtain ⟨_, -, h⟩ := bind_eq_ok.mp h
  obtain ⟨_, -, h⟩ := bind_eq_ok.mp h
  obtain ⟨_, -, h⟩ := bind_eq_ok.mp h
  refine ⟨?_, hp, ht⟩
  have hamount : ad (u64At (ledger t).data 64) = .ok v := by
    split at h <;> split at h <;> simp_all [bind_eq_ok]
  rw [tokenAmount, okOr_eq_ok.mp (ad_eq_ok.mp hamount), Option.getD_some]

end StockMesh.Settle

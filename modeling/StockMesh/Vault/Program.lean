import StockMesh.Vault.Token

/-! # The basket vault program

A basket is a config account of the program that names a share mint and 2 to 16 constituents, each with
a vault under the authority derived from the config. One share atom stands for the units of each
constituent. `initialize` writes the config, `exchange` mints or redeems shares in kind and writes a
receipt. -/

namespace StockMesh.Vault

open Settle (Account Ledger tokenId tokenAmount zeroWindow systemId)

/-- `HEADER`. -/
def header : ℕ := 112

/-- `LEG`. -/
def legSize : ℕ := 72

/-- `RECEIPT`. -/
def receiptSize : ℕ := 128

/-- `MAGIC`: the bytes of XTXCBV01. -/
def magic : List UInt8 := [88, 84, 88, 67, 66, 86, 48, 49]

/-- The bytes of XTXCBR01. -/
def receiptMagic : List UInt8 := [88, 84, 88, 67, 66, 82, 48, 49]

/-- What the runtime computes for the program: the addresses under the seeds of a config and the
rent-exempt minimum. The addresses of the configs in use do not collide. -/
structure Runtime where
  program : Key
  program_ne : program ≠ tokenId
  /-- `Pubkey::find_program_address`, with the bump. -/
  find : Key → Key × UInt8
  /-- `Pubkey::create_program_address`. -/
  create : Key → UInt8 → Option Key
  create_find : ∀ config, create config (find config).2 = some (find config).1
  /-- The keys that are ever used as a config. -/
  inUse : Key → Prop
  find_injective : ∀ config config', inUse config → inUse config' →
    (find config).1 = (find config').1 → config = config'
  /-- `Rent::get()?.minimum_balance`. -/
  minimumBalance : ℕ → ℕ

/-- The authority of a basket. -/
def Runtime.authority (rt : Runtime) (config : Key) : Key := (rt.find config).1

/-- An instruction of the program with its accounts. Entries with one key are one account. -/
structure Call where
  accounts : List Key
  isSigner : Key → Bool
  isWritable : Key → Bool
  data : Buffer

/-- `a[i].key`. -/
def Call.key (call : Call) (i : ℕ) : Key := call.accounts.getD i systemId

/-- `u64_at`. -/
def u64At (d : Buffer) (p : ℕ) : Outcome ℕ := okOr (d.number p 8) .bad

/-- `key_at`. -/
def keyAt (d : Buffer) (p : ℕ) : Outcome Key := okOr (keyOf d p) .bad

/-- `mul`. -/
def mul (a b : ℕ) : Outcome ℕ := if a * b < u64Size then .ok (a * b) else .error .arithmeticOverflow

/-- An unchecked `u64` addition. -/
def plainAdd (a b : ℕ) : Outcome ℕ := if a + b < u64Size then .ok (a + b) else .error .wrapped

/-- An unchecked `u64` subtraction. -/
def plainSub (a b : ℕ) : Outcome ℕ := if b ≤ a then .ok (a - b) else .error .wrapped

/-- `checked_add(..).ok_or(BAD)`. -/
def checkedAdd (a b : ℕ) : Outcome ℕ := if a + b < u64Size then .ok (a + b) else .error .bad

/-- `checked_sub(..).ok_or(BAD)`. -/
def checkedSub (a b : ℕ) : Outcome ℕ := if b ≤ a then .ok (a - b) else .error .bad

/-- `zero_account`. -/
def zeroAccount (rt : Runtime) (call : Call) (l : Ledger) (a owner : Key) (length : ℕ) :
    Outcome Unit := do
  need ((l a).owner = owner ∧ call.isWritable a = true ∧ call.isSigner a = true ∧
    (l a).executable = false) .auth
  need ((l a).data.size = length ∧ zeroWindow (l a).data 0 length) .replay
  need (rt.minimumBalance length ≤ (l a).lamports) .bad

/-- `mint`: the supply and the decimals. -/
def mint (l : Ledger) (a : Key) : Outcome (ℕ × UInt8) := do
  need ((l a).owner = tokenId ∧ (l a).executable = false) .bad
  need ((l a).data.size = 82 ∧ (l a).data.byte 45 = 1) .bad
  let supply ← u64At (l a).data 36
  .ok (supply, (l a).data.byte 44)

/-- `share_mint`. -/
def shareMint (l : Ledger) (a authority : Key) (decimals : UInt8) : Outcome ℕ := do
  let (supply, d) ← mint l a
  let key ← keyAt (l a).data 4
  need (d = decimals ∧ (l a).data.slice 0 4 = some [1, 0, 0, 0] ∧ key = authority ∧
    zeroWindow (l a).data 46 4) .auth
  .ok supply

/-- `token`. -/
def token (call : Call) (l : Ledger) (a m owner : Key) : Outcome ℕ := do
  need ((l a).owner = tokenId ∧ call.isWritable a = true ∧ (l a).executable = false) .bad
  let d := (l a).data
  need (d.size = 165) .auth
  let mintKey ← keyAt d 0
  let ownerKey ← keyAt d 32
  need (mintKey = m ∧ ownerKey = owner ∧ d.byte 108 = 1 ∧ zeroWindow d 72 4 ∧ zeroWindow d 109 4 ∧
    zeroWindow d 129 4) .auth
  u64At d 64

/-- `unique`: the loop finds a repeated key if there is one. -/
def unique (call : Call) : Outcome Unit := need call.accounts.Nodup .bad

/-! ## Initialize -/

/-- The checks on one constituent. -/
def initializeLeg (call : Call) (l : Ledger) (authority : Key) (i : ℕ) : Outcome Unit := do
  let m := call.key (5 + 2 * i)
  let v := call.key (6 + 2 * i)
  let _ ← mint l m
  let units ← u64At call.data (35 + 8 * i)
  need (m ≠ call.key 3 ∧ 0 < units) .bad
  let amount ← token call l v m authority
  need (amount = 0) .bad

/-- The bytes of a window, which the caller has checked to be there. -/
def window (d : Buffer) (p length : ℕ) : List UInt8 := (d.slice p length).getD []

/-- What `initialize` writes into the config. -/
def configFields (call : Call) (bump : UInt8) (n : ℕ) : List (ℕ × List UInt8) :=
  [(0, magic), (8, (call.key 3).toList), (40, (call.key 2).toList), (72, window call.data 3 32),
    (104, [bump, UInt8.ofNat n, call.data.byte 2, 1])] ++
  (List.range n).flatMap fun i =>
    [(header + i * legSize, (call.key (5 + 2 * i)).toList),
      (header + i * legSize + 32, (call.key (6 + 2 * i)).toList),
      (header + i * legSize + 64, window call.data (35 + 8 * i) 8)]

/-- Overwrite windows of an account's data. -/
def write (l : Ledger) (k : Key) (fields : List (ℕ × List UInt8)) : Outcome Ledger :=
  match Buffer.spliceAll fields (l k).data with
  | some data => .ok (Function.update l k { l k with data })
  | none => .error .bad

/-- `initialize`. -/
def initializeBasket (rt : Runtime) (call : Call) (l : Ledger) : Outcome Ledger := do
  need (35 ≤ call.data.size) .bad
  let n := (call.data.byte 1).toNat
  need (2 ≤ n ∧ n ≤ 16 ∧ call.data.byte 2 ≤ 9 ∧ call.data.size = 35 + 8 * n ∧
    call.accounts.length = 5 + 2 * n) .bad
  unique call
  zeroAccount rt call l (call.key 0) rt.program (header + n * legSize)
  let (authority, bump) := rt.find (call.key 0)
  need (call.key 1 = authority ∧ call.isSigner (call.key 2) = true ∧ call.key 4 = tokenId ∧
    (l (call.key 4)).executable = true) .auth
  need (¬zeroWindow call.data 3 32) .bad
  let supply ← shareMint l (call.key 3) authority (call.data.byte 2)
  need (supply = 0) .bad
  (List.range n).forM (initializeLeg call l authority)
  write l (call.key 0) (configFields call bump n)

/-! ## Mint and redeem -/

/-- What `exchange` reads of one constituent. -/
structure Leg where
  mint : Key
  user : Key
  vault : Key
  units : ℕ
  before : ℕ
  userBefore : ℕ

/-- What `exchange` knows before it moves anything. -/
structure Plan where
  authority : Key
  shares : ℕ
  supply : ℕ
  owned : ℕ
  issue : Bool
  target : ℕ
  legs : List Leg

/-- The checks on one constituent. -/
def exchangeLeg (call : Call) (l : Ledger) (cfg : Buffer) (authority : Key) (issue : Bool)
    (shares supply target i : ℕ) : Outcome Leg := do
  let p := header + i * legSize
  let m := call.key (7 + 3 * i)
  let user := call.key (8 + 3 * i)
  let vault := call.key (9 + 3 * i)
  let mintKey ← keyAt cfg p
  let vaultKey ← keyAt cfg (p + 32)
  need (m = mintKey ∧ vault = vaultKey) .bad
  let _ ← mint l m
  let units ← u64At cfg (p + 64)
  let amount ← mul shares units
  let before ← token call l vault m authority
  let userBefore ← token call l user m (call.key 2)
  let claimed ← mul supply units
  need (claimed ≤ before) .insolvent
  let _ ← mul target units
  if issue then need (amount ≤ userBefore) .bad else .ok ()
  let _ ← if issue then checkedAdd before amount else checkedAdd userBefore amount
  .ok { mint := m, user, vault, units, before, userBefore }

/-- `exchange` up to the transfers. -/
def preflight (rt : Runtime) (call : Call) (l : Ledger) : Outcome Plan := do
  need (call.data.size = 9 ∧ 13 ≤ call.accounts.length) .bad
  let shares ← u64At call.data 1
  need (0 < shares) .bad
  need ((l (call.key 0)).owner = rt.program ∧ (l (call.key 0)).executable = false) .auth
  let cfg := (l (call.key 0)).data
  need (header ≤ cfg.size ∧ cfg.slice 0 8 = some magic ∧ cfg.byte 107 = 1) .bad
  let n := (cfg.byte 105).toNat
  need (2 ≤ n ∧ n ≤ 16 ∧ cfg.size = header + n * legSize ∧ call.accounts.length = 7 + 3 * n) .bad
  unique call
  let authority ← okOr (rt.create (call.key 0) (cfg.byte 104)) .auth
  let shareKey ← keyAt cfg 8
  need (call.key 1 = authority ∧ call.isSigner (call.key 2) = true ∧
    call.isWritable (call.key 3) = true ∧ call.key 3 = shareKey ∧ call.key 6 = tokenId ∧
    (l (call.key 6)).executable = true) .auth
  zeroAccount rt call l (call.key 5) rt.program receiptSize
  let supply ← shareMint l (call.key 3) authority (cfg.byte 106)
  let owned ← token call l (call.key 4) (call.key 3) (call.key 2)
  let issue := decide (call.data.byte 0 = 1)
  let target ← if issue then checkedAdd supply shares else checkedSub supply shares
  if issue then do
    let _ ← checkedAdd owned shares
    .ok ()
  else need (shares ≤ owned) .bad
  let legs ← (List.range n).mapM (exchangeLeg call l cfg authority issue shares supply target)
  .ok { authority, shares, supply, owned, issue, target, legs }

/-- The runtime lets a program pass on the privileges it was given, and sign for its own addresses. -/
def privileged (call : Call) (writable : List Key) (authority : Key) (seeds : Option Key) :
    Outcome Unit :=
  need ((∀ k ∈ writable, call.isWritable k = true) ∧
    (call.isSigner authority = true ∨ seeds = some authority)) .invoked

/-- `transfer`. -/
def transfer (call : Call) (l : Ledger) (source m destination owner : Key) (amount : ℕ)
    (decimals : UInt8) (seeds : Option Key) : Outcome Ledger := do
  privileged call [source, destination] owner seeds
  transferChecked l source m destination owner amount decimals

/-- The transfer of one constituent. -/
def settleLeg (call : Call) (plan : Plan) (l : Ledger) (leg : Leg) : Outcome Ledger := do
  let amount ← mul plan.shares leg.units
  let (_, decimals) ← mint l leg.mint
  let l ← if plan.issue then
      transfer call l leg.user leg.mint leg.vault (call.key 2) amount decimals none
    else
      transfer call l leg.vault leg.mint leg.user (call.key 1) amount decimals (some plan.authority)
  let expectedVault ← if plan.issue then plainAdd leg.before amount else plainSub leg.before amount
  let expectedUser ←
    if plan.issue then plainSub leg.userBefore amount else plainAdd leg.userBefore amount
  let vault ← token call l leg.vault leg.mint plan.authority
  need (vault = expectedVault) .delta
  let user ← token call l leg.user leg.mint (call.key 2)
  need (user = expectedUser) .delta
  .ok l

/-- The shares are minted to the user or burned. -/
def settleShares (call : Call) (plan : Plan) (decimals : UInt8) (l : Ledger) : Outcome Ledger := do
  if plan.issue then do
    privileged call [call.key 3, call.key 4] (call.key 1) (some plan.authority)
    mintToChecked l (call.key 3) (call.key 4) (call.key 1) plan.shares decimals
  else do
    privileged call [call.key 4, call.key 3] (call.key 2) none
    burnChecked l (call.key 4) (call.key 3) (call.key 2) plan.shares decimals

/-- What `exchange` writes into the receipt. -/
def receiptFields (call : Call) (cfg : Buffer) (plan : Plan) : List (ℕ × List UInt8) :=
  [(0, receiptMagic), (8, (call.key 0).toList), (40, (call.key 2).toList), (72, window cfg 72 32),
    (104, [call.data.byte 0]), (112, Buffer.toBytes 8 plan.shares),
    (120, Buffer.toBytes 8 plan.target)]

/-- `exchange` from the transfers on. -/
def commit (call : Call) (cfg : Buffer) (plan : Plan) (l : Ledger) : Outcome Ledger := do
  let l ← plan.legs.foldlM (settleLeg call plan) l
  let l ← settleShares call plan (cfg.byte 106) l
  let supply ← shareMint l (call.key 3) plan.authority (cfg.byte 106)
  need (supply = plan.target) .delta
  let expected ← if plan.issue then plainAdd plan.owned plan.shares else plainSub plan.owned plan.shares
  let owned ← token call l (call.key 4) (call.key 3) (call.key 2)
  need (owned = expected) .delta
  write l (call.key 5) (receiptFields call cfg plan)

/-- `exchange`. -/
def exchange (rt : Runtime) (call : Call) (l : Ledger) : Outcome Ledger := do
  let plan ← preflight rt call l
  commit call (l (call.key 0)).data plan l

/-- `process_instruction`. -/
def process (rt : Runtime) (call : Call) (l : Ledger) : Outcome Ledger :=
  if call.data.size = 0 then .error .bad
  else if call.data.byte 0 = 0 then initializeBasket rt call l
  else if call.data.byte 0 = 1 ∨ call.data.byte 0 = 2 then exchange rt call l
  else .error .bad

end StockMesh.Vault

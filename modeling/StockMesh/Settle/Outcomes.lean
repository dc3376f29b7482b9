import StockMesh.Settle.CellCommits

/-! # What the parties get

The CPIs of an instruction are calls of other programs, which may do anything that the runtime lets them. What
an instruction promises to its parties it therefore measures: the balances before the first CPI against those
after the last. The records that are written in between and after belong to the program, and balances do not,
so what was measured holds when the instruction returns. -/

namespace StockMesh.Settle

open Stateful

/-! ## Writes of records -/

section Touches

variable {keys : List Key} {s s' : Chain}

/-- Accounts outside `keys` are as they were. -/
def Touches (keys : List Key) (s s' : Chain) : Prop := ∀ key ∉ keys, s'.ledger key = s.ledger key

instance preorderTouches (keys : List Key) : IsPreorder Chain (Touches keys) where
  refl _ _ _ := rfl
  trans _ _ _ h h' key hkey := (h' key hkey).trans (h key hkey)

theorem touches_update {key : Key} {account : Account} (hkey : key ∈ keys) :
    Touches keys s { s with ledger := Function.update s.ledger key account } := by
  intro other hother
  have hne : other ≠ key := by
    rintro rfl
    exact hother hkey
  exact Function.update_of_ne hne _ _

theorem touches_writeData {key : Key} {offset : ℕ} {bytes : List UInt8} (hkey : key ∈ keys) :
    Keeps (Touches keys) (writeData key offset bytes) := by
  intro s _ s' h
  obtain ⟨data, -, rfl⟩ := writeData_eq_ok h
  exact touches_update hkey

theorem touches_writeFields {key : Key} {fields : List (ℕ × List UInt8)} (hkey : key ∈ keys) :
    Keeps (Touches keys) (writeFields key fields) := by
  intro s _ s' h
  obtain ⟨data, -, rfl⟩ := writeFields_eq_ok h
  exact touches_update hkey

theorem touches_setReturnData (bytes : List UInt8) : Keeps (Touches keys) (setReturnData bytes) :=
  .modify fun _ _ _ => rfl

/-- Balances outside `keys` are as they were. -/
theorem Touches.tokenAmount_eq (h : Touches keys s s') {key : Key} (hkey : key ∉ keys) :
    tokenAmount s'.ledger key = tokenAmount s.ledger key := by
  rw [tokenAmount, tokenAmount, h key hkey]

end Touches

/-! ## A sample market -/

section Market

/-- Moving tokens leaves the accounts of the program alone. -/
theorem creditToken_owned {key other : Key} {ledger : Ledger} {amount : ℕ} {program : ProgramId}
    (h : (ledger key).owner = program) : creditToken ledger other amount key = ledger key := by
  refine if_neg fun hboth => ?_
  rw [← hboth.1, h] at hboth
  exact program.2.1 hboth.2

/-- The token program alone: transfers between token accounts. -/
def tokenVenues : Venues sampleProgram where
  invoke _ ix ledger :=
    let amount := Buffer.ofBytes ((ix.data.drop 1).take 8)
    match ix.accounts[0]?, ix.accounts[2]? with
    | some src, some dst =>
      let paid := creditToken ledger src.key (tokenAmount ledger src.key - amount)
      .ok (creditToken paid dst.key (tokenAmount paid dst.key + amount))
    | _, _ => .error .runtime
  owned := by
    intro number ix ledger ledger' h key howner
    dsimp only at h
    split at h
    · cases h
      rw [creditToken_owned (by rwa [creditToken_owned howner]), creditToken_owned howner]
      exact ⟨howner, rfl⟩
    · cases h

/-- The key of which only the last byte is not zero. -/
def marketKey (b : UInt8) : Key := ⟨⟨List.replicate 31 0 ++ [b]⟩, by simp⟩

/-- The buffer that holds the given fields and zeros elsewhere: its bytes are the digits of one number. -/
def packed (size : ℕ) (fields : List (ℕ × List UInt8)) : Buffer where
  size := size
  byte i := UInt8.ofNat ((fields.map fun f => Buffer.ofBytes f.2 * 256 ^ f.1).sum / 256 ^ i)

/-- A message of the given bytes. -/
def packedBytes (bytes : List UInt8) : Buffer := packed bytes.length [(0, bytes)]

theorem packedBytes_opcode (b : UInt8) (bytes : List UInt8) :
    ¬(packedBytes (b :: bytes)).size = 0 ∧ (packedBytes (b :: bytes)).byte 0 = b := by
  refine ⟨Nat.succ_ne_zero _, ?_⟩
  simp [packedBytes, packed, Buffer.ofBytes]

/-- A token account of the market. -/
def marketToken (mint authority : Key) (amount : ℕ) : Account := ⟨tokenId, false, 1,
  packed 165 [(0, mint.toList), (32, authority.toList), (64, Buffer.toBytes 8 amount), (108, [1])]⟩

/-- A nonce of the market. -/
def marketNonce (wallet : Key) (sequence : ℕ) : Account := ⟨.ofNat 1, false, 1,
  packed 64 [(0, nonceTag), (8, wallet.toList), (40, Buffer.toBytes 8 sequence)]⟩

/-- Orders, claims and policies live at one address each. -/
def marketRuntime : Runtime where
  findProgramAddress seeds := (if seeds.head? = some orderSeed then marketKey 30
    else if seeds.head? = some claimSeed then marketKey 34 else marketKey 31, 255)
  minimumBalance _ := 1000

/-- An open policy for cash against the product. -/
def marketPolicy : Buffer := packed policyLen [(0, policyTag), (40, (marketKey 35).toList),
  (104, (marketKey 13).toList), (136, (marketKey 15).toList), (200, Buffer.toBytes 8 1),
  (208, Buffer.toBytes 8 50), (216, Buffer.toBytes 8 200), (224, [17])]

/-- The claim of the product: one share an atom. -/
def marketClaim : Buffer := packed claimLen [(0, claimTag), (40, (marketKey 35).toList),
  (104, (marketKey 13).toList), (136, (marketKey 15).toList), (168, (marketKey 31).toList),
  (200, tokenId.toList), (232, Buffer.toBytes 8 1), (240, Buffer.toBytes 8 1), (248, Buffer.toBytes 8 1),
  (256, Buffer.toBytes 8 1), (272, Buffer.toBytes 8 200), (280, Buffer.toBytes 2 10000), (283, [1])]

/-- The accounts by the numbers of their keys. -/
def marketTable : List (ℕ × Account) := [
  (11, marketNonce (marketKey 10) 7),
  (12, marketToken (marketKey 13) (marketKey 10) 1000),
  (13, ⟨tokenId, false, 1, mintData⟩),
  (14, marketToken (marketKey 15) (marketKey 10) 50),
  (15, ⟨tokenId, false, 1, mintData⟩),
  (20, ⟨systemId, false, 5000, ⟨0, fun _ => 0⟩⟩),
  (21, marketNonce (marketKey 20) 3),
  (22, marketToken (marketKey 15) (marketKey 20) 300),
  (23, marketToken (marketKey 13) (marketKey 20) 0),
  (31, ⟨.ofNat 1, false, 1, marketPolicy⟩),
  (33, marketToken (marketKey 15) (marketKey 30) 0),
  (34, ⟨.ofNat 1, false, 1, marketClaim⟩),
  (tokenId.number, programAccount)]

/-- A buyer with cash and a seller with the product, each with a nonce, and an empty escrow. -/
def marketLedger : Ledger := fun key =>
  ((marketTable.find? fun p => p.1 = key.number).map Prod.snd).getD ⟨.ofNat 0, false, 0, ⟨0, fun _ => 0⟩⟩

/-- Accounts of which those with the given numbers sign or are writable. -/
def marketCall {n : ℕ} (key : Fin n → Key) (signers writables : List ℕ) : Accounts n where
  key := key
  isSigner key := key.number ∈ signers
  isWritable key := key.number ∈ writables

/-- The accounts of a cell in which both sign. -/
def crossAccounts : Accounts 12 := marketCall ![marketKey 10, marketKey 11, marketKey 12, marketKey 13,
  marketKey 14, marketKey 15, tokenId, marketKey 20, marketKey 21, marketKey 22, marketKey 23, marketKey 31]
  [10, 20] [11, 12, 14, 21, 22, 23]

/-- Two signed intents that cross, 200 of the cash against 100 of the product, under opcode 3 or 12. -/
def crossPayload (opcode : UInt8) : Buffer := packedBytes ([opcode, 2, 2, 0] ++ Buffer.toBytes 8 100 ++
  ([0, 1, 2, 4, 3, 5, 6, 6] ++ Buffer.toBytes 8 7 ++ Buffer.toBytes 8 200 ++ Buffer.toBytes 8 90) ++
  ([7, 8, 9, 10, 5, 3, 6, 6] ++ Buffer.toBytes 8 3 ++ Buffer.toBytes 8 100 ++ Buffer.toBytes 8 150) ++
  ([0, 1] ++ Buffer.toBytes 8 200) ++ ([1, 0] ++ Buffer.toBytes 8 100))

/-- The accounts of the seller that places an order. -/
def placingAccounts : Accounts 12 := marketCall ![marketKey 20, marketKey 30, marketKey 22, marketKey 33,
  marketKey 23, marketKey 13, marketKey 15, tokenId, tokenId, marketKey 31, marketKey 34, systemId]
  [20] [20, 30, 22, 33, 23]

/-- 250 of the product at a limit of 4 a share. -/
def placePayload : Buffer := packedBytes ([15, 0, 0, 0] ++ Buffer.toBytes 2 10000 ++ [0, 0] ++
  Buffer.toBytes 8 0 ++ Buffer.toBytes 8 250 ++ Buffer.toBytes 8 4 ++ Buffer.toBytes 8 180 ++
  Buffer.toBytes 8 1 ++ Buffer.toBytes 8 10 ++ Buffer.toBytes 8 1 ++ Buffer.toBytes 8 1 ++
  (marketKey 35).toList)

/-- The accounts of the buyer that takes some of it. -/
def takingAccounts : Accounts 13 := marketCall ![marketKey 10, marketKey 11, marketKey 12, marketKey 13,
  marketKey 14, marketKey 15, tokenId, marketKey 20, marketKey 30, marketKey 33, marketKey 23, marketKey 31,
  marketKey 34] [10] [11, 12, 14, 30, 33, 23]

/-- A cell in which the order gives 100 of the product for 500 of the cash. -/
def takePayload : Buffer := packedBytes ([14, 1, 1, 0, 0, 0, 0, 0] ++
  Buffer.toBytes 8 100 ++ Buffer.toBytes 8 10 ++ Buffer.toBytes 8 7 ++ Buffer.toBytes 8 500 ++
  Buffer.toBytes 8 1000 ++ [0, 1, 2, 3, 6, 0, 0, 0] ++ ([11, 4, 5, 6, 0, 12] ++ Buffer.toBytes 2 10000 ++
    Buffer.toBytes 8 1 ++ Buffer.toBytes 8 1 ++ Buffer.toBytes 8 1) ++
  ([0, 7, 8, 9, 10, 1, 0, 0] ++ Buffer.toBytes 8 0 ++ Buffer.toBytes 8 100 ++ Buffer.toBytes 8 500 ++
    Buffer.toBytes 8 400))

/-- The accounts of the seller that ends the order. -/
def endingAccounts : Accounts 6 := marketCall ![marketKey 20, marketKey 30, marketKey 33, marketKey 22,
  marketKey 15, tokenId] [20] [20, 30, 33, 22]

/-- The seller takes back what is left. -/
def endPayload : Buffer := packedBytes ([16, 0, 0, 0, 0, 0, 0, 0] ++ Buffer.toBytes 8 0)

/-- The placing of the order. -/
def placing : Step Unit := place marketRuntime placingAccounts sampleClock tokenVenues placePayload

/-- The cell that fills it. -/
def taking : Step Unit :=
  clearInner noNatives marketRuntime takingAccounts sampleClock tokenVenues takePayload none

/-- The end of the order. -/
def ending : Step Unit := cancel marketRuntime endingAccounts tokenVenues endPayload

/-- The order is placed, filled and ended. -/
theorem placed_taken_ended : ∃ s s₁ s', placing { ledger := marketLedger } = (.ok (), s) ∧
    taking { ledger := s.ledger } = (.ok (), s₁) ∧ ending { ledger := s₁.ledger } = (.ok (), s') := by
  have hall : (placing { ledger := marketLedger }).1.isOk = true ∧
      (taking { ledger := (placing { ledger := marketLedger }).2.ledger }).1.isOk = true ∧
      (ending { ledger := (taking { ledger := (placing { ledger := marketLedger }).2.ledger }).2.ledger }).1.isOk
        = true := by
    decide +kernel
  obtain ⟨hplace, htake, hend⟩ := hall
  obtain ⟨_, s, hplace⟩ := Comp.exists_of_isOk hplace
  rw [hplace] at htake hend
  obtain ⟨_, s₁, htake⟩ := Comp.exists_of_isOk htake
  rw [htake] at hend
  obtain ⟨_, s', hend⟩ := Comp.exists_of_isOk hend
  exact ⟨s, s₁, s', hplace, htake, hend⟩

end Market

/-! ## Intents -/

section Intents

variable {program : ProgramId} {n : ℕ} {ledger : Ledger} {a : Accounts n} {clock : Clock} {d : Buffer}
  {natives : Natives} {venues : Venues program} {s s' : Chain}

/-- What the owner of an intent gets: exactly the signed input is spent for at least the signed minimum. -/
structure IntentFilled (a : Accounts n) (i : Intent n) (before after : Ledger) : Prop where
  spent : tokenAmount after (a.key i.source) + i.input = tokenAmount before (a.key i.source)
  received : tokenAmount before (a.key i.destination) + i.minOut ≤ tokenAmount after (a.key i.destination)

/-- An admitted token account is not the program's. -/
theorem checkedAsset_foreign {wallet t m p : Key} {inspectMint : Bool} {v : ℕ}
    (h : checkedAsset ledger a wallet t m p inspectMint = .ok v) :
    v = tokenAmount ledger t ∧ (ledger t).owner ≠ program := by
  obtain ⟨hamount, hp, howner⟩ := checkedAsset_eq_ok h
  refine ⟨hamount, fun heq => ?_⟩
  rw [howner] at heq
  rcases hp with rfl | rfl
  · exact program.2.1 heq.symm
  · exact program.2.2 heq.symm

/-- An intent with the balances that its owner had. -/
structure IntentMeasured (program : ProgramId) (a : Accounts n) (ledger : Ledger) (i : Intent n) : Prop where
  beforeIn : i.beforeIn = tokenAmount ledger (a.key i.source)
  beforeOut : i.beforeOut = tokenAmount ledger (a.key i.destination)
  source : (ledger (a.key i.source)).owner ≠ program
  destination : (ledger (a.key i.destination)).owner ≠ program

theorem readIntent_measured {cursor : ℕ} {i : Intent n} (h : readIntent program ledger a d cursor = .ok i) :
    IntentMeasured program a ledger i := by
  rw [readIntent, bind_eq_ok] at h
  obtain ⟨row, -, h⟩ := h
  obtain ⟨_, -, h⟩ := bind_eq_ok.mp h
  obtain ⟨_, -, h⟩ := bind_eq_ok.mp h
  obtain ⟨beforeIn, hin, h⟩ := bind_eq_ok.mp h
  obtain ⟨beforeOut, hout, h⟩ := bind_eq_ok.mp h
  obtain ⟨_, -, h⟩ := bind_eq_ok.mp h
  cases h
  obtain ⟨hin, hsource⟩ := checkedAsset_foreign hin
  obtain ⟨hout, hdestination⟩ := checkedAsset_foreign hout
  exact ⟨hin, hout, hsource, hdestination⟩

theorem readIntents_measured {count : ℕ} {intents : List (Intent n)}
    (h : readIntents program ledger a d count = .ok intents) :
    ∀ i ∈ intents, IntentMeasured program a ledger i := by
  have hrows := mapM_eq_ok.mp h
  clear h
  generalize List.range count = positions at hrows
  induction hrows with
  | nil => exact fun i hi => absurd hi List.not_mem_nil
  | cons hhead _ ih => exact List.forall_mem_cons.mpr ⟨readIntent_measured hhead, ih⟩

/-- What is measured for an intent after the CPIs. -/
theorem intentDeltas_eq_ok {i : Intent n} {row : ℕ × ℕ} (h : intentDeltas a ledger i = .ok row) :
    tokenAmount ledger (a.key i.source) + i.input = i.beforeIn ∧
    i.beforeOut + i.minOut ≤ tokenAmount ledger (a.key i.destination) := by
  rw [intentDeltas, bind_eq_ok] at h
  obtain ⟨after, hafter, h⟩ := h
  obtain ⟨input, hinput, h⟩ := bind_eq_ok.mp h
  obtain ⟨received, hreceived, h⟩ := bind_eq_ok.mp h
  obtain ⟨output, houtput, h⟩ := bind_eq_ok.mp h
  obtain ⟨_, hexact, h⟩ := bind_eq_ok.mp h
  obtain ⟨_, hleast, -⟩ := bind_eq_ok.mp h
  obtain ⟨hle, hinput⟩ := checkedSub_eq_ok.mp hinput
  obtain ⟨hle', houtput⟩ := checkedSub_eq_ok.mp houtput
  have hsource : after = tokenAmount ledger (a.key i.source) := (checkedAsset_eq_ok hafter).1
  have hdestination : received = tokenAmount ledger (a.key i.destination) := (checkedAsset_eq_ok hreceived).1
  have hexact := need_eq_ok.mp hexact
  have hleast := need_eq_ok.mp hleast
  omega

/-- The nonces of the intents. -/
def intentNonces (a : Accounts n) (intents : List (Intent n)) : List Key := intents.map fun i => a.key i.nonce

/-- Balances measured after the last CPI are those in the end. -/
theorem intents_filled {count : ℕ} {intents : List (Intent n)}
    (hread : readIntents program s.ledger a d count = .ok intents)
    (hmeasured : ∀ i ∈ intents, ∃ s₁ row, intentDeltas a s₁.ledger i = .ok row ∧
      Touches (intentNonces a intents) s₁ s') :
    ∀ i ∈ intents, IntentFilled a i s.ledger s'.ledger := by
  intro i hi
  obtain ⟨s₁, row, hdeltas, htouches⟩ := hmeasured i hi
  obtain ⟨hin, hout, hsource, hdestination⟩ := readIntents_measured hread i hi
  obtain ⟨hspent, hreceived⟩ := intentDeltas_eq_ok hdeltas
  -- a nonce is the program's, and a balance is not
  have hnot : ∀ key : Key, (s.ledger key).owner ≠ program → key ∉ intentNonces a intents := by
    intro key hforeign hkey
    obtain ⟨j, hj, rfl⟩ := List.mem_map.mp hkey
    exact hforeign (readIntents_ready hread j hj).1.owner
  constructor
  · rw [htouches.tokenAmount_eq (hnot _ hsource), ← hin]
    exact hspent
  · rw [htouches.tokenAmount_eq (hnot _ hdestination), ← hout]
    exact hreceived

theorem recordIntent_touches {intents : List (Intent n)} {i : Intent n} (hi : i ∈ intents) :
    Keeps (Touches (intentNonces a intents)) (recordIntent a i) :=
  .get_bind fun _ => .lift_bind fun _ _ => (touches_writeData (List.mem_map_of_mem hi)).bind fun _ => .pure

theorem recordResidual_touches {cell : FlowCell n} {p : Intent n × ℕ} (hp : p ∈ cell.intents.zipIdx) :
    Keeps (Touches (intentNonces a cell.intents)) (recordResidual a cell p) := by
  have hkey : a.key p.1.nonce ∈ intentNonces a cell.intents :=
    List.mem_map_of_mem (List.fst_mem_of_mem_zipIdx hp)
  refine .get_bind fun _ => .lift_bind fun _ _ => ?_
  refine Keeps.bind (.get_bind fun _ => ?_) fun _ => .pure
  exact .ite (fun _ => .lift_bind fun _ _ => .lift_bind fun _ _ => touches_writeData hkey)
    fun _ => touches_writeData hkey

/-- Every party of a crossing gets what it signed, whatever the venues did. -/
theorem clearCrossing_filled (h : clearCrossing natives a clock venues d s = (.ok (), s')) :
    ∃ intents, readIntents program s.ledger a d (d.byte 1).toNat = .ok intents ∧
      ∀ i ∈ intents, IntentFilled a i s.ledger s'.ledger := by
  rw [clearCrossing, get_bind, lift_bind_eq_ok] at h
  obtain ⟨cross, hcheck, h⟩ := h
  obtain ⟨_, s₁, -, h⟩ := Comp.bind_eq_ok.mp h
  obtain ⟨hread, -⟩ := checkCross_eq_ok hcheck
  obtain ⟨s₂, rows, s₃, hrows, h⟩ : ∃ s₂ rows s₃, cross.intents.mapM (recordIntent a) s₂ = (.ok rows, s₃) ∧
      ∃ bytes, setReturnData bytes s₃ = (.ok (), s') := by
    split at h
    · obtain ⟨_, s₂, -, h⟩ := Comp.bind_eq_ok.mp h
      obtain ⟨rows, s₃, hrows, h⟩ := Comp.bind_eq_ok.mp h
      exact ⟨s₂, rows, s₃, hrows, _, h⟩
    · obtain ⟨rows, s₃, hrows, h⟩ := Comp.bind_eq_ok.mp h
      exact ⟨s₁, rows, s₃, hrows, _, h⟩
  obtain ⟨bytes, hreturn⟩ := h
  refine ⟨cross.intents, hread, intents_filled hread fun i hi => ?_⟩
  -- the pass over the intent measures its balances
  obtain ⟨s₄, row, s₅, hpass, hafter⟩ := Each.exists_pass hrows (fun j hj => recordIntent_touches hj) hi
  rw [recordIntent, get_bind] at hpass
  obtain ⟨deltas, hdeltas, -⟩ := lift_bind_eq_ok.mp hpass
  exact ⟨s₄, deltas, hdeltas, IsTrans.trans _ _ _ hafter (touches_setReturnData bytes _ _ _ hreturn)⟩

/-- The sample's intents cross. -/
theorem clearCrossing_filled_sample : ∃ s', clearCrossing noNatives crossAccounts sampleClock tokenVenues
      (crossPayload 3) { ledger := marketLedger } = (.ok (), s') ∧
    ∃ intents, readIntents sampleProgram marketLedger crossAccounts (crossPayload 3)
        ((crossPayload 3).byte 1).toNat = .ok intents ∧
      ∀ i ∈ intents, IntentFilled crossAccounts i marketLedger s'.ledger := by
  obtain ⟨_, s', hrun⟩ := Comp.exists_of_isOk (x := clearCrossing noNatives crossAccounts sampleClock
    tokenVenues (crossPayload 3)) (s := { ledger := marketLedger }) (by decide +kernel)
  obtain ⟨intents, hread, hfilled⟩ := clearCrossing_filled hrun
  exact ⟨s', hrun, intents, hread, hfilled⟩

/-- So does every party of a cell of intents. -/
theorem clearFlowCell_filled (h : clearFlowCell natives a clock venues d s = (.ok (), s')) :
    ∃ intents, readIntents program s.ledger a d (d.byte 1).toNat = .ok intents ∧
      ∀ i ∈ intents, IntentFilled a i s.ledger s'.ledger := by
  rw [clearFlowCell, get_bind, lift_bind_eq_ok] at h
  obtain ⟨cell, hcheck, h⟩ := h
  obtain ⟨_, s₁, -, h⟩ := Comp.bind_eq_ok.mp h
  obtain ⟨_, s₂, -, h⟩ := Comp.bind_eq_ok.mp h
  obtain ⟨rows, s₃, hrows, hreturn⟩ := Comp.bind_eq_ok.mp h
  obtain ⟨hread, -⟩ := checkFlowCell_eq_ok hcheck
  refine ⟨cell.intents, hread, intents_filled hread fun i hi => ?_⟩
  obtain ⟨slot, hindex⟩ := List.getElem?_of_mem hi
  have hslot := List.mk_mem_zipIdx_iff_getElem?.mpr hindex
  obtain ⟨s₄, row, s₅, hpass, hafter⟩ := Each.exists_pass hrows (fun p hp => recordResidual_touches hp) hslot
  rw [recordResidual, get_bind] at hpass
  obtain ⟨deltas, hdeltas, -⟩ := lift_bind_eq_ok.mp hpass
  exact ⟨s₄, deltas, hdeltas, IsTrans.trans _ _ _ hafter (touches_setReturnData _ _ _ _ hreturn)⟩

/-- The same intents as a cell without residual graphs. -/
theorem clearFlowCell_filled_sample : ∃ s', clearFlowCell noNatives crossAccounts sampleClock tokenVenues
      (crossPayload 12) { ledger := marketLedger } = (.ok (), s') ∧
    ∃ intents, readIntents sampleProgram marketLedger crossAccounts (crossPayload 12)
        ((crossPayload 12).byte 1).toNat = .ok intents ∧
      ∀ i ∈ intents, IntentFilled crossAccounts i marketLedger s'.ledger := by
  obtain ⟨_, s', hrun⟩ := Comp.exists_of_isOk (x := clearFlowCell noNatives crossAccounts sampleClock
    tokenVenues (crossPayload 12)) (s := { ledger := marketLedger }) (by decide +kernel)
  obtain ⟨intents, hread, hfilled⟩ := clearFlowCell_filled hrun
  exact ⟨s', hrun, intents, hread, hfilled⟩

end Intents

/-! ## Mesh cells -/

section MeshCell

variable {natives : Natives} {rt : Runtime} {n : ℕ} {a : Accounts n} {clock : Clock} {program : ProgramId}
  {venues : Venues program} {ledger : Ledger} {d : Buffer} {s s' : Chain}

/-- A product with the balance that the buyer had. -/
theorem scanCellProduct_measured {h : CellHeader n} {funded : Option (Funded n)} {position : ℕ}
    {products next : List (CellProduct n)}
    (hscan : scanCellProduct rt program ledger a clock h funded d products position = .ok next)
    (hproducts : ∀ p ∈ products, p.beforeOutput = tokenAmount ledger (a.key p.destination)) :
    ∀ p ∈ next, p.beforeOutput = tokenAmount ledger (a.key p.destination) := by
  rw [scanCellProduct, bind_eq_ok] at hscan
  obtain ⟨row, -, hscan⟩ := hscan
  obtain ⟨_, -, hscan⟩ := bind_eq_ok.mp hscan
  obtain ⟨_, -, hscan⟩ := bind_eq_ok.mp hscan
  obtain ⟨_, -, hscan⟩ := bind_eq_ok.mp hscan
  obtain ⟨_, -, hscan⟩ := bind_eq_ok.mp hscan
  obtain ⟨beforeOutput, hbalance, hscan⟩ := bind_eq_ok.mp hscan
  obtain ⟨_, -, hscan⟩ := bind_eq_ok.mp hscan
  obtain ⟨instrument, -, hscan⟩ := bind_eq_ok.mp hscan
  obtain ⟨_, -, hscan⟩ := bind_eq_ok.mp hscan
  cases hscan
  refine List.forall_mem_append.mpr ⟨hproducts, fun p hp => ?_⟩
  obtain rfl := List.mem_singleton.mp hp
  exact (checkedAsset_eq_ok hbalance).1

/-- What the sellers give of the product at a position. -/
def stockOf (sellers : List (CellSeller n)) (position : ℕ) : ℕ :=
  ((sellers.filter fun seller => seller.position = position).map CellSeller.stockInput).sum

/-- The sellers with the balances that they had; what they give and get is added up. -/
structure SellersMeasured (ledger : Ledger) (a : Accounts n) (scan : SellerScan n) : Prop where
  stock : ∀ seller ∈ scan.sellers, seller.beforeStock = tokenAmount ledger (a.key seller.source)
  cash : ∀ seller ∈ scan.sellers, seller.beforeCash = tokenAmount ledger (a.key seller.cashDestination)
  internalRaw : ∀ position, scan.internalRaw position = stockOf scan.sellers position
  internalCash : scan.internalCash = (scan.sellers.map CellSeller.cashOutput).sum

theorem scanSeller_measured {h : CellHeader n} {funded : Option (Funded n)} {products : List (CellProduct n)}
    {scan next : SellerScan n} {position : ℕ}
    (hscan : scanSeller rt program ledger a clock h funded products d scan position = .ok next)
    (hbefore : SellersMeasured ledger a scan) : SellersMeasured ledger a next := by
  obtain ⟨seller, -, hscan⟩ := bind_eq_ok.mp hscan
  obtain ⟨_, -, hscan⟩ := bind_eq_ok.mp hscan
  obtain ⟨_, -, hscan⟩ := bind_eq_ok.mp hscan
  obtain ⟨_, -, hscan⟩ := bind_eq_ok.mp hscan
  obtain ⟨orderNonce, -, hscan⟩ := bind_eq_ok.mp hscan
  obtain ⟨beforeStock, hstock, hscan⟩ := bind_eq_ok.mp hscan
  obtain ⟨beforeCash, hcash, hscan⟩ := bind_eq_ok.mp hscan
  obtain ⟨_, -, hscan⟩ := bind_eq_ok.mp hscan
  obtain ⟨raw, hraw, hscan⟩ := bind_eq_ok.mp hscan
  obtain ⟨internalCash, hinternal, hscan⟩ := bind_eq_ok.mp hscan
  obtain ⟨_, -, hscan⟩ := bind_eq_ok.mp hscan
  cases hscan
  obtain ⟨-, rfl⟩ := checkedSum_eq_ok.mp hraw
  obtain ⟨-, rfl⟩ := checkedSum_eq_ok.mp hinternal
  constructor
  · refine List.forall_mem_append.mpr ⟨hbefore.stock, fun x hx => ?_⟩
    obtain rfl := List.mem_singleton.mp hx
    exact (checkedAsset_eq_ok hstock).1
  · refine List.forall_mem_append.mpr ⟨hbefore.cash, fun x hx => ?_⟩
    obtain rfl := List.mem_singleton.mp hx
    exact (checkedAsset_eq_ok hcash).1
  · -- only the column of the seller's product grows
    intro i
    dsimp only
    rw [stockOf, List.filter_append, List.map_append, List.sum_append]
    by_cases hi : i = seller.position
    · subst hi
      rw [Function.update_self, hbefore.internalRaw]
      simp [stockOf]
    · rw [Function.update_of_ne hi, hbefore.internalRaw]
      simp [stockOf, Ne.symm hi]
  · dsimp only
    rw [hbefore.internalCash]
    simp

/-- The funding graph is inspected on the ledger. -/
theorem inspectFunding_measured {h : CellHeader n} {cash : ℕ} {funding : Option Funding}
    {funded : Option (Funded n)} (hinspect : inspectFunding ledger a h cash funding = .ok funded) :
    ∀ f ∈ funded, f.beforeInput = tokenAmount ledger (a.key f.source.token) := by
  rcases funding with _ | funding
  · obtain ⟨_, -, hinspect⟩ := bind_eq_ok.mp hinspect
    cases hinspect
    exact fun f hf => absurd hf (Option.not_mem_none f)
  · obtain ⟨f, hf, hinspect⟩ := bind_eq_ok.mp hinspect
    cases hinspect
    rw [Funding.inspect, bind_eq_ok] at hf
    obtain ⟨g, -, hf⟩ := hf
    dsimp only at hf
    obtain ⟨_, -, hf⟩ := bind_eq_ok.mp hf
    obtain ⟨_, -, hf⟩ := bind_eq_ok.mp hf
    obtain ⟨beforeInput, hbefore, hf⟩ := bind_eq_ok.mp hf
    obtain ⟨_, -, hf⟩ := bind_eq_ok.mp hf
    cases hf
    intro f hmem
    obtain rfl := Option.mem_some_iff.mp hmem
    exact (checkedAsset_eq_ok hbefore).1

/-- The balances of all parties of a checked cell are those before the first CPI. -/
structure CellMeasured (ledger : Ledger) (a : Accounts n) (cell : Cell n) : Prop where
  cash : cell.beforeCash = tokenAmount ledger (a.key cell.header.source)
  funded : ∀ f ∈ cell.funded, f.beforeInput = tokenAmount ledger (a.key f.source.token)
  products : ∀ p ∈ cell.products, p.beforeOutput = tokenAmount ledger (a.key p.destination)
  sellers : SellersMeasured ledger a
    { sellers := cell.sellers, internalRaw := cell.internalRaw, internalCash := cell.internalCash }

theorem checkCell_measured {funding : Option Funding} {cell : Cell n}
    (h : checkCell rt program ledger a clock d funding = .ok cell) : CellMeasured ledger a cell := by
  rw [checkCell, bind_eq_ok] at h
  obtain ⟨⟨header, cash, funded⟩, hheader, h⟩ := h
  dsimp only at h
  obtain ⟨_, -, h⟩ := bind_eq_ok.mp h
  obtain ⟨products, hproducts, h⟩ := bind_eq_ok.mp h
  obtain ⟨scan, hscan, h⟩ := bind_eq_ok.mp h
  obtain ⟨graphs, -, h⟩ := bind_eq_ok.mp h
  obtain ⟨_, -, h⟩ := bind_eq_ok.mp h
  obtain ⟨_, -, h⟩ := bind_eq_ok.mp h
  obtain ⟨_, -, h⟩ := bind_eq_ok.mp h
  cases h
  rw [checkCellHeader, bind_eq_ok] at hheader
  obtain ⟨_, -, hheader⟩ := hheader
  obtain ⟨header', -, hheader⟩ := bind_eq_ok.mp hheader
  obtain ⟨_, -, hheader⟩ := bind_eq_ok.mp hheader
  obtain ⟨_, -, hheader⟩ := bind_eq_ok.mp hheader
  obtain ⟨cash', hcash, hheader⟩ := bind_eq_ok.mp hheader
  obtain ⟨funded', hfunded, hheader⟩ := bind_eq_ok.mp hheader
  obtain ⟨_, -, hheader⟩ := bind_eq_ok.mp hheader
  cases hheader
  constructor
  · exact (checkedAsset_eq_ok hcash).1
  · exact inspectFunding_measured hfunded
  · exact foldlM_inv (P := fun products : List (CellProduct n) =>
      ∀ p ∈ products, p.beforeOutput = tokenAmount ledger (a.key p.destination))
      (fun _ _ _ hproducts hstep => scanCellProduct_measured hstep hproducts)
      (fun p hp => absurd hp List.not_mem_nil) hproducts
  · refine foldlM_inv (P := SellersMeasured ledger a) (fun _ _ _ hbefore hstep =>
      scanSeller_measured hstep hbefore) ?_ hscan
    exact ⟨fun x hx => absurd hx List.not_mem_nil, fun x hx => absurd hx List.not_mem_nil, fun _ => rfl, rfl⟩

/-! ### After the CPIs -/

/-- An admitted token account and its mint are not the program's. -/
theorem checkedAsset_mint_foreign {wallet t m p : Key} {inspectMint : Bool} {v : ℕ}
    (h : checkedAsset ledger a wallet t m p inspectMint = .ok v) : (ledger m).owner ≠ program := by
  rw [checkedAsset, bind_eq_ok] at h
  obtain ⟨_, hidentity, -⟩ := h
  obtain ⟨hp, -, -, howner, -⟩ := need_eq_ok.mp hidentity
  intro heq
  rw [howner] at heq
  rcases hp with rfl | rfl
  · exact program.2.1 heq.symm
  · exact program.2.2 heq.symm

/-- A balance that is known by its key and is not the program's. -/
structure Foreign (program : ProgramId) (ledger : Ledger) (key : Key) (amount : ℕ) : Prop where
  amount_eq : tokenAmount ledger key = amount
  owner_ne : (ledger key).owner ≠ program

theorem Foreign.of_checkedAsset {wallet t m p : Key} {inspectMint : Bool} {v : ℕ}
    (h : checkedAsset ledger a wallet t m p inspectMint = .ok v) : Foreign program ledger t v := by
  obtain ⟨hamount, howner⟩ := checkedAsset_foreign h
  exact ⟨hamount.symm, howner⟩

/-- Writes to records of the program keep a foreign balance. -/
theorem Foreign.kept {key : Key} {amount : ℕ} (h : Foreign program s.ledger key amount) {keys : List Key}
    (hrecords : ∀ k ∈ keys, (s.ledger k).owner = program) (htouches : Touches keys s s') :
    tokenAmount s'.ledger key = amount := by
  rw [htouches.tokenAmount_eq fun hkey => h.owner_ne (hrecords key hkey)]
  exact h.amount_eq

/-- What the buyer's authority covered. -/
theorem authorizedInput_eq_ok (program : ProgramId) {financed : Financed n} {v : ℕ}
    (h : authorizedInput a ledger financed = .ok v) :
    (∃ after, Foreign program ledger (a.key financed.cell.header.source) after ∧
      after + financed.input = financed.cell.beforeCash + financed.fundedCash) ∧
    ∀ f ∈ financed.cell.funded, ∃ after, Foreign program ledger (a.key f.source.token) after ∧
      after + f.graph.input = f.beforeInput := by
  rw [authorizedInput] at h
  obtain ⟨after, hafter, h⟩ := bind_eq_ok.mp h
  obtain ⟨total, htotal, h⟩ := bind_eq_ok.mp h
  obtain ⟨_, hspent, h⟩ := bind_eq_ok.mp h
  obtain ⟨-, htotal⟩ := checkedSum_eq_ok.mp htotal
  obtain ⟨hle, hinput⟩ := need_eq_ok.mp hspent
  refine ⟨⟨after, .of_checkedAsset hafter, by omega⟩, fun f hf => ?_⟩
  rw [Option.mem_def] at hf
  rw [hf] at h
  obtain ⟨afterInput, hafterInput, h⟩ := bind_eq_ok.mp h
  obtain ⟨_, hfunding, -⟩ := bind_eq_ok.mp h
  obtain ⟨hle', hspent'⟩ := need_eq_ok.mp hfunding
  exact ⟨afterInput, .of_checkedAsset hafterInput, by omega⟩

/-- What the buyer received of a product: the amount and its exposure at the mint. -/
structure ProductRow (program : ProgramId) (a : Accounts n) (clock : Clock) (ledger : Ledger) (cell : Cell n)
    (p : CellProduct n × ℕ) (row : ℕ × ℕ) : Prop where
  balance : Foreign program ledger (a.key p.1.destination) (p.1.beforeOutput + row.1)
  internal_le : cell.internalRaw p.2 ≤ row.1
  mint : (ledger (a.key p.1.mint)).owner ≠ program
  exposure : (row.1 = 0 ∧ row.2 = 0) ∨
    convert (ledger (a.key p.1.mint)) p.1.conversion row.1 clock.unixTimestamp = .ok row.2

theorem productRow_eq_ok {cell : Cell n} {p : CellProduct n × ℕ} {row : ℕ × ℕ}
    (h : productRow a clock ledger cell p = .ok row) : ProductRow program a clock ledger cell p row := by
  rw [productRow, bind_eq_ok] at h
  obtain ⟨after, hafter, h⟩ := h
  obtain ⟨raw, hraw, h⟩ := bind_eq_ok.mp h
  obtain ⟨_, hinternal, h⟩ := bind_eq_ok.mp h
  obtain ⟨exposure, hexposure, h⟩ := bind_eq_ok.mp h
  cases h
  obtain ⟨hle, rfl⟩ := checkedSub_eq_ok.mp hraw
  obtain ⟨hamount, hforeign⟩ : Foreign program ledger (a.key p.1.destination) after := .of_checkedAsset hafter
  refine ⟨⟨?_, hforeign⟩, need_eq_ok.mp hinternal, checkedAsset_mint_foreign hafter, ?_⟩
  · dsimp only
    omega
  · split at hexposure
    · next hzero =>
      cases hexposure
      exact .inl ⟨hzero, rfl⟩
    · exact .inr hexposure

/-- The rows of all products add up to the total exposure. -/
theorem productRows_eq_ok (program : ProgramId) {cell : Cell n} {products : List (CellProduct n × ℕ)} {total total' : ℕ}
    {rows : List (ℕ × ℕ)} (h : productRows a clock ledger cell products total = .ok (rows, total')) :
    List.Forall₂ (ProductRow program a clock ledger cell) products rows ∧
    total' = total + (rows.map Prod.snd).sum := by
  induction products generalizing total rows with
  | nil =>
    cases h
    exact ⟨.nil, rfl⟩
  | cons p rest ih =>
    rw [productRows, bind_eq_ok] at h
    obtain ⟨row, hrow, h⟩ := h
    obtain ⟨next, hnext, h⟩ := bind_eq_ok.mp h
    obtain ⟨⟨rows', last⟩, hrest, h⟩ := bind_eq_ok.mp h
    cases h
    obtain ⟨-, rfl⟩ := checkedSum_eq_ok.mp hnext
    obtain ⟨hrows, rfl⟩ := ih hrest
    refine ⟨.cons (productRow_eq_ok hrow) hrows, ?_⟩
    rw [List.map_cons, List.sum_cons, Nat.add_assoc]

/-- What is measured for a seller after the CPIs. -/
theorem settledSeller_eq_ok (program : ProgramId) {h : CellHeader n} {seller : CellSeller n}
    (hsettled : settledSeller a ledger h seller = .ok ()) :
    (∃ stock, Foreign program ledger (a.key seller.source) stock ∧
      stock + seller.stockInput = seller.beforeStock) ∧
    (∃ cash, Foreign program ledger (a.key seller.cashDestination) cash ∧
      cash = seller.beforeCash + seller.cashOutput) ∧ seller.minimumCashOutput ≤ seller.cashOutput := by
  rw [settledSeller, bind_eq_ok] at hsettled
  obtain ⟨stock, hstock, hsettled⟩ := hsettled
  obtain ⟨cash, hcash, hsettled⟩ := bind_eq_ok.mp hsettled
  obtain ⟨⟨hle, hgiven⟩, ⟨hle', hgot⟩, hleast⟩ := need_eq_ok.mp hsettled
  exact ⟨⟨stock, .of_checkedAsset hstock, by omega⟩, ⟨cash, .of_checkedAsset hcash, by omega⟩, hleast⟩

/-! ### The outcome -/

/-- What a seller gets: exactly its cash for exactly its stock. -/
structure SellerFilled (a : Accounts n) (seller : CellSeller n) (before after : Ledger) : Prop where
  given : tokenAmount after (a.key seller.source) + seller.stockInput
    = tokenAmount before (a.key seller.source)
  got : tokenAmount after (a.key seller.cashDestination)
    = tokenAmount before (a.key seller.cashDestination) + seller.cashOutput
  least : seller.minimumCashOutput ≤ seller.cashOutput

/-- What the buyer gets of a product. -/
structure ProductFilled (a : Accounts n) (clock : Clock) (sellers : List (CellSeller n))
    (before after : Ledger) (p : CellProduct n × ℕ) (row : ℕ × ℕ) : Prop where
  gained : tokenAmount after (a.key p.1.destination) = tokenAmount before (a.key p.1.destination) + row.1
  sold_le : stockOf sellers p.2 ≤ row.1
  exposure : (row.1 = 0 ∧ row.2 = 0) ∨
    convert (after (a.key p.1.mint)) p.1.conversion row.1 clock.unixTimestamp = .ok row.2

/-- What a cell that returned has done for its parties: the buyer has spent exactly the signed cash, or what
the signed funding graph spends while the cash stays; its gains, with everything the sellers gave, have at
least the signed exposure; every seller has sold exactly its stock for exactly its cash. -/
structure CellCleared (a : Accounts n) (clock : Clock) (cell : Cell n) (before after : Ledger) : Prop where
  signed : cell.funded = none → tokenAmount after (a.key cell.header.source) + cell.header.input
    = tokenAmount before (a.key cell.header.source)
  funded : ∀ f ∈ cell.funded,
    tokenAmount after (a.key cell.header.source) = tokenAmount before (a.key cell.header.source) ∧
    tokenAmount after (a.key f.source.token) + f.graph.input = tokenAmount before (a.key f.source.token)
  products : ∃ rows, List.Forall₂ (ProductFilled a clock cell.sellers before after) cell.products.zipIdx rows ∧
    cell.header.minimumExposure ≤ (rows.map Prod.snd).sum
  sellers : ∀ seller ∈ cell.sellers, SellerFilled a seller before after

/-- The records that a cell writes. -/
def cellRecords (a : Accounts n) (cell : Cell n) : List Key :=
  a.key cell.header.nonce :: cell.sellers.map fun seller => a.key seller.nonce

theorem recordSeller_touches {keys : List Key} {seller : CellSeller n} (hkey : a.key seller.nonce ∈ keys) :
    Keeps (Touches keys) (recordSeller a seller) :=
  .ite (fun _ => .get_bind fun _ => .lift_bind fun _ _ => touches_writeFields hkey)
    fun _ => touches_writeData hkey

theorem recordCell_touches (cell : Cell n) (cleared : Cleared) :
    Keeps (Touches (cellRecords a cell)) (recordCell a cell cleared) := by
  refine (touches_writeData List.mem_cons_self).bind fun _ => ?_
  exact .forM fun seller hseller => recordSeller_touches (List.mem_cons_of_mem _ (List.mem_map_of_mem hseller))

/-- Rows measured after the CPIs stand for gains since before. -/
theorem ProductRow.filled {cell : Cell n} {sellers : List (CellSeller n)} {before : Ledger}
    {products : List (CellProduct n × ℕ)} {rows : List (ℕ × ℕ)}
    (h : List.Forall₂ (ProductRow program a clock ledger cell) products rows)
    (hbefore : ∀ p ∈ products, p.1.beforeOutput = tokenAmount before (a.key p.1.destination))
    (hraw : ∀ i, cell.internalRaw i = stockOf sellers i) {after : Ledger}
    (hkept : ∀ key, (ledger key).owner ≠ program → after key = ledger key) :
    List.Forall₂ (ProductFilled a clock sellers before after) products rows := by
  induction h with
  | nil => exact .nil
  | @cons p row products rows hrow _ ih =>
    obtain ⟨hp, hproducts⟩ := List.forall_mem_cons.mp hbefore
    refine .cons ⟨?_, hraw p.2 ▸ hrow.internal_le, ?_⟩ (ih hproducts)
    · rw [← hp, ← hrow.balance.amount_eq, tokenAmount, hkept _ hrow.balance.owner_ne, tokenAmount]
    · rw [hkept _ hrow.mint]
      exact hrow.exposure

/-- The balances that the last checks measure are those when the cell returns. -/
theorem CellCleared.of_settled {cell : Cell n} {financed : Financed n} {cleared : Cleared} {before : Ledger}
    (hmeasured : CellMeasured before a cell) (hfinances : Finances cell financed)
    (hsettle : settleCell a clock s.ledger financed = .ok cleared)
    (hrecords : ∀ key ∈ cellRecords a cell, (s.ledger key).owner = program)
    (htouches : Touches (cellRecords a cell) s s') : CellCleared a clock cell before s'.ledger := by
  obtain ⟨⟨residuals, global, hcell⟩, hsigned, hspent⟩ := hfinances
  -- a record is the program's, and a balance is not
  have hsame : ∀ key, (s.ledger key).owner ≠ program → s'.ledger key = s.ledger key :=
    fun key hforeign => htouches key fun hkey => hforeign (hrecords key hkey)
  have hkept : ∀ {key : Key} {amount : ℕ}, Foreign program s.ledger key amount →
      tokenAmount s'.ledger key = amount := fun hforeign => hforeign.kept hrecords htouches
  rw [settleCell] at hsettle
  dsimp only at hsettle
  obtain ⟨authorized, hauthorized, hsettle⟩ := bind_eq_ok.mp hsettle
  obtain ⟨⟨rows, exposure⟩, hrows, hsettle⟩ := bind_eq_ok.mp hsettle
  dsimp only at hsettle
  obtain ⟨_, hleast, hsettle⟩ := bind_eq_ok.mp hsettle
  obtain ⟨_, hsellers, -⟩ := bind_eq_ok.mp hsettle
  obtain ⟨⟨after, hcash, hsum⟩, hfunded⟩ := authorizedInput_eq_ok program hauthorized
  obtain ⟨hproducts, htotal⟩ := productRows_eq_ok program hrows
  have hleast := need_eq_ok.mp hleast
  have hsellers := forM_eq_ok.mp hsellers
  rw [hcell] at hcash hsum hfunded hproducts hleast hsellers
  have hafter := hkept hcash
  constructor
  · -- without funding the cell's own input is the whole authority
    intro hnone
    obtain ⟨hzero, hinput⟩ := hsigned hnone
    rw [hafter, ← hmeasured.cash]
    dsimp only at hsum
    omega
  · -- with funding the cell spends what the graph has brought in
    intro f hf
    obtain ⟨hinput, -⟩ := hspent (Option.ne_none_iff_exists'.mpr ⟨f, hf⟩)
    obtain ⟨afterInput, hsource, hgraph⟩ := hfunded f hf
    rw [hafter, hkept hsource, ← hmeasured.cash, ← hmeasured.funded f hf]
    dsimp only at hsum
    exact ⟨by omega, hgraph⟩
  · refine ⟨rows, ?_, by rwa [htotal, Nat.zero_add] at hleast⟩
    exact ProductRow.filled hproducts (fun p hp => hmeasured.products p.1 (List.fst_mem_of_mem_zipIdx hp))
      hmeasured.sellers.internalRaw hsame
  · intro seller hseller
    obtain ⟨⟨stock, hstock, hgiven⟩, ⟨cash, hgot, hcash⟩, hleast⟩ :=
      settledSeller_eq_ok program (hsellers seller hseller)
    constructor
    · rw [hkept hstock, ← hmeasured.sellers.stock seller hseller]
      exact hgiven
    · rw [hkept hgot, ← hmeasured.sellers.cash seller hseller]
      exact hcash
    · exact hleast

/-- What a cell that returned has done for its parties. -/
theorem clearInner_outcome {funding : Option Funding}
    (h : clearInner natives rt a clock venues d funding s = (.ok (), s')) :
    ∃ cell, checkCell rt program s.ledger a clock d funding = .ok cell ∧
      CellCleared a clock cell s.ledger s'.ledger := by
  rw [clearInner, get_bind, lift_bind_eq_ok] at h
  obtain ⟨cell, hcheck, h⟩ := h
  obtain ⟨financed, s₁, hexecute, h⟩ := Comp.bind_eq_ok.mp h
  rw [get_bind] at h
  obtain ⟨cleared, hsettle, h⟩ := lift_bind_eq_ok.mp h
  obtain ⟨_, s₂, hrecord, hreturn⟩ := Comp.bind_eq_ok.mp h
  obtain ⟨-, hready, -, hsellers⟩ := checkCell_eq_ok hcheck
  obtain ⟨hspares, hfinances⟩ := executeCell_eq_ok hexecute
  obtain ⟨residuals, global, hcell⟩ := hfinances.cell_eq
  have hwritten : Touches (cellRecords a cell) s₁ s₂ := by
    have htouches := recordCell_touches financed.cell cleared _ _ _ hrecord
    rwa [hcell] at htouches
  have hrecords : ∀ key ∈ cellRecords a cell, (s₁.ledger key).owner = program := by
    intro key hkey
    rcases List.mem_cons.mp hkey with rfl | hkey
    · exact (hspares _ List.not_mem_nil hready.owner).1
    · obtain ⟨seller, hseller, rfl⟩ := List.mem_map.mp hkey
      exact (hspares _ List.not_mem_nil (hsellers.ready seller hseller).1.owner).1
  exact ⟨cell, hcheck, .of_settled (checkCell_measured hcheck) hfinances hsettle hrecords
    (IsTrans.trans _ _ _ hwritten (touches_setReturnData _ _ _ _ hreturn))⟩

/-- A cell, funded or not, gives all parties what they signed, whatever the venues did. -/
theorem cell_clears {funding : Option Funding}
    (h : clearInner natives rt a clock venues d funding s = (.ok (), s')) :
    ∃ cell, checkCell rt program s.ledger a clock d funding = .ok cell ∧
      CellCleared a clock cell s.ledger s'.ledger := clearInner_outcome h

/-- The cell that fills the sample order. -/
theorem cell_clears_sample : ∃ s s', placing { ledger := marketLedger } = (.ok (), s) ∧
    taking { ledger := s.ledger } = (.ok (), s') ∧
    ∃ cell, checkCell marketRuntime sampleProgram s.ledger takingAccounts sampleClock takePayload none
        = .ok cell ∧
      CellCleared takingAccounts sampleClock cell s.ledger s'.ledger := by
  obtain ⟨s, s', -, hplace, htake, -⟩ := placed_taken_ended
  obtain ⟨cell, hcheck, hcleared⟩ := cell_clears htake
  exact ⟨s, s', hplace, htake, cell, hcheck, hcleared⟩

/-- What a fill moves: exactly its stock out of the escrow that the order names, and exactly its cash to the
account that the order names. -/
structure FillMoves (order : Buffer) (stock cash : ℕ) (before after : Ledger) : Prop where
  escrow : ∃ key : Key, order.slice 168 32 = some key.toList ∧
    tokenAmount after key + stock = tokenAmount before key
  paid : ∃ key : Key, order.slice 200 32 = some key.toList ∧
    tokenAmount after key = tokenAmount before key + cash

/-- Every fill that a cell records has moved its stock and its cash. -/
theorem clearInner_fill {funding : Option Funding} {key : Key} {revision stock cash : ℕ}
    (h : clearInner natives rt a clock venues d funding s = (.ok (), s'))
    (hfill : (key, .fill revision stock cash) ∈ cellChanges a d) :
    FillMoves (s.ledger key).data stock cash s.ledger s'.ledger := by
  obtain ⟨cell, hcheck, hcleared⟩ := clearInner_outcome h
  obtain ⟨hread, -, -, hsellers⟩ := checkCell_eq_ok hcheck
  rw [cellChanges, changesOf_of_ok hread, hsellers.changes_eq] at hfill
  rcases List.mem_cons.mp hfill with hbuyer | hasker
  · cases hbuyer
  · obtain ⟨seller, hseller, hchange⟩ := List.mem_map.mp hasker
    obtain ⟨rfl, hasked⟩ := Prod.mk.inj hchange
    split at hasked
    · next hresting =>
      cases hasked
      obtain ⟨h', claim, horder⟩ := (hsellers.ready seller hseller).1.order hresting
      have hfilled := hcleared.sellers seller hseller
      exact ⟨⟨_, horder.escrow, hfilled.given⟩, ⟨_, horder.cash, hfilled.got⟩⟩
    · cases hasked

/-- So has every fill that a funded cell records. -/
theorem executeFunding_fill {key : Key} {revision stock cash : ℕ}
    (h : executeFunding natives rt a clock venues d s = (.ok (), s'))
    (hfill : (key, .fill revision stock cash) ∈ fundingChanges a d) :
    FillMoves (s.ledger key).data stock cash s.ledger s'.ledger := by
  rw [executeFunding, lift_bind_eq_ok] at h
  obtain ⟨_, -, h⟩ := h
  obtain ⟨_, -, h⟩ := lift_bind_eq_ok.mp h
  obtain ⟨fundingLen, hfunding, h⟩ := lift_bind_eq_ok.mp h
  obtain ⟨cellLen, hcell, h⟩ := lift_bind_eq_ok.mp h
  obtain ⟨_, -, h⟩ := lift_bind_eq_ok.mp h
  obtain ⟨bytes, -, h⟩ := lift_bind_eq_ok.mp h
  obtain ⟨cell, hwindow, h⟩ := lift_bind_eq_ok.mp h
  rw [fundingChanges, changesOf_of_ok hfunding, changesOf_of_ok hcell, changesOf_of_ok hwindow] at hfill
  exact clearInner_fill h hfill

end MeshCell

/-! ## The end of an order -/

section Cancel

variable {rt : Runtime} {n : ℕ} {a : Accounts n} {program : ProgramId} {venues : Venues program}
  {ledger : Ledger} {d : Buffer} {s s' : Chain}

/-- What the end of an order moves: exactly what is left of it, out of the escrow that the order names, to a
token account of the owner that it names. -/
structure CancelMoves (order : Buffer) (owner escrow destination : Key) (remaining : ℕ) (before after : Ledger) :
    Prop where
  owner_eq : order.slice 8 32 = some owner.toList
  escrow_eq : order.slice 168 32 = some escrow.toList
  left_eq : u64At order 248 = .ok remaining
  authority : keyAt (before destination).data 32 = .ok owner
  taken : tokenAmount after escrow + remaining = tokenAmount before escrow
  returned : tokenAmount after destination = tokenAmount before destination + remaining

/-- The authority over an admitted token account. -/
theorem checkedAsset_authority {wallet t m p : Key} {inspectMint : Bool} {v : ℕ}
    (h : checkedAsset ledger a wallet t m p inspectMint = .ok v) : keyAt (ledger t).data 32 = .ok wallet := by
  rw [checkedAsset, bind_eq_ok] at h
  obtain ⟨_, -, h⟩ := h
  dsimp only at h
  obtain ⟨_, -, h⟩ := bind_eq_ok.mp h
  obtain ⟨mint, -, h⟩ := bind_eq_ok.mp h
  obtain ⟨authority, hauthority, h⟩ := bind_eq_ok.mp h
  obtain ⟨_, hidentity, -⟩ := bind_eq_ok.mp h
  rw [← (need_eq_ok.mp hidentity).2]
  exact ad_eq_ok.mp hauthority

/-- Cancelling returns to the owner what is left. -/
theorem cancel_moves {order : Fin n} (horder : (order : ℕ) = 1)
    (h : cancel rt a venues d s = (.ok (), s')) : ∃ owner escrow destination remaining,
    CancelMoves (s.ledger (a.key order)).data owner escrow destination remaining s.ledger s'.ledger := by
  rw [cancel, lift_bind_eq_ok] at h
  obtain ⟨_, -, h⟩ := h
  obtain ⟨p, hp, h⟩ := lift_bind_eq_ok.mp h
  obtain ⟨nonce, -, h⟩ := lift_bind_eq_ok.mp h
  rw [get_bind] at h
  obtain ⟨⟨remaining, revision⟩, hcancel, h⟩ := lift_bind_eq_ok.mp h
  dsimp only at h
  obtain ⟨before, hbefore, h⟩ := lift_bind_eq_ok.mp h
  obtain ⟨destinationBefore, hdestination, h⟩ := lift_bind_eq_ok.mp h
  obtain ⟨_, -, h⟩ := lift_bind_eq_ok.mp h
  obtain ⟨s₁, hspares, h⟩ := Keeps.of_optional (spares_transferCheckedSigned rt _ _ _ _ _ _ _ _) h
  rw [get_bind] at h
  obtain ⟨after, hafter, h⟩ := lift_bind_eq_ok.mp h
  obtain ⟨destinationAfter, hdestinationAfter, h⟩ := lift_bind_eq_ok.mp h
  obtain ⟨_, hmoved, h⟩ := lift_bind_eq_ok.mp h
  obtain ⟨next, -, h⟩ := lift_bind_eq_ok.mp h
  obtain ⟨_, s₂, hwrite, hreturn⟩ := Comp.bind_eq_ok.mp h
  obtain ⟨howner, -, -, hremaining, -, -, hwallet, hescrow⟩ := cancelOrder_eq_ok hcancel
  obtain ⟨hle, htaken, hle', hreturned⟩ := need_eq_ok.mp hmoved
  -- the order is the program's, and the balances are not
  have howner₁ := (hspares _ List.not_mem_nil howner).1
  have htouches : Touches [a.key p.order] s₁ s' :=
    IsTrans.trans _ _ _ (touches_writeFields (List.mem_singleton_self _) _ _ _ hwrite)
      (touches_setReturnData _ _ _ _ hreturn)
  have hrecord : ∀ k ∈ [a.key p.order], (s₁.ledger k).owner = program := by
    intro k hk
    rw [List.mem_singleton.mp hk]
    exact howner₁
  obtain rfl : order = p.order := Fin.ext (horder.trans (cancelAccounts_order hp).symm)
  refine ⟨a.key p.owner, a.key p.escrow, a.key p.destination, remaining, hwallet, hescrow, hremaining,
    checkedAsset_authority hdestination, ?_, ?_⟩
  · have hescrowAfter : Foreign program s₁.ledger (a.key p.escrow) after := .of_checkedAsset hafter
    rw [hescrowAfter.kept hrecord htouches, ← (checkedAsset_eq_ok hbefore).1]
    omega
  · have hdestinationAfter : Foreign program s₁.ledger (a.key p.destination) destinationAfter :=
      .of_checkedAsset hdestinationAfter
    rw [hdestinationAfter.kept hrecord htouches, ← (checkedAsset_eq_ok hdestination).1]
    omega

end Cancel

end StockMesh.Settle

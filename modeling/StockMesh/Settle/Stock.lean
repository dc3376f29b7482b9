import StockMesh.Settle.Receipt
import StockMesh.Settle.Runtime

/-! # Stock policies

A policy account commits an authority, an instrument, the exact pair of mints and the rights document
in its address, and carries a version, a validity window and flags. `stockExecute` settles a graph only
under a policy of the signed version, and prefixes the receipt with that version. -/

namespace StockMesh.Settle

open Stateful

/-- `TAG` of a policy: the bytes of SKEWSTK2. -/
def policyTag : List UInt8 := [83, 75, 69, 87, 83, 84, 75, 50]

/-- Length of a policy account (`LEN`). -/
def policyLen : ℕ := 225

/-- The seed prefix of a policy: the bytes of stock2. -/
def policySeed : List UInt8 := [115, 116, 111, 99, 107, 50]

/-- `SECONDARY`. -/
def secondary : UInt8 := 1

/-- `HALTED`. -/
def halted : UInt8 := 8

/-- `UNDERLYING_OPEN`. -/
def underlyingOpen : UInt8 := 16

section Policy

variable (rt : Runtime) (program : ProgramId) {n : ℕ} (ledger : Ledger) (a : Accounts n)
  (clock : Clock)

/-- `validate_policy_for_pair`. Mints are given by accounts of the list, so their indices are in
range. -/
def validatePolicyForPair (index version maxAge : ℕ) (allowClosed : Bool) (inputMint outputMint : Fin n)
    (deadline : ℕ) : Outcome Unit := do
  need (index < n ∧ 1 < index ∧ 1 ≤ maxAge ∧ maxAge ≤ 150) .bounds
  let policy ← accountIndex n index .bounds
  let account := ledger (a.key policy)
  need (account.owner = program ∧ a.isWritable (a.key policy) = false ∧ account.executable = false)
    .identity
  let p := account.data
  need (p.size = policyLen ∧ p.slice 0 8 = some policyTag) .identity
  let authority ← ad (keyAt p 8)
  let instrument ← ad (keyAt p 40)
  let input ← ad (keyAt p 104)
  let output ← ad (keyAt p 136)
  let rights ← ad (keyAt p 168)
  let stored ← ad (u64At p 200)
  need (a.key policy = rt.address [policySeed, authority.toList, instrument.toList, input.toList,
    output.toList, rights.toList] ∧ stored = version) .identity
  let updated ← ad (u64At p 208)
  let expires ← ad (u64At p 216)
  need (updated ≤ clock.slot ∧ clock.slot - updated ≤ maxAge ∧ clock.slot ≤ expires ∧
    deadline ≤ expires) .expired
  let flags := p.byte 224
  need (flags &&& secondary ≠ 0 ∧ flags &&& halted = 0 ∧
    (flags &&& underlyingOpen ≠ 0 ∨ allowClosed = true)) .expired
  need (a.key inputMint = input ∧ a.key outputMint = output) .identity

/-- `validate_policy_for_graph`. -/
def validatePolicyForGraph (index version maxAge : ℕ) (allowClosed : Bool) (g : Graph n) :
    Outcome Unit :=
  validatePolicyForPair rt program ledger a clock index version maxAge allowClosed
    (g.assets g.first).mint (g.assets g.sink).mint g.deadline

end Policy

/-- `stock::execute`. -/
def stockExecute (natives : Natives) (rt : Runtime) {n : ℕ} (a : Accounts n) (clock : Clock)
    {program : ProgramId} (venues : Venues program) (d : Buffer) : Step Unit := do
  lift (need (20 < d.size ∧ d.byte 0 = 7 ∧ d.byte 2 ≤ 1 ∧ d.byte 3 = 0) .bounds)
  let index := (d.byte 1).toNat
  lift (need (index < n ∧ 1 < index) .bounds)
  let version ← lift (ad (u64At d 4))
  let maxAge ← lift (ad (u64At d 12))
  lift (need (1 ≤ maxAge ∧ maxAge ≤ 150) .bounds)
  let graph ← lift (ad (Graph.decode (d.drop 20) n))
  let s ← get
  lift (validatePolicyForGraph rt program s.ledger a clock index version maxAge (d.byte 2 = 1) graph)
  settleGraph natives a clock venues (d.drop 20)
  let s ← get
  lift (need (s.returnData.length ≤ 224) .conservation)
  setReturnData (policyTag ++ Buffer.toBytes 8 version ++ s.returnData)

section Receipt

variable {natives : Natives} {rt : Runtime} {n : ℕ} {a : Accounts n} {clock : Clock}
  {program : ProgramId} {venues : Venues program}

/-- The header of a graph's receipt. -/
theorem outcome_receipt {g : Graph n} {before : Fin g.assetCount → ℕ} {wallet : Fin n}
    {ledger : Ledger} {run : Run natives g.assetCount} {outcome : GraphOutcome}
    (h : finishGraph a g before wallet ledger run = .ok outcome) :
    32 ≤ outcome.receiptLen ∧ ∃ rows, outcome.receipt = Buffer.toBytes 8 outcome.sequence ++
      (Buffer.toBytes 8 outcome.actualIn ++ (Buffer.toBytes 8 outcome.actualOut ++
        (Buffer.toBytes 8 run.executed ++ rows))) := by
  rw [finishGraph, bind_eq_ok] at h
  obtain ⟨actualIn, -, h⟩ := h
  obtain ⟨actualOut, -, h⟩ := bind_eq_ok.mp h
  obtain ⟨_, -, h⟩ := bind_eq_ok.mp h
  obtain ⟨_, -, h⟩ := bind_eq_ok.mp h
  obtain ⟨_, -, h⟩ := bind_eq_ok.mp h
  obtain ⟨after, -, h⟩ := bind_eq_ok.mp h
  obtain ⟨_, -, h⟩ := bind_eq_ok.mp h
  cases h
  refine ⟨Nat.le_add_right _ _, run.receipts.drop 32, ?_⟩
  simp [overwrite, List.append_assoc]

/-- The nonce of a preflighted graph has the length of one. -/
theorem preflightDecoded_nonce {g : Graph n} {ledger : Ledger} {wallet nonce : Fin n}
    {aggregate : List ℕ} {pending : ℕ}
    (h : preflightDecoded ledger a g program clock wallet nonce aggregate pending = .ok ()) :
    (ledger (a.key nonce)).data.size = nonceLen := by
  rw [preflightDecoded, bind_eq_ok] at h
  obtain ⟨_, -, h⟩ := h
  obtain ⟨_, hnonce, -⟩ := bind_eq_ok.mp h
  rw [checkNonce, bind_eq_ok] at hnonce
  obtain ⟨_, hform, -⟩ := hnonce
  exact (need_eq_ok.mp hform).1

/-- A stock settlement: the settled graph, and a receipt that reports the version and what the graph
spent and delivered. -/
structure StockSettled (natives : Natives) (a : Accounts n) (clock : Clock) (venues : Venues program)
    (d : Buffer) (version : ℕ) (g : Graph n) (outcome : GraphOutcome) (s s' : Chain) : Prop where
  decode_eq : Graph.decode d n = .ok g
  sequence_eq : outcome.sequence = g.sequence
  input_eq : outcome.actualIn = g.input
  minOut_le : g.minOut ≤ outcome.actualOut
  output_lt : outcome.actualOut < u64Size
  /-- Among the accounts of the program only a nonce changes. -/
  owned : ∀ key, (s.ledger key).data.size ≠ nonceLen → (s.ledger key).owner = program →
    (s'.ledger key).owner = program ∧ (s'.ledger key).data = (s.ledger key).data
  receipt_eq : ∃ rest, 8 ≤ rest.length ∧ s'.returnData = policyTag ++ (Buffer.toBytes 8 version ++
    (Buffer.toBytes 8 outcome.sequence ++ (Buffer.toBytes 8 outcome.actualIn ++
      (Buffer.toBytes 8 outcome.actualOut ++ rest))))

theorem stockExecute_eq_ok {d : Buffer} {s s' : Chain}
    (h : stockExecute natives rt a clock venues d s = (.ok (), s')) :
    ∃ version g outcome, u64At d 4 = .ok version ∧
      StockSettled natives a clock venues (d.drop 20) version g outcome s s' := by
  rw [stockExecute, lift_bind_eq_ok] at h
  obtain ⟨_, -, h⟩ := h
  obtain ⟨_, -, h⟩ := lift_bind_eq_ok.mp h
  obtain ⟨version, hversion, h⟩ := lift_bind_eq_ok.mp h
  obtain ⟨maxAge, -, h⟩ := lift_bind_eq_ok.mp h
  obtain ⟨_, -, h⟩ := lift_bind_eq_ok.mp h
  obtain ⟨graph, hgraph, h⟩ := lift_bind_eq_ok.mp h
  rw [get_bind] at h
  obtain ⟨_, -, h⟩ := lift_bind_eq_ok.mp h
  obtain ⟨_, s₁, hsettle, h⟩ := Comp.bind_eq_ok.mp h
  rw [get_bind] at h
  obtain ⟨_, -, h⟩ := lift_bind_eq_ok.mp h
  cases h
  obtain ⟨g, wallet, nonce, outcome, s₂, -, -, hsettles⟩ := settleGraphFor_eq_ok hsettle
  obtain rfl : g = graph :=
    Except.ok.inj (hsettles.decode_eq.symm.trans (ad_eq_ok.mp hgraph))
  obtain ⟨-, -, hseq, hin, hout, hmin⟩ := executeGraph_conserved hsettles.execute_eq
  obtain ⟨before, oracle, run, -, -, -, hfinish⟩ := executeGraph_eq_ok hsettles.execute_eq
  obtain ⟨hlen, rows, hreceipt⟩ := outcome_receipt hfinish
  refine ⟨version, g, outcome, ad_eq_ok.mp hversion, ?_⟩
  obtain ⟨data, -, hs₁⟩ := hsettles.finish_eq
  have hreturn : s₁.returnData = outcome.receipt.take outcome.receiptLen := by rw [hs₁]
  exact {
    decode_eq := hsettles.decode_eq
    sequence_eq := hseq
    input_eq := hin
    minOut_le := hmin
    output_lt := by
      rw [hout]
      exact (Nat.sub_le _ _).trans_lt (tokenAmount_lt _ _)
    owned := fun key hsize howner => hsettles.owned howner fun heq =>
      hsize (heq ▸ preflightDecoded_nonce hsettles.preflight_eq)
    receipt_eq := by
      refine ⟨(Buffer.toBytes 8 run.executed ++ rows).take (outcome.receiptLen - 24), ?_, ?_⟩
      · rw [List.length_take, List.length_append, Buffer.length_toBytes]
        omega
      · show policyTag ++ Buffer.toBytes 8 version ++ s₁.returnData = _
        rw [hreturn, hreceipt, List.append_assoc]
        have htake : ∀ (k v : ℕ) (rest : List UInt8), 8 ≤ k →
            (Buffer.toBytes 8 v ++ rest).take k = Buffer.toBytes 8 v ++ rest.take (k - 8) := by
          intro k v rest hk
          rw [List.take_append, Buffer.length_toBytes,
            List.take_of_length_le (by rw [Buffer.length_toBytes]; exact hk)]
        rw [htake _ _ _ (by omega), htake _ _ _ (by omega), htake _ _ _ (by omega)]
        congr 5 }

end Receipt

end StockMesh.Settle

import StockMesh.Settle.Stock

/-! # Capsule plans on chain

A plan account commits a total input, a total minimum output, the largest capsule and an expiry. Every
capsule is one graph settled under a stock policy; it must spend exactly the next instalment and bring
the cumulative output up to its pro-rata floor. The plan account is written only after the capsule has
settled. -/

namespace StockMesh.Settle

open Stateful

/-- `TAG` of a plan: the bytes of SKEWCAP1. -/
def capsuleTag : List UInt8 := [83, 75, 69, 87, 67, 65, 80, 49]

/-- The seed prefix of a plan: the bytes of capsule. -/
def capsuleSeed : List UInt8 := [99, 97, 112, 115, 117, 108, 101]

/-- Length of a plan account (`LEN`). -/
def capsuleLen : ℕ := 232

/-- `MAX_PLAN_INPUT`. -/
def maxPlanInput : ℕ := 10000000000 * 1000000

/-- `MAX_CAPSULE_INPUT`. -/
def maxCapsuleInput : ℕ := 500000 * 1000000

/-- `MAX_CAPSULES`. -/
def maxCapsules : ℕ := 20000

/-- `MAX_LIFETIME_SLOTS`. -/
def maxLifetimeSlots : ℕ := 1512000

/-- The fields of a new plan. -/
def planFields (owner id policy inputMint outputMint : Key) (totalInput totalMinimumOutput
    maximumCapsuleInput firstSequence expiresSlot : ℕ) : List (ℕ × List UInt8) :=
  [(0, capsuleTag), (8, owner.toList), (40, id.toList), (72, policy.toList), (104, inputMint.toList),
    (136, outputMint.toList), (168, Buffer.toBytes 8 totalInput),
    (176, Buffer.toBytes 8 totalMinimumOutput), (184, Buffer.toBytes 8 maximumCapsuleInput),
    (208, Buffer.toBytes 8 firstSequence), (216, Buffer.toBytes 8 expiresSlot)]

section Initialize

variable (rt : Runtime) (program : ProgramId) {n : ℕ} (a : Accounts n) (clock : Clock)

/-- `initialize`: opcode 10. -/
def initializeCapsule (d : Buffer) : Step Unit := do
  lift (need (n = 6 ∧ d.size = 73 ∧ d.byte 0 = 10) .bounds)
  let owner ← lift (accountIndex n 0 .overflow)
  let plan ← lift (accountIndex n 1 .overflow)
  let policy ← lift (accountIndex n 2 .overflow)
  let inputMint ← lift (accountIndex n 3 .overflow)
  let outputMint ← lift (accountIndex n 4 .overflow)
  let system ← lift (accountIndex n 5 .overflow)
  let s ← get
  lift (need (a.isSigner (a.key owner) = true ∧ a.isWritable (a.key owner) = true ∧
    a.isWritable (a.key plan) = true ∧ a.isWritable (a.key policy) = false ∧
    a.isWritable (a.key inputMint) = false ∧ a.isWritable (a.key outputMint) = false ∧
    (s.ledger (a.key policy)).owner = program ∧ a.key system = systemId ∧
    a.key plan ≠ a.key policy ∧ a.key inputMint ≠ a.key outputMint) .identity)
  let id ← lift (ad (keyAt d 1))
  let totalInput ← lift (ad (u64At d 33))
  let totalMinimumOutput ← lift (ad (u64At d 41))
  let maximumCapsuleInput ← lift (ad (u64At d 49))
  let firstSequence ← lift (ad (u64At d 57))
  let expiresSlot ← lift (ad (u64At d 65))
  lift (need (id ≠ .ofFn (fun _ => 0) ∧ 0 < totalInput ∧ totalInput ≤ maxPlanInput ∧
    0 < totalMinimumOutput ∧ 0 < maximumCapsuleInput ∧ maximumCapsuleInput ≤ maxCapsuleInput ∧
    (totalInput + maximumCapsuleInput - 1) / maximumCapsuleInput ≤ maxCapsules ∧
    0 < firstSequence ∧ clock.slot ≤ expiresSlot) .bounds)
  let latest ← lift (checkedSum clock.slot maxLifetimeSlots .bounds)
  lift (need (expiresSlot ≤ latest) .bounds)
  let pda := rt.address [capsuleSeed, (a.key owner).toList, id.toList]
  lift (need (a.key plan = pda ∧ (s.ledger (a.key plan)).data.size = 0 ∧
    (s.ledger (a.key plan)).owner = systemId) .identity)
  createAccount rt program (a.key owner) (a.key plan) capsuleLen
  -- a new account holds zeros, which is what the other fields start with
  writeFields (a.key plan) (planFields (a.key owner) id (a.key policy) (a.key inputMint)
    (a.key outputMint) totalInput totalMinimumOutput maximumCapsuleInput firstSequence expiresSlot)

end Initialize

/-- The decoded instruction of a capsule. -/
structure CapsuleCall (n : ℕ) where
  plan : Fin n
  policy : Fin n
  wallet : Fin n
  nonce : Fin n
  allowClosed : UInt8
  id : Key
  sequence : ℕ
  version : ℕ
  maxAge : ℕ
  body : Buffer
  graph : Graph n

/-- The numbers of a stored plan. -/
structure StoredPlan where
  totalInput : ℕ
  totalMinimumOutput : ℕ
  maximumCapsuleInput : ℕ
  settledInput : ℕ
  settledOutput : ℕ
  expiresSlot : ℕ
  capsuleCount : ℕ

section Execute

variable {n : ℕ}

/-- The graph names an account neither as an asset nor in a leg. -/
def Avoids (g : Graph n) (i : Fin n) : Prop :=
  (∀ asset, i ≠ (g.assets asset).token ∧ i ≠ (g.assets asset).mint ∧ i ≠ (g.assets asset).program) ∧
  ∀ leg ∈ g.legs, i ≠ leg.program ∧ i ∉ leg.accounts

instance (g : Graph n) (i : Fin n) : Decidable (Avoids g i) := inferInstanceAs (Decidable (_ ∧ _))

/-- The instruction of a capsule with its account checks. -/
def capsuleCall (program : ProgramId) (ledger : Ledger) (a : Accounts n) (d : Buffer) :
    Outcome (CapsuleCall n) := do
  need (60 < d.size ∧ d.byte 0 = 11 ∧ d.byte 3 ≤ 1 ∧ 6 ≤ n) .bounds
  let planIndex := (d.byte 1).toNat
  let policyIndex := (d.byte 2).toNat
  need (1 < planIndex ∧ 1 < policyIndex ∧ planIndex < n ∧ policyIndex < n ∧ planIndex ≠ policyIndex)
    .bounds
  let plan ← accountIndex n planIndex .overflow
  let policy ← accountIndex n policyIndex .overflow
  let wallet ← accountIndex n 0 .overflow
  let nonce ← accountIndex n 1 .overflow
  need (a.isSigner (a.key wallet) = true ∧ a.isWritable (a.key nonce) = true ∧
    a.isWritable (a.key plan) = true ∧ (ledger (a.key plan)).owner = program ∧
    a.isWritable (a.key policy) = false ∧ (ledger (a.key policy)).owner = program ∧
    a.key wallet ≠ a.key nonce ∧ a.key nonce ≠ a.key plan ∧ a.key plan ≠ a.key policy) .identity
  let id ← ad (keyAt d 4)
  let sequence ← ad (u64At d 36)
  let version ← ad (u64At d 44)
  let maxAge ← ad (u64At d 52)
  let body := d.drop 60
  let graph ← ad (Graph.decode body n)
  need (Avoids graph plan ∧ Avoids graph policy) .identity
  .ok { plan, policy, wallet, nonce, allowClosed := d.byte 3, id, sequence, version, maxAge, body, graph }

/-- The stored plan of a capsule, which must be the plan of this owner, policy and pair of mints at
this sequence. -/
def storedPlan (rt : Runtime) (a : Accounts n) (call : CapsuleCall n) (state : Buffer) :
    Outcome StoredPlan := do
  let expected := rt.address [capsuleSeed, (a.key call.wallet).toList, call.id.toList]
  let g := call.graph
  need (a.key call.plan = expected ∧ state.size = capsuleLen ∧ state.slice 0 8 = some capsuleTag ∧
    state.slice 8 32 = some (a.key call.wallet).toList ∧ state.slice 40 32 = some call.id.toList ∧
    state.slice 72 32 = some (a.key call.policy).toList ∧
    state.slice 104 32 = some (mintKey a g g.first).toList ∧
    state.slice 136 32 = some (mintKey a g g.sink).toList) .identity
  let sequence ← ad (u64At state 208)
  need (sequence = call.sequence) .identity
  let totalInput ← ad (u64At state 168)
  let totalMinimumOutput ← ad (u64At state 176)
  let maximumCapsuleInput ← ad (u64At state 184)
  let settledInput ← ad (u64At state 192)
  let settledOutput ← ad (u64At state 200)
  let expiresSlot ← ad (u64At state 216)
  let capsuleCount ← ad (u64At state 224)
  .ok { totalInput, totalMinimumOutput, maximumCapsuleInput, settledInput, settledOutput, expiresSlot,
        capsuleCount }

/-- `ceil_div`. -/
def ceilDiv (numerator denominator : ℕ) : Outcome ℕ :=
  if denominator = 0 then .error .bounds
  else .ok (numerator / denominator + if numerator % denominator ≠ 0 then 1 else 0)

/-- The terms of the next capsule: the input settled after it and the cumulative output it requires. -/
def capsuleTerms (slot : ℕ) (plan : StoredPlan) (g : Graph n) : Outcome (ℕ × ℕ) := do
  need (0 < plan.totalInput ∧ plan.totalInput ≤ maxPlanInput ∧ 0 < plan.totalMinimumOutput ∧
    0 < plan.maximumCapsuleInput ∧ plan.maximumCapsuleInput ≤ maxCapsuleInput ∧
    plan.settledInput < plan.totalInput ∧ plan.capsuleCount < maxCapsules ∧
    slot ≤ plan.expiresSlot ∧ g.deadline ≤ plan.expiresSlot) .expired
  let remaining ← checkedSub plan.totalInput plan.settledInput .conservation
  need (g.input = min remaining plan.maximumCapsuleInput) .bounds
  let settled ← checkedSum plan.settledInput g.input .conservation
  let product ← within u128Size (settled * plan.totalMinimumOutput) .bounds
  let required ← ceilDiv product plan.totalInput
  let required ← within u64Size required .bounds
  need (max (required - plan.settledOutput) 1 ≤ g.minOut) .minOut
  .ok (settled, required)

/-- The instruction for `stockExecute` inside a capsule. -/
def stockInstruction (call : CapsuleCall n) : Buffer :=
  call.body.prepend ([7, UInt8.ofNat call.policy, call.allowClosed, 0] ++
    Buffer.toBytes 8 call.version ++ Buffer.toBytes 8 call.maxAge)

/-- What the receipt of a stock settlement reports as spent and delivered. -/
def stockReceipt (returned : List UInt8) (version : ℕ) : Outcome (ℕ × ℕ) := do
  let receipt := Buffer.ofList returned
  need (48 ≤ receipt.size ∧ receipt.slice 0 8 = some policyTag) .conservation
  let stored ← ad (u64At receipt 8)
  need (stored = version) .conservation
  let actualInput ← ad (u64At receipt 24)
  let actualOutput ← ad (u64At receipt 32)
  .ok (actualInput, actualOutput)

/-- The plan after a capsule: settled input and output, next sequence, number of capsules. -/
def capsuleFields (settledInput settledOutput sequence count : ℕ) : List (ℕ × List UInt8) :=
  [(192, Buffer.toBytes 8 settledInput), (200, Buffer.toBytes 8 settledOutput),
    (208, Buffer.toBytes 8 sequence), (224, Buffer.toBytes 8 count)]

/-- Record an executed capsule in its plan. -/
def recordCapsule (a : Accounts n) (call : CapsuleCall n) (plan : StoredPlan)
    (settledInput required actualInput actualOutput : ℕ) : Step Unit := do
  lift (need (actualInput = call.graph.input) .conservation)
  let settledOutput ← lift (checkedSum plan.settledOutput actualOutput .conservation)
  lift (need (required ≤ settledOutput ∧ settledInput ≤ plan.totalInput) .minOut)
  let sequence ← lift (checkedSum call.sequence 1 .bounds)
  let count ← lift (checkedSum plan.capsuleCount 1 .bounds)
  writeFields (a.key call.plan) (capsuleFields settledInput settledOutput sequence count)
  setReturnData (capsuleTag ++ call.id.toList ++ Buffer.toBytes 8 call.sequence ++
    Buffer.toBytes 8 actualInput ++ Buffer.toBytes 8 actualOutput ++ Buffer.toBytes 8 settledInput ++
    Buffer.toBytes 8 settledOutput ++
    Buffer.toBytes 8 (if settledInput = plan.totalInput then 1 else 0) ++ Buffer.toBytes 8 required)

/-- `execute`: opcode 11. -/
def executeCapsule (natives : Natives) (rt : Runtime) (a : Accounts n) (clock : Clock)
    {program : ProgramId} (venues : Venues program) (d : Buffer) : Step Unit := do
  let s ← get
  let call ← lift (capsuleCall program s.ledger a d)
  let plan ← lift (storedPlan rt a call (s.ledger (a.key call.plan)).data)
  let (settledInput, required) ← lift (capsuleTerms clock.slot plan call.graph)
  stockExecute natives rt a clock venues (stockInstruction call)
  let s ← get
  let (actualInput, actualOutput) ← lift (stockReceipt s.returnData call.version)
  recordCapsule a call plan settledInput required actualInput actualOutput

end Execute

end StockMesh.Settle

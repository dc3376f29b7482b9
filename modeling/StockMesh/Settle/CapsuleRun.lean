import StockMesh.Settle.Capsule
import StockMesh.Host.Capsule
import Mathlib.Data.Fin.VecNotation

/-! # Capsule plans over a run

An initialized plan follows the instalments of its terms through any sequence of capsules: an executed
capsule is the next instalment (`HoldsPlan.execute`), and everything else leaves the account alone. The
host's copy takes the same steps. -/

namespace StockMesh.Settle

open Stateful Instalments Host

/-- An account holds a plan after some instalments. -/
structure HoldsPlan (program : ProgramId) (terms : PlanTerms) (p : Standing) (account : Account) :
    Prop where
  owner : account.owner = program
  size : account.data.size = capsuleLen
  totalInput : u64At account.data 168 = .ok terms.total
  totalMinimumOutput : u64At account.data 176 = .ok terms.floor
  maximumCapsuleInput : u64At account.data 184 = .ok terms.cap
  settledInput : u64At account.data 192 = .ok p.paid
  settledOutput : u64At account.data 200 = .ok p.received
  nextSequence : u64At account.data 208 = .ok (terms.firstSequence + p.count)
  expiresSlot : u64At account.data 216 = .ok terms.expiresSlot
  capsuleCount : u64At account.data 224 = .ok p.count

/-- The payload of `initializeCapsule` states the terms. -/
structure Admits (d : Buffer) (terms : PlanTerms) : Prop where
  id : keyAt d 1 = .ok terms.id
  totalInput : u64At d 33 = .ok terms.total
  totalMinimumOutput : u64At d 41 = .ok terms.floor
  maximumCapsuleInput : u64At d 49 = .ok terms.cap
  firstSequence : u64At d 57 = .ok terms.firstSequence
  expiresSlot : u64At d 65 = .ok terms.expiresSlot

section Initialize

variable {rt : Runtime} {program : ProgramId} {n : ℕ} {a : Accounts n} {clock : Clock}

/-- An initialized plan holds its terms and has paid nothing. -/
theorem initializeCapsule_eq_ok {d : Buffer} {s s' : Chain}
    (h : initializeCapsule rt program a clock d s = (.ok (), s')) :
    ∃ (plan : Fin n) (terms : PlanTerms), (plan : ℕ) = 1 ∧ Admits d terms ∧
      HoldsPlan program terms .start (s'.ledger (a.key plan)) := by
  rw [initializeCapsule, lift_bind_eq_ok] at h
  obtain ⟨_, -, h⟩ := h
  obtain ⟨owner, -, h⟩ := lift_bind_eq_ok.mp h
  obtain ⟨plan, hplan, h⟩ := lift_bind_eq_ok.mp h
  obtain ⟨policy, -, h⟩ := lift_bind_eq_ok.mp h
  obtain ⟨inputMint, -, h⟩ := lift_bind_eq_ok.mp h
  obtain ⟨outputMint, -, h⟩ := lift_bind_eq_ok.mp h
  obtain ⟨system, -, h⟩ := lift_bind_eq_ok.mp h
  rw [get_bind] at h
  obtain ⟨_, -, h⟩ := lift_bind_eq_ok.mp h
  obtain ⟨id, hid, h⟩ := lift_bind_eq_ok.mp h
  obtain ⟨total, htotal, h⟩ := lift_bind_eq_ok.mp h
  obtain ⟨floor, hfloor, h⟩ := lift_bind_eq_ok.mp h
  obtain ⟨cap, hcap, h⟩ := lift_bind_eq_ok.mp h
  obtain ⟨first, hfirst, h⟩ := lift_bind_eq_ok.mp h
  obtain ⟨expires, hexpires, h⟩ := lift_bind_eq_ok.mp h
  obtain ⟨_, hbounds, h⟩ := lift_bind_eq_ok.mp h
  obtain ⟨latest, -, h⟩ := lift_bind_eq_ok.mp h
  obtain ⟨_, -, h⟩ := lift_bind_eq_ok.mp h
  obtain ⟨_, -, h⟩ := lift_bind_eq_ok.mp h
  obtain ⟨_, s₁, hcreate, h⟩ := Comp.bind_eq_ok.mp h
  obtain ⟨data, hdata, rfl⟩ := writeFields_eq_ok h
  obtain ⟨hid_ne, htotal_pos, htotal_le, hfloor_pos, hcap_pos, hcap_le, hcount, hfirst_pos, -⟩ :=
    need_eq_ok.mp hbounds
  rw [ad_eq_ok] at hid htotal hfloor hcap hfirst hexpires
  let terms : PlanTerms := {
    total, floor, cap, id
    firstSequence := first
    expiresSlot := expires
    total_pos := htotal_pos
    cap_pos := hcap_pos
    id_ne := hid_ne
    total_le := htotal_le
    floor_pos := hfloor_pos
    floor_lt := u64At_lt hfloor
    cap_le := hcap_le
    first_pos := hfirst_pos
    instalments_le := hcount }
  refine ⟨plan, terms, accountIndex_eq_ok.mp hplan,
    ⟨hid, htotal, hfloor, hcap, hfirst, hexpires⟩, ?_⟩
  obtain ⟨howner, hzeros⟩ := createAccount_eq_ok hcreate
  rw [hzeros] at hdata
  set fields := planFields (a.key owner) id (a.key policy) (a.key inputMint) (a.key outputMint) total
    floor cap first expires with hfields
  have hapart : fields.Pairwise Buffer.Apart := by simp [hfields, planFields, Buffer.Apart, capsuleTag]
  have hwritten : ∀ {offset v}, v < u64Size → (offset, Buffer.toBytes 8 v) ∈ fields →
      u64At data offset = .ok v := fun hv hmem =>
    okOr_eq_ok.mpr (Buffer.number_spliceAll hdata hapart hmem hv)
  -- the fields that are not written are zero
  have hkept : ∀ offset, (∀ f ∈ fields, offset + 8 ≤ f.1 ∨ f.1 + f.2.length ≤ offset) →
      offset + 8 ≤ capsuleLen → u64At data offset = .ok 0 := by
    intro offset hdisj hle
    rw [u64At, Buffer.number_spliceAll_of_disjoint hdata hdisj, Buffer.number, Buffer.slice, if_pos hle]
    have hzero : Buffer.ofBytes ((List.range 8).map fun _ => 0) = 0 := by decide
    exact congrArg Except.ok hzero
  show HoldsPlan program terms .start (Function.update s₁.ledger _ _ _)
  rw [Function.update_self]
  exact {
    owner := howner
    size := Buffer.size_spliceAll hdata
    totalInput := hwritten (v := total) (u64At_lt htotal) (by simp [hfields, planFields])
    totalMinimumOutput := hwritten (v := floor) (u64At_lt hfloor) (by simp [hfields, planFields])
    maximumCapsuleInput := hwritten (v := cap) (u64At_lt hcap) (by simp [hfields, planFields])
    settledInput := hkept 192 (by simp [hfields, planFields, capsuleTag]) (by decide)
    settledOutput := hkept 200 (by simp [hfields, planFields, capsuleTag]) (by decide)
    nextSequence := hwritten (v := first) (u64At_lt hfirst) (by simp [hfields, planFields])
    expiresSlot := hwritten (v := expires) (u64At_lt hexpires) (by simp [hfields, planFields])
    capsuleCount := hkept 224 (by simp [hfields, planFields, capsuleTag]) (by decide) }

end Initialize

/-! ## One capsule -/

section Terms

variable {terms : PlanTerms} {p : Standing} {n : ℕ}

/-- The numbers an account stores for a plan. -/
def storedTerms (terms : PlanTerms) (p : Standing) : StoredPlan where
  totalInput := terms.total
  totalMinimumOutput := terms.floor
  maximumCapsuleInput := terms.cap
  settledInput := p.paid
  settledOutput := p.received
  expiresSlot := terms.expiresSlot
  capsuleCount := p.count

theorem ceilDiv_share (paid : ℕ) :
    ceilDiv (paid * terms.floor) terms.total = .ok (terms.share paid) := by
  rw [ceilDiv, if_neg terms.total_pos.ne', Terms.share, ceilDiv_eq_div_add terms.total_pos]

/-- The terms of a capsule are those of the next instalment; no step of their computation overflows. -/
theorem capsuleTerms_eq_ok (h : terms.OnTrack p) {slot : ℕ} {g : Graph n} {r : ℕ × ℕ} :
    capsuleTerms slot (storedTerms terms p) g = .ok r ↔
      (p.paid < terms.total ∧ slot ≤ terms.expiresSlot ∧ g.deadline ≤ terms.expiresSlot ∧
        g.input = terms.due p.paid ∧ terms.minimum p ≤ g.minOut) ∧
      r = (p.paid + terms.due p.paid, terms.share (p.paid + terms.due p.paid)) := by
  have hpaid := h.paid_le
  have hle := PlanTerms.paid_add_due_le h
  have hshare : terms.share (p.paid + terms.due p.paid) < u64Size :=
    (Terms.share_le_floor hle).trans_lt terms.floor_lt
  constructor
  · intro hterms
    rw [capsuleTerms, bind_eq_ok] at hterms
    obtain ⟨_, hbounds, hterms⟩ := hterms
    obtain ⟨remaining, hremaining, hterms⟩ := bind_eq_ok.mp hterms
    obtain ⟨_, hinput, hterms⟩ := bind_eq_ok.mp hterms
    obtain ⟨settled, hsettled, hterms⟩ := bind_eq_ok.mp hterms
    obtain ⟨product, hproduct, hterms⟩ := bind_eq_ok.mp hterms
    obtain ⟨required, hrequired, hterms⟩ := bind_eq_ok.mp hterms
    obtain ⟨required', hrequired', hterms⟩ := bind_eq_ok.mp hterms
    obtain ⟨_, hmin, hterms⟩ := bind_eq_ok.mp hterms
    obtain ⟨-, -, -, -, -, hlt, -, hslot, hdeadline⟩ := need_eq_ok.mp hbounds
    obtain ⟨-, rfl⟩ := checkedSub_eq_ok.mp hremaining
    have hinput : g.input = terms.due p.paid := need_eq_ok.mp hinput
    obtain ⟨-, rfl⟩ := checkedSum_eq_ok.mp hsettled
    obtain ⟨-, rfl⟩ := within_eq_ok.mp hproduct
    obtain ⟨-, rfl⟩ := within_eq_ok.mp hrequired'
    rw [hinput] at hrequired
    obtain rfl : _ = required := Except.ok.inj ((ceilDiv_share _).symm.trans hrequired)
    cases hterms
    rw [hinput]
    exact ⟨⟨hlt, hslot, hdeadline, rfl, need_eq_ok.mp hmin⟩, rfl⟩
  · rintro ⟨⟨hlt, hslot, hdeadline, hinput, hmin⟩, rfl⟩
    have hcount := (h.paid_lt_iff.mp hlt).trans_le terms.instalments_le
    refine bind_eq_ok.mpr ⟨(), need_of ⟨terms.total_pos, terms.total_le, terms.floor_pos,
      terms.cap_pos, terms.cap_le, hlt, hcount, hslot, hdeadline⟩, ?_⟩
    refine bind_eq_ok.mpr ⟨_, checkedSub_eq_ok.mpr ⟨hpaid, rfl⟩, ?_⟩
    refine bind_eq_ok.mpr ⟨(), need_of hinput, ?_⟩
    rw [hinput]
    refine bind_eq_ok.mpr ⟨_, checkedSum_eq_ok.mpr ⟨hle.trans_lt PlanTerms.total_lt, rfl⟩, ?_⟩
    refine bind_eq_ok.mpr ⟨_, within_eq_ok.mpr ⟨PlanTerms.product_lt hle, rfl⟩, ?_⟩
    refine bind_eq_ok.mpr ⟨_, ceilDiv_share _, ?_⟩
    refine bind_eq_ok.mpr ⟨_, within_eq_ok.mpr ⟨hshare, rfl⟩, ?_⟩
    exact bind_eq_ok.mpr ⟨(), need_of hmin, rfl⟩

end Terms

section Execute

variable {natives : Natives} {rt : Runtime} {program : ProgramId} {n : ℕ} {a : Accounts n}
  {clock : Clock} {venues : Venues program} {terms : PlanTerms} {p : Standing}

/-- What a decoded capsule instruction fixes. -/
theorem capsuleCall_eq_ok {ledger : Ledger} {d : Buffer} {call : CapsuleCall n}
    (h : capsuleCall program ledger a d = .ok call) :
    (call.plan : ℕ) = (d.byte 1).toNat ∧ Graph.decode call.body n = .ok call.graph ∧
    call.version < u64Size := by
  rw [capsuleCall, bind_eq_ok] at h
  obtain ⟨_, -, h⟩ := h
  obtain ⟨_, -, h⟩ := bind_eq_ok.mp h
  obtain ⟨plan, hplan, h⟩ := bind_eq_ok.mp h
  obtain ⟨policy, -, h⟩ := bind_eq_ok.mp h
  obtain ⟨wallet, -, h⟩ := bind_eq_ok.mp h
  obtain ⟨nonce, -, h⟩ := bind_eq_ok.mp h
  obtain ⟨_, -, h⟩ := bind_eq_ok.mp h
  obtain ⟨id, -, h⟩ := bind_eq_ok.mp h
  obtain ⟨sequence, -, h⟩ := bind_eq_ok.mp h
  obtain ⟨version, hversion, h⟩ := bind_eq_ok.mp h
  obtain ⟨maxAge, -, h⟩ := bind_eq_ok.mp h
  obtain ⟨graph, hgraph, h⟩ := bind_eq_ok.mp h
  obtain ⟨_, -, h⟩ := bind_eq_ok.mp h
  cases h
  exact ⟨accountIndex_eq_ok.mp hplan, ad_eq_ok.mp hgraph, u64At_lt (ad_eq_ok.mp hversion)⟩

/-- The stock instruction of a capsule carries its version and its graph. -/
theorem stockInstruction_version {call : CapsuleCall n} (h : call.version < u64Size) :
    u64At (stockInstruction call) 4 = .ok call.version := by
  refine okOr_eq_ok.mpr ?_
  rw [Buffer.number, stockInstruction, Buffer.slice_prepend (by simp), Option.map_some]
  refine congrArg some ?_
  have htake : ((([7, UInt8.ofNat call.policy, call.allowClosed, 0] ++ Buffer.toBytes 8 call.version ++
      Buffer.toBytes 8 call.maxAge).drop 4).take 8) = Buffer.toBytes 8 call.version := by
    simp
  rw [htake, Buffer.ofBytes_toBytes]
  exact Nat.mod_eq_of_lt h

theorem stockInstruction_drop {call : CapsuleCall n} :
    (stockInstruction call).drop 20 = call.body := by
  have hlength : ([7, UInt8.ofNat call.policy, call.allowClosed, 0] ++ Buffer.toBytes 8 call.version ++
      Buffer.toBytes 8 call.maxAge).length = 20 := by simp
  rw [stockInstruction, ← hlength, Buffer.drop_prepend]

theorem u64At_ofList {bytes : List UInt8} {i : ℕ} (h : i + 8 ≤ bytes.length) :
    u64At (.ofList bytes) i = .ok (fieldAt bytes i) := by
  refine okOr_eq_ok.mpr ?_
  rw [Buffer.number, Buffer.slice_ofList h]
  rfl

/-- The receipt of a stock settlement reports its graph. -/
theorem StockSettled.receipt {d : Buffer} {version : ℕ} {g : Graph n} {outcome : GraphOutcome}
    {s s' : Chain} (h : StockSettled natives a clock venues d version g outcome s s')
    (hversion : version < u64Size) :
    stockReceipt s'.returnData version = .ok (outcome.actualIn, outcome.actualOut) := by
  obtain ⟨rest, hrest, hreturned⟩ := h.receipt_eq
  have hinput : outcome.actualIn < u64Size := by
    have hle := g.input_le
    have hmax : maxInput = 100000000000000 := rfl
    have := constants
    rw [h.input_eq]
    omega
  have htag : policyTag = Buffer.toBytes 8 (Buffer.ofBytes policyTag) := by decide
  have hlength : s'.returnData.length = 40 + rest.length := by
    rw [hreturned]
    simp [policyTag]
    omega
  have hslice : (Buffer.ofList s'.returnData).slice 0 8 = some policyTag := by
    rw [Buffer.slice_ofList (by omega), hreturned, List.drop_zero]
    exact congrArg some (List.take_left' rfl)
  refine bind_eq_ok.mpr ⟨(), need_of ⟨by show 48 ≤ s'.returnData.length; omega, hslice⟩, ?_⟩
  have hread : ∀ i, i + 8 ≤ 40 → ad (u64At (.ofList s'.returnData) i)
      = .ok (fieldAt s'.returnData i) := fun i hi => ad_eq_ok.mpr (u64At_ofList (by omega))
  rw [hread 8 (by decide), hread 24 (by decide), hread 32 (by decide), hreturned, htag,
    fieldAt_tail _ _ 0, fieldAt_head _ hversion, fieldAt_tail _ _ 16, fieldAt_tail _ _ 8,
    fieldAt_tail _ _ 0, fieldAt_head _ hinput, fieldAt_tail _ _ 24, fieldAt_tail _ _ 16,
    fieldAt_tail _ _ 8, fieldAt_tail _ _ 0, fieldAt_head _ h.output_lt]
  refine bind_eq_ok.mpr ⟨_, rfl, bind_eq_ok.mpr ⟨(), need_of rfl, ?_⟩⟩
  exact bind_eq_ok.mpr ⟨_, rfl, bind_eq_ok.mpr ⟨_, rfl, rfl⟩⟩

/-- A plan is read back from its account, at the sequence of the next capsule. -/
theorem HoldsPlan.storedPlan_eq {account : Account} (h : HoldsPlan program terms p account)
    {call : CapsuleCall n} {stored : StoredPlan}
    (hstored : storedPlan rt a call account.data = .ok stored) :
    stored = storedTerms terms p ∧ call.sequence = terms.firstSequence + p.count := by
  rw [storedPlan, bind_eq_ok] at hstored
  obtain ⟨_, -, hread⟩ := hstored
  rw [h.nextSequence] at hread
  obtain ⟨sequence, hsequence, hread⟩ := bind_eq_ok.mp hread
  obtain rfl : _ = sequence := Except.ok.inj hsequence
  obtain ⟨_, hcall, hrest⟩ := bind_eq_ok.mp hread
  rw [h.totalInput, h.totalMinimumOutput, h.maximumCapsuleInput, h.settledInput, h.settledOutput,
    h.expiresSlot, h.capsuleCount] at hrest
  cases hrest
  exact ⟨rfl, (need_eq_ok.mp hcall).symm⟩

/-- A capsule leaves a plan on another account as it was. -/
theorem HoldsPlan.of_data_eq {account account' : Account} (h : HoldsPlan program terms p account)
    (howner : account'.owner = program) (hdata : account'.data = account.data) :
    HoldsPlan program terms p account' where
  owner := howner
  size := hdata ▸ h.size
  totalInput := hdata ▸ h.totalInput
  totalMinimumOutput := hdata ▸ h.totalMinimumOutput
  maximumCapsuleInput := hdata ▸ h.maximumCapsuleInput
  settledInput := hdata ▸ h.settledInput
  settledOutput := hdata ▸ h.settledOutput
  nextSequence := hdata ▸ h.nextSequence
  expiresSlot := hdata ▸ h.expiresSlot
  capsuleCount := hdata ▸ h.capsuleCount

/-- Writing the fields of a capsule pays an instalment. -/
theorem HoldsPlan.pay {account : Account} (h : HoldsPlan program terms p account) {output : ℕ}
    (htrack : terms.OnTrack (terms.pay p output)) (houtput : p.received + output < u64Size)
    (hsequence : terms.firstSequence + p.count + 1 < u64Size) {data : Buffer}
    (hdata : Buffer.spliceAll (capsuleFields (p.paid + terms.due p.paid) (p.received + output)
      (terms.firstSequence + p.count + 1) (p.count + 1)) account.data = some data) :
    HoldsPlan program terms (terms.pay p output) { account with data } := by
  have hapart : (capsuleFields (p.paid + terms.due p.paid) (p.received + output)
      (terms.firstSequence + p.count + 1) (p.count + 1)).Pairwise Buffer.Apart := by
    simp [capsuleFields, Buffer.Apart]
  have hwritten : ∀ {offset v}, v < u64Size → (offset, Buffer.toBytes 8 v) ∈ capsuleFields
      (p.paid + terms.due p.paid) (p.received + output) (terms.firstSequence + p.count + 1)
      (p.count + 1) → u64At data offset = .ok v := fun hv hmem =>
    okOr_eq_ok.mpr (Buffer.number_spliceAll hdata hapart hmem hv)
  have hkept : ∀ {offset : ℕ}, (offset + 8 ≤ 192 ∨ offset = 216) →
      u64At data offset = u64At account.data offset := by
    intro offset hoffset
    rw [u64At, u64At, Buffer.number_spliceAll_of_disjoint hdata]
    intro f hf
    simp only [capsuleFields, List.mem_cons, List.not_mem_nil, or_false] at hf
    rcases hf with rfl | rfl | rfl | rfl <;> simp only [Buffer.length_toBytes] <;> omega
  have hpaid : p.paid + terms.due p.paid < u64Size := htrack.paid_le.trans_lt PlanTerms.total_lt
  exact {
    owner := h.owner
    size := (Buffer.size_spliceAll hdata).trans h.size
    totalInput := (hkept (.inl (by decide))).trans h.totalInput
    totalMinimumOutput := (hkept (.inl (by decide))).trans h.totalMinimumOutput
    maximumCapsuleInput := (hkept (.inl (by decide))).trans h.maximumCapsuleInput
    settledInput := hwritten (v := p.paid + terms.due p.paid) hpaid (by simp [capsuleFields])
    settledOutput := hwritten (v := p.received + output) houtput (by simp [capsuleFields])
    nextSequence := hwritten (v := terms.firstSequence + p.count + 1) hsequence (by simp [capsuleFields])
    expiresSlot := (hkept (.inr rfl)).trans h.expiresSlot
    capsuleCount := hwritten (v := p.count + 1) (by omega) (by simp [capsuleFields]) }

/-- What happens to a capsule whose stock part has settled: its instalment is recorded, unless the
settled output or the next sequence leaves its word. -/
theorem recordCapsule_eq {call : CapsuleCall n} {output : ℕ} {s : Chain}
    (h : HoldsPlan program terms p (s.ledger (a.key call.plan))) (htrack : terms.OnTrack p)
    (hlt : p.paid < terms.total) (hsequence : call.sequence = terms.firstSequence + p.count)
    (hinput : call.graph.input = terms.due p.paid) (hmin : terms.minimum p ≤ output) {r : Outcome Unit}
    {s' : Chain}
    (hrecord : recordCapsule a call (storedTerms terms p) (p.paid + terms.due p.paid)
      (terms.share (p.paid + terms.due p.paid)) (terms.due p.paid) output s = (r, s')) :
    (r = .ok () ∧ p.received + output < u64Size ∧ terms.firstSequence + p.count + 1 < u64Size ∧
      HoldsPlan program terms (terms.pay p output) (s'.ledger (a.key call.plan)) ∧
      ∀ key, key ≠ a.key call.plan → s'.ledger key = s.ledger key) ∨
    (r = .error .conservation ∧ u64Size ≤ p.received + output) ∨
    (r = .error .bounds ∧ u64Size ≤ terms.firstSequence + p.count + 1) := by
  have hpay := htrack.pay hlt hmin
  have hneed : need (terms.due p.paid = call.graph.input) .conservation = .ok () := need_of hinput.symm
  rw [recordCapsule, Comp.bind_apply_ok (lift_eq_ok.mpr ⟨hneed, rfl⟩)] at hrecord
  rcases Nat.lt_or_ge (p.received + output) u64Size with hreceived | hreceived
  · have hfloor : need (terms.share (p.paid + terms.due p.paid) ≤ p.received + output ∧
        p.paid + terms.due p.paid ≤ (storedTerms terms p).totalInput) .minOut = .ok () :=
      need_of ⟨Terms.share_le_of_minimum hmin, PlanTerms.paid_add_due_le htrack⟩
    have hsum : checkedSum (storedTerms terms p).settledOutput output .conservation
        = .ok (p.received + output) := checkedSum_eq_ok.mpr ⟨hreceived, rfl⟩
    rw [Comp.bind_apply_ok (lift_eq_ok.mpr ⟨hsum, rfl⟩),
      Comp.bind_apply_ok (lift_eq_ok.mpr ⟨hfloor, rfl⟩), hsequence] at hrecord
    rcases Nat.lt_or_ge (terms.firstSequence + p.count + 1) u64Size with hnext | hnext
    · have hcount : checkedSum (storedTerms terms p).capsuleCount 1 .bounds = .ok (p.count + 1) := by
        refine checkedSum_eq_ok.mpr ⟨?_, rfl⟩
        show p.count + 1 < u64Size
        omega
      rw [Comp.bind_apply_ok (lift_eq_ok.mpr ⟨checkedSum_eq_ok.mpr ⟨hnext, rfl⟩, rfl⟩),
        Comp.bind_apply_ok (lift_eq_ok.mpr ⟨hcount, rfl⟩)] at hrecord
      have hfits : ∀ f ∈ capsuleFields (p.paid + terms.due p.paid) (p.received + output)
          (terms.firstSequence + p.count + 1) (p.count + 1),
          f.1 + f.2.length ≤ (s.ledger (a.key call.plan)).data.size := by
        rw [h.size]
        simp [capsuleFields, capsuleLen]
      obtain ⟨data, hdata⟩ := Buffer.exists_spliceAll hfits
      rw [Comp.bind_apply_ok (writeFields_of_splice hdata)] at hrecord
      cases hrecord
      refine .inl ⟨rfl, hreceived, hnext, ?_, fun key hkey => Function.update_of_ne hkey _ _⟩
      show HoldsPlan program terms _ (Function.update s.ledger _ _ _)
      rw [Function.update_self]
      exact h.pay hpay hreceived hnext hdata
    · have herror : checkedSum (terms.firstSequence + p.count) 1 .bounds = .error .bounds :=
        if_neg (by omega)
      rw [herror] at hrecord
      cases hrecord
      exact .inr (.inr ⟨rfl, hnext⟩)
  · have herror : checkedSum (storedTerms terms p).settledOutput output .conservation
        = .error .conservation := if_neg (show ¬p.received + output < u64Size by omega)
    rw [herror] at hrecord
    cases hrecord
    exact .inr (.inl ⟨rfl, hreceived⟩)

/-- Recording a capsule changes no account but its plan. -/
theorem recordCapsule_of_ne {call : CapsuleCall n} {stored : StoredPlan}
    {settled required input output : ℕ} {s s' : Chain}
    (h : recordCapsule a call stored settled required input output s = (.ok (), s')) {key : Key}
    (hkey : key ≠ a.key call.plan) : s'.ledger key = s.ledger key := by
  rw [recordCapsule, lift_bind_eq_ok] at h
  obtain ⟨_, -, h⟩ := h
  obtain ⟨_, -, h⟩ := lift_bind_eq_ok.mp h
  obtain ⟨_, -, h⟩ := lift_bind_eq_ok.mp h
  obtain ⟨_, -, h⟩ := lift_bind_eq_ok.mp h
  obtain ⟨_, -, h⟩ := lift_bind_eq_ok.mp h
  obtain ⟨_, s₁, hwrite, hreturn⟩ := Comp.bind_eq_ok.mp h
  obtain ⟨data, -, rfl⟩ := writeFields_eq_ok hwrite
  cases hreturn
  exact Function.update_of_ne hkey _ _

/-- The stock part of a capsule settles its graph and reports it. -/
theorem stockExecute_capsule {call : CapsuleCall n} {d : Buffer} {s s₁ : Chain}
    (hcall : capsuleCall program s.ledger a d = .ok call)
    (h : stockExecute natives rt a clock venues (stockInstruction call) s = (.ok (), s₁)) :
    ∃ outcome, StockSettled natives a clock venues call.body call.version call.graph outcome s s₁ ∧
      stockReceipt s₁.returnData call.version = .ok (outcome.actualIn, outcome.actualOut) := by
  obtain ⟨-, hgraph, hlt⟩ := capsuleCall_eq_ok hcall
  obtain ⟨version, g, outcome, hversion, hsettled⟩ := stockExecute_eq_ok h
  rw [stockInstruction_version hlt, Except.ok.injEq] at hversion
  rw [stockInstruction_drop] at hsettled
  subst hversion
  obtain rfl : call.graph = g := Except.ok.inj (hgraph.symm.trans hsettled.decode_eq)
  exact ⟨outcome, hsettled, hsettled.receipt hlt⟩

/-- The parts of an executed capsule. -/
theorem executeCapsule_eq_ok {d : Buffer} {s s' : Chain}
    (h : executeCapsule natives rt a clock venues d s = (.ok (), s')) :
    ∃ call stored settled required outcome s₁, capsuleCall program s.ledger a d = .ok call ∧
      storedPlan rt a call (s.ledger (a.key call.plan)).data = .ok stored ∧
      capsuleTerms clock.slot stored call.graph = .ok (settled, required) ∧
      StockSettled natives a clock venues call.body call.version call.graph outcome s s₁ ∧
      recordCapsule a call stored settled required outcome.actualIn outcome.actualOut s₁
        = (.ok (), s') := by
  rw [executeCapsule, get_bind, lift_bind_eq_ok] at h
  obtain ⟨call, hcall, h⟩ := h
  obtain ⟨stored, hstored, h⟩ := lift_bind_eq_ok.mp h
  obtain ⟨⟨settled, required⟩, hterms, h⟩ := lift_bind_eq_ok.mp h
  obtain ⟨_, s₁, hstock, h⟩ := Comp.bind_eq_ok.mp h
  rw [get_bind] at h
  obtain ⟨outcome, hsettled, hreceipt⟩ := stockExecute_capsule hcall hstock
  obtain ⟨⟨input, output⟩, hamounts, h⟩ := lift_bind_eq_ok.mp h
  cases hreceipt.symm.trans hamounts
  exact ⟨call, stored, settled, required, outcome, s₁, hcall, hstored, hterms, hsettled, h⟩

/-- The plan account of an instruction. -/
def Names (a : Accounts n) (d : Buffer) (plan : Key) : Prop :=
  ∃ i : Fin n, (i : ℕ) = (d.byte 1).toNat ∧ a.key i = plan

instance (d : Buffer) (plan : Key) : Decidable (Names a d plan) := inferInstanceAs (Decidable (∃ _, _))

theorem names_iff {ledger : Ledger} {d : Buffer} {call : CapsuleCall n} {plan : Key}
    (hcall : capsuleCall program ledger a d = .ok call) : Names a d plan ↔ a.key call.plan = plan := by
  obtain ⟨hplan, -⟩ := capsuleCall_eq_ok hcall
  constructor
  · rintro ⟨i, hi, rfl⟩
    rw [show call.plan = i from Fin.ext (hplan.trans hi.symm)]
  · intro hkey
    exact ⟨call.plan, hplan, hkey⟩

/-- A plan's account after the stock part of any capsule. -/
theorem HoldsPlan.settled {plan : Key} {d : Buffer} {version : ℕ} {g : Graph n}
    {outcome : GraphOutcome} {s s₁ : Chain} (h : HoldsPlan program terms p (s.ledger plan))
    (hsettled : StockSettled natives a clock venues d version g outcome s s₁) :
    HoldsPlan program terms p (s₁.ledger plan) := by
  have hsize : (s.ledger plan).data.size ≠ nonceLen := by
    rw [h.size]
    decide
  obtain ⟨howner, hdata⟩ := hsettled.owned plan hsize h.owner
  exact h.of_data_eq howner hdata

/-- What one capsule instruction may do to a plan. -/
inductive Advances (program : ProgramId) (terms : PlanTerms) (p : Standing) (slot : ℕ)
    (account : Account) : Prop
  | pay (output : ℕ) (unexpired : slot ≤ terms.expiresSlot) (unfinished : p.paid < terms.total)
      (minimum_le : terms.minimum p ≤ output) (output_lt : p.received + output < u64Size)
      (sequence_lt : terms.firstSequence + p.count + 1 < u64Size)
      (holds : HoldsPlan program terms (terms.pay p output) account)

/-- A capsule of the plan pays its next instalment; another capsule leaves it. -/
theorem HoldsPlan.execute {plan : Key} {d : Buffer} {s s' : Chain}
    (h : HoldsPlan program terms p (s.ledger plan)) (htrack : terms.OnTrack p)
    (hexecute : executeCapsule natives rt a clock venues d s = (.ok (), s')) :
    (Names a d plan → Advances program terms p clock.slot (s'.ledger plan)) ∧
    (¬Names a d plan → HoldsPlan program terms p (s'.ledger plan)) := by
  obtain ⟨call, stored, settled, required, outcome, s₁, hcall, hstored, hterms, hsettled, hrecord⟩ :=
    executeCapsule_eq_ok hexecute
  have hheld := h.settled hsettled
  rw [names_iff hcall]
  constructor
  · rintro rfl
    obtain ⟨rfl, hsequence⟩ := h.storedPlan_eq hstored
    obtain ⟨⟨hlt, hslot, -, hinput, hmin⟩, hr⟩ := (capsuleTerms_eq_ok htrack).mp hterms
    cases hr
    rw [hsettled.input_eq, hinput] at hrecord
    have houtput := hmin.trans hsettled.minOut_le
    rcases recordCapsule_eq hheld htrack hlt hsequence hinput houtput hrecord with
      ⟨-, hreceived, hnext, hpaid, -⟩ | ⟨herror, -⟩ | ⟨herror, -⟩
    · exact .pay outcome.actualOut hslot hlt houtput hreceived hnext hpaid
    · cases herror
    · cases herror
  · intro hne
    rw [recordCapsule_of_ne hrecord (Ne.symm hne)]
    exact hheld

end Execute

/-! ## A plan over a run -/

/-- A capsule instruction with what it meets on chain. -/
structure CapsuleTx (program : ProgramId) where
  n : ℕ
  accounts : Accounts n
  clock : Clock
  venues : Venues program
  data : Buffer

/-- Execute the instruction on a ledger. -/
def CapsuleTx.run {program : ProgramId} (tx : CapsuleTx program) (natives : Natives) (rt : Runtime)
    (ledger : Ledger) : Outcome Unit × Chain :=
  executeCapsule natives rt tx.accounts tx.clock tx.venues tx.data { ledger }

/-- The ledger after a sequence of instructions, and how many of them executed a capsule of the plan.
A failed instruction is rolled back. -/
def runCapsules {program : ProgramId} (natives : Natives) (rt : Runtime) (plan : Key) :
    List (CapsuleTx program) → Ledger → Ledger × ℕ
  | [], ledger => (ledger, 0)
  | tx :: rest, ledger =>
    match tx.run natives rt ledger with
    | (.ok (), s) =>
      let (final, count) := runCapsules natives rt plan rest s.ledger
      (final, if Names tx.accounts tx.data plan then count + 1 else count)
    | (.error _, _) => runCapsules natives rt plan rest ledger

section Run

variable {natives : Natives} {rt : Runtime} {program : ProgramId}

variable (natives rt) in
/-- A run keeps a plan on track, one instalment for each of its capsules. -/
theorem runCapsules_onTrack {terms : PlanTerms} {p : Standing} {plan : Key}
    (txs : List (CapsuleTx program)) {ledger : Ledger}
    (h : HoldsPlan program terms p (ledger plan)) (htrack : terms.OnTrack p) :
    ∃ p', HoldsPlan program terms p' ((runCapsules natives rt plan txs ledger).1 plan) ∧
      terms.OnTrack p' ∧ p'.count = p.count + (runCapsules natives rt plan txs ledger).2 := by
  induction txs generalizing ledger p with
  | nil => exact ⟨p, h, htrack, rfl⟩
  | cons tx txs ih =>
    rcases htx : tx.run natives rt ledger with ⟨e | u, s⟩
    · -- a failed instruction changes nothing
      obtain ⟨p', hp', htrack', hcount⟩ := ih h htrack
      refine ⟨p', ?_, htrack', ?_⟩
      · rwa [runCapsules, htx]
      · rwa [runCapsules, htx]
    · obtain ⟨hpay, hkeep⟩ := h.execute htrack htx
      by_cases hnames : Names tx.accounts tx.data plan
      · obtain ⟨output, -, hlt, hmin, -, -, hheld⟩ := hpay hnames
        obtain ⟨p', hp', htrack', hcount⟩ := ih hheld (htrack.pay hlt hmin)
        refine ⟨p', ?_, htrack', ?_⟩
        · rwa [runCapsules, htx]
        · rw [runCapsules, htx]
          show p'.count = p.count + if Names tx.accounts tx.data plan then _ else _
          rw [if_pos hnames, hcount]
          show p.count + 1 + _ = _
          omega
      · obtain ⟨p', hp', htrack', hcount⟩ := ih (hkeep hnames) htrack
        refine ⟨p', ?_, htrack', ?_⟩
        · rwa [runCapsules, htx]
        · rw [runCapsules, htx]
          show p'.count = p.count + if Names tx.accounts tx.data plan then _ else _
          rwa [if_neg hnames]

/-- The state of a plan is determined by its capsules and meets its floor. -/
structure MeetsFloor (terms : PlanTerms) (p : Standing) : Prop where
  settledInput : p.paid = min (p.count * terms.cap) terms.total
  settledOutput : p.paid * terms.floor ⌈/⌉ terms.total ≤ p.received
  count_le : p.count ≤ terms.total ⌈/⌉ terms.cap
  capsules_le : terms.total ⌈/⌉ terms.cap ≤ maxCapsules
  complete_iff : p.paid = terms.total ↔ p.count = terms.total ⌈/⌉ terms.cap
  complete : p.paid = terms.total → terms.floor ≤ p.received

theorem meetsFloor_of_onTrack {terms : PlanTerms} {p : Standing} (h : terms.OnTrack p) :
    MeetsFloor terms p where
  settledInput := h.paid_eq
  settledOutput := h.share_le
  count_le := h.count_le
  capsules_le := terms.instalments_le
  complete_iff := by
    have hlt := h.paid_lt_iff
    have hpaid := h.paid_le
    have hcount := h.count_le
    show _ ↔ p.count = terms.instalments
    omega
  complete := h.floor_le

/-- The host and the program take the same steps from a state of the plan. -/
structure Lockstep (natives : Natives) (rt : Runtime) (program : ProgramId) (plan : Key)
    (terms : PlanTerms) (p : Standing) (ledger : Ledger) : Prop where
  /-- The host yields a capsule until the plan is complete or has expired. -/
  next : ∀ slot ≤ terms.expiresSlot, (terms.plan p).next slot =
    .ok (if p.paid = terms.total then none else some (terms.capsule p))
  /-- The program accepts a graph exactly with the input and at least the minimum that `next` yields;
  none of its arithmetic fails. -/
  accepts : ∀ {n : ℕ} (g : Graph n) (slot : ℕ), (∃ r, capsuleTerms slot (storedTerms terms p) g = .ok r) ↔
    slot ≤ terms.expiresSlot ∧ (terms.plan p).next slot = .ok (some (terms.capsule p)) ∧
      g.deadline ≤ terms.expiresSlot ∧ g.input = (terms.capsule p).input ∧
      (terms.capsule p).minimumOutput ≤ g.minOut
  /-- An executed capsule is one that the host records, with the same state afterwards. -/
  apply : ∀ (tx : CapsuleTx program) (s' : Chain), Names tx.accounts tx.data plan →
    tx.run natives rt ledger = (.ok (), s') → ∃ output complete,
      Plan.apply (terms.capsule p) (terms.capsule p).input output tx.clock.slot (terms.plan p)
        = (.ok complete, terms.plan (terms.pay p output)) ∧
      HoldsPlan program terms (terms.pay p output) (s'.ledger plan)
  /-- A capsule whose stock part settles is recorded, unless the settled output or the next sequence
  leaves its word. -/
  records : ∀ (tx : CapsuleTx program) call stored r s₁,
    capsuleCall program ledger tx.accounts tx.data = .ok call →
    tx.accounts.key call.plan = plan →
    storedPlan rt tx.accounts call (ledger plan).data = .ok stored →
    capsuleTerms tx.clock.slot stored call.graph = .ok r →
    stockExecute natives rt tx.accounts tx.clock tx.venues (stockInstruction call) { ledger }
      = (.ok (), s₁) →
    ∃ output, terms.minimum p ≤ output ∧
      ((tx.run natives rt ledger).1 = .ok () ∨ u64Size ≤ p.received + output ∨
        u64Size ≤ terms.firstSequence + p.count + 1)

theorem lockstep_of_onTrack {plan : Key} {terms : PlanTerms} {p : Standing} {ledger : Ledger}
    (h : HoldsPlan program terms p (ledger plan)) (htrack : terms.OnTrack p) :
    Lockstep natives rt program plan terms p ledger where
  next := fun slot hslot => PlanTerms.next_eq htrack hslot
  accepts := by
    intro n g slot
    have hpaid := htrack.paid_le
    constructor
    · rintro ⟨r, hr⟩
      obtain ⟨⟨hlt, hslot, hdeadline, hinput, hmin⟩, -⟩ := (capsuleTerms_eq_ok htrack).mp hr
      refine ⟨hslot, ?_, hdeadline, hinput, hmin⟩
      rw [PlanTerms.next_eq htrack hslot, if_neg hlt.ne]
    · rintro ⟨hslot, hnext, hdeadline, hinput, hmin⟩
      have hne : p.paid ≠ terms.total := by
        intro heq
        rw [PlanTerms.next_eq htrack hslot, if_pos heq] at hnext
        cases hnext
      exact ⟨_, (capsuleTerms_eq_ok htrack).mpr
        ⟨⟨lt_of_le_of_ne hpaid hne, hslot, hdeadline, hinput, hmin⟩, rfl⟩⟩
  apply := by
    intro tx s' hnames hrun
    obtain ⟨output, hslot, hlt, hmin, houtput, hsequence, hheld⟩ := (HoldsPlan.execute (s := { ledger }) h htrack hrun).1 hnames
    exact ⟨output, _, PlanTerms.apply_eq_ok htrack hslot hmin houtput hsequence, hheld⟩
  records := by
    intro tx call stored r s₁ hcall hplan hstored hterms hstock
    subst hplan
    obtain ⟨rfl, hsequence⟩ := h.storedPlan_eq hstored
    obtain ⟨⟨hlt, hslot, -, hinput, hmin⟩, rfl⟩ := (capsuleTerms_eq_ok htrack).mp hterms
    obtain ⟨outcome, hsettled, hreceipt⟩ := stockExecute_capsule (s := { ledger }) hcall hstock
    have houtput := hmin.trans hsettled.minOut_le
    have hheld := HoldsPlan.settled (s := { ledger }) h hsettled
    refine ⟨outcome.actualOut, houtput, ?_⟩
    -- the whole instruction is its record
    have hrun : tx.run natives rt ledger = recordCapsule tx.accounts call (storedTerms terms p)
        (p.paid + terms.due p.paid) (terms.share (p.paid + terms.due p.paid)) outcome.actualIn
        outcome.actualOut s₁ := by
      rw [CapsuleTx.run, executeCapsule, get_bind, Comp.bind_apply_ok (lift_eq_ok.mpr ⟨hcall, rfl⟩),
        Comp.bind_apply_ok (lift_eq_ok.mpr ⟨hstored, rfl⟩)]
      refine (Comp.bind_apply_ok (lift_eq_ok.mpr ⟨hterms, rfl⟩)).trans ?_
      refine (Comp.bind_apply_ok hstock).trans ?_
      exact Comp.bind_apply_ok (lift_eq_ok.mpr ⟨hreceipt, rfl⟩)
    rw [hsettled.input_eq, hinput] at hrun
    rcases hresult : tx.run natives rt ledger with ⟨result, s'⟩
    rw [hresult] at hrun
    rcases recordCapsule_eq hheld htrack hlt hsequence hinput houtput hrun.symm with
      ⟨hok, -⟩ | ⟨-, hreceived⟩ | ⟨-, hnext⟩
    · exact .inl hok
    · exact .inr (.inl hreceived)
    · exact .inr (.inr hnext)

/-- Every state that an initialized plan reaches is determined by the number of its capsules, meets the
pro-rata floor, and is followed by the host. -/
theorem capsule_floor {n : ℕ} {a : Accounts n} {clock : Clock} {d : Buffer} {s s₀ : Chain}
    (h : initializeCapsule rt program a clock d s = (.ok (), s₀)) (txs : List (CapsuleTx program)) :
    ∃ (plan : Fin n) (terms : PlanTerms) (p : Standing), (plan : ℕ) = 1 ∧ Admits d terms ∧
      HoldsPlan program terms p ((runCapsules natives rt (a.key plan) txs s₀.ledger).1 (a.key plan)) ∧
      p.count = (runCapsules natives rt (a.key plan) txs s₀.ledger).2 ∧ MeetsFloor terms p ∧
      Lockstep natives rt program (a.key plan) terms p
        (runCapsules natives rt (a.key plan) txs s₀.ledger).1 := by
  obtain ⟨plan, terms, hplan, hadmits, hheld⟩ := initializeCapsule_eq_ok h
  obtain ⟨p, hp, htrack, hcount⟩ := runCapsules_onTrack natives rt txs hheld Terms.onTrack_start
  refine ⟨plan, terms, p, hplan, hadmits, hp, ?_, meetsFloor_of_onTrack htrack,
    lockstep_of_onTrack hp htrack⟩
  rw [hcount]
  exact Nat.zero_add _

end Run

/-! ## A sample plan -/

/-- Plans live at one address of the sample, policies at another. -/
def sampleRuntime : Runtime where
  findProgramAddress seeds := (if seeds.head? = some capsuleSeed then .ofNat 30 else .ofNat 31, 255)
  minimumBalance _ := 1000

/-- An open policy of version 1 for the sample's mints. -/
def samplePolicy : Buffer := sparse policyLen [(0, policyTag), (104, (Key.ofNat 13).toList),
  (136, (Key.ofNat 15).toList), (200, Buffer.toBytes 8 1), (208, Buffer.toBytes 8 50),
  (216, Buffer.toBytes 8 200), (224, [17])]

/-- The sample's ledger with the policy. -/
def capsuleLedger : Ledger :=
  Function.update sampleLedger (.ofNat 31) ⟨.ofNat 1, false, 1, samplePolicy⟩

/-- The accounts that create a plan. -/
def planAccounts : Accounts 6 where
  key := ![.ofNat 10, .ofNat 30, .ofNat 31, .ofNat 13, .ofNat 15, systemId]
  isSigner key := key = .ofNat 10
  isWritable key := [Key.ofNat 10, .ofNat 30].contains key

theorem planAccounts_eq :
    planAccounts = { planAccounts with isWritable := fun key => key.number ∈ [10, 30] } :=
  congrArg (Accounts.mk _ _) (contains_ofNat [10, 30] (by decide))

/-- A plan to spend 1000 for 800 in capsules of at most 600, from the given sequence on. -/
def planPayload (sequence : ℕ) : Buffer := .ofList ([10] ++ (Key.ofNat 9).toList ++
  Buffer.toBytes 8 1000 ++ Buffer.toBytes 8 800 ++ Buffer.toBytes 8 600 ++ Buffer.toBytes 8 sequence ++
  Buffer.toBytes 8 150)

/-- The accounts of a capsule: those of the sample graph, the plan and the policy. -/
def capsuleAccounts : Accounts 12 where
  key := ![.ofNat 10, .ofNat 11, .ofNat 12, .ofNat 13, .ofNat 14, .ofNat 15, tokenId,
    venueProgram .raydiumAmmV4, .ofNat 16, .ofNat 17, .ofNat 30, .ofNat 31]
  isSigner key := key = .ofNat 10
  isWritable key := [Key.ofNat 10, .ofNat 11, .ofNat 12, .ofNat 14, .ofNat 16, .ofNat 17,
    .ofNat 30].contains key

theorem capsuleAccounts_eq : capsuleAccounts =
    { capsuleAccounts with isWritable := fun key => key.number ∈ [10, 11, 12, 14, 16, 17, 30] } :=
  congrArg (Accounts.mk _ _) (contains_ofNat [10, 11, 12, 14, 16, 17, 30] (by decide))

/-- The sample graph as a capsule. -/
def sampleCapsule (sequence : ℕ) : CapsuleTx sampleProgram where
  n := 12
  accounts := capsuleAccounts
  clock := sampleClock
  venues := sampleVenues
  data := samplePayload.prepend ([11, 10, 11, 0] ++ (Key.ofNat 9).toList ++ Buffer.toBytes 8 sequence ++
    Buffer.toBytes 8 1 ++ Buffer.toBytes 8 10)

/-- The sample plan executes a capsule. -/
theorem capsule_floor_sample : ∃ s₀, initializeCapsule sampleRuntime sampleProgram planAccounts
      sampleClock (planPayload 1) { ledger := capsuleLedger } = (.ok (), s₀) ∧
    (runCapsules noNatives sampleRuntime (.ofNat 30) [sampleCapsule 1] s₀.ledger).2 = 1 ∧
    ∃ (plan : Fin 6) (terms : PlanTerms) (p : Standing), (plan : ℕ) = 1 ∧ Admits (planPayload 1) terms ∧
      HoldsPlan sampleProgram terms p ((runCapsules noNatives sampleRuntime (planAccounts.key plan)
        [sampleCapsule 1] s₀.ledger).1 (planAccounts.key plan)) ∧
      p.count = (runCapsules noNatives sampleRuntime (planAccounts.key plan) [sampleCapsule 1]
        s₀.ledger).2 ∧ MeetsFloor terms p ∧
      Lockstep noNatives sampleRuntime sampleProgram (planAccounts.key plan) terms p
        (runCapsules noNatives sampleRuntime (planAccounts.key plan) [sampleCapsule 1] s₀.ledger).1 := by
  have hboth : (initializeCapsule sampleRuntime sampleProgram planAccounts sampleClock (planPayload 1)
        { ledger := capsuleLedger }).1.isOk = true ∧
      (runCapsules noNatives sampleRuntime (.ofNat 30) [sampleCapsule 1]
        (initializeCapsule sampleRuntime sampleProgram planAccounts sampleClock (planPayload 1)
          { ledger := capsuleLedger }).2.ledger).2 = 1 := by
    unfold sampleCapsule
    rw [planAccounts_eq, capsuleAccounts_eq]
    decide +kernel
  obtain ⟨hinit, hcount⟩ := hboth
  obtain ⟨_, s₀, hinit⟩ := Comp.exists_of_isOk hinit
  rw [hinit] at hcount
  exact ⟨s₀, hinit, hcount, capsule_floor hinit [sampleCapsule 1]⟩

/-- A plan may start at the last sequence. Then a capsule whose stock part settles is rejected, because
the next sequence is no word. -/
theorem capsule_sequence_overflow : ∃ s₀ call stored r s₁, initializeCapsule sampleRuntime sampleProgram
      planAccounts sampleClock (planPayload (u64Size - 1)) { ledger := capsuleLedger } = (.ok (), s₀) ∧
    capsuleCall sampleProgram s₀.ledger capsuleAccounts (sampleCapsule (u64Size - 1)).data = .ok call ∧
    storedPlan sampleRuntime capsuleAccounts call (s₀.ledger (.ofNat 30)).data = .ok stored ∧
    capsuleTerms sampleClock.slot stored call.graph = .ok r ∧
    stockExecute noNatives sampleRuntime capsuleAccounts sampleClock sampleVenues
      (stockInstruction call) { ledger := s₀.ledger } = (.ok (), s₁) ∧
    ((sampleCapsule (u64Size - 1)).run noNatives sampleRuntime s₀.ledger).1 = .error .bounds := by
  -- one evaluation serves the three facts about the run
  have hall : (initializeCapsule sampleRuntime sampleProgram planAccounts sampleClock
        (planPayload (u64Size - 1)) { ledger := capsuleLedger }).1.isOk = true ∧
      (do
        let ledger := (initializeCapsule sampleRuntime sampleProgram planAccounts sampleClock
          (planPayload (u64Size - 1)) { ledger := capsuleLedger }).2.ledger
        let call ← capsuleCall sampleProgram ledger capsuleAccounts (sampleCapsule (u64Size - 1)).data
        let stored ← storedPlan sampleRuntime capsuleAccounts call (ledger (.ofNat 30)).data
        let _ ← capsuleTerms sampleClock.slot stored call.graph
        (stockExecute noNatives sampleRuntime capsuleAccounts sampleClock sampleVenues
          (stockInstruction call) { ledger }).1 : Outcome Unit) = .ok () ∧
      ((sampleCapsule (u64Size - 1)).run noNatives sampleRuntime (initializeCapsule sampleRuntime
        sampleProgram planAccounts sampleClock (planPayload (u64Size - 1))
          { ledger := capsuleLedger }).2.ledger).1 = .error .bounds := by
    unfold sampleCapsule
    rw [planAccounts_eq, capsuleAccounts_eq]
    decide +kernel
  obtain ⟨hinit, hstages, hrun⟩ := hall
  obtain ⟨_, s₀, hinit⟩ := Comp.exists_of_isOk hinit
  rw [hinit] at hstages hrun
  obtain ⟨call, hcall, hstages⟩ := bind_eq_ok.mp hstages
  obtain ⟨stored, hstored, hstages⟩ := bind_eq_ok.mp hstages
  obtain ⟨r, hr, hstock⟩ := bind_eq_ok.mp hstages
  exact ⟨s₀, call, stored, r, _, hinit, hcall, hstored, hr, Prod.ext hstock rfl, hrun⟩

end StockMesh.Settle

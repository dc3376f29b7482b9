import StockMesh.Settle.Nonce
import StockMesh.Settle.Publish
import StockMesh.Settle.CapsuleRun

/-! # What an instruction does to the records

For every instruction over one settlement or one record: which records of the program it changes, read off
its data and accounts, and that it leaves the other accounts of the program alone. Creating a record changes
none, since its address was not the program's before. -/

namespace StockMesh.Settle

open Stateful

/-! ## Nonces -/

section Nonces

variable {program : ProgramId} {n : ℕ} {a : Accounts n} {ledger ledger' : Ledger} {key wallet : Key} {q : ℕ}

/-- A nonce at the given sequence, whose owner signs. -/
structure Ready (program : ProgramId) (a : Accounts n) (ledger : Ledger) (key : Key) (q : ℕ) : Prop where
  owner : (ledger key).owner = program
  size : (ledger key).data.size = nonceLen
  sequence : u64At (ledger key).data 40 = .ok q
  signed : ∃ owner : Key, a.isSigner owner = true ∧ (ledger key).data.slice 8 32 = some owner.toList

/-- A checked nonce of a signer. -/
theorem Ready.of_checkNonce (howner : (ledger key).owner = program) (hsigner : a.isSigner wallet = true)
    (h : checkNonce (ledger key) wallet q = .ok ()) : Ready program a ledger key q := by
  rw [checkNonce, bind_eq_ok] at h
  obtain ⟨_, hform, h⟩ := h
  obtain ⟨stored, hstored, h⟩ := bind_eq_ok.mp h
  obtain ⟨hsize, -, hwallet⟩ := need_eq_ok.mp hform
  obtain rfl := need_eq_ok.mp h
  exact ⟨howner, hsize, ad_eq_ok.mp hstored, wallet, hsigner, hwallet⟩

/-- The nonce of a preflighted graph. -/
theorem preflightDecoded_ready {clock : Clock} {g : Graph n} {wallet nonce : Fin n} {aggregate : List ℕ}
    {pending : ℕ} (h : preflightDecoded ledger a g program clock wallet nonce aggregate pending = .ok ()) :
    Ready program a ledger (a.key nonce) g.sequence := by
  rw [preflightDecoded, bind_eq_ok] at h
  obtain ⟨_, hidentity, h⟩ := h
  obtain ⟨_, hnonce, -⟩ := bind_eq_ok.mp h
  obtain ⟨-, hsigner, -, howner⟩ := need_eq_ok.mp hidentity
  exact .of_checkNonce howner hsigner hnonce

/-- Changes of other records keep a nonce. -/
theorem Ready.kept (h : Ready program a ledger key q) {changes : List (Key × Change)}
    (hcommits : Commits program changes ledger ledger') (hkey : key ∉ changes.map Prod.fst) :
    Ready program a ledger' key q := by
  obtain ⟨howner, hdata⟩ := hcommits.kept key hkey h.owner
  constructor
  · exact howner
  · rw [hdata]
    exact h.size
  · rw [hdata]
    exact h.sequence
  · rw [hdata]
    exact h.signed

/-- The owner of the nonce signs the change of it. -/
theorem Ready.authorized (h : Ready program a ledger key q) :
    Authorized a [(key, .advance q)] ledger := .single h.signed

/-- Writing the next sequence. -/
theorem Ready.write {s s' : Chain} {rest : List UInt8} (h : Ready program a s.ledger key q)
    (hlt : q + 1 < u64Size)
    (hwrite : writeData key 40 (Buffer.toBytes 8 (q + 1) ++ rest) s = (.ok (), s')) :
    Commits program [(key, .advance q)] s.ledger s'.ledger := by
  obtain ⟨data, hdata, rfl⟩ := writeData_eq_ok hwrite
  refine Commits.single h.owner h.owner ⟨?_, Tick.of_nonce h.size h.sequence hlt hdata⟩
  rw [h.size]
  exact nonceLen_ne

/-- A CPI or more, and then the next sequence. -/
theorem Ready.commits {s s₁ s' : Chain} {rest : List UInt8} (h : Ready program a s.ledger key q)
    (hspares : Spares program [] s s₁) (hlt : q + 1 < u64Size)
    (hwrite : writeData key 40 (Buffer.toBytes 8 (q + 1) ++ rest) s₁ = (.ok (), s')) :
    Commits program [(key, .advance q)] s.ledger s'.ledger := by
  have hnil : Commits program [] s.ledger s₁.ledger := commits_nil.mpr hspares
  refine hnil.after_nil ((h.kept hnil List.not_mem_nil).write hlt hwrite) ?_
  intro e he
  obtain rfl := List.mem_singleton.mp he
  exact h.owner

end Nonces

/-- Writing the windows of one record. -/
theorem commits_writeFields {program : ProgramId} {key : Key} {c : Change} {fields : List (ℕ × List UInt8)}
    {s s' : Chain} (howner : (s.ledger key).owner = program)
    (happly : ∀ data, Buffer.spliceAll fields (s.ledger key).data = some data →
      c.Applies (s.ledger key).data data)
    (h : writeFields key fields s = (.ok (), s')) : Commits program [(key, c)] s.ledger s'.ledger := by
  obtain ⟨data, hdata, rfl⟩ := writeFields_eq_ok h
  exact Commits.single howner howner (happly data hdata)

/-- What an instruction does: it makes the named changes, and their owners have signed. -/
structure Performs (program : ProgramId) {n : ℕ} (a : Accounts n) (changes : List (Key × Change))
    (before after : Ledger) : Prop where
  commits : Commits program changes before after
  authorized : Authorized a changes before

/-- An instruction that changes no record. -/
theorem Commits.performs {program : ProgramId} {n : ℕ} {a : Accounts n} {before after : Ledger}
    (h : Commits program [] before after) : Performs program a [] before after := ⟨h, .nil⟩

/-- What an instruction under a signed sequence does: there are changes to make. -/
structure PerformsSome (program : ProgramId) {n : ℕ} (a : Accounts n) (changes : List (Key × Change))
    (before after : Ledger) : Prop extends Performs program a changes before after where
  nonempty : changes ≠ []

/-- What some decoded data asks of the records; data that does not decode asks nothing. -/
def changesOf {α : Type} (decoded : Outcome α) (changes : α → List (Key × Change)) :
    List (Key × Change) :=
  match decoded with
  | .ok v => changes v
  | .error _ => []

theorem changesOf_of_ok {α : Type} {decoded : Outcome α} {v : α} (h : decoded = .ok v)
    (changes : α → List (Key × Change)) : changesOf decoded changes = changes v := by
  subst h
  rfl

/-! ## Creation -/

section Create

variable {rt : Runtime} {n : ℕ} {a : Accounts n} {clock : Clock} {program : ProgramId}
  {venues : Venues program} {s s' : Chain}

/-- Creating an account of the system and filling it changes no record. -/
theorem Spares.created {key : Key} (h : Spares program [key] s s') (hsystem : (program : Key) ≠ systemId)
    (hnew : (s.ledger key).owner = systemId) : Commits program [] s.ledger s'.ledger := by
  refine h.commits fun other hother howner => hsystem ?_
  rw [List.mem_singleton.mp hother, hnew] at howner
  exact howner.symm

/-- A new nonce changes no record. -/
theorem initializeNonce_commits (hsystem : (program : Key) ≠ systemId)
    (h : initializeNonce rt program a s = (.ok (), s')) : Commits program [] s.ledger s'.ledger := by
  rw [initializeNonce, lift_bind_eq_ok] at h
  obtain ⟨_, -, h⟩ := h
  obtain ⟨owner, -, h⟩ := lift_bind_eq_ok.mp h
  obtain ⟨nonce, -, h⟩ := lift_bind_eq_ok.mp h
  obtain ⟨system, -, h⟩ := lift_bind_eq_ok.mp h
  obtain ⟨_, -, h⟩ := lift_bind_eq_ok.mp h
  obtain ⟨_, -, h⟩ := lift_bind_eq_ok.mp h
  rw [get_bind] at h
  obtain ⟨_, hnew, h⟩ := lift_bind_eq_ok.mp h
  have hspares := ((spares_createAccount rt (a.key owner) (a.key nonce) nonceLen).bind
    fun _ => spares_writeFields _ _) _ _ _ h
  exact hspares.created hsystem (need_eq_ok.mp hnew).2.2

/-- A new plan changes no record. -/
theorem initializeCapsule_commits {d : Buffer} (hsystem : (program : Key) ≠ systemId)
    (h : initializeCapsule rt program a clock d s = (.ok (), s')) :
    Commits program [] s.ledger s'.ledger := by
  rw [initializeCapsule, lift_bind_eq_ok] at h
  obtain ⟨_, -, h⟩ := h
  obtain ⟨owner, -, h⟩ := lift_bind_eq_ok.mp h
  obtain ⟨plan, -, h⟩ := lift_bind_eq_ok.mp h
  obtain ⟨policy, -, h⟩ := lift_bind_eq_ok.mp h
  obtain ⟨inputMint, -, h⟩ := lift_bind_eq_ok.mp h
  obtain ⟨outputMint, -, h⟩ := lift_bind_eq_ok.mp h
  obtain ⟨system, -, h⟩ := lift_bind_eq_ok.mp h
  rw [get_bind] at h
  obtain ⟨_, -, h⟩ := lift_bind_eq_ok.mp h
  obtain ⟨id, -, h⟩ := lift_bind_eq_ok.mp h
  obtain ⟨totalInput, -, h⟩ := lift_bind_eq_ok.mp h
  obtain ⟨totalMinimumOutput, -, h⟩ := lift_bind_eq_ok.mp h
  obtain ⟨maximumCapsuleInput, -, h⟩ := lift_bind_eq_ok.mp h
  obtain ⟨firstSequence, -, h⟩ := lift_bind_eq_ok.mp h
  obtain ⟨expiresSlot, -, h⟩ := lift_bind_eq_ok.mp h
  obtain ⟨_, -, h⟩ := lift_bind_eq_ok.mp h
  obtain ⟨latest, -, h⟩ := lift_bind_eq_ok.mp h
  obtain ⟨_, -, h⟩ := lift_bind_eq_ok.mp h
  obtain ⟨_, hnew, h⟩ := lift_bind_eq_ok.mp h
  have hspares := ((spares_createAccount rt (a.key owner) (a.key plan) capsuleLen).bind
    fun _ => spares_writeFields _ _) _ _ _ h
  exact hspares.created hsystem (need_eq_ok.mp hnew).2.2

/-- A checked order is new; it is over the signed stock at the signed limit. -/
theorem placeOrder_eq_ok {p : PlaceAccounts n} {ledger : Ledger} {d : Buffer} {o : NewOrder}
    (h : placeOrder rt program ledger a clock p d = .ok o) :
    (ledger (a.key p.order)).owner = systemId ∧ u64At d 16 = .ok o.stock ∧
    u64At d 24 = .ok o.minimumCashPerShare ∧ o.owner = a.key p.owner ∧ o.escrow = a.key p.escrow ∧
    o.cashDestination = a.key p.cash := by
  rw [placeOrder, bind_eq_ok] at h
  obtain ⟨_, -, h⟩ := h
  obtain ⟨conservativeBps, -, h⟩ := bind_eq_ok.mp h
  obtain ⟨nonce, -, h⟩ := bind_eq_ok.mp h
  obtain ⟨stock, hstock, h⟩ := bind_eq_ok.mp h
  obtain ⟨minimumCashPerShare, hlimit, h⟩ := bind_eq_ok.mp h
  obtain ⟨expiresSlot, -, h⟩ := bind_eq_ok.mp h
  obtain ⟨policyVersion, -, h⟩ := bind_eq_ok.mp h
  obtain ⟨maxAge, -, h⟩ := bind_eq_ok.mp h
  obtain ⟨numerator, -, h⟩ := bind_eq_ok.mp h
  obtain ⟨denominator, -, h⟩ := bind_eq_ok.mp h
  obtain ⟨instrument, -, h⟩ := bind_eq_ok.mp h
  obtain ⟨_, -, h⟩ := bind_eq_ok.mp h
  obtain ⟨_, -, h⟩ := bind_eq_ok.mp h
  obtain ⟨latest, -, h⟩ := bind_eq_ok.mp h
  obtain ⟨_, -, h⟩ := bind_eq_ok.mp h
  obtain ⟨_, hnew, h⟩ := bind_eq_ok.mp h
  obtain ⟨_, -, h⟩ := bind_eq_ok.mp h
  obtain ⟨_, -, h⟩ := bind_eq_ok.mp h
  obtain ⟨source, -, h⟩ := bind_eq_ok.mp h
  obtain ⟨escrow, -, h⟩ := bind_eq_ok.mp h
  obtain ⟨cash, -, h⟩ := bind_eq_ok.mp h
  obtain ⟨_, -, h⟩ := bind_eq_ok.mp h
  obtain ⟨exposure, -, h⟩ := bind_eq_ok.mp h
  obtain ⟨_, -, h⟩ := bind_eq_ok.mp h
  obtain ⟨least, -, h⟩ := bind_eq_ok.mp h
  obtain ⟨_, -, h⟩ := bind_eq_ok.mp h
  cases h
  exact ⟨(need_eq_ok.mp hnew).2.2, ad_eq_ok.mp hstock, ad_eq_ok.mp hlimit, rfl, rfl, rfl⟩

/-- A new order changes no record. -/
theorem place_commits {d : Buffer} (hsystem : (program : Key) ≠ systemId)
    (h : place rt a clock venues d s = (.ok (), s')) : Commits program [] s.ledger s'.ledger := by
  rw [place, lift_bind_eq_ok] at h
  obtain ⟨_, -, h⟩ := h
  obtain ⟨p, -, h⟩ := lift_bind_eq_ok.mp h
  rw [get_bind] at h
  obtain ⟨o, ho, h⟩ := lift_bind_eq_ok.mp h
  have hnil : ∀ {x : Step Unit}, Keeps (Spares program []) x → Keeps (Spares program [a.key p.order]) x :=
    fun hx => hx.mono fun _ _ hspares => hspares.mono (List.nil_subset _)
  have hspares : Spares program [a.key p.order] s s' := by
    refine ((spares_createAccount rt (a.key p.owner) (a.key p.order) orderLen).bind fun _ => ?_) _ _ _ h
    refine (hnil (spares_transferChecked _ _ _ _ _ _)).bind fun _ => ?_
    refine .get_bind fun _ => .lift_bind fun _ _ => .lift_bind fun _ _ => .lift_bind fun _ _ => ?_
    refine (spares_zeroData _).bind fun _ => (spares_writeFields _ _).bind fun _ => ?_
    exact .get_bind fun _ => spares_setReturnData _
  exact hspares.created hsystem (placeOrder_eq_ok ho).1

end Create

/-! ## Settlements -/

section Settlements

variable {natives : Natives} {rt : Runtime} {n : ℕ} {a : Accounts n} {clock : Clock} {program : ProgramId}
  {venues : Venues program} {d : Buffer} {s s' : Chain}

/-- A settlement asks for the next sequence of the nonce, which is the second account. -/
def settlementChanges (a : Accounts n) (d : Buffer) : List (Key × Change) :=
  changesOf (accountIndex n 1 .overflow) (graphChanges a d)

theorem settleGraphFor_commits {wallet nonce : Fin n}
    (h : settleGraphFor natives a clock venues d wallet nonce s = (.ok (), s')) :
    Commits program (graphChanges a d nonce) s.ledger s'.ledger := by
  obtain ⟨g, wallet', nonce', outcome, s₁, -, hnonce, hsettles⟩ := settleGraphFor_eq_ok h
  rw [← Fin.ext hnonce]
  exact hsettles.commits

theorem settleGraph_commits (h : settleGraph natives a clock venues d s = (.ok (), s')) :
    PerformsSome program a (settlementChanges a d) s.ledger s'.ledger := by
  obtain ⟨g, wallet, nonce, outcome, s₁, -, hnonce, hsettles⟩ := settleGraphFor_eq_ok h
  have hcommits := hsettles.commits
  rw [settlementChanges, changesOf_of_ok (accountIndex_eq_ok.mpr hnonce)]
  rw [graphChanges_of_ok hsettles.decode_eq] at hcommits ⊢
  exact ⟨⟨hcommits, (preflightDecoded_ready hsettles.preflight_eq).authorized⟩, List.cons_ne_nil _ _⟩

/-- A settlement under a policy changes the nonce alone. -/
theorem stockExecute_commits (h : stockExecute natives rt a clock venues d s = (.ok (), s')) :
    PerformsSome program a (settlementChanges a (d.drop 20)) s.ledger s'.ledger := by
  rw [stockExecute, lift_bind_eq_ok] at h
  obtain ⟨_, -, h⟩ := h
  obtain ⟨_, -, h⟩ := lift_bind_eq_ok.mp h
  obtain ⟨version, -, h⟩ := lift_bind_eq_ok.mp h
  obtain ⟨maxAge, -, h⟩ := lift_bind_eq_ok.mp h
  obtain ⟨_, -, h⟩ := lift_bind_eq_ok.mp h
  obtain ⟨graph, -, h⟩ := lift_bind_eq_ok.mp h
  rw [get_bind] at h
  obtain ⟨_, -, h⟩ := lift_bind_eq_ok.mp h
  obtain ⟨_, s₁, hsettle, h⟩ := Comp.bind_eq_ok.mp h
  rw [get_bind] at h
  obtain ⟨_, -, h⟩ := lift_bind_eq_ok.mp h
  obtain ⟨⟨hcommits, hsigned⟩, hsome⟩ := settleGraph_commits hsettle
  exact ⟨⟨hcommits.then_nil (commits_nil.mpr (spares_setReturnData _ _ _ _ h)), hsigned⟩, hsome⟩

/-- So does the way back. -/
theorem executeReverse_commits (h : executeReverse rt a clock natives venues d s = (.ok (), s')) :
    PerformsSome program a (settlementChanges a (d.drop 20)) s.ledger s'.ledger := by
  rw [executeReverse, lift_bind_eq_ok] at h
  obtain ⟨_, -, h⟩ := h
  obtain ⟨_, -, h⟩ := lift_bind_eq_ok.mp h
  obtain ⟨version, -, h⟩ := lift_bind_eq_ok.mp h
  obtain ⟨maxAge, -, h⟩ := lift_bind_eq_ok.mp h
  obtain ⟨_, -, h⟩ := lift_bind_eq_ok.mp h
  obtain ⟨graph, -, h⟩ := lift_bind_eq_ok.mp h
  rw [get_bind] at h
  obtain ⟨_, -, h⟩ := lift_bind_eq_ok.mp h
  obtain ⟨_, s₁, hsettle, h⟩ := Comp.bind_eq_ok.mp h
  rw [get_bind] at h
  obtain ⟨_, -, h⟩ := lift_bind_eq_ok.mp h
  obtain ⟨⟨hcommits, hsigned⟩, hsome⟩ := settleGraph_commits hsettle
  exact ⟨⟨hcommits.then_nil (commits_nil.mpr (spares_setReturnData _ _ _ _ h)), hsigned⟩, hsome⟩

/-- What a capsule asks: the next sequence of the nonce and of the plan. -/
def capsuleChanges (a : Accounts n) (d : Buffer) : List (Key × Change) :=
  settlementChanges a (d.drop 60) ++
  changesOf (accountIndex n (d.byte 1).toNat .overflow) fun plan =>
    changesOf (ad (u64At d 36)) fun sequence => [(a.key plan, .advance sequence)]

/-- The accounts and the sequence of a capsule. -/
theorem capsuleCall_accounts {ledger : Ledger} {call : CapsuleCall n}
    (h : capsuleCall program ledger a d = .ok call) :
    (call.plan : ℕ) = (d.byte 1).toNat ∧ (call.nonce : ℕ) = 1 ∧ u64At d 36 = .ok call.sequence ∧
    call.body = d.drop 60 ∧ (ledger (a.key call.plan)).owner = program ∧
    a.isSigner (a.key call.wallet) = true ∧ a.key call.nonce ≠ a.key call.plan := by
  rw [capsuleCall, bind_eq_ok] at h
  obtain ⟨_, -, h⟩ := h
  obtain ⟨_, -, h⟩ := bind_eq_ok.mp h
  obtain ⟨plan, hplan, h⟩ := bind_eq_ok.mp h
  obtain ⟨policy, -, h⟩ := bind_eq_ok.mp h
  obtain ⟨wallet, -, h⟩ := bind_eq_ok.mp h
  obtain ⟨nonce, hnonce, h⟩ := bind_eq_ok.mp h
  obtain ⟨_, hidentity, h⟩ := bind_eq_ok.mp h
  obtain ⟨id, -, h⟩ := bind_eq_ok.mp h
  obtain ⟨sequence, hsequence, h⟩ := bind_eq_ok.mp h
  obtain ⟨version, -, h⟩ := bind_eq_ok.mp h
  obtain ⟨maxAge, -, h⟩ := bind_eq_ok.mp h
  obtain ⟨graph, -, h⟩ := bind_eq_ok.mp h
  obtain ⟨_, -, h⟩ := bind_eq_ok.mp h
  cases h
  obtain ⟨hsigner, -, -, howner, -, -, -, hne, -⟩ := need_eq_ok.mp hidentity
  exact ⟨accountIndex_eq_ok.mp hplan, accountIndex_eq_ok.mp hnonce, ad_eq_ok.mp hsequence, rfl, howner,
    hsigner, hne⟩

/-- The stored plan has the length of one and the signed sequence. -/
theorem storedPlan_sequence {call : CapsuleCall n} {state : Buffer} {plan : StoredPlan}
    (h : storedPlan rt a call state = .ok plan) :
    state.size = capsuleLen ∧ u64At state 208 = .ok call.sequence ∧
    state.slice 8 32 = some (a.key call.wallet).toList := by
  rw [storedPlan, bind_eq_ok] at h
  obtain ⟨_, hform, h⟩ := h
  obtain ⟨sequence, hsequence, h⟩ := bind_eq_ok.mp h
  obtain ⟨_, hsame, h⟩ := bind_eq_ok.mp h
  obtain ⟨-, hsize, -, hwallet, -⟩ := need_eq_ok.mp hform
  rw [← need_eq_ok.mp hsame]
  exact ⟨hsize, ad_eq_ok.mp hsequence, hwallet⟩

theorem capsuleFields_apart (settledInput settledOutput sequence count : ℕ) :
    (capsuleFields settledInput settledOutput sequence count).Pairwise Buffer.Apart := by
  simp [capsuleFields, Buffer.Apart]

/-- Recording a capsule advances its plan. -/
theorem recordCapsule_commits {call : CapsuleCall n} {plan : StoredPlan}
    {settledInput required actualInput actualOutput : ℕ}
    (howner : (s.ledger (a.key call.plan)).owner = program)
    (hsize : (s.ledger (a.key call.plan)).data.size = capsuleLen)
    (hsequence : u64At (s.ledger (a.key call.plan)).data 208 = .ok call.sequence)
    (h : recordCapsule a call plan settledInput required actualInput actualOutput s = (.ok (), s')) :
    Commits program [(a.key call.plan, .advance call.sequence)] s.ledger s'.ledger := by
  rw [recordCapsule, lift_bind_eq_ok] at h
  obtain ⟨_, -, h⟩ := h
  obtain ⟨settledOutput, -, h⟩ := lift_bind_eq_ok.mp h
  obtain ⟨_, -, h⟩ := lift_bind_eq_ok.mp h
  obtain ⟨next, hnext, h⟩ := lift_bind_eq_ok.mp h
  obtain ⟨hlt, rfl⟩ := checkedSum_eq_ok.mp hnext
  obtain ⟨count, -, h⟩ := lift_bind_eq_ok.mp h
  obtain ⟨_, s₁, hwrite, h⟩ := Comp.bind_eq_ok.mp h
  refine Commits.then_nil (commits_writeFields howner (fun data hdata => ?_) hwrite)
    (commits_nil.mpr (spares_setReturnData _ _ _ _ h))
  constructor
  · rw [hsize]
    decide
  · refine Tick.of_fields hdata (hsize ▸ rfl) hsequence hlt (capsuleFields_apart _ _ _ _) ?_ ?_
    · simp [capsuleFields]
    · simp [capsuleFields]

/-- A capsule advances the nonce and the plan. -/
theorem executeCapsule_commits (h : executeCapsule natives rt a clock venues d s = (.ok (), s')) :
    PerformsSome program a (capsuleChanges a d) s.ledger s'.ledger := by
  rw [executeCapsule, get_bind, lift_bind_eq_ok] at h
  obtain ⟨call, hcall, h⟩ := h
  obtain ⟨plan, hplan, h⟩ := lift_bind_eq_ok.mp h
  obtain ⟨terms, -, h⟩ := lift_bind_eq_ok.mp h
  obtain ⟨_, s₁, hexecute, h⟩ := Comp.bind_eq_ok.mp h
  rw [get_bind] at h
  obtain ⟨actual, -, hrecord⟩ := lift_bind_eq_ok.mp h
  obtain ⟨hindex, hone, hsequence, hbody, howner, hsigner, hne⟩ := capsuleCall_accounts hcall
  obtain ⟨hsize, hstored, hwallet⟩ := storedPlan_sequence hplan
  obtain ⟨⟨hgraph, hsigned⟩, hsome⟩ := stockExecute_commits hexecute
  rw [stockInstruction_drop, hbody] at hgraph hsigned hsome
  have hnonce : settlementChanges a (d.drop 60) = graphChanges a (d.drop 60) call.nonce :=
    changesOf_of_ok (accountIndex_eq_ok.mpr hone) _
  -- the graph names the nonce alone
  have hkeys : ∀ key ∈ (settlementChanges a (d.drop 60)).map Prod.fst, key = a.key call.nonce := by
    intro key hkey
    rw [hnonce, graphChanges] at hkey
    split at hkey
    · exact List.mem_singleton.mp hkey
    · exact absurd hkey List.not_mem_nil
  have hnot : a.key call.plan ∉ (settlementChanges a (d.drop 60)).map Prod.fst := fun hmem =>
    hne (hkeys _ hmem).symm
  obtain ⟨howner₁, hdata₁⟩ := hgraph.kept _ hnot howner
  rw [capsuleChanges, changesOf_of_ok (accountIndex_eq_ok.mpr hindex),
    changesOf_of_ok (ad_eq_ok.mpr hsequence)]
  refine ⟨⟨hgraph.append (recordCapsule_commits howner₁ ?_ ?_ hrecord) ?_ ?_,
    List.forall_mem_append.mpr ⟨hsigned, Authorized.single ⟨_, hsigner, hwallet⟩⟩⟩,
    List.append_ne_nil_of_left_ne_nil hsome _⟩
  · rw [hdata₁]
    exact hsize
  · rw [hdata₁]
    exact hstored
  · intro key hkey hmem
    rw [List.mem_singleton.mp hmem] at hkey
    exact hnot hkey
  · intro e he
    rw [List.mem_singleton.mp he]
    exact howner

/-! ## The two-venue settlement -/

theorem spares_phoenix {a : Accounts 19} (sell : Bool) (input limit deadline : ℕ) :
    Keeps (Spares program []) (phoenix a clock venues sell input limit deadline) := by
  refine .get_bind fun _ => ?_
  dsimp only
  refine .lift_bind fun _ _ => .lift_bind fun _ _ => .lift_bind fun _ _ => .lift_bind fun _ _ => ?_
  refine .lift_bind fun _ _ => .lift_bind fun _ _ => .ite (fun _ => .pure) fun _ => ?_
  refine .lift_bind fun _ _ => .lift_bind fun _ _ => .lift_bind fun _ _ => ?_
  refine (spares_invokeLeg _ _).bind fun _ => .get_bind fun _ => .lift_bind fun _ _ => ?_
  exact .lift_bind fun _ _ => .lift_bind fun _ _ => .lift_bind fun _ _ => .pure

theorem spares_raydium {a : Accounts 19} (sell : Bool) (input : ℕ) :
    Keeps (Spares program []) (raydium a clock venues sell input) := by
  refine .get_bind fun _ => ?_
  dsimp only
  refine .lift_bind fun _ _ => .lift_bind fun _ _ => .lift_bind fun _ _ => .lift_bind fun _ _ => ?_
  refine .lift_bind fun _ _ => .lift_bind fun _ _ => .lift_bind fun _ _ => .lift_bind fun _ _ => ?_
  refine (spares_invokeLeg _ _).bind fun _ => .get_bind fun _ => .lift_bind fun _ _ => ?_
  exact .lift

/-- The CPIs of the settlement write no account of the program. -/
theorem spares_settleLegs {a : Accounts 19} (call : SettleCall) (beforeIn : ℕ) :
    Keeps (Spares program []) (settleLegs a clock venues call beforeIn) := by
  have hrest : ∀ filled : Bool, Keeps (Spares program []) (do
      let s ← Stateful.get
      let afterPhoenix ← lift (amountOf s.ledger (a.key (swapSource call.sell)))
      let spent ← lift (checkedSub beforeIn afterPhoenix .conservation)
      lift (need (spent ≤ call.input ∧ spent ≤ call.phoenixBudget) .conservation)
      let residual := call.input - spent
      if call.mode &&& 2 ≠ 0 ∧ 0 < residual then do
        raydium a clock venues call.sell residual
        pure (spent, filled.toNat + 1)
      else pure (spent, filled.toNat)) := by
    intro filled
    refine .get_bind fun _ => .lift_bind fun _ _ => .lift_bind fun _ _ => .lift_bind fun _ _ => ?_
    exact .ite (fun _ => (spares_raydium _ _).bind fun _ => .pure) fun _ => .pure
  unfold settleLegs
  exact .ite (fun _ => (spares_phoenix _ _ _ _).bind hrest) fun _ => hrest false

/-- What the two-venue settlement asks. -/
def twoVenueChanges (a : Accounts n) (d : Buffer) : List (Key × Change) :=
  changesOf (accountIndex n 1 .overflow) fun nonce =>
    changesOf (ad (u64At d 4)) fun sequence => [(a.key nonce, .advance sequence)]

/-- What is established before the first CPI. -/
theorem settleStart_eq_ok {a : Accounts 19} {ledger : Ledger} {start : SettleStart}
    (h : settleStart ledger a clock program d = .ok start) :
    u64At d 4 = .ok start.call.sequence ∧ Ready program a ledger (a.key 1) start.call.sequence ∧
    start.next = start.call.sequence + 1 ∧ start.call.sequence + 1 < u64Size := by
  rw [settleStart, bind_eq_ok] at h
  obtain ⟨call, hcall, h⟩ := h
  obtain ⟨_, hidentity, h⟩ := bind_eq_ok.mp h
  obtain ⟨_, hnonce, h⟩ := bind_eq_ok.mp h
  obtain ⟨next, hnext, h⟩ := bind_eq_ok.mp h
  obtain ⟨_, -, h⟩ := bind_eq_ok.mp h
  obtain ⟨_, -, h⟩ := bind_eq_ok.mp h
  obtain ⟨_, -, h⟩ := bind_eq_ok.mp h
  obtain ⟨_, -, h⟩ := bind_eq_ok.mp h
  obtain ⟨base, -, h⟩ := bind_eq_ok.mp h
  obtain ⟨quote, -, h⟩ := bind_eq_ok.mp h
  obtain ⟨_, -, h⟩ := bind_eq_ok.mp h
  cases h
  obtain ⟨hlt, hsucc⟩ := checkedSum_eq_ok.mp hnext
  obtain ⟨hsigner, -, -, howner⟩ := need_eq_ok.mp hidentity
  refine ⟨?_, .of_checkNonce howner hsigner hnonce, hsucc.symm, hlt⟩
  rw [settleCall, bind_eq_ok] at hcall
  obtain ⟨sequence, hread, hcall⟩ := hcall
  obtain ⟨input, -, hcall⟩ := bind_eq_ok.mp hcall
  obtain ⟨minOut, -, hcall⟩ := bind_eq_ok.mp hcall
  obtain ⟨deadline, -, hcall⟩ := bind_eq_ok.mp hcall
  obtain ⟨phoenixBudget, -, hcall⟩ := bind_eq_ok.mp hcall
  obtain ⟨_, -, hcall⟩ := bind_eq_ok.mp hcall
  cases hcall
  exact ad_eq_ok.mp hread

/-- The two-venue settlement changes the nonce alone. -/
theorem settle_commits {a : Accounts 19} (h : settle a clock venues d s = (.ok (), s')) :
    PerformsSome program a (twoVenueChanges a d) s.ledger s'.ledger := by
  rw [settle, get_bind, lift_bind_eq_ok] at h
  obtain ⟨start, hstart, h⟩ := h
  obtain ⟨⟨spent, legs⟩, s₁, hlegs, h⟩ := Comp.bind_eq_ok.mp h
  dsimp only at h
  rw [get_bind] at h
  obtain ⟨afterIn, -, h⟩ := lift_bind_eq_ok.mp h
  obtain ⟨actualIn, -, h⟩ := lift_bind_eq_ok.mp h
  obtain ⟨afterOut, -, h⟩ := lift_bind_eq_ok.mp h
  obtain ⟨actualOut, -, h⟩ := lift_bind_eq_ok.mp h
  obtain ⟨_, -, h⟩ := lift_bind_eq_ok.mp h
  obtain ⟨_, -, h⟩ := lift_bind_eq_ok.mp h
  obtain ⟨_, s₂, hwrite, h⟩ := Comp.bind_eq_ok.mp h
  obtain ⟨hread, hready, hnext, hlt⟩ := settleStart_eq_ok hstart
  rw [hnext, List.append_assoc] at hwrite
  have hone : accountIndex 19 1 .overflow = .ok (1 : Fin 19) := rfl
  rw [twoVenueChanges, changesOf_of_ok hone, changesOf_of_ok (ad_eq_ok.mpr hread)]
  exact ⟨⟨(hready.commits (spares_settleLegs _ _ _ _ _ hlegs) hlt hwrite).then_nil
    (commits_nil.mpr (spares_setReturnData _ _ _ _ h)), hready.authorized⟩, List.cons_ne_nil _ _⟩

end Settlements

/-! ## Single records -/

section Single

variable {rt : Runtime} {n : ℕ} {a : Accounts n} {clock : Clock} {program : ProgramId}
  {venues : Venues program} {d : Buffer} {s s' : Chain}

/-- What the end of an order asks: the next revision. -/
def cancelChanges (a : Accounts n) (ledger : Ledger) : List (Key × Change) :=
  changesOf (accountIndex n 1 .overflow) fun order =>
    changesOf (ad (u64At (ledger (a.key order)).data 272)) fun revision => [(a.key order, .cancel revision)]

theorem cancelAccounts_order {p : CancelAccounts n} (h : cancelAccounts n = .ok p) :
    (p.order : ℕ) = 1 := by
  rw [cancelAccounts, bind_eq_ok] at h
  obtain ⟨owner, -, h⟩ := h
  obtain ⟨order, horder, h⟩ := bind_eq_ok.mp h
  obtain ⟨escrow, -, h⟩ := bind_eq_ok.mp h
  obtain ⟨destination, -, h⟩ := bind_eq_ok.mp h
  obtain ⟨mint, -, h⟩ := bind_eq_ok.mp h
  obtain ⟨tokenProgram, -, h⟩ := bind_eq_ok.mp h
  cases h
  exact accountIndex_eq_ok.mp horder

/-- An order that may be cancelled. -/
theorem cancelOrder_eq_ok {p : CancelAccounts n} {ledger : Ledger} {nonce remaining revision : ℕ}
    (h : cancelOrder rt program ledger a p nonce = .ok (remaining, revision)) :
    (ledger (a.key p.order)).owner = program ∧ (ledger (a.key p.order)).data.size = orderLen ∧
    (ledger (a.key p.order)).data.byte 328 = openStatus ∧
    u64At (ledger (a.key p.order)).data 248 = .ok remaining ∧
    u64At (ledger (a.key p.order)).data 272 = .ok revision ∧
    (Change.cancel revision).SignedBy a (ledger (a.key p.order)).data ∧
    (ledger (a.key p.order)).data.slice 8 32 = some (a.key p.owner).toList ∧
    (ledger (a.key p.order)).data.slice 168 32 = some (a.key p.escrow).toList := by
  rw [cancelOrder, bind_eq_ok] at h
  obtain ⟨_, hidentity, h⟩ := h
  obtain ⟨_, -, h⟩ := bind_eq_ok.mp h
  obtain ⟨_, hform, h⟩ := bind_eq_ok.mp h
  obtain ⟨remaining', hremaining, h⟩ := bind_eq_ok.mp h
  obtain ⟨revision', hrevision, h⟩ := bind_eq_ok.mp h
  cases h
  obtain ⟨hsigner, -, -, howner, -⟩ := need_eq_ok.mp hidentity
  obtain ⟨hsize, -, hopen, hwallet, -, hescrow⟩ := need_eq_ok.mp hform
  exact ⟨howner, hsize, hopen, ad_eq_ok.mp hremaining, ad_eq_ok.mp hrevision, ⟨_, hsigner, hwallet⟩, hwallet,
    hescrow⟩

/-- Cancelling ends the order and changes no other record. -/
theorem cancel_commits (h : cancel rt a venues d s = (.ok (), s')) :
    Performs program a (cancelChanges a s.ledger) s.ledger s'.ledger := by
  rw [cancel, lift_bind_eq_ok] at h
  obtain ⟨_, -, h⟩ := h
  obtain ⟨p, hp, h⟩ := lift_bind_eq_ok.mp h
  obtain ⟨nonce, -, h⟩ := lift_bind_eq_ok.mp h
  rw [get_bind] at h
  obtain ⟨⟨remaining, revision⟩, hcancel, h⟩ := lift_bind_eq_ok.mp h
  dsimp only at h
  obtain ⟨before, -, h⟩ := lift_bind_eq_ok.mp h
  obtain ⟨destinationBefore, -, h⟩ := lift_bind_eq_ok.mp h
  obtain ⟨_, -, h⟩ := lift_bind_eq_ok.mp h
  obtain ⟨s₁, hspares, h⟩ := Keeps.of_optional (spares_transferCheckedSigned rt _ _ _ _ _ _ _ _) h
  rw [get_bind] at h
  obtain ⟨after, -, h⟩ := lift_bind_eq_ok.mp h
  obtain ⟨destinationAfter, -, h⟩ := lift_bind_eq_ok.mp h
  obtain ⟨_, -, h⟩ := lift_bind_eq_ok.mp h
  obtain ⟨next, hnext, h⟩ := lift_bind_eq_ok.mp h
  obtain ⟨hlt, rfl⟩ := checkedSum_eq_ok.mp hnext
  obtain ⟨_, s₂, hwrite, h⟩ := Comp.bind_eq_ok.mp h
  obtain ⟨howner, hsize, hopen, -, hrevision, hsigned, -⟩ := cancelOrder_eq_ok hcancel
  obtain ⟨howner₁, hdata₁⟩ := hspares _ List.not_mem_nil howner
  rw [cancelChanges, changesOf_of_ok (accountIndex_eq_ok.mpr (cancelAccounts_order hp)),
    changesOf_of_ok (ad_eq_ok.mpr hrevision)]
  refine ⟨Commits.then_nil (Commits.after_nil (commits_nil.mpr hspares) (commits_writeFields howner₁
    (fun data hdata => ?_) hwrite) ?_) (commits_nil.mpr (spares_setReturnData _ _ _ _ h)), .single hsigned⟩
  · rw [hdata₁] at hdata ⊢
    exact ⟨hsize, hopen, hrevision, hlt, hdata⟩
  · intro e he
    rw [List.mem_singleton.mp he]
    exact howner

/-- The windows of a record written anew, on what it held or on zeros; its kind and identity are those it
had. -/
theorem Tick.of_rewritten {d d' base : Buffer} {q offset : ℕ} {fields : List (ℕ × List UInt8)}
    {tag : List UInt8} {identity : Key} (hdata : Buffer.spliceAll fields base = some d')
    (hbase : base.size = d.size) (hapart : fields.Pairwise Buffer.Apart)
    (hoffset : counterOffset d.size = some offset) (hbefore : u64At d offset = .ok q)
    (hlt : q + 1 < u64Size) (hmem : (offset, Buffer.toBytes 8 (q + 1)) ∈ fields)
    (htag : (0, tag) ∈ fields) (hlength : tag.length = 8) (hidentity : (8, identity.toList) ∈ fields)
    (hold : d.slice 0 8 = some tag) (hold' : d.slice 8 32 = some identity.toList) : Tick q d d' := by
  have hsize : d'.size = d.size := (Buffer.size_spliceAll hdata).trans hbase
  have hnew := Buffer.slice_spliceAll hdata hapart htag
  have hnew' := Buffer.slice_spliceAll hdata hapart hidentity
  rw [hlength] at hnew
  rw [Vector.length_toList] at hnew'
  constructor
  · exact hsize
  · exact (Buffer.slice_append hnew hnew').trans (Buffer.slice_append hold hold').symm
  · exact counter_of_number hoffset (okOr_eq_ok.mp hbefore)
  · exact counter_of_number (hsize.symm ▸ hoffset) (Buffer.number_spliceAll hdata hapart hmem hlt)

/-- What a publication asks: the next version, if the account is the program's already. -/
def publicationChanges (program : ProgramId) (a : Accounts n) (ledger : Ledger) (version : Outcome ℕ) :
    List (Key × Change) :=
  changesOf (accountIndex n 1 .overflow) fun record => changesOf version fun version =>
    if (ledger (a.key record)).owner = program then [(a.key record, .advance (version - 1))] else []

theorem policyFields_apart (t : PolicyTerms) (authority : Key) (slot : ℕ) :
    (t.fields authority slot).Pairwise Buffer.Apart := by
  have hspans : (t.fields authority slot).map (fun f => (f.1, f.2.length)) = [(0, 8), (8, 32), (40, 32),
      (72, 32), (104, 32), (136, 32), (168, 32), (200, 8), (208, 8), (216, 8), (224, 1)] := by
    simp [PolicyTerms.fields, policyTag]
  exact apart_of_spans hspans (by decide)

/-- A policy is published over its last version. -/
theorem succeedsPolicy_eq_ok {old : Buffer} {authority : Key} {t : PolicyTerms}
    (h : succeedsPolicy old authority t = .ok ()) :
    old.size = policyLen ∧ old.slice 0 8 = some policyTag ∧ old.slice 8 32 = some authority.toList ∧
    u64At old 200 = .ok (t.version - 1) ∧ t.version = t.version - 1 + 1 := by
  rw [succeedsPolicy, bind_eq_ok] at h
  obtain ⟨_, hform, h⟩ := h
  obtain ⟨version, hversion, h⟩ := bind_eq_ok.mp h
  obtain ⟨hsize, htag, hauthority, -⟩ := need_eq_ok.mp hform
  have hnext := need_eq_ok.mp h
  rw [← hnext, Nat.add_sub_cancel]
  exact ⟨hsize, htag, hauthority, ad_eq_ok.mp hversion, rfl⟩

theorem policyTerms_version {t : PolicyTerms} (h : policyTerms clock d = .ok t) :
    u64At d 161 = .ok t.version := by
  rw [policyTerms, bind_eq_ok] at h
  obtain ⟨instrument, -, h⟩ := h
  obtain ⟨issuer, -, h⟩ := bind_eq_ok.mp h
  obtain ⟨input, -, h⟩ := bind_eq_ok.mp h
  obtain ⟨output, -, h⟩ := bind_eq_ok.mp h
  obtain ⟨rights, -, h⟩ := bind_eq_ok.mp h
  obtain ⟨version, hversion, h⟩ := bind_eq_ok.mp h
  obtain ⟨expires, -, h⟩ := bind_eq_ok.mp h
  obtain ⟨latest, -, h⟩ := bind_eq_ok.mp h
  obtain ⟨_, -, h⟩ := bind_eq_ok.mp h
  cases h
  exact ad_eq_ok.mp hversion

/-- Publishing a policy writes its next version, or creates it, and changes no other record. -/
theorem publishPolicy_commits (hsystem : (program : Key) ≠ systemId)
    (h : publishPolicy rt a clock program d s = (.ok (), s')) :
    Performs program a (publicationChanges program a s.ledger (ad (u64At d 161))) s.ledger s'.ledger := by
  rw [publishPolicy, lift_bind_eq_ok] at h
  obtain ⟨_, -, h⟩ := h
  obtain ⟨authority, -, h⟩ := lift_bind_eq_ok.mp h
  obtain ⟨policy, hpolicy, h⟩ := lift_bind_eq_ok.mp h
  obtain ⟨system, -, h⟩ := lift_bind_eq_ok.mp h
  obtain ⟨_, hsigner, h⟩ := lift_bind_eq_ok.mp h
  obtain ⟨t, ht, h⟩ := lift_bind_eq_ok.mp h
  obtain ⟨_, -, h⟩ := lift_bind_eq_ok.mp h
  obtain ⟨_, s₁, haccount, hwrite⟩ := Comp.bind_eq_ok.mp h
  have hversion := policyTerms_version ht
  rw [publicationChanges, changesOf_of_ok hpolicy, changesOf_of_ok (ad_eq_ok.mpr hversion)]
  rw [policyAccount, get_bind] at haccount
  split at haccount
  · -- the next version of a policy
    next howner =>
    obtain ⟨hsucceeds, rfl⟩ := lift_eq_ok.mp haccount
    obtain ⟨hsize, htag, hauthority, hbefore, hnext⟩ := succeedsPolicy_eq_ok hsucceeds
    rw [if_pos howner]
    refine ⟨commits_writeFields howner (fun data hdata => ⟨?_, ?_⟩) hwrite,
      .single ⟨_, (need_eq_ok.mp hsigner).1, hauthority⟩⟩
    · rw [hsize]
      decide
    · refine Tick.of_rewritten hdata rfl
        (policyFields_apart _ _ _) (hsize ▸ rfl) hbefore ?_ ?_ ?_ rfl ?_ htag hauthority
      · rw [← hnext]
        exact u64At_lt hversion
      · rw [← hnext]
        simp [PolicyTerms.fields]
      · simp [PolicyTerms.fields]
      · simp [PolicyTerms.fields]
  · -- a new policy, at an address that the program did not own
    next howner =>
    rw [if_neg howner]
    obtain ⟨_, hnew, hcreate⟩ := lift_bind_eq_ok.mp haccount
    have hspares : Spares program [a.key policy] s s' :=
      (spares_createAccount rt _ _ _ _ _ _ hcreate).trans (spares_writeFields _ _ _ _ _ hwrite)
    exact (hspares.created hsystem (need_eq_ok.mp hnew).2.1).performs

theorem claimFields_apart (c : NewClaim) (p : ClaimAccounts n) (slot : ℕ) (flags : UInt8) :
    (c.fields a p slot flags).Pairwise Buffer.Apart := by
  have hspans : (c.fields a p slot flags).map (fun f => (f.1, f.2.length)) = [(0, 8), (8, 32), (40, 32),
      (72, 32), (104, 32), (136, 32), (168, 32), (200, 32), (232, 8), (240, 8), (248, 8), (256, 8), (264, 8),
      (272, 8), (280, 2), (282, 1), (283, 1)] := by
    simp [NewClaim.fields, claimTag]
  exact apart_of_spans hspans (by decide)

/-- A claim is published over its last version. -/
theorem succeedsClaim_eq_ok {old : Buffer} {p : ClaimAccounts n} {c : NewClaim}
    (h : succeedsClaim a old p c = .ok ()) :
    old.size = claimLen ∧ old.slice 0 8 = some claimTag ∧
    old.slice 8 32 = some (a.key p.authority).toList ∧
    u64At old 240 = .ok (c.claimVersion - 1) ∧ c.claimVersion = c.claimVersion - 1 + 1 := by
  rw [succeedsClaim, bind_eq_ok] at h
  obtain ⟨_, hform, h⟩ := h
  obtain ⟨version, hversion, h⟩ := bind_eq_ok.mp h
  obtain ⟨hsize, htag, hauthority, -⟩ := need_eq_ok.mp hform
  have hnext := need_eq_ok.mp h
  rw [← hnext, Nat.add_sub_cancel]
  exact ⟨hsize, htag, hauthority, ad_eq_ok.mp hversion, rfl⟩

theorem newClaim_version {c : NewClaim} (h : newClaim d = .ok c) : u64At d 88 = .ok c.claimVersion := by
  rw [newClaim, bind_eq_ok] at h
  obtain ⟨conservativeBps, -, h⟩ := h
  obtain ⟨instrument, -, h⟩ := bind_eq_ok.mp h
  obtain ⟨issuer, -, h⟩ := bind_eq_ok.mp h
  obtain ⟨policyVersion, -, h⟩ := bind_eq_ok.mp h
  obtain ⟨maxAge, -, h⟩ := bind_eq_ok.mp h
  obtain ⟨claimVersion, hversion, h⟩ := bind_eq_ok.mp h
  obtain ⟨numerator, -, h⟩ := bind_eq_ok.mp h
  obtain ⟨denominator, -, h⟩ := bind_eq_ok.mp h
  obtain ⟨expiresSlot, -, h⟩ := bind_eq_ok.mp h
  obtain ⟨_, -, h⟩ := bind_eq_ok.mp h
  cases h
  exact ad_eq_ok.mp hversion

theorem checkClaim_version {p : ClaimAccounts n} {ledger : Ledger} {c : NewClaim}
    (h : checkClaim rt a clock program ledger p d = .ok c) :
    u64At d 88 = .ok c.claimVersion ∧ a.isSigner (a.key p.authority) = true := by
  rw [checkClaim, bind_eq_ok] at h
  obtain ⟨_, hsigner, h⟩ := h
  obtain ⟨c', hc, h⟩ := bind_eq_ok.mp h
  obtain ⟨_, -, h⟩ := bind_eq_ok.mp h
  obtain ⟨latest, -, h⟩ := bind_eq_ok.mp h
  obtain ⟨_, -, h⟩ := bind_eq_ok.mp h
  obtain ⟨_, -, h⟩ := bind_eq_ok.mp h
  dsimp only at h
  obtain ⟨_, -, h⟩ := bind_eq_ok.mp h
  obtain ⟨_, -, h⟩ := bind_eq_ok.mp h
  cases h
  exact ⟨newClaim_version hc, (need_eq_ok.mp hsigner).1⟩

theorem claimAccounts_claim {p : ClaimAccounts n} (h : claimAccounts n = .ok p) : (p.claim : ℕ) = 1 := by
  rw [claimAccounts, bind_eq_ok] at h
  obtain ⟨authority, -, h⟩ := h
  obtain ⟨claim, hclaim, h⟩ := bind_eq_ok.mp h
  obtain ⟨policy, -, h⟩ := bind_eq_ok.mp h
  obtain ⟨cashMint, -, h⟩ := bind_eq_ok.mp h
  obtain ⟨productMint, -, h⟩ := bind_eq_ok.mp h
  obtain ⟨tokenProgram, -, h⟩ := bind_eq_ok.mp h
  obtain ⟨system, -, h⟩ := bind_eq_ok.mp h
  cases h
  exact accountIndex_eq_ok.mp hclaim

theorem zeroData_eq_ok {key : Key} (h : zeroData key s = (.ok (), s')) :
    s' = { s with
      ledger := Function.update s.ledger key
        { s.ledger key with data := ⟨(s.ledger key).data.size, fun _ => 0⟩ } } := by
  cases h
  rfl

/-- Publishing a claim writes its next version, or creates it, and changes no other record. -/
theorem publishClaim_commits (hsystem : (program : Key) ≠ systemId)
    (h : publishClaim rt a clock program d s = (.ok (), s')) :
    Performs program a (publicationChanges program a s.ledger (ad (u64At d 88))) s.ledger s'.ledger := by
  rw [publishClaim, lift_bind_eq_ok] at h
  obtain ⟨_, -, h⟩ := h
  obtain ⟨p, hp, h⟩ := lift_bind_eq_ok.mp h
  rw [get_bind] at h
  obtain ⟨c, hc, h⟩ := lift_bind_eq_ok.mp h
  obtain ⟨_, s₁, haccount, h⟩ := Comp.bind_eq_ok.mp h
  obtain ⟨_, s₂, hzero, h⟩ := Comp.bind_eq_ok.mp h
  obtain ⟨_, s₃, hwrite, h⟩ := Comp.bind_eq_ok.mp h
  rw [get_bind] at h
  have hreturn : Commits program [] s₃.ledger s'.ledger := commits_nil.mpr (spares_setReturnData _ _ _ _ h)
  obtain ⟨hversion, hsigner⟩ := checkClaim_version hc
  have hclaim := claimAccounts_claim hp
  rw [publicationChanges, changesOf_of_ok (accountIndex_eq_ok.mpr hclaim),
    changesOf_of_ok (ad_eq_ok.mpr hversion)]
  rw [claimAccount, get_bind] at haccount
  split at haccount
  · -- the next version of a claim, on data that is zeroed first
    next howner =>
    obtain ⟨hsucceeds, rfl⟩ := lift_eq_ok.mp haccount
    obtain ⟨hsize, htag, hauthority, hbefore, hnext⟩ := succeedsClaim_eq_ok hsucceeds
    obtain ⟨data, hdata, rfl⟩ := writeFields_eq_ok hwrite
    obtain rfl := zeroData_eq_ok hzero
    simp only [Function.update_self] at hdata
    rw [if_pos howner]
    refine ⟨Commits.then_nil ?_ hreturn, .single ⟨_, hsigner, hauthority⟩⟩
    show Commits _ _ _ (Function.update (Function.update _ _ _) _ _)
    simp only [Function.update_idem, Function.update_self]
    refine Commits.single howner howner ⟨?_, ?_⟩
    · rw [hsize]
      decide
    · refine Tick.of_rewritten hdata rfl
        (claimFields_apart _ _ _ _) (hsize ▸ rfl) hbefore ?_ ?_ ?_ rfl ?_ htag hauthority
      · rw [← hnext]
        exact u64At_lt hversion
      · rw [← hnext]
        simp [NewClaim.fields]
      · simp [NewClaim.fields]
      · simp [NewClaim.fields]
  · -- a new claim
    next howner =>
    rw [if_neg howner]
    obtain ⟨_, hnew, hcreate⟩ := lift_bind_eq_ok.mp haccount
    have hspares : Spares program [a.key p.claim] s s₃ :=
      ((spares_createAccount rt _ _ _ _ _ _ hcreate).trans (spares_zeroData _ _ _ _ hzero)).trans
        (spares_writeFields _ _ _ _ _ hwrite)
    exact ((hspares.created hsystem (need_eq_ok.mp hnew).2.1).then_nil hreturn).performs

end Single

end StockMesh.Settle

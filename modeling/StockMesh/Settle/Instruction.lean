import StockMesh.Settle.Outcomes

/-! # Instructions

The entry point of the program. `instructionChanges` reads off an instruction what it asks of the records; an
instruction that returns has done that, and nothing else to any account of the program
(`processInstruction_performs`). -/

namespace StockMesh.Settle

open Stateful

/-- What an instruction is executed with. -/
structure Call (program : ProgramId) where
  natives : Natives
  runtime : Runtime
  n : ℕ
  accounts : Accounts n
  clock : Clock
  venues : Venues program
  data : Buffer

namespace Call

variable {program : ProgramId} (c : Call program)

/-- `settle`, which takes nineteen accounts. -/
def settleTwo : Step Unit :=
  if h : c.n = 19 then settle (h ▸ c.accounts) c.clock c.venues c.data else lift (.error .bounds)

/-- `process_instruction`. -/
def processInstruction : Step Unit :=
  let a := c.accounts
  let d := c.data
  if d.size = 0 then lift (.error .instruction) else
  match (d.byte 0).toNat with
  | 0 => if d.size = 1 then initializeNonce c.runtime program a else lift (.error .instruction)
  | 1 => if d.size = 44 then c.settleTwo else lift (.error .instruction)
  | 2 => settleGraph c.natives a c.clock c.venues d
  | 3 => clearCrossing c.natives a c.clock c.venues d
  | 4 => settleGraph c.natives a c.clock c.venues d
  | 9 => settleGraph c.natives a c.clock c.venues d
  | 5 => clearCrossing c.natives a c.clock c.venues d
  | 19 => publishPolicy c.runtime a c.clock program d
  | 7 => stockExecute c.natives c.runtime a c.clock c.venues d
  | 20 => executeReverse c.runtime a c.clock c.natives c.venues d
  | 10 => initializeCapsule c.runtime program a c.clock d
  | 11 => executeCapsule c.natives c.runtime a c.clock c.venues d
  | 12 => clearFlowCell c.natives a c.clock c.venues d
  | 13 => executeExposure c.natives c.runtime a c.clock c.venues d
  | 14 => clearMeshCell c.natives c.runtime a c.clock c.venues d
  | 15 => place c.runtime a c.clock c.venues d
  | 16 => cancel c.runtime a c.venues d
  | 17 => publishClaim c.runtime a c.clock program d
  | 18 => executeFunding c.natives c.runtime a c.clock c.venues d
  | _ => lift (.error .instruction)

end Call

/-- What an instruction under a signed sequence asks of the records; it does not depend on the ledger. -/
def signedChanges {n : ℕ} (a : Accounts n) (d : Buffer) : List (Key × Change) :=
  match (d.byte 0).toNat with
  | 1 => twoVenueChanges a d
  | 2 | 4 | 9 => settlementChanges a d
  | 7 | 20 => settlementChanges a (d.drop 20)
  | 11 => capsuleChanges a d
  | 3 | 5 | 12 => intentChanges a d
  | 13 => exposureChanges a d
  | 14 => cellChanges a d
  | 18 => fundingChanges a d
  | _ => []

/-- What an instruction asks of the records. The publication of a new version and the end of an order depend
on the record. -/
def instructionChanges (program : ProgramId) {n : ℕ} (a : Accounts n) (ledger : Ledger) (d : Buffer) :
    List (Key × Change) :=
  match (d.byte 0).toNat with
  | 16 => cancelChanges a ledger
  | 17 => publicationChanges program a ledger (ad (u64At d 88))
  | 19 => publicationChanges program a ledger (ad (u64At d 161))
  | _ => signedChanges a d

/-- An opcode under a signed sequence. -/
def Signed (d : Buffer) : Prop :=
  (d.byte 0).toNat ∈ [1, 2, 3, 4, 5, 7, 9, 11, 12, 13, 14, 18, 20]

section Commits

variable {program : ProgramId} {c : Call program} {s s' : Chain}

/-- The changes of an instruction under a signed sequence. -/
theorem instructionChanges_of_signed {n : ℕ} {a : Accounts n} {d : Buffer} (h : Signed d) (ledger : Ledger) :
    instructionChanges program a ledger d = signedChanges a d := by
  unfold Signed at h
  unfold instructionChanges
  split
  · next hop =>
    rw [hop] at h
    contradiction
  · next hop =>
    rw [hop] at h
    contradiction
  · next hop =>
    rw [hop] at h
    contradiction
  · rfl

theorem settleTwo_commits (h : c.settleTwo s = (.ok (), s')) :
    PerformsSome program c.accounts (twoVenueChanges c.accounts c.data) s.ledger s'.ledger := by
  obtain ⟨natives, runtime, n, accounts, clock, venues, data⟩ := c
  rw [Call.settleTwo] at h
  split at h
  · next hn =>
    dsimp only at hn
    subst hn
    exact settle_commits h
  · cases (lift_eq_ok.mp h).1

/-- An instruction under a signed sequence does what it asks, and it asks something. -/
theorem signed_commits (hsigned : Signed c.data) (h : c.processInstruction s = (.ok (), s')) :
    PerformsSome program c.accounts (signedChanges c.accounts c.data) s.ledger s'.ledger := by
  unfold Call.processInstruction at h
  split at h
  · cases (lift_eq_ok.mp h).1
  unfold Signed at hsigned
  unfold signedChanges
  generalize hop : (c.data.byte 0).toNat = op at h hsigned
  simp only [List.mem_cons, List.not_mem_nil, or_false] at hsigned
  -- one case for each opcode, in their order
  rcases hsigned with rfl | rfl | rfl | rfl | rfl | rfl | rfl | rfl | rfl | rfl | rfl | rfl | rfl
  · have h : (if c.data.size = 44 then c.settleTwo else lift (.error .instruction)) s = (.ok (), s') := h
    split at h
    · exact settleTwo_commits h
    · cases (lift_eq_ok.mp h).1
  · exact settleGraph_commits h
  · exact clearCrossing_commits h
  · exact settleGraph_commits h
  · exact clearCrossing_commits h
  · exact stockExecute_commits h
  · exact settleGraph_commits h
  · exact executeCapsule_commits h
  · exact clearFlowCell_commits h
  · exact executeExposure_commits h
  · exact clearMeshCell_commits h
  · exact executeFunding_commits h
  · exact executeReverse_commits h

/-- An instruction does exactly what it asks of the records, and their owners have signed. -/
theorem processInstruction_performs (hsystem : (program : Key) ≠ systemId)
    (h : c.processInstruction s = (.ok (), s')) :
    Performs program c.accounts (instructionChanges program c.accounts s.ledger c.data) s.ledger
      s'.ledger := by
  unfold Call.processInstruction at h
  split at h
  · cases (lift_eq_ok.mp h).1
  unfold instructionChanges signedChanges
  generalize (c.data.byte 0).toNat = op at h
  split at h
  · -- a new nonce
    split at h
    · exact (initializeNonce_commits hsystem h).performs
    · cases (lift_eq_ok.mp h).1
  · split at h
    · exact (settleTwo_commits h).toPerforms
    · cases (lift_eq_ok.mp h).1
  · exact (settleGraph_commits h).toPerforms
  · exact (clearCrossing_commits h).toPerforms
  · exact (settleGraph_commits h).toPerforms
  · exact (settleGraph_commits h).toPerforms
  · exact (clearCrossing_commits h).toPerforms
  · exact publishPolicy_commits hsystem h
  · exact (stockExecute_commits h).toPerforms
  · exact (executeReverse_commits h).toPerforms
  · exact (initializeCapsule_commits hsystem h).performs
  · exact (executeCapsule_commits h).toPerforms
  · exact (clearFlowCell_commits h).toPerforms
  · exact (executeExposure_commits h).toPerforms
  · exact (clearMeshCell_commits h).toPerforms
  · exact (place_commits hsystem h).performs
  · exact cancel_commits h
  · exact publishClaim_commits hsystem h
  · exact (executeFunding_commits h).toPerforms
  · cases (lift_eq_ok.mp h).1

end Commits

/-! ## Orders -/

section Orders

variable {program : ProgramId} {n : ℕ} {a : Accounts n} {ledger : Ledger} {d : Buffer}

/-- Every change of a list is the next count of a record. -/
def OnlyAdvances (changes : List (Key × Change)) : Prop := ∀ e ∈ changes, ∃ count, e.2 = .advance count

theorem OnlyAdvances.nil : OnlyAdvances [] := fun _ he => absurd he List.not_mem_nil

theorem OnlyAdvances.advance (key : Key) (count : ℕ) : OnlyAdvances [(key, .advance count)] := by
  intro e he
  obtain rfl := List.mem_singleton.mp he
  exact ⟨count, rfl⟩

theorem OnlyAdvances.changesOf {α : Type} {decoded : Outcome α} {changes : α → List (Key × Change)}
    (h : ∀ v, OnlyAdvances (changes v)) : OnlyAdvances (changesOf decoded changes) := by
  cases decoded with
  | ok v => exact h v
  | error _ => exact .nil

theorem OnlyAdvances.append {changes more : List (Key × Change)} (h : OnlyAdvances changes)
    (h' : OnlyAdvances more) : OnlyAdvances (changes ++ more) := List.forall_mem_append.mpr ⟨h, h'⟩

theorem settlementChanges_onlyAdvances : OnlyAdvances (settlementChanges a d) := by
  refine .changesOf fun nonce => ?_
  rw [graphChanges]
  split
  · exact .advance _ _
  · exact .nil

theorem intentChanges_onlyAdvances : OnlyAdvances (intentChanges a d) := by
  intro e he
  obtain ⟨j, -, hmem⟩ := List.mem_flatMap.mp he
  exact OnlyAdvances.changesOf (fun i => .advance _ _) e hmem

theorem publicationChanges_onlyAdvances {version : Outcome ℕ} :
    OnlyAdvances (publicationChanges program a ledger version) := by
  refine .changesOf fun record => .changesOf fun version => ?_
  split
  · exact .advance _ _
  · exact .nil

/-- Only a cell fills orders, and only one instruction ends them. -/
theorem advance_or_order {e : Key × Change} (h : e ∈ instructionChanges program a ledger d) :
    (∃ count, e.2 = .advance count) ∨ ((d.byte 0).toNat = 14 ∧ e ∈ cellChanges a d) ∨
    ((d.byte 0).toNat = 18 ∧ e ∈ fundingChanges a d) ∨
    ((d.byte 0).toNat = 16 ∧ e ∈ cancelChanges a ledger) := by
  unfold instructionChanges signedChanges at h
  generalize (d.byte 0).toNat = op at h ⊢
  split at h
  · exact .inr (.inr (.inr ⟨rfl, h⟩))
  · exact .inl (publicationChanges_onlyAdvances e h)
  · exact .inl (publicationChanges_onlyAdvances e h)
  · split at h
    · exact .inl (OnlyAdvances.changesOf (fun _ => .changesOf fun _ => .advance _ _) e h)
    · exact .inl (settlementChanges_onlyAdvances e h)
    · exact .inl (settlementChanges_onlyAdvances e h)
    · exact .inl (settlementChanges_onlyAdvances e h)
    · exact .inl (settlementChanges_onlyAdvances e h)
    · exact .inl (settlementChanges_onlyAdvances e h)
    · exact .inl (settlementChanges_onlyAdvances.append
        (.changesOf fun _ => .changesOf fun _ => .advance _ _) e h)
    · exact .inl (intentChanges_onlyAdvances e h)
    · exact .inl (intentChanges_onlyAdvances e h)
    · exact .inl (intentChanges_onlyAdvances e h)
    · exact .inl (OnlyAdvances.changesOf (fun _ => .changesOf fun _ => .advance _ _) e h)
    · exact .inr (.inl ⟨rfl, h⟩)
    · exact .inr (.inr (.inl ⟨rfl, h⟩))
    · exact absurd h List.not_mem_nil

/-- What some decoded data asks comes from a value that it decodes to. -/
theorem mem_changesOf {α : Type} {decoded : Outcome α} {changes : α → List (Key × Change)} {e : Key × Change}
    (h : e ∈ changesOf decoded changes) : ∃ v, decoded = .ok v ∧ e ∈ changes v := by
  cases decoded with
  | ok v => exact ⟨v, rfl, h⟩
  | error _ => cases h

/-- The order that is ended is the second account. -/
theorem mem_cancelChanges {e : Key × Change} (h : e ∈ cancelChanges a ledger) :
    ∃ (order : Fin n) (revision : ℕ), (order : ℕ) = 1 ∧ e = (a.key order, .cancel revision) := by
  obtain ⟨order, horder, h⟩ := mem_changesOf h
  obtain ⟨revision, -, h⟩ := mem_changesOf h
  exact ⟨order, revision, accountIndex_eq_ok.mp horder, List.mem_singleton.mp h⟩

/-- A cell ends no order. -/
theorem cellChanges_ne_cancel {key : Key} {revision : ℕ} : (key, .cancel revision) ∉ cellChanges a d := by
  intro h
  obtain ⟨header, -, h⟩ := mem_changesOf h
  rcases List.mem_cons.mp h with h | h
  · cases h
  · obtain ⟨j, -, h⟩ := List.mem_flatMap.mp h
    obtain ⟨e, he, h⟩ := mem_changesOf h
    obtain rfl := List.mem_singleton.mp h
    rw [sellerChange, bind_eq_ok] at he
    obtain ⟨row, -, he⟩ := he
    obtain ⟨nonce, -, he⟩ := bind_eq_ok.mp he
    obtain ⟨sequence, -, he⟩ := bind_eq_ok.mp he
    obtain ⟨stock, -, he⟩ := bind_eq_ok.mp he
    obtain ⟨cash, -, he⟩ := bind_eq_ok.mp he
    have hchange := congrArg Prod.snd (Except.ok.inj he)
    dsimp only at hchange
    split at hchange
    · cases hchange
    · cases hchange

variable {c : Call program} {s s' : Chain} {key : Key}

/-- Every fill of an instruction has moved its stock and its cash. -/
theorem processInstruction_fill {revision stock cash : ℕ} (h : c.processInstruction s = (.ok (), s'))
    (hfill : (key, .fill revision stock cash) ∈ instructionChanges program c.accounts s.ledger c.data) :
    FillMoves (s.ledger key).data stock cash s.ledger s'.ledger := by
  unfold Call.processInstruction at h
  split at h
  · cases (lift_eq_ok.mp h).1
  rcases advance_or_order hfill with ⟨count, hadvance⟩ | ⟨hop, hcell⟩ | ⟨hop, hcell⟩ | ⟨-, hcancel⟩
  · cases hadvance
  · rw [hop] at h
    exact clearInner_fill h hcell
  · rw [hop] at h
    exact executeFunding_fill h hcell
  · obtain ⟨order, revision', -, heq⟩ := mem_cancelChanges hcancel
    cases heq

/-- An instruction that ends an order has returned what was left of it. -/
theorem processInstruction_cancel {revision : ℕ} (h : c.processInstruction s = (.ok (), s'))
    (hcancel : (key, .cancel revision) ∈ instructionChanges program c.accounts s.ledger c.data) :
    ∃ owner escrow destination remaining,
      CancelMoves (s.ledger key).data owner escrow destination remaining s.ledger s'.ledger := by
  unfold Call.processInstruction at h
  split at h
  · cases (lift_eq_ok.mp h).1
  rcases advance_or_order hcancel with ⟨count, hadvance⟩ | ⟨-, hcell⟩ | ⟨-, hcell⟩ | ⟨hop, hcancel⟩
  · cases hadvance
  · exact absurd hcell cellChanges_ne_cancel
  · obtain ⟨fundingLen, -, hcell⟩ := mem_changesOf hcell
    obtain ⟨cellLen, -, hcell⟩ := mem_changesOf hcell
    obtain ⟨cell, -, hcell⟩ := mem_changesOf hcell
    exact absurd hcell cellChanges_ne_cancel
  · obtain ⟨order, revision', horder, heq⟩ := mem_cancelChanges hcancel
    rw [hop] at h
    obtain ⟨rfl, -⟩ := Prod.mk.inj heq
    exact cancel_moves horder h

end Orders

/-! ## The market as instructions -/

section Market

/-- An instruction in the sample market. -/
def marketInstruction {n : ℕ} (accounts : Accounts n) (data : Buffer) : Call sampleProgram where
  natives := noNatives
  runtime := marketRuntime
  n := n
  accounts := accounts
  clock := sampleClock
  venues := tokenVenues
  data := data

/-- A seller places an order. -/
def placeCall : Call sampleProgram := marketInstruction placingAccounts placePayload

/-- A buyer takes some of it. -/
def takeCall : Call sampleProgram := marketInstruction takingAccounts takePayload

/-- The seller ends it. -/
def endCall : Call sampleProgram := marketInstruction endingAccounts endPayload

/-- The first byte of the data is the opcode. -/
theorem opcode_of_packed {program : ProgramId} {c : Call program} {b : UInt8} {bytes : List UInt8}
    (h : c.data = packedBytes (b :: bytes)) : ¬c.data.size = 0 ∧ c.data.byte 0 = b := by
  rw [h]
  exact packedBytes_opcode b bytes

theorem placeCall_opcode : ¬placeCall.data.size = 0 ∧ placeCall.data.byte 0 = 15 := opcode_of_packed rfl

theorem takeCall_opcode : ¬takeCall.data.size = 0 ∧ takeCall.data.byte 0 = 14 := opcode_of_packed rfl

theorem endCall_opcode : ¬endCall.data.size = 0 ∧ endCall.data.byte 0 = 16 := opcode_of_packed rfl

theorem placeCall_eq : placeCall.processInstruction = placing := by
  unfold Call.processInstruction
  rw [if_neg placeCall_opcode.1, placeCall_opcode.2]
  rfl

theorem takeCall_eq : takeCall.processInstruction = taking := by
  unfold Call.processInstruction
  rw [if_neg takeCall_opcode.1, takeCall_opcode.2]
  rfl

theorem endCall_eq : endCall.processInstruction = ending := by
  unfold Call.processInstruction
  rw [if_neg endCall_opcode.1, endCall_opcode.2]
  rfl

theorem takeCall_signed : Signed takeCall.data := by
  unfold Signed
  rw [takeCall_opcode.2]
  decide

theorem placeCall_places : (placeCall.data.byte 0).toNat = 15 := by
  rw [placeCall_opcode.2]
  rfl

/-- The life of the sample order as a run. -/
theorem market_run : ∃ s s₁ s', placeCall.processInstruction { ledger := marketLedger } = (.ok (), s) ∧
    takeCall.processInstruction { ledger := s.ledger } = (.ok (), s₁) ∧
    endCall.processInstruction { ledger := s₁.ledger } = (.ok (), s') := by
  rw [placeCall_eq, takeCall_eq, endCall_eq]
  exact placed_taken_ended

end Market

end StockMesh.Settle

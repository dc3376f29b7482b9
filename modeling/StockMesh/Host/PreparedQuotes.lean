import StockMesh.Host.Mesh
import StockMesh.Journal.Investment
import StockMesh.Foundation.Table
import Mathlib.Data.String.Basic

/-! # Prepared quotes

`PreparedQuotes` holds one verified candidate for each quote and owner. A better bid of another executor, or
a newer one of the same executor, replaces it. The history of an entry lists the candidates admitted since
the entry was last opened (`Book`). -/

namespace StockMesh.Host

open Journal (refuse_eq_ok)

variable {φ : Type}

/-! ## Candidates -/

/-- What a receipt of a prepared message is expected to show. -/
structure Expectation where
  messageHash : Key
  intentCommitment : Key
  preparedSlot : ℕ
  maximumCu : ℕ
  deriving DecidableEq

/-- A simulated message. -/
structure PreparedExposure where
  expected : Expectation
  revision : ℕ
  stateHash : Key
  marketHash : Key
  simulatedExposure : ℕ
  simulatedCu : ℕ
  deriving DecidableEq

namespace PreparedExposure

/-- `validate_state`, after the answer of the fence of the feed. -/
def validateState (crates : MeshCrates) (p : PreparedExposure) (fence : Answer Unit) (snapshot : Snapshot)
    (intent : FrozenIntent) : Answer Unit := do
  fence
  refuse (snapshot.revision ≠ p.revision ∨ snapshot.hash ≠ p.stateHash ∨
    snapshot.slot ≠ p.expected.preparedSlot) "prepared economic intent revoked"
  let commitment ← intent.commitment crates snapshot.slot
  refuse (commitment ≠ p.expected.intentCommitment) "prepared economic intent revoked"

/-- `validate_bid`. -/
def validateBid (verify : Verify) (p : PreparedExposure) (bid : ExecutorBid) (intent : FrozenIntent)
    (slot : ℕ) : Answer Unit := do
  verify bid intent slot
  refuse (bid.transactionMessageHash ≠ p.expected.messageHash ∨
    bid.intentCommitment ≠ p.expected.intentCommitment ∨ bid.worldGenerationHash ≠ p.marketHash ∨
    p.simulatedExposure < bid.guaranteedExposureQ32 ∨ bid.predictedComputeUnits < p.simulatedCu ∨
    p.expected.maximumCu < bid.predictedComputeUnits ∨ bid.executorFeeInputAtoms ≠ 0)
    "executor bid differs from simulated economic outcome"

end PreparedExposure

/-- A candidate of an executor. The feed is shared. -/
structure Candidate (φ : Type) where
  intent : FrozenIntent
  feed : φ
  snapshot : Snapshot
  prepared : PreparedExposure
  bid : ExecutorBid
  lastValidBlockHeight : ℕ

/-- `validate_state` of a candidate, with the fences of the feeds. -/
def Candidate.validateState (crates : MeshCrates) (c : Candidate φ) (fence : φ → Snapshot → Answer Unit) :
    Answer Unit := c.prepared.validateState crates (fence c.feed c.snapshot) c.snapshot c.intent

/-- The commitment of a candidate at its own slot. -/
def Candidate.commitment (crates : MeshCrates) (c : Candidate φ) : Answer Key :=
  c.intent.commitment crates c.snapshot.slot

/-- A stored row, with the identity of its quote. -/
structure Stored (φ : Type) where
  quoteId : String
  candidate : Candidate φ
  expires : ℕ
  expiresAt : String

/-- A quote and an owner. -/
abbrev QuoteKey := String ×ₗ String

/-- The key of a row. -/
def Stored.key (row : Stored φ) : QuoteKey := toLex (row.quoteId, row.candidate.intent.owner)

/-- The store. -/
structure PreparedQuotes (φ : Type) where
  entries : Table (Stored.key (φ := φ)) := .empty

/-! ## Admission -/

/-- What a call sees of the world: the clock before it and at each row, and what the feeds answer for the
new candidate and later for the stored one. -/
structure Moment (φ : Type) where
  now : ℕ
  clock : QuoteKey → ℕ
  fence : φ → Snapshot → Answer Unit
  refence : φ → Snapshot → Answer Unit

/-- A call. -/
structure Call (φ : Type) where
  moment : Moment φ
  quoteId : String
  candidate : Candidate φ
  expires : ℕ
  expiresAt : String

/-- The row that a call would store. -/
def Call.row (c : Call φ) : Stored φ := ⟨c.quoteId, c.candidate, c.expires, c.expiresAt⟩

/-- `valid_quote`. -/
def ValidQuote (id : String) : Prop :=
  id.toList.take 5 = "stkq_".toList ∧ Journal.hex (id.toList.drop 5) 32

instance (id : String) : Decidable (ValidQuote id) := inferInstanceAs (Decidable (_ ∧ _))

/-- What `admit` checks before it touches the store. -/
def Call.check (crates : MeshCrates) (verify : Verify) (c : Call φ) : Answer Unit := do
  refuse (¬ValidQuote c.quoteId ∨ c.expires ≤ c.moment.now ∨ c.expiresAt = "")
    "prepared quote expiry/identity"
  c.candidate.validateState crates c.moment.fence
  c.candidate.prepared.validateBid verify c.candidate.bid c.candidate.intent c.candidate.snapshot.slot
  refuse (c.candidate.lastValidBlockHeight = 0) "prepared candidate block height"

/-- The comparison with the outcome of a stored candidate whose state is still valid. -/
def improve (crates : MeshCrates) (verify : Verify) (c a : Candidate φ) : Answer Unit := do
  let best ← select crates verify c.intent [a.bid, c.bid] c.snapshot.slot
  refuse (best ≠ c.bid) "prepared candidate does not improve admitted outcome"

/-- What a candidate must satisfy to replace a stored one. -/
def replace (crates : MeshCrates) (verify : Verify) (refence : φ → Snapshot → Answer Unit)
    (c a : Candidate φ) : Answer Unit := do
  let stored ← a.intent.commitment crates c.snapshot.slot
  let commitment ← c.intent.commitment crates c.snapshot.slot
  refuse (stored ≠ commitment) "prepared candidate intent mismatch; refresh quote"
  refuse (c.bid.executor = a.bid.executor ∧ c.bid.sequence ≤ a.bid.sequence)
    "prepared executor replay/equivocation"
  match a.validateState crates refence with
  | .ok () => improve crates verify c a
  | .error _ => .ok ()

namespace PreparedQuotes

/-- `admit` drops the expired rows. -/
def retain (clock : QuoteKey → ℕ) (s : PreparedQuotes φ) : PreparedQuotes φ where
  entries := {
    rows := s.entries.rows.filter fun row => clock row.key < row.expires
    sorted := s.entries.sorted.filter _ }

/-- Whether a call may store its row in place of the row of its key. -/
def place (crates : MeshCrates) (verify : Verify) (c : Call φ) (s : PreparedQuotes φ) : Answer Unit :=
  match s.entries.find c.row.key with
  | some old => replace crates verify c.moment.refence c.candidate old.candidate
  | none => refuse (256 ≤ s.entries.rows.length) "prepared quote capacity"

/-- The source's `admit`. -/
def admitCandidate (crates : MeshCrates) (verify : Verify) (c : Call φ) (s : PreparedQuotes φ) :
    Answer Unit × PreparedQuotes φ :=
  match c.check crates verify with
  | .error e => (.error e, s)
  | .ok () =>
    match (s.retain c.moment.clock).place crates verify c with
    | .error e => (.error e, s.retain c.moment.clock)
    | .ok () => (.ok (), { entries := (s.retain c.moment.clock).entries.insert c.row })

end PreparedQuotes

section

variable {crates : MeshCrates} {verify : Verify} {s : PreparedQuotes φ} {c : Call φ}

theorem find_retain {clock : QuoteKey → ℕ} {k : QuoteKey} {row : Stored φ} :
    (s.retain clock).entries.find k = some row ↔ s.entries.find k = some row ∧ clock k < row.expires := by
  rw [Table.find_eq_some, Table.find_eq_some, ← Table.mem_rows, ← Table.mem_rows]
  simp only [PreparedQuotes.retain, List.mem_filter, decide_eq_true_eq]
  grind

/-- A call fails and changes nothing but the expired rows, or stores its row. -/
theorem admitCandidate_cases (crates : MeshCrates) (verify : Verify) (c : Call φ) (s : PreparedQuotes φ) :
    (∃ e, s.admitCandidate crates verify c = (.error e, s) ∨
      s.admitCandidate crates verify c = (.error e, s.retain c.moment.clock)) ∨
    c.check crates verify = .ok () ∧ (s.retain c.moment.clock).place crates verify c = .ok () ∧
      s.admitCandidate crates verify c =
        (.ok (), { entries := (s.retain c.moment.clock).entries.insert c.row }) := by
  unfold PreparedQuotes.admitCandidate
  cases hcheck : c.check crates verify with
  | error e => exact .inl ⟨e, .inl rfl⟩
  | ok _ =>
    cases hplace : (s.retain c.moment.clock).place crates verify c with
    | error e => exact .inl ⟨e, .inr rfl⟩
    | ok _ => exact .inr ⟨rfl, rfl, rfl⟩

/-- A candidate that passes the first checks has the commitment of its message. -/
theorem Call.commitment_of_check (h : c.check crates verify = .ok ()) :
    ∃ commitment, c.candidate.commitment crates = .ok commitment := by
  simp only [Call.check, Candidate.validateState, PreparedExposure.validateState, bind_eq_ok] at h
  obtain ⟨_, -, _, ⟨_, -, _, -, commitment, hcommitment, -⟩, -⟩ := h
  exact ⟨commitment, hcommitment⟩

/-- What holds of a candidate that replaces another. -/
structure Replaces (crates : MeshCrates) (refence : φ → Snapshot → Answer Unit) (c a : Candidate φ) :
    Prop where
  commitment : ∃ slot h, a.intent.commitment crates slot = .ok h ∧ c.intent.commitment crates slot = .ok h
  newer : c.bid.executor = a.bid.executor → a.bid.sequence < c.bid.sequence
  better : a.validateState crates refence = .ok () → Better crates a.bid c.bid

theorem replaces_of_ok {refence : φ → Snapshot → Answer Unit} {c a : Candidate φ}
    (h : replace crates verify refence c a = .ok ()) : Replaces crates refence c a := by
  simp only [replace, bind_eq_ok, refuse_eq_ok, not_and, Nat.not_le, not_not] at h
  obtain ⟨stored, hstored, commitment, hcommitment, _, hsame, _, hnewer, hstate⟩ := h
  subst hsame
  refine ⟨⟨_, _, hstored, hcommitment⟩, hnewer, fun hvalid => ?_⟩
  rw [hvalid] at hstate
  simp only [improve, bind_eq_ok, refuse_eq_ok, not_not] at hstate
  obtain ⟨best, hselect, rfl⟩ := hstate
  exact better_of_select hselect

theorem replaces_of_place (h : s.place crates verify c = .ok ()) {old : Stored φ}
    (hold : s.entries.find c.row.key = some old) :
    Replaces crates c.moment.refence c.candidate old.candidate := by
  unfold PreparedQuotes.place at h
  rw [hold] at h
  exact replaces_of_ok h

/-! ## Histories -/

/-- The store with the history of each entry. -/
structure Book (φ : Type) where
  quotes : PreparedQuotes φ := {}
  history : QuoteKey → List (Candidate φ) := fun _ => []

/-- The history of an entry ends with it. -/
def carried (s : PreparedQuotes φ) (history : QuoteKey → List (Candidate φ)) (k : QuoteKey) :
    List (Candidate φ) := if (s.entries.find k).isSome then history k else []

/-- The histories that a call finds. -/
def Book.kept (b : Book φ) (c : Call φ) : QuoteKey → List (Candidate φ) :=
  carried (b.quotes.retain c.moment.clock) b.history

/-- A call and what it adds to the histories. -/
def Book.call (crates : MeshCrates) (verify : Verify) (b : Book φ) (c : Call φ) : Book φ :=
  match b.quotes.admitCandidate crates verify c with
  | (.error _, s) => ⟨s, carried s b.history⟩
  | (.ok (), s) => ⟨s, Function.update (b.kept c) c.row.key (b.kept c c.row.key ++ [c.candidate])⟩

/-- The store after some calls. -/
def Book.run (crates : MeshCrates) (verify : Verify) (calls : List (Call φ)) : Book φ :=
  calls.foldl (Book.call crates verify) {}

/-- The sequences of every executor increase. -/
def Ordered (history : List (Candidate φ)) : Prop :=
  history.Pairwise fun a c => a.bid.executor = c.bid.executor → a.bid.sequence < c.bid.sequence

/-- A bid that meets a stored bid of another executor is newer than every bid that its own executor had in
the history of the entry. -/
def Fresh (b : Book φ) (c : Call φ) : Prop :=
  ∀ old, (b.quotes.retain c.moment.clock).entries.find c.row.key = some old →
    old.candidate.bid.executor ≠ c.candidate.bid.executor →
    ∀ past ∈ b.history c.row.key, past.bid.executor = c.candidate.bid.executor →
      past.bid.sequence < c.candidate.bid.sequence

theorem Book.call_of_error {b : Book φ} {e : String}
    (h : b.quotes.admitCandidate crates verify c = (.error e, s)) :
    b.call crates verify c = ⟨s, carried s b.history⟩ := by
  unfold Book.call
  rw [h]

theorem Book.call_of_ok {b : Book φ} (h : b.quotes.admitCandidate crates verify c = (.ok (), s)) :
    b.call crates verify c =
      ⟨s, Function.update (b.kept c) c.row.key (b.kept c c.row.key ++ [c.candidate])⟩ := by
  unfold Book.call
  rw [h]

/-- The candidate of an entry is the last one of its history, which has one commitment. -/
structure Book.Valid (crates : MeshCrates) (b : Book φ) : Prop where
  last : ∀ k, (b.quotes.entries.find k).map Stored.candidate = (b.history k).getLast?
  commitment : ∀ k, ∃ h, ∀ c ∈ b.history k, c.commitment crates = .ok h

variable {b : Book φ} {k : QuoteKey}

/-- Without expired rows, the entries and their histories are the same. -/
theorem Book.Valid.kept (h : b.Valid crates) (c : Call φ) :
    Book.Valid crates ⟨b.quotes.retain c.moment.clock, b.kept c⟩ where
  last k := by
    simp only [Book.kept, carried]
    cases hfind : (b.quotes.retain c.moment.clock).entries.find k with
    | none => rfl
    | some row =>
      have hlast := h.last k
      rw [(find_retain.mp hfind).1] at hlast
      exact hlast
  commitment k := by
    obtain ⟨commitment, hall⟩ := h.commitment k
    refine ⟨commitment, fun c hc => hall c ?_⟩
    simp only [Book.kept, carried] at hc
    split at hc
    · exact hc
    · cases hc

theorem carried_self (h : b.Valid crates) : carried b.quotes b.history = b.history := by
  funext k
  simp only [carried]
  cases hfind : b.quotes.entries.find k with
  | none =>
    have hlast := h.last k
    rw [hfind] at hlast
    exact (List.getLast?_eq_none_iff.mp hlast.symm).symm
  | some row => rfl

theorem Book.Valid.call (h : b.Valid crates) (c : Call φ) : (b.call crates verify c).Valid crates := by
  obtain ⟨e, heq | heq⟩ | ⟨hcheck, hplace, heq⟩ := admitCandidate_cases crates verify c b.quotes
  · rw [Book.call_of_error heq, carried_self h]
    exact h
  · rw [Book.call_of_error heq]
    exact h.kept c
  rw [Book.call_of_ok heq]
  have hkept := h.kept c
  constructor
  · intro k
    dsimp only
    rw [Table.find_insert]
    by_cases hk : c.row.key = k
    · subst hk
      simp [Call.row]
    · rw [if_neg hk, Function.update_of_ne (Ne.symm hk)]
      exact hkept.last k
  · intro k
    by_cases hk : k = c.row.key
    · subst hk
      obtain ⟨commitment, hcommitment⟩ := Call.commitment_of_check hcheck
      obtain ⟨h₀, hall⟩ := hkept.commitment c.row.key
      refine ⟨commitment, fun a ha => ?_⟩
      dsimp only at ha
      rw [Function.update_self, List.mem_append, List.mem_singleton] at ha
      obtain ha | rfl := ha
      · -- the stored candidate has the commitments of the history and of the new candidate
        have hlast := hkept.last c.row.key
        cases hfind : (b.quotes.retain c.moment.clock).entries.find c.row.key with
        | none =>
          rw [hfind] at hlast
          have hnil : b.kept c c.row.key = [] := List.getLast?_eq_none_iff.mp hlast.symm
          rw [hnil] at ha
          cases ha
        | some old =>
          rw [hfind] at hlast
          have hmem := List.mem_of_getLast? hlast.symm
          obtain ⟨slot, h₁, hstored, hnew⟩ := (replaces_of_place hplace hfind).commitment
          have hsame : h₀ = commitment := by
            rw [FrozenIntent.commitment_unique (hall _ hmem) hstored,
              FrozenIntent.commitment_unique hcommitment hnew]
          rw [hall a ha, hsame]
      · exact hcommitment
    · obtain ⟨h₀, hall⟩ := hkept.commitment k
      refine ⟨h₀, fun a ha => hall a ?_⟩
      dsimp only at ha
      rwa [Function.update_of_ne hk] at ha

theorem Book.valid_run (crates : MeshCrates) (verify : Verify) (calls : List (Call φ)) :
    (Book.run crates verify calls).Valid crates := by
  have hstart : (⟨{}, fun _ => []⟩ : Book φ).Valid crates :=
    ⟨fun _ => rfl, fun _ => ⟨zeroKey, fun _ h => absurd h List.not_mem_nil⟩⟩
  unfold Book.run
  induction calls using List.reverseRecOn with
  | nil => exact hstart
  | append_singleton calls c ih =>
    rw [List.foldl_append]
    exact ih.call c

/-! ## Replay -/

/-- An old bid is not newer than the last one of its executor. -/
theorem Ordered.le_last {history : List (Candidate φ)} {a last : Candidate φ} (h : Ordered history)
    (hlast : history.getLast? = some last) (ha : a ∈ history) (hsame : a.bid.executor = last.bid.executor) :
    a.bid.sequence ≤ last.bid.sequence := by
  obtain ⟨before, rfl⟩ := List.getLast?_eq_some_iff.mp hlast
  obtain ha | ha := List.mem_append.mp ha
  · exact ((List.pairwise_append.mp h).2.2 a ha last (List.mem_singleton.mpr rfl) hsame).le
  · rw [List.mem_singleton.mp ha]

theorem ordered_kept (h : ∀ k, Ordered (b.history k)) (c : Call φ) (k : QuoteKey) :
    Ordered (b.kept c k) := by
  unfold Book.kept carried
  split
  · exact h k
  · exact .nil

/-- After a call that stored its row, the sequences increase exactly when its bid was fresh. -/
theorem ordered_call (hvalid : b.Valid crates) (h : ∀ k, Ordered (b.history k))
    (hok : (b.quotes.admitCandidate crates verify c).1 = .ok ()) :
    (∀ k, Ordered ((b.call crates verify c).history k)) ↔ Fresh b c := by
  obtain ⟨e, heq | heq⟩ | ⟨-, hplace, heq⟩ := admitCandidate_cases crates verify c b.quotes
  · rw [heq] at hok
    cases hok
  · rw [heq] at hok
    cases hok
  rw [Book.call_of_ok heq]
  have hkept := hvalid.kept c
  constructor
  · intro hall old hold _ past hpast hsame
    have hcall := hall c.row.key
    dsimp only at hcall
    rw [Function.update_self] at hcall
    have hmem : past ∈ b.kept c c.row.key := by
      simpa only [Book.kept, carried, hold, Option.isSome_some, if_true] using hpast
    exact (List.pairwise_append.mp hcall).2.2 past hmem _ (List.mem_singleton.mpr rfl) hsame
  · intro hfresh k
    dsimp only
    by_cases hk : k = c.row.key
    · subst hk
      rw [Function.update_self]
      refine List.pairwise_append.mpr ⟨ordered_kept h c _, List.pairwise_singleton _ _, ?_⟩
      intro past hpast new hnew hsame
      rw [List.mem_singleton] at hnew
      subst hnew
      cases hfind : (b.quotes.retain c.moment.clock).entries.find c.row.key with
      | none =>
        simp only [Book.kept, carried, hfind, Option.isSome_none] at hpast
        cases hpast
      | some old =>
        have hlast := hkept.last c.row.key
        rw [hfind] at hlast
        by_cases hexecutor : old.candidate.bid.executor = c.candidate.bid.executor
        · -- the stored bid is the last one of the executor
          have hle := (ordered_kept h c _).le_last hlast.symm hpast (hsame.trans hexecutor.symm)
          exact hle.trans_lt ((replaces_of_place hplace hfind).newer hexecutor.symm)
        · refine hfresh old hfind hexecutor past ?_ hsame
          simpa only [Book.kept, carried, hfind, Option.isSome_some, if_true] using hpast
    · rw [Function.update_of_ne hk]
      exact ordered_kept h c k

theorem Book.run_append_singleton (calls : List (Call φ)) (c : Call φ) :
    Book.run crates verify (calls ++ [c]) = (Book.run crates verify calls).call crates verify c := by
  rw [Book.run, List.foldl_append]
  rfl

/-- Without a replay, the sequences increase. -/
theorem ordered_run (calls : List (Call φ))
    (hfresh : ∀ before c after, calls = before ++ c :: after → Fresh (Book.run crates verify before) c) :
    ∀ k, Ordered ((Book.run crates verify calls).history k) := by
  induction calls using List.reverseRecOn with
  | nil => exact fun k => .nil
  | append_singleton calls c ih =>
    have hprevious := ih fun before d after heq => by
      refine hfresh before d (after ++ [c]) ?_
      rw [heq, List.append_assoc, List.cons_append]
    have hvalid := Book.valid_run crates verify calls
    rw [Book.run_append_singleton]
    obtain ⟨e, heq | heq⟩ | ⟨-, -, heq⟩ :=
      admitCandidate_cases crates verify c (Book.run crates verify calls).quotes
    · rw [Book.call_of_error heq, carried_self hvalid]
      exact hprevious
    · rw [Book.call_of_error heq]
      exact ordered_kept hprevious c
    · exact (ordered_call hvalid hprevious (by rw [heq])).mpr (hfresh calls c [] rfl)

/-- An entry that has not expired is kept or replaced by a better one. -/
theorem entry_kept {old : Stored φ} (hold : (s.retain c.moment.clock).entries.find k = some old) :
    ∃ new, (s.admitCandidate crates verify c).2.entries.find k = some new ∧ (new = old ∨
      Replaces crates c.moment.refence new.candidate old.candidate) := by
  obtain ⟨e, heq | heq⟩ | ⟨-, hplace, heq⟩ := admitCandidate_cases crates verify c s
  · rw [heq]
    exact ⟨old, (find_retain.mp hold).1, .inl rfl⟩
  · rw [heq]
    exact ⟨old, hold, .inl rfl⟩
  · rw [heq]
    dsimp only
    rw [Table.find_insert]
    by_cases hk : c.row.key = k
    · rw [if_pos hk]
      rw [← hk] at hold
      exact ⟨c.row, rfl, .inr (replaces_of_place hplace hold)⟩
    · rw [if_neg hk]
      exact ⟨old, hold, .inl rfl⟩

/-- A call that fails only drops expired rows. -/
theorem expired_of_error {e : String} (h : (s.admitCandidate crates verify c).1 = .error e) :
    (∀ row ∈ (s.admitCandidate crates verify c).2.entries, row ∈ s.entries) ∧
      ∀ row ∈ s.entries, row ∉ (s.admitCandidate crates verify c).2.entries →
        row.expires ≤ c.moment.clock row.key := by
  obtain ⟨e', heq | heq⟩ | ⟨-, -, heq⟩ := admitCandidate_cases crates verify c s
  · rw [heq]
    exact ⟨fun row hrow => hrow, fun row hrow hlost => absurd hrow hlost⟩
  · rw [heq]
    refine ⟨fun row hrow => (List.mem_filter.mp hrow).1, fun row hrow hlost => ?_⟩
    by_contra hlive
    exact hlost (List.mem_filter.mpr ⟨hrow, decide_eq_true (Nat.lt_of_not_le hlive)⟩)
  · rw [heq] at h
    cases h

/-- The store over all runs in which every bid that meets a stored bid of another executor is fresh. A call
that stores another bid breaks the order of its executor. -/
theorem prepared_quotes (crates : MeshCrates) (verify : Verify) (calls : List (Call φ))
    (hfresh : ∀ before c after, calls = before ++ c :: after → Fresh (Book.run crates verify before) c) :
    let b := Book.run crates verify calls
    (∀ k, Ordered (b.history k)) ∧
    (∀ k, (b.quotes.entries.find k).map Stored.candidate = (b.history k).getLast?) ∧
    (∀ k, ∃ h, ∀ c ∈ b.history k, c.commitment crates = .ok h) ∧
    (∀ c k old, (b.quotes.retain c.moment.clock).entries.find k = some old →
      ∃ new, (b.quotes.admitCandidate crates verify c).2.entries.find k = some new ∧
        (new = old ∨ (old.candidate.validateState crates c.moment.refence = .ok () →
          Better crates old.candidate.bid new.candidate.bid))) ∧
    (∀ c e, (b.quotes.admitCandidate crates verify c).1 = .error e →
      (∀ row ∈ (b.quotes.admitCandidate crates verify c).2.entries, row ∈ b.quotes.entries) ∧
      ∀ row ∈ b.quotes.entries, row ∉ (b.quotes.admitCandidate crates verify c).2.entries →
        row.expires ≤ c.moment.clock row.key) ∧
    (∀ c, (b.quotes.admitCandidate crates verify c).1 = .ok () → ¬Fresh b c →
      ∃ k, ¬Ordered ((b.call crates verify c).history k)) := by
  have hvalid := Book.valid_run crates verify calls
  have hordered := ordered_run calls hfresh
  refine ⟨hordered, hvalid.last, hvalid.commitment, ?_, fun c e => expired_of_error, ?_⟩
  · intro c k old hold
    obtain ⟨new, hnew, rfl | hreplaces⟩ := @entry_kept φ crates verify _ c k old hold
    · exact ⟨new, hnew, .inl rfl⟩
    · exact ⟨new, hnew, .inr hreplaces.better⟩
  · intro c hok hstale
    by_contra hall
    exact hstale ((ordered_call hvalid hordered hok).mp fun k => not_exists_not.mp hall k)

end

/-! ## A replay -/

/-- The text of the key with a small last byte. -/
def exampleText (n : ℕ) : String := String.ofList (List.replicate 31 '1' ++ [Nat.digitChar (n + 1)])

/-- Base 58 on these texts, and the digest of the example's commitment. -/
def exampleCrates : MeshCrates where
  base58 text :=
    let digits := text.toList
    if digits.take 31 = List.replicate 31 '1' ∧ digits.length = 32 then
      some (List.replicate 31 0 ++ [UInt8.ofNat ((digits.getLastD '1').toNat - '1'.toNat)])
    else none
  sha256 _ := Key.ofNat 0x7d3a6a197d740308c214301b1430960f81f017b3ff47cefcb254de40528b6401

def exampleIntent : FrozenIntent where
  intentId := Key.ofNat 1
  owner := exampleText 1
  ownerNonce := 0
  instrument := "AAPL"
  inputMint := exampleText 2
  inputAtoms := 100
  minimumExposureQ32 := 1
  admittedProductIds := [Key.ofNat 9]
  productPolicyHash := Key.ofNat 7
  worldGenerationHash := Key.ofNat 8
  deadlineSlot := 100

/-- An executor offers an exposure that its message achieves. -/
def exampleCall (executor sequence exposure : ℕ) : Call Unit where
  moment := ⟨0, fun _ => 0, fun _ _ => .ok (), fun _ _ => .ok ()⟩
  quoteId := "stkq_0123456789abcdef0123456789abcdef"
  candidate := {
    intent := exampleIntent
    feed := ()
    snapshot := ⟨50, 1, Key.ofNat 8, [], 1⟩
    prepared := ⟨⟨Key.ofNat (100 + exposure), exampleCrates.sha256 [], 50, 100000⟩, 1, Key.ofNat 8,
      Key.ofNat 8, exposure, 70000⟩
    bid := ⟨exampleText executor, sequence, exampleCrates.sha256 [], Key.ofNat 8,
      Key.ofNat (100 + exposure), exposure, 0, 70000, 90, ""⟩
    lastValidBlockHeight := 999 }
  expires := 10
  expiresAt := "2026-09-14T00:01:00.000Z"

/-- Every bid of the example is signed. -/
def exampleVerify : Verify := fun _ _ _ => .ok ()

/-- The executors of the history of the example's entry, with their sequences. -/
def exampleHistory (calls : List (Call Unit)) : List (String × ℕ) :=
  ((Book.run exampleCrates exampleVerify calls).history (exampleCall 3 5 100).row.key).map fun c =>
    (c.bid.executor, c.bid.sequence)

/-- An executor rolls back to an earlier sequence after the bid of another one. -/
theorem replay_history : exampleHistory [exampleCall 3 5 100, exampleCall 4 1 200, exampleCall 3 4 300] =
    [(exampleText 3, 5), (exampleText 4, 1), (exampleText 3, 4)] := by
  decide +kernel

theorem replay_stored : ¬∀ (calls : List (Call Unit)) (k : QuoteKey),
    Ordered ((Book.run exampleCrates exampleVerify calls).history k) := by
  intro hall
  have hordered := hall [exampleCall 3 5 100, exampleCall 4 1 200, exampleCall 3 4 300]
    (exampleCall 3 5 100).row.key
  have hpairs : (exampleHistory [exampleCall 3 5 100, exampleCall 4 1 200, exampleCall 3 4 300]).Pairwise
      fun a c => a.1 = c.1 → a.2 < c.2 := List.pairwise_map.mpr hordered
  rw [replay_history] at hpairs
  have hlt := (List.pairwise_cons.mp hpairs).1 (exampleText 3, 4) (by simp) rfl
  exact absurd hlt (by decide)

/-- Two executors that bid once each. -/
theorem prepared_quotes_example : Ordered
    ((Book.run exampleCrates exampleVerify [exampleCall 3 5 100, exampleCall 4 1 200]).history
      (exampleCall 3 5 100).row.key) := by
  have hfirst : exampleHistory [exampleCall 3 5 100] = [(exampleText 3, 5)] := by decide +kernel
  refine (prepared_quotes exampleCrates exampleVerify [exampleCall 3 5 100, exampleCall 4 1 200] ?_).1 _
  intro before c after heq
  match before with
  | [] => exact fun old _ _ past hpast => absurd hpast List.not_mem_nil
  | [a] =>
    obtain ⟨rfl, hrest⟩ := List.cons.inj heq
    obtain ⟨rfl, -⟩ := List.cons.inj hrest
    intro old _ _ past hpast hsame
    have hkey : (exampleCall 4 1 200).row.key = (exampleCall 3 5 100).row.key := by decide
    rw [hkey] at hpast
    have hmem : (past.bid.executor, past.bid.sequence) ∈ exampleHistory [exampleCall 3 5 100] :=
      List.mem_map.mpr ⟨past, hpast, rfl⟩
    rw [hfirst, List.mem_singleton] at hmem
    have hexecutor : exampleText 3 = exampleText 4 := (congrArg Prod.fst hmem).symm.trans hsame
    exact absurd hexecutor (by decide)
  | a :: a' :: rest =>
    obtain ⟨-, hrest⟩ := List.cons.inj heq
    obtain ⟨-, hnil⟩ := List.cons.inj hrest
    exact absurd hnil.symm (List.append_ne_nil_of_right_ne_nil _ (List.cons_ne_nil _ _))

end StockMesh.Host

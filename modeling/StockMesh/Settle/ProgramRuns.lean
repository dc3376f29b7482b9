import StockMesh.Settle.Instruction
import StockMesh.Foundation.Counted

/-! # Runs of the program

The ledger changes by instructions of the program that return, in any order and from anyone, and by whatever
else the runtime lets happen, which is nothing to an account of the program. A transaction that fails is no
step. Over any such run every record goes through its counters one by one, so what was signed under a
sequence is settled at most once. -/

namespace StockMesh.Settle

open Stateful

/-- A step of the ledger, with the changes that it makes to the records. -/
inductive ProgramStep (program : ProgramId) : Ledger → List (Key × Change) → Ledger → Prop
  /-- An instruction of the program returned. -/
  | call (c : Call program) {ledger : Ledger} {s : Chain}
      (run : c.processInstruction { ledger } = (.ok (), s)) :
      ProgramStep program ledger (instructionChanges program c.accounts ledger c.data) s.ledger
  /-- Other programs write their own accounts, and may create accounts of the program. -/
  | other {ledger ledger' : Ledger} (commits : Commits program [] ledger ledger') :
      ProgramStep program ledger [] ledger'

section Runs

variable {program : ProgramId} {ledger ledger' : Ledger} {changes log : List (Key × Change)}

theorem ProgramStep.commits (hsystem : (program : Key) ≠ systemId)
    (h : ProgramStep program ledger changes ledger') : Commits program changes ledger ledger' := by
  cases h with
  | call c run => exact (processInstruction_performs hsystem run).commits
  | other commits => exact commits

/-- The counter of a record of the program. -/
def recordCount (program : ProgramId) (ledger : Ledger) (key : Key) : Option ℕ :=
  if (ledger key).owner = program then counter (ledger key).data else none

theorem recordCount_eq_some {key : Key} {q : ℕ} : recordCount program ledger key = some q ↔
    (ledger key).owner = program ∧ counter (ledger key).data = some q := by
  unfold recordCount
  split
  · next howner => simp [howner]
  · next howner => simp [howner]

/-- A change with the counter that it moves past. -/
def changeName (e : Key × Change) : Key × ℕ := (e.1, e.2.count)

theorem Commits.uses (h : Commits program changes ledger ledger') :
    Uses (recordCount program) ledger (changes.map changeName) ledger' := by
  have hmap : (changes.map changeName).map Prod.fst = changes.map Prod.fst := by
    rw [List.map_map]
    rfl
  constructor
  · rw [hmap]
    intro key hkey q hq
    obtain ⟨howner, hcounter⟩ := recordCount_eq_some.mp hq
    obtain ⟨howner', hdata⟩ := h.kept key hkey howner
    exact recordCount_eq_some.mpr ⟨howner', hdata ▸ hcounter⟩
  · intro x hx
    obtain ⟨e, he, rfl⟩ := List.mem_map.mp hx
    obtain ⟨howner, howner', happly⟩ := h.changed e he
    have htick := happly.tick
    exact ⟨recordCount_eq_some.mpr ⟨howner, htick.before⟩, recordCount_eq_some.mpr ⟨howner', htick.after⟩⟩
  · rw [hmap]
    exact h.nodup

/-- What a run does to an account of the program: it stays one, of its length, kind and identity; the
changes of it are consecutive; and if there was none it holds what it held. -/
structure RecordRun (log : List (Key × Change)) (key : Key) (program : ProgramId) (before after : Account) :
    Prop where
  owner : after.owner = program
  size_eq : after.data.size = before.data.size
  head_eq : after.data.slice 0 40 = before.data.slice 0 40
  idle : key ∉ log.map Prod.fst → after.data = before.data
  counts : ∀ q, counter before.data = some q → ∃ n,
    Tells.countsAt changeName log key = List.range' q n ∧ counter after.data = some (q + n)

/-- A step keeps what identifies an account of the program. -/
theorem Commits.identity (h : Commits program changes ledger ledger') {key : Key}
    (howner : (ledger key).owner = program) :
    (ledger' key).owner = program ∧ (ledger' key).data.size = (ledger key).data.size ∧
    (ledger' key).data.slice 0 40 = (ledger key).data.slice 0 40 := by
  by_cases hmem : key ∈ changes.map Prod.fst
  · obtain ⟨⟨other, c⟩, he, heq⟩ := List.mem_map.mp hmem
    dsimp only at heq
    subst heq
    obtain ⟨-, howner', happly⟩ := h.changed _ he
    exact ⟨howner', happly.tick.size_eq, happly.tick.head_eq⟩
  · obtain ⟨howner', hdata⟩ := h.kept key hmem howner
    rw [hdata]
    exact ⟨howner', rfl, rfl⟩

/-- Over any run every record keeps its owner, kind and identity, and its changes carry exactly the counters
from the one that it had, one by one. -/
theorem record_runs (hsystem : (program : Key) ≠ systemId)
    (h : Tells (ProgramStep program) ledger log ledger') {key : Key}
    (howner : (ledger key).owner = program) : RecordRun log key program (ledger key) (ledger' key) := by
  have hidentity := h.invariant (I := fun log l => (l key).owner = (program : Key) ∧
      (l key).data.size = (ledger key).data.size ∧ (l key).data.slice 0 40 = (ledger key).data.slice 0 40 ∧
      (key ∉ log.map Prod.fst → (l key).data = (ledger key).data))
    ⟨howner, rfl, rfl, fun _ => rfl⟩ ?_
  · -- the counters are those of the cells that the steps use
    obtain ⟨howner', hsize, hhead, hidle⟩ := hidentity
    refine ⟨howner', hsize, hhead, hidle, fun q hq => ?_⟩
    obtain ⟨n, hn, hcount⟩ := h.consecutive (fun _ _ _ hstep => (hstep.commits hsystem).uses)
      (recordCount_eq_some.mpr ⟨howner, hq⟩)
    exact ⟨n, hn, (recordCount_eq_some.mp hcount).2⟩
  · rintro log l events l' ⟨howner, hsize, hhead, hidle⟩ hstep
    have hcommits := hstep.commits hsystem
    obtain ⟨howner', hsize', hhead'⟩ := hcommits.identity howner
    refine ⟨howner', hsize'.trans hsize, hhead'.trans hhead, fun hkey => ?_⟩
    rw [List.map_append, List.mem_append, not_or] at hkey
    exact (hcommits.kept key hkey.2 howner).2.trans (hidle hkey.1)

/-- The nonce of the buyer in the sample market. -/
theorem record_runs_sample : ∃ s s', placeCall.processInstruction { ledger := marketLedger } = (.ok (), s) ∧
    takeCall.processInstruction { ledger := s.ledger } = (.ok (), s') ∧
    RecordRun (instructionChanges sampleProgram placingAccounts marketLedger placePayload ++
        instructionChanges sampleProgram takingAccounts s.ledger takePayload) (marketKey 11)
      sampleProgram (marketLedger (marketKey 11)) (s'.ledger (marketKey 11)) := by
  obtain ⟨s, s', -, hplace, htake, -⟩ := market_run
  have hrun : Tells (ProgramStep sampleProgram) marketLedger _ s.ledger := .single (.call placeCall hplace)
  exact ⟨s, s', hplace, htake, record_runs (by decide) (hrun.tail (.call takeCall htake)) (by decide)⟩

/-- Every change of a run was made by an instruction in a state of the run. -/
theorem call_of_mem (h : Tells (ProgramStep program) ledger log ledger') {e : Key × Change} (he : e ∈ log) :
    ∃ (c : Call program) (earlier : List (Key × Change)) (before : Ledger) (s : Chain),
      Tells (ProgramStep program) ledger earlier before ∧
      c.processInstruction { ledger := before } = (.ok (), s) ∧
      e ∈ instructionChanges program c.accounts before c.data := by
  obtain ⟨front, back, rfl⟩ := List.append_of_mem he
  obtain ⟨earlier, before, xs, ys, s₂, hearlier, hstep, -⟩ := h.exists_step
  generalize hmade : xs ++ e :: ys = made at hstep
  have hmem : e ∈ made := by
    rw [← hmade]
    simp
  cases hstep with
  | call c hrun => exact ⟨c, earlier, before, _, hearlier, hrun, hmem⟩
  | other _ => cases hmem

/-- No change of a record is made twice under the same counter. -/
theorem changes_nodup (hsystem : (program : Key) ≠ systemId)
    (h : Tells (ProgramStep program) ledger log ledger') : (log.map changeName).Nodup :=
  h.nodup fun _ _ _ hstep => (hstep.commits hsystem).uses

end Runs

/-! ## Replay -/

section Replay

variable {program : ProgramId} {c : Call program} {s : Chain} {ledger : Ledger} {log : List (Key × Change)}

/-- What is asked depends on the accounts alone, not on their privileges. -/
theorem signedChanges_congr {n : ℕ} {a a' : Accounts n} (h : a'.key = a.key) (d : Buffer) :
    signedChanges a' d = signedChanges a d := by
  obtain ⟨key, isSigner, isWritable⟩ := a
  obtain ⟨key', isSigner', isWritable'⟩ := a'
  dsimp only at h
  subst h
  rfl

/-- What was signed under a sequence is settled at most once: after an instruction has returned, no
instruction with the same data and accounts returns in any later state, whatever happened between, at
whatever time, and whatever the venues do. -/
theorem no_replay (hsystem : (program : Key) ≠ systemId) (hsigned : Signed c.data)
    (hrun : c.processInstruction { ledger } = (.ok (), s)) {ledger' : Ledger}
    (hlater : Tells (ProgramStep program) s.ledger log ledger') (c' : Call program) (hn : c'.n = c.n)
    (hkeys : ∀ i : Fin c.n, c'.accounts.key (i.cast hn.symm) = c.accounts.key i) (hdata : c'.data = c.data)
    (s' : Chain) : c'.processInstruction { ledger := ledger' } ≠ (.ok (), s') := by
  intro hrun'
  -- the two instructions are steps of one run
  have hfirst : Tells (ProgramStep program) ledger _ s.ledger := .single (.call c hrun)
  have hboth := (hfirst.trans hlater).tail (.call c' hrun')
  have hnodup := changes_nodup hsystem hboth
  -- both ask the same changes, at least one, and no change is made twice under its counter
  have hsome := (signed_commits hsigned hrun).nonempty
  have hsame : signedChanges c'.accounts c'.data = signedChanges c.accounts c.data := by
    obtain ⟨natives, runtime, n, a, clock, venues, data⟩ := c
    obtain ⟨natives', runtime', n', a', clock', venues', data'⟩ := c'
    dsimp only at hn hkeys hdata ⊢
    subst hn
    subst hdata
    exact signedChanges_congr (funext hkeys) _
  rw [instructionChanges_of_signed hsigned, instructionChanges_of_signed (hdata ▸ hsigned), hsame] at hnodup
  obtain ⟨e, he⟩ := List.exists_mem_of_ne_nil _ hsome
  rw [List.append_assoc, List.map_append, List.map_append] at hnodup
  refine (List.nodup_append'.mp hnodup).2.2 (List.mem_map_of_mem he) ?_
  exact List.mem_append_right _ (List.mem_map_of_mem he)

/-- The cell of the sample market cannot be replayed. -/
theorem no_replay_sample : ∃ s s', placeCall.processInstruction { ledger := marketLedger } = (.ok (), s) ∧
    takeCall.processInstruction { ledger := s.ledger } = (.ok (), s') ∧
    ∀ s'', takeCall.processInstruction { ledger := s'.ledger } ≠ (.ok (), s'') := by
  obtain ⟨s, s', -, hplace, htake, -⟩ := market_run
  exact ⟨s, s', hplace, htake, no_replay (by decide) takeCall_signed htake .refl takeCall rfl (fun _ => rfl) rfl⟩

end Replay

end StockMesh.Settle

import StockMesh.Foundation.Stamped
import StockMesh.Native.Curves

/-! # The memo of quotes

A worker keeps the quotes of a bank in a table of fixed size. `begin` names the bank, and `quote` evaluates
a quote that the table does not have: it looks at sixteen slots from a hash of the edge and the input, takes
the first slot of an older epoch, and evaluates without a slot if there is none. A new bank moves the epoch
on, and the last epoch is followed by the first one after all slots are set back.

Whatever the slots hold, a quote is what the evaluation would give (`quote_eq`). -/

namespace StockMesh.Native

open Stamped

/-- A quote in the table. -/
structure MemoEntry where
  epoch : ℕ := 0
  input : ℕ := 0
  edge : ℕ := 0
  value : NativeResult ℕ := .error .capacity

/-- The table of a worker. The counters are of the quotes since the last `begin`, fewer than `2^64`. -/
structure QuoteMemo where
  entries : ℕ → MemoEntry := fun _ => {}
  namespaceKey : Option Key := none
  epoch : ℕ := 0
  hits : ℕ := 0
  evaluations : ℕ := 0
  probeFallbacks : ℕ := 0

/-- Slots of the table (`CAPACITY`). -/
def memoCapacity : ℕ := 4096

/-- Slots that a quote looks at (`PROBES`). -/
def memoProbes : ℕ := 16

namespace QuoteMemo

/-- `begin`: another bank moves the epoch on. -/
def begin (m : QuoteMemo) (bank : Key) : QuoteMemo :=
  let m := { m with hits := 0, evaluations := 0, probeFallbacks := 0 }
  if m.namespaceKey = some bank then m
  else if m.epoch + 1 < u64Size then { m with namespaceKey := some bank, epoch := m.epoch + 1 }
  else { m with
    namespaceKey := some bank
    entries := fun i => { m.entries i with epoch := 0 }
    epoch := 1 }

/-- The first slot of a quote. -/
def start (edge input : ℕ) : ℕ :=
  let x := UInt64.ofNat input ^^^ (UInt64.ofNat edge * 0x9e3779b97f4a7c15)
  let x := (x ^^^ (x >>> 30)) * 0xbf58476d1ce4e5b9
  let x := (x ^^^ (x >>> 27)) * 0x94d049bb133111eb
  let x := x ^^^ (x >>> 31)
  x.toNat &&& (memoCapacity - 1)

/-- The slots of a quote, in order. -/
def slots (edge input : ℕ) : List ℕ :=
  (List.range memoProbes).map fun p => (start edge input + p) &&& (memoCapacity - 1)

/-- `quote`, of an evaluation with a value. -/
def quote (m : QuoteMemo) (edge input : ℕ) (value : NativeResult ℕ) : NativeResult ℕ × QuoteMemo :=
  if m.namespaceKey = none ∨ 8 ≤ edge then (.error .layout, m)
  else
    match probe m.entries (fun e => e.epoch ≠ m.epoch) (fun e => e.input = input ∧ e.edge = edge)
      (slots edge input) with
    | .free i => (value, { m with
        evaluations := m.evaluations + 1
        entries := Function.update m.entries i ⟨m.epoch, input, edge, value⟩ })
    | .hit e => (e.value, { m with hits := m.hits + 1 })
    | .full => (value, { m with
        probeFallbacks := m.probeFallbacks + 1
        evaluations := m.evaluations + 1 })

/-! ## What the table holds -/

variable {f : Key → ℕ → ℕ → NativeResult ℕ} {m : QuoteMemo} {bank : Key} {edge input : ℕ}

/-- An entry is what a bank quotes. -/
def Quotes (f : Key → ℕ → ℕ → NativeResult ℕ) (bank : Option Key) (e : MemoEntry) : Prop :=
  ∀ b ∈ bank, e.value = f b e.edge e.input

/-- The entries of the epoch are quotes of its bank. -/
def Faithful (f : Key → ℕ → ℕ → NativeResult ℕ) (m : QuoteMemo) : Prop :=
  Current MemoEntry.epoch (Quotes f m.namespaceKey) m.epoch m.entries

theorem faithful_empty : Faithful f {} := ⟨fun _ => le_rfl, fun _ _ _ h => by cases h⟩

/-- Another bank finds no entry of its epoch, also when the epochs start again. -/
theorem Faithful.begin (h : Faithful f m) (bank : Key) : Faithful f (m.begin bank) := by
  unfold QuoteMemo.begin
  dsimp only
  split
  · exact h
  split
  · exact h.next (Nat.lt_succ_self _)
  · -- all slots are set back below the first epoch
    exact .advance fun _ => Nat.one_pos

theorem namespaceKey_begin (m : QuoteMemo) (bank : Key) : (m.begin bank).namespaceKey = some bank := by
  unfold QuoteMemo.begin
  dsimp only
  split
  · assumption
  split <;> rfl

theorem namespaceKey_quote (m : QuoteMemo) (edge input : ℕ) (value : NativeResult ℕ) :
    (m.quote edge input value).2.namespaceKey = m.namespaceKey := by
  unfold quote
  split
  · rfl
  split <;> rfl

/-- A quote of the bank of the table is the evaluation, and the table stays faithful. -/
theorem quote_eq (h : Faithful f m) (hbank : m.namespaceKey = some bank) (hedge : edge < 8) :
    (m.quote edge input (f bank edge input)).1 = f bank edge input ∧
      Faithful f (m.quote edge input (f bank edge input)).2 := by
  have hguard : ¬(m.namespaceKey = none ∨ 8 ≤ edge) := by simp [hbank, hedge]
  rw [quote, if_neg hguard]
  split
  · -- a slot of an older epoch takes the value
    refine ⟨rfl, h.write rfl ?_ _⟩
    intro b hb
    rw [hbank] at hb
    cases hb
    rfl
  · rename_i e hprobe
    obtain ⟨hvalue, hfound⟩ := h.of_hit (fun e he => by simpa using he) hprobe
    obtain ⟨rfl, rfl⟩ : e.input = input ∧ e.edge = edge := by simpa using hfound
    exact ⟨hvalue bank hbank, h⟩
  · exact ⟨rfl, h⟩

/-- A quote that is refused changes nothing. -/
theorem quote_of_refused {value : NativeResult ℕ} (h : m.namespaceKey = none ∨ 8 ≤ edge) :
    m.quote edge input value = (.error .layout, m) := if_pos h

end QuoteMemo

/-! ## Runs -/

/-- A call on a table. A quote comes with the value that its evaluation would have. -/
inductive MemoCall
  | begin (bank : Key)
  | quote (edge input : ℕ) (value : NativeResult ℕ)

/-- What the evaluations of a run would give, with the refusals: before the first bank, and of other
edges. -/
def evaluated : Option Key → List MemoCall → List (NativeResult ℕ)
  | _, [] => []
  | _, .begin bank :: rest => evaluated (some bank) rest
  | bank, .quote edge _ value :: rest =>
    (if bank = none ∨ 8 ≤ edge then .error .layout else value) :: evaluated bank rest

/-- The evaluations of a run depend on the bank, the edge and the input only. -/
def DependsOn (f : Key → ℕ → ℕ → NativeResult ℕ) : Option Key → List MemoCall → Prop
  | _, [] => True
  | _, .begin bank :: rest => DependsOn f (some bank) rest
  | bank, .quote edge input value :: rest => (∀ b ∈ bank, value = f b edge input) ∧ DependsOn f bank rest

namespace QuoteMemo

/-- The table after a call. -/
def step (m : QuoteMemo) : MemoCall → QuoteMemo
  | .begin bank => m.begin bank
  | .quote edge input value => (m.quote edge input value).2

/-- The table after a run. -/
def run (m : QuoteMemo) (calls : List MemoCall) : QuoteMemo := calls.foldl step m

/-- The answers of a run. -/
def answers : QuoteMemo → List MemoCall → List (NativeResult ℕ)
  | _, [] => []
  | m, .begin bank :: rest => answers (m.begin bank) rest
  | m, .quote edge input value :: rest =>
    (m.quote edge input value).1 :: answers (m.quote edge input value).2 rest

variable {f : Key → ℕ → ℕ → NativeResult ℕ} {m : QuoteMemo} {calls : List MemoCall}

/-- One quote of a run: the answer is the evaluation or a refusal. -/
theorem quote_step (h : Faithful f m) {edge input : ℕ} {value : NativeResult ℕ}
    (hvalue : ∀ b ∈ m.namespaceKey, value = f b edge input) :
    (m.quote edge input value).1 = (if m.namespaceKey = none ∨ 8 ≤ edge then .error .layout else value) ∧
      Faithful f (m.quote edge input value).2 := by
  by_cases hrefused : m.namespaceKey = none ∨ 8 ≤ edge
  · rw [quote_of_refused hrefused, if_pos hrefused]
    exact ⟨rfl, h⟩
  · rw [not_or, not_le] at hrefused
    obtain ⟨bank, hbank⟩ := Option.ne_none_iff_exists'.mp hrefused.1
    obtain rfl := hvalue bank hbank
    rw [if_neg (by simp [hbank, hrefused.2])]
    exact quote_eq h hbank hrefused.2

/-- A run answers what its evaluations would give, and leaves a faithful table. -/
theorem run_spec (h : Faithful f m) (hcalls : DependsOn f m.namespaceKey calls) :
    m.answers calls = evaluated m.namespaceKey calls ∧ Faithful f (m.run calls) := by
  induction calls generalizing m with
  | nil => exact ⟨rfl, h⟩
  | cons call rest ih =>
    cases call with
    | begin bank =>
      have hrest := @ih (m.begin bank) (h.begin bank) (by rwa [namespaceKey_begin])
      rw [namespaceKey_begin] at hrest
      exact hrest
    | quote edge input value =>
      obtain ⟨hvalue, hdepends⟩ := hcalls
      obtain ⟨hanswer, hfaithful⟩ := quote_step h hvalue
      have hrest := @ih (m.quote edge input value).2 hfaithful (by rwa [namespaceKey_quote])
      rw [namespaceKey_quote] at hrest
      refine ⟨?_, hrest.2⟩
      rw [answers, evaluated, hanswer, hrest.1]

end QuoteMemo

end StockMesh.Native

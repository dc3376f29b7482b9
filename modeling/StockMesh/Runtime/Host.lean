import StockMesh.Compiler.Compile

/-! # The execution host

An `ExecutionHost σ` is any implementation of the four calls the executor may make, over a private
state `σ`. Reads may change the state as well, so successive reads need not agree. `World` adds the
work meter and a record of the calls made; the executor can only append to that record. -/

namespace StockMesh

open Budgeted Stateful

/-- Token balances of the settlement account. -/
structure Balances where
  input : ℕ := 0
  output : ℕ := 0
  deriving DecidableEq

/-- What the caller pins about a venue. -/
structure EdgePin where
  market : Key
  program : Key
  liquidityId : Key
  writableResources : ℕ
  minGeneration : ℕ
  deriving DecidableEq

/-- `EdgePin::from`. -/
def Snapshot.pin (s : Snapshot) : EdgePin :=
  { market := s.market
    program := s.program
    liquidityId := s.liquidityId
    writableResources := s.writableResources
    minGeneration := s.generation }

/-- The host interface. -/
structure ExecutionHost (σ : Type) where
  slot : σ → ℕ × σ
  snapshot : ℕ → σ → Result Snapshot × σ
  balances : σ → Result Balances × σ
  invoke : ℕ → ℕ → σ → Result Unit × σ

/-- One call of the host, with its answer. -/
inductive Call
  | slot (value : ℕ)
  | snapshot (index : ℕ) (answer : Result Snapshot)
  | balances (answer : Result Balances)
  | invoke (index input : ℕ) (answer : Result Unit)

/-- The host answered with an error. -/
def Call.Failed : Call → Prop
  | .slot _ => False
  | .snapshot _ answer => ∃ e, answer = .error e
  | .balances answer => ∃ e, answer = .error e
  | .invoke _ _ answer => ∃ e, answer = .error e

/-- The host's state, the work meter and the calls made so far. -/
structure World (σ : Type) where
  host : σ
  meter : WorkMeter
  calls : List Call

/-- The world before an execution. -/
def World.start {σ : Type} (s : σ) : World σ := { host := s, meter := ⟨0, 0⟩, calls := [] }

/-- Computations against a host. -/
abbrev Exec (σ : Type) (α : Type) := Comp Error (World σ) α

section Operations

variable {σ α : Type}

/-- Call the host and record the call. -/
def ask (run : σ → α × σ) (record : α → Call) : Exec σ α := fun w =>
  (.ok (run w.host).1,
    { w with host := (run w.host).2, calls := w.calls ++ [record (run w.host).1] })

/-- `host.slot()`. -/
def readSlot (host : ExecutionHost σ) : Exec σ ℕ := ask host.slot .slot

/-- `host.snapshot(index)?`. -/
def readSnapshot (host : ExecutionHost σ) (index : ℕ) : Exec σ Snapshot := do
  let answer ← ask (host.snapshot index) (.snapshot index)
  lift answer

/-- `host.balances()?`. -/
def readBalances (host : ExecutionHost σ) : Exec σ Balances := do
  let answer ← ask host.balances .balances
  lift answer

/-- `host.invoke(index, input)?`. -/
def invoke (host : ExecutionHost σ) (index input : ℕ) : Exec σ Unit := do
  let answer ← ask (host.invoke index input) (.invoke index input)
  lift answer

/-- Metered work. -/
def work (x : Metered α) : Exec σ α := fun w => ((x w.meter).1, { w with meter := (x w.meter).2 })

/-- `WorkMeter::new(limit)`. -/
def newMeter (limit : ℕ) : Exec σ Unit := fun w => (.ok (), { w with meter := ⟨0, limit⟩ })

/-- `meter.used`. -/
def usedWork : Exec σ ℕ := fun w => (.ok w.meter.used, w)

variable {P : World σ → Prop} {R : Error → World σ → Prop}

/-- A call of the host appends one record. -/
theorem ask_triple {run : σ → α × σ} {record : α → Call} {Q : α → World σ → Prop}
    (h : ∀ w a s, P w → Q a { w with host := s, calls := w.calls ++ [record a] }) :
    Triple P (ask run record) Q R := fun w hw => h w _ _ hw

/-- A call that may fail, followed by `?`. -/
theorem ask_lift_triple {run : σ → Result α × σ} {record : Result α → Call}
    {Q : α → World σ → Prop}
    (hok : ∀ w a s, P w → Q a { w with host := s, calls := w.calls ++ [record (.ok a)] })
    (herr : ∀ w e s, P w → R e { w with host := s, calls := w.calls ++ [record (.error e)] }) :
    Triple P (ask run record >>= fun answer => (lift answer : Exec σ α)) Q R := by
  intro w hw
  rcases h : run w.host with ⟨e | a, s⟩
  · have hrun : (ask run record >>= fun answer => (lift answer : Exec σ α)) w
        = (.error e, { w with host := s, calls := w.calls ++ [record (.error e)] }) := by
      show (lift (run w.host).1 : Exec σ α) _ = _
      rw [h]
      rfl
    rw [hrun]
    exact herr w e s hw
  · have hrun : (ask run record >>= fun answer => (lift answer : Exec σ α)) w
        = (.ok a, { w with host := s, calls := w.calls ++ [record (.ok a)] }) := by
      show (lift (run w.host).1 : Exec σ α) _ = _
      rw [h]
      rfl
    rw [hrun]
    exact hok w a s hw

theorem readSnapshot_triple {host : ExecutionHost σ} {index : ℕ} {Q : Snapshot → World σ → Prop}
    (hok : ∀ w a s, P w →
      Q a { w with host := s, calls := w.calls ++ [.snapshot index (.ok a)] })
    (herr : ∀ w e s, P w →
      R e { w with host := s, calls := w.calls ++ [.snapshot index (.error e)] }) :
    Triple P (readSnapshot host index) Q R := ask_lift_triple hok herr

theorem readBalances_triple {host : ExecutionHost σ} {Q : Balances → World σ → Prop}
    (hok : ∀ w a s, P w → Q a { w with host := s, calls := w.calls ++ [.balances (.ok a)] })
    (herr : ∀ w e s, P w →
      R e { w with host := s, calls := w.calls ++ [.balances (.error e)] }) :
    Triple P (readBalances host) Q R := ask_lift_triple hok herr

theorem invoke_triple {host : ExecutionHost σ} {index input : ℕ} {Q : Unit → World σ → Prop}
    (hok : ∀ w s, P w →
      Q () { w with host := s, calls := w.calls ++ [.invoke index input (.ok ())] })
    (herr : ∀ w e s, P w →
      R e { w with host := s, calls := w.calls ++ [.invoke index input (.error e)] }) :
    Triple P (invoke host index input) Q R := ask_lift_triple (fun w _ s => hok w s) herr

/-- Work changes the meter only. -/
theorem work_triple {x : Metered α} {Q : α → World σ → Prop}
    (hok : ∀ w a m, x w.meter = (.ok a, m) → P w → Q a { w with meter := m })
    (herr : ∀ w e m, x w.meter = (.error e, m) → P w → R e { w with meter := m }) :
    Triple P (work x) Q R := by
  intro w hw
  rcases h : x w.meter with ⟨e | a, m⟩
  · have hrun : work x w = (.error e, { w with meter := m }) := by
      unfold work
      rw [h]
    rw [hrun]
    exact herr w e m h hw
  · have hrun : work x w = (.ok a, { w with meter := m }) := by
      unfold work
      rw [h]
    rw [hrun]
    exact hok w a m h hw

end Operations

end StockMesh

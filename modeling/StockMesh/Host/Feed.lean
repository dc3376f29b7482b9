import StockMesh.Host.Answer

/-! # The account feed

A feed publishes immutable snapshots of a fixed set of accounts. `prepare` decodes the next snapshot from
a response: slots never go back, and the generation counts changes of the hash. Threads share the
current snapshot, the healthy flag and the revision. One step of a thread is one atomic effect: a read or
write of `current` under its lock, a load or compare-exchange of the revision, a load or store of
`healthy`. Waiting for a lock is not a step. A freshness check may fail at any time. -/

namespace StockMesh.Host

/-- An observed account (`Account`). -/
structure FeedAccount where
  key : Key
  owner : Key
  executable : Bool
  lamports : ℕ
  data : List UInt8
  deriving DecidableEq

/-- A published view (`Snapshot`). When it was observed only matters to the freshness checks. -/
structure Snapshot where
  slot : ℕ
  generation : ℕ
  hash : Key
  accounts : List FeedAccount
  revision : ℕ
  deriving DecidableEq

/-- The fixed part of a feed, with the hash of its rows. -/
structure FeedConfig where
  keys : List Key
  explicitAbsence : List Key
  maxBytes : ℕ
  digest : List FeedAccount → Key

/-- One row of a response, with what its base-64 and base-58 texts decode to. -/
structure Row where
  base64 : Bool
  data : Answer (List UInt8)
  owner : Answer Key
  lamports : Option ℕ
  executable : Option Bool

/-- A response: the slot of its context and its rows, `none` for a null row. -/
structure Response where
  slot : Option ℕ
  values : Option (List (Option Row))

/-- The value of an option, or the message. -/
def present {α : Type} (x : Option α) (message : String) : Answer α :=
  match x with
  | some a => .ok a
  | none => .error message

@[simp] theorem present_eq_ok {α : Type} {x : Option α} {message : String} {a : α} :
    present x message = .ok a ↔ x = some a := by
  cases x <;> simp [present]

/-- The rows of a response in the order of the keys, with the bytes seen so far. An explicitly absent
account is an empty one of the system program. -/
def readRows (cfg : FeedConfig) : List (Key × Option Row) → ℕ → Answer (List FeedAccount)
  | [], _ => .ok []
  | (key, none) :: rest, total => do
    refuse (key ∉ cfg.explicitAbsence) "required account missing/deleted"
    let accounts ← readRows cfg rest total
    .ok ({ key, owner := .ofFn fun _ => 0, executable := false, lamports := 0, data := [] } :: accounts)
  | (key, some row) :: rest, total => do
    refuse (row.base64 = false) "snapshot account encoding"
    let data ← row.data
    refuse (cfg.maxBytes < total + data.length) "snapshot byte budget"
    let owner ← row.owner
    let lamports ← present row.lamports "lamports"
    let executable ← present row.executable "executable"
    let accounts ← readRows cfg rest (total + data.length)
    .ok ({ key, owner, executable, lamports, data } :: accounts)

/-- The generation after a snapshot, for a new hash. -/
def nextGeneration (previous : Option Snapshot) (hash : Key) : Answer ℕ :=
  match previous with
  | none => .ok 1
  | some s => if s.hash = hash then .ok s.generation
    else bounded u64Size (s.generation + 1) "generation overflow"

/-- `prepare`, on the snapshot and the revision it has read. -/
def prepare (cfg : FeedConfig) (previous : Option Snapshot) (loaded : ℕ) (response : Response) :
    Answer Snapshot := do
  let revision ← bounded u64Size (loaded + 1) "feed revision exhausted"
  let slot ← present response.slot "missing slot"
  let values ← present response.values "missing account values"
  refuse (values.length ≠ cfg.keys.length) "incomplete snapshot"
  let accounts ← readRows cfg (cfg.keys.zip values) 0
  let hash := cfg.digest accounts
  refuse (∃ s ∈ previous, slot < s.slot) "out-of-order snapshot"
  let generation ← nextGeneration previous hash
  .ok { slot, generation, hash, accounts, revision }

/-! ## Threads -/

/-- Where a thread stands inside a call. A read carries the snapshot of a fence, if any, and the length
of the log when it began. -/
inductive Thread
  | idle
  /-- `prepare` has read `current`. -/
  | previousRead (response : Response) (previous : Option Snapshot)
  /-- `prepare` has returned. -/
  | prepared (next : Snapshot)
  /-- `install_prepared` holds the lock. -/
  | installing (next : Snapshot)
  /-- `install_prepared` has exchanged the revision. -/
  | exchanged (next : Snapshot)
  /-- `install_prepared` has written `current`. -/
  | written (next : Snapshot)
  /-- `invalidate` holds the lock. -/
  | invalidating
  /-- `invalidate` has cleared `healthy`. -/
  | cleared
  /-- `read` has begun. -/
  | reading (fence : Option Snapshot) (began : ℕ)
  /-- `read` has seen `healthy`. -/
  | admitted (fence : Option Snapshot) (began : ℕ)
  /-- `read` has copied `current`. -/
  | copied (fence : Option Snapshot) (began : ℕ) (value : Snapshot)
  /-- `read` has seen `healthy` again. -/
  | rechecked (fence : Option Snapshot) (began : ℕ) (value : Snapshot)

/-- What the calls have done. -/
inductive Event
  | installed (s : Snapshot)
  | invalidated
  /-- A read returned. -/
  | returned (began : ℕ) (s : Snapshot)
  /-- A fence accepted its snapshot. -/
  | accepted (began : ℕ) (observed : Snapshot)

/-- The shared state of a feed with its threads. -/
structure Feed where
  current : Option Snapshot := none
  healthy : Bool := false
  revision : ℕ := 0
  /-- The thread that holds the write lock of `current`. -/
  lock : Option ℕ := none
  threads : ℕ → Thread := fun _ => .idle
  log : List Event := []

namespace Feed

/-- A thread moves on. -/
def goto (s : Feed) (t : ℕ) (pc : Thread) : Feed :=
  { s with threads := Function.update s.threads t pc }

/-- The fence of a read accepts the value. -/
def Matches (observed value : Snapshot) : Prop :=
  value.revision = observed.revision ∧ value.hash = observed.hash ∧ value.slot = observed.slot

/-- The revision after `fetch_update`. -/
def bumped (revision : ℕ) : ℕ := if revision + 1 < u64Size then revision + 1 else revision

/-- One atomic effect of thread `t`. Every call may also end with an error wherever its checks fail. -/
inductive Step (cfg : FeedConfig) (t : ℕ) (s : Feed) : Feed → Prop
  | readPrevious (response : Response) (idle : s.threads t = .idle) (free : s.lock = none) :
      Step cfg t s (s.goto t (.previousRead response s.current))
  | prepared {response : Response} {previous : Option Snapshot} {next : Snapshot}
      (at_pc : s.threads t = .previousRead response previous)
      (ok : prepare cfg previous s.revision response = .ok next) :
      Step cfg t s (s.goto t (.prepared next))
  | lockInstall {next : Snapshot} (at_pc : s.threads t = .prepared next) (free : s.lock = none) :
      Step cfg t s ({ s with lock := some t }.goto t (.installing next))
  | exchange {next : Snapshot} (at_pc : s.threads t = .installing next)
      (expected : 1 ≤ next.revision ∧ s.revision = next.revision - 1) :
      Step cfg t s ({ s with revision := next.revision }.goto t (.exchanged next))
  | write {next : Snapshot} (at_pc : s.threads t = .exchanged next) :
      Step cfg t s ({ s with current := some next, log := s.log ++ [Event.installed next] }.goto t
        (.written next))
  | publish {next : Snapshot} (at_pc : s.threads t = .written next) :
      Step cfg t s ({ s with healthy := true, lock := none }.goto t .idle)
  | lockInvalidate (idle : s.threads t = .idle) (free : s.lock = none) :
      Step cfg t s ({ s with lock := some t }.goto t .invalidating)
  | clear (at_pc : s.threads t = .invalidating) :
      Step cfg t s ({ s with healthy := false }.goto t .cleared)
  | bump (at_pc : s.threads t = .cleared) :
      Step cfg t s ({ s with revision := bumped s.revision, lock := none,
                             log := s.log ++ [Event.invalidated] }.goto t .idle)
  | begin (fence : Option Snapshot) (idle : s.threads t = .idle) :
      Step cfg t s (s.goto t (.reading fence s.log.length))
  | seeHealthy {fence : Option Snapshot} {began : ℕ} (at_pc : s.threads t = .reading fence began)
      (healthy : s.healthy = true) : Step cfg t s (s.goto t (.admitted fence began))
  | copy {fence : Option Snapshot} {began : ℕ} {value : Snapshot}
      (at_pc : s.threads t = .admitted fence began) (free : s.lock = none)
      (some_value : s.current = some value) : Step cfg t s (s.goto t (.copied fence began value))
  | recheck {fence : Option Snapshot} {began : ℕ} {value : Snapshot}
      (at_pc : s.threads t = .copied fence began value) (healthy : s.healthy = true) :
      Step cfg t s (s.goto t (.rechecked fence began value))
  | return {began : ℕ} {value : Snapshot} (at_pc : s.threads t = .rechecked none began value)
      (same : s.revision = value.revision) :
      Step cfg t s ({ s with log := s.log ++ [Event.returned began value] }.goto t .idle)
  | accept {began : ℕ} {observed value : Snapshot}
      (at_pc : s.threads t = .rechecked (some observed) began value)
      (same : s.revision = value.revision) (fits : Matches observed value) :
      Step cfg t s ({ s with log := s.log ++ [Event.accepted began observed] }.goto t .idle)
  /-- A check failed, or a prepared snapshot is dropped. -/
  | fail (unlocked : s.lock ≠ some t) : Step cfg t s (s.goto t .idle)
  /-- The compare-exchange failed. -/
  | superseded {next : Snapshot} (at_pc : s.threads t = .installing next)
      (moved : ¬(1 ≤ next.revision ∧ s.revision = next.revision - 1)) :
      Step cfg t s ({ s with lock := none }.goto t .idle)

/-- A run from a new feed, with a condition on its steps. -/
inductive Run (cfg : FeedConfig) (ok : ℕ → Feed → Feed → Prop) : Feed → Prop
  | start : Run cfg ok {}
  | step {t : ℕ} {s s' : Feed} (run : Run cfg ok s) (next : Step cfg t s s') (fits : ok t s s') :
      Run cfg ok s'

end Feed

end StockMesh.Host

import StockMesh.Adapters.Layout
import Mathlib.Logic.Function.Basic
import Mathlib.Data.List.FinRange

/-! # The admission lane

A bounded queue of requests. A request reserves the resources that it reads and writes from its dispatch
to its explicit completion, whatever the deadline, and a completed one stays as a tombstone through its
deadline. Tickets carry a generation, so that a reused slot does not answer to an old ticket. -/

namespace StockMesh.Admission

/-- `QUEUE_CAPACITY`. -/
abbrev queueCapacity : ℕ := 256

/-- `OWNER_CAPACITY`. -/
abbrev ownerCapacity : ℕ := 32

/-- A set of resources, one bit for each. -/
abbrev Resources := BitVec 64

/-- What an owner asks to run. -/
structure Request where
  owner : Key
  nonce : ℕ
  readResources : Resources
  writeResources : Resources
  deadline : ℕ
  deriving DecidableEq

/-- A slot of the queue and the generation it was filled in. -/
structure Ticket where
  index : ℕ
  generation : ℕ
  deriving DecidableEq

/-- A stored request. -/
structure Entry where
  request : Request
  generation : ℕ
  inFlight : Bool
  completed : Bool
  deriving DecidableEq

/-- The ticket of an entry. -/
def Entry.ticket (e : Entry) (i : Fin queueCapacity) : Ticket := ⟨i, e.generation⟩

end Admission

open Admission in
/-- The lane: its slots, the last generation and the round-robin cursor. -/
structure Admission where
  entries : Fin queueCapacity → Option Admission.Entry := fun _ => none
  generation : ℕ := 0
  cursor : Fin queueCapacity := 0

namespace Admission

/-! ## Admission -/

/-- `admitRequest` evicts expired entries that are not in flight. -/
def evicted (now : ℕ) (s : Admission) : Admission :=
  { s with entries := fun i => (s.entries i).filter fun e => e.inFlight || now ≤ e.request.deadline }

/-- One slot of the duplicate check and the owner count. -/
def countOwned (r : Request) (owned : ℕ) (slot : Option Entry) : Result ℕ :=
  match slot with
  | none => .ok owned
  | some e =>
    if e.request.owner = r.owner then do
      rejectIf (e.request.nonce = r.nonce) .duplicate
      .ok (owned + (!e.completed).toNat)
    else .ok owned

/-- The slots in order. -/
def slots (s : Admission) : List (Option Entry) := (List.finRange queueCapacity).map s.entries

/-- The rest of `admitRequest`. -/
def insert (r : Request) (s : Admission) : Result (Ticket × Admission) := do
  let owned ← s.slots.foldlM (countOwned r) 0
  rejectIf (ownerCapacity ≤ owned) .ownerLimit
  let i ← okOr ((List.finRange queueCapacity).find? fun i => (s.entries i).isNone) .queueFull
  let generation ← checkedAdd s.generation 1
  .ok (⟨i, generation⟩,
    { s with
      generation := generation
      entries := Function.update s.entries i (some ⟨r, generation, false, false⟩) })

/-- The source's `admit`. -/
def admitRequest (r : Request) (now : ℕ) (s : Admission) : Result Ticket × Admission :=
  if r.deadline < now then (.error .expired, s)
  else
    match (s.evicted now).insert r with
    | .error e => (.error e, s.evicted now)
    | .ok (t, s') => (.ok t, s')

/-! ## Dispatch -/

/-- The resources that requests in flight read or write. -/
def reserved (s : Admission) (field : Request → Resources) : Resources :=
  ((s.slots.filterMap id).filter Entry.inFlight).foldl (fun acc e => acc ||| field e.request) 0

/-- The slots from the cursor on. -/
def rotation (s : Admission) : List (Fin queueCapacity) :=
  (List.finRange queueCapacity).map fun offset => s.cursor + offset

/-- A request that may be dispatched. -/
def ready (s : Admission) (now : ℕ) (e : Entry) : Bool :=
  !(e.inFlight || e.completed || e.request.deadline < now) &&
    !(e.request.writeResources &&& (s.reserved Request.readResources |||
        s.reserved Request.writeResources) ≠ 0 ||
      e.request.readResources &&& s.reserved Request.writeResources ≠ 0)

/-- The first slot from the cursor on whose request may be dispatched. -/
def nextReady (s : Admission) (now : ℕ) : Option (Fin queueCapacity × Entry) :=
  s.rotation.findSome? fun i => ((s.entries i).filter (s.ready now)).map fun e => (i, e)

/-- `dispatch`. -/
def dispatch (now : ℕ) (s : Admission) : Option (Ticket × Request) × Admission :=
  match s.nextReady now with
  | none => (none, s)
  | some (i, e) => (some (e.ticket i, e.request),
      { s with
        entries := Function.update s.entries i (some { e with inFlight := true })
        cursor := i + 1 })

/-! ## Completion -/

/-- The slot of a ticket. -/
def slot (s : Admission) (i : ℕ) : Option (Fin queueCapacity × Entry) :=
  if h : i < queueCapacity then (s.entries ⟨i, h⟩).map fun e => (⟨i, h⟩, e) else none

/-- `complete`. -/
def complete (t : Ticket) (s : Admission) : Result Unit × Admission :=
  match s.slot t.index with
  | none => (.error .invalidTicket, s)
  | some (i, e) =>
    if e.generation ≠ t.generation ∨ e.inFlight = false ∨ e.completed = true then
      (.error .invalidTicket, s)
    else
      let done := { e with inFlight := false, completed := true }
      (.ok (), { s with entries := Function.update s.entries i (some done) })

end Admission

end StockMesh

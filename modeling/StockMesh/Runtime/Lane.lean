import StockMesh.Runtime.Admission
import StockMesh.Foundation.History
import Mathlib.Data.Fintype.Card

/-! # Runs of the admission lane

`Lane.Step` makes one call, at a time that does not go back. The invariant relates the slots to the
history: every stored entry was admitted under its ticket, an admitted request is stored until its deadline
has passed, and a dispatched one is in flight until its ticket is completed (`admission_lane`). -/

namespace StockMesh.Admission

/-! ## Conflicts -/

/-- Two requests that may not run together. -/
def Request.Conflicts (a b : Request) : Prop :=
  a.writeResources &&& (b.readResources ||| b.writeResources) ≠ 0 ∨
    a.readResources &&& b.writeResources ≠ 0

instance (a b : Request) : Decidable (a.Conflicts b) := inferInstanceAs (Decidable (_ ∨ _))

theorem and_or_eq_zero {x a b : Resources} : x &&& (a ||| b) = 0 ↔ x &&& a = 0 ∧ x &&& b = 0 := by
  rw [BitVec.and_or_distrib_left]
  exact BitVec.or_eq_zero_iff

theorem Request.not_conflicts {a b : Request} : ¬a.Conflicts b ↔
    a.writeResources &&& b.readResources = 0 ∧ a.writeResources &&& b.writeResources = 0 ∧
      a.readResources &&& b.writeResources = 0 := by
  simp only [Conflicts, not_or, ne_eq, Decidable.not_not, and_or_eq_zero, and_assoc]

theorem Request.conflicts_comm {a b : Request} : a.Conflicts b ↔ b.Conflicts a := by
  rw [← not_iff_not, not_conflicts, not_conflicts]
  simp only [BitVec.and_comm a.writeResources, BitVec.and_comm a.readResources]
  tauto

/-- Nothing of a union meets `x` exactly when no member does. -/
theorem and_foldl_or_eq_zero {x acc : Resources} {l : List Entry} {field : Request → Resources} :
    x &&& l.foldl (fun acc e => acc ||| field e.request) acc = 0 ↔
      x &&& acc = 0 ∧ ∀ e ∈ l, x &&& field e.request = 0 := by
  induction l generalizing acc with
  | nil => simp
  | cons e l ih => rw [List.foldl_cons, ih, and_or_eq_zero, List.forall_mem_cons, and_assoc]

variable {s s' : Admission} {r : Request} {t : Ticket} {now : ℕ}

theorem mem_slots {e : Entry} : some e ∈ s.slots ↔ ∃ i, s.entries i = some e := by
  simp [slots]

/-- A request meets none of the reserved resources exactly when it conflicts with nothing in flight. -/
theorem reserved_eq_zero {x : Resources} {field : Request → Resources} :
    x &&& s.reserved field = 0 ↔
      ∀ i e, s.entries i = some e → e.inFlight = true → x &&& field e.request = 0 := by
  have hnothing : x &&& (0 : Resources) = 0 := BitVec.and_zero
  rw [reserved, and_foldl_or_eq_zero, and_iff_right hnothing]
  simp only [List.mem_filter, List.mem_filterMap, id, and_imp]
  constructor
  · intro h i e hi hflight
    exact h e ⟨_, mem_slots.mpr ⟨i, hi⟩, rfl⟩ hflight
  · rintro h e ⟨slot, hslot, rfl⟩ hflight
    obtain ⟨i, hi⟩ := mem_slots.mp hslot
    exact h i e hi hflight

/-- A pending request that has not expired and conflicts with nothing in flight. -/
structure Ready (s : Admission) (now : ℕ) (e : Entry) : Prop where
  waiting : e.inFlight = false
  uncompleted : e.completed = false
  unexpired : now ≤ e.request.deadline
  free : ∀ i e', s.entries i = some e' → e'.inFlight = true → ¬e.request.Conflicts e'.request

theorem ready_iff {e : Entry} : s.ready now e = true ↔ s.Ready now e := by
  have hfree : (∀ i e', s.entries i = some e' → e'.inFlight = true → ¬e.request.Conflicts e'.request) ↔
      e.request.writeResources &&& (s.reserved Request.readResources |||
        s.reserved Request.writeResources) = 0 ∧
      e.request.readResources &&& s.reserved Request.writeResources = 0 := by
    rw [and_or_eq_zero]
    simp only [reserved_eq_zero, Request.not_conflicts]
    constructor
    · exact fun h => ⟨⟨fun i e' hi hf => (h i e' hi hf).1, fun i e' hi hf => (h i e' hi hf).2.1⟩,
        fun i e' hi hf => (h i e' hi hf).2.2⟩
    · exact fun h i e' hi hf => ⟨h.1.1 i e' hi hf, h.1.2 i e' hi hf, h.2 i e' hi hf⟩
  constructor
  · intro h
    simp only [ready, Bool.and_eq_true, Bool.not_eq_true', Bool.or_eq_false_iff, decide_eq_false_iff_not,
      ne_eq, Decidable.not_not, Nat.not_lt] at h
    exact ⟨h.1.1.1, h.1.1.2, h.1.2, hfree.mpr h.2⟩
  · intro h
    simp only [ready, Bool.and_eq_true, Bool.not_eq_true', Bool.or_eq_false_iff, decide_eq_false_iff_not,
      ne_eq, Decidable.not_not, Nat.not_lt]
    exact ⟨⟨⟨h.waiting, h.uncompleted⟩, h.unexpired⟩, hfree.mp h.free⟩

/-! ## What one call does -/

theorem evicted_entries {i : Fin queueCapacity} {e : Entry} :
    (s.evicted now).entries i = some e ↔
      s.entries i = some e ∧ (e.inFlight = true ∨ now ≤ e.request.deadline) := by
  simp [evicted, Option.filter_eq_some_iff]

/-- A slot with an uncompleted entry of an owner. -/
def Counts (owner : Key) (slot : Option Entry) : Prop :=
  ∃ e ∈ slot, e.request.owner = owner ∧ e.completed = false

instance (owner : Key) : DecidablePred (Counts owner) := fun slot =>
  inferInstanceAs (Decidable (∃ e ∈ slot, e.request.owner = owner ∧ e.completed = false))

@[simp] theorem counts_none (owner : Key) : ¬Counts owner none := by simp [Counts]

@[simp] theorem counts_some {owner : Key} {e : Entry} :
    Counts owner (some e) ↔ e.request.owner = owner ∧ e.completed = false := by simp [Counts]

/-- The number of uncompleted entries of an owner. -/
def owned (s : Admission) (owner : Key) : ℕ :=
  (Finset.univ.filter fun i => Counts owner (s.entries i)).card

theorem owned_eq_countP (s : Admission) (owner : Key) : s.owned owner = s.slots.countP (Counts owner) := by
  rw [slots, List.countP_map, List.countP_eq_length_filter]
  rfl

/-- Fewer uncompleted entries count no more. -/
theorem owned_mono {owner : Key} (h : ∀ i, Counts owner (s'.entries i) → Counts owner (s.entries i)) :
    s'.owned owner ≤ s.owned owner :=
  Finset.card_le_card fun i hi => by
    simp only [Finset.mem_filter, Finset.mem_univ, true_and] at hi ⊢
    exact h i hi

/-- One more uncompleted entry counts at most one more. -/
theorem owned_le_succ {owner : Key} {i : Fin queueCapacity}
    (h : ∀ k, k ≠ i → Counts owner (s'.entries k) → Counts owner (s.entries k)) :
    s'.owned owner ≤ s.owned owner + 1 := by
  refine le_trans (Finset.card_le_card (fun k hk => ?_)) (Finset.card_insert_le i _)
  simp only [Finset.mem_filter, Finset.mem_univ, true_and, Finset.mem_insert] at hk ⊢
  by_cases hki : k = i
  · exact .inl hki
  · exact .inr (h k hki hk)

/-- The owner count passes when no entry of the owner has the nonce. -/
theorem foldlM_countOwned {l : List (Option Entry)} {n m : ℕ}
    (h : l.foldlM (countOwned r) n = .ok m) :
    (∀ e, some e ∈ l → e.request.owner = r.owner → e.request.nonce ≠ r.nonce) ∧
      m = n + l.countP (Counts r.owner) := by
  induction l generalizing n with
  | nil =>
    cases h
    exact ⟨fun e he => absurd he List.not_mem_nil, rfl⟩
  | cons slot l ih =>
    obtain ⟨k, hstep, hrest⟩ := bind_eq_ok.mp h
    obtain ⟨hnone, rfl⟩ := ih hrest
    cases slot with
    | none =>
      cases hstep
      refine ⟨fun e he => hnone e ?_, by simp⟩
      simpa using he
    | some e =>
      simp only [countOwned] at hstep
      rw [List.countP_cons]
      split at hstep
      · next howner =>
        simp only [bind_eq_ok, rejectIf_eq_ok] at hstep
        obtain ⟨_, hnonce, hk⟩ := hstep
        cases hk
        refine ⟨fun e' he' howner' => ?_, ?_⟩
        · obtain he' | he' := List.mem_cons.mp he'
          · cases he'
            exact hnonce
          · exact hnone e' he' howner'
        · simp only [counts_some, howner, true_and]
          cases e.completed with
          | false =>
            simp
            omega
          | true => simp
      · next howner =>
        cases hstep
        refine ⟨fun e' he' howner' => ?_, by simp [howner]⟩
        obtain he' | he' := List.mem_cons.mp he'
        · cases he'
          exact absurd howner' howner
        · exact hnone e' he' howner'

/-- A request that was admitted into a free slot. -/
structure Admitted (r : Request) (now : ℕ) (s : Admission) (t : Ticket) (s' : Admission) : Prop where
  unexpired : now ≤ r.deadline
  fresh : ∀ i e, (s.evicted now).entries i = some e → e.request.owner = r.owner →
    e.request.nonce ≠ r.nonce
  room : (s.evicted now).owned r.owner < ownerCapacity
  generation : t.generation = s.generation + 1
  slot : ∃ i : Fin queueCapacity, t.index = i ∧ (s.evicted now).entries i = none ∧
    s' = { s with
      generation := s.generation + 1
      entries := Function.update (s.evicted now).entries i (some ⟨r, s.generation + 1, false, false⟩) }

/-- An admission succeeds or changes nothing but the expired entries. -/
theorem admitRequest_cases (r : Request) (now : ℕ) (s : Admission) :
    (∃ e, s.admitRequest r now = (.error e, s) ∨ s.admitRequest r now = (.error e, s.evicted now)) ∨
      ∃ t s', s.admitRequest r now = (.ok t, s') ∧ Admitted r now s t s' := by
  unfold admitRequest
  split
  · exact .inl ⟨.expired, .inl rfl⟩
  · next hdeadline =>
    split
    · next e _ => exact .inl ⟨e, .inr rfl⟩
    · next t s' hinsert =>
      refine .inr ⟨t, s', rfl, ?_⟩
      simp only [insert, bind_eq_ok, rejectIf_eq_ok, okOr_eq_ok, checkedAdd, fits_eq_ok] at hinsert
      obtain ⟨n, hfold, _, hroom, i, hfind, g, ⟨-, rfl⟩, hout⟩ := hinsert
      obtain ⟨hfresh, rfl⟩ := foldlM_countOwned hfold
      cases hout
      refine ⟨Nat.le_of_not_lt hdeadline, fun k e hk => hfresh e (mem_slots.mpr ⟨k, hk⟩), ?_, rfl,
        i, rfl, ?_, rfl⟩
      · rw [Nat.zero_add, ← owned_eq_countP] at hroom
        exact Nat.lt_of_not_le hroom
      · have hfree := List.find?_some hfind
        exact Option.isNone_iff_eq_none.mp hfree

theorem mem_rotation (s : Admission) (i : Fin queueCapacity) : i ∈ s.rotation := by
  refine List.mem_map.mpr ⟨i - s.cursor, List.mem_finRange _, Fin.ext ?_⟩
  have hi := i.isLt
  have hcursor := s.cursor.isLt
  show (s.cursor.val + (256 - s.cursor.val + i.val) % 256) % 256 = i.val
  change i.val < 256 at hi
  change s.cursor.val < 256 at hcursor
  omega

/-- A dispatch takes a ready request, and there is none if it takes none. -/
theorem dispatch_cases (now : ℕ) (s : Admission) :
    (s.dispatch now = (none, s) ∧ ∀ i e, s.entries i = some e → ¬s.Ready now e) ∨
      ∃ i e, s.entries i = some e ∧ s.Ready now e ∧
        s.dispatch now = (some (e.ticket i, e.request),
          { s with
            entries := Function.update s.entries i (some { e with inFlight := true })
            cursor := i + 1 }) := by
  unfold dispatch
  cases hnext : s.nextReady now with
  | none =>
    refine .inl ⟨rfl, fun i e hi hready => ?_⟩
    have hnone := List.findSome?_eq_none_iff.mp hnext i (s.mem_rotation i)
    simp only [Option.map_eq_none_iff, Option.filter_eq_none_iff, hi] at hnone
    exact hnone e rfl (ready_iff.mpr hready)
  | some x =>
    obtain ⟨k, -, hk⟩ := List.exists_of_findSome?_eq_some hnext
    simp only [Option.map_eq_some_iff, Option.filter_eq_some_iff] at hk
    obtain ⟨e, ⟨hi, hready⟩, rfl⟩ := hk
    exact .inr ⟨k, e, hi, ready_iff.mp hready, rfl⟩

/-- A completion ends the request in flight that its ticket names, or changes nothing. -/
theorem complete_cases (t : Ticket) (s : Admission) :
    (s.complete t = (.error .invalidTicket, s) ∧
      ∀ (i : Fin queueCapacity) e, s.entries i = some e → e.ticket i = t →
        e.inFlight = false ∨ e.completed = true) ∨
      ∃ (i : Fin queueCapacity) (e : Entry), s.entries i = some e ∧ e.ticket i = t ∧
        e.inFlight = true ∧ e.completed = false ∧ s.complete t = (.ok (),
          { s with entries := Function.update s.entries i
                      (some { e with inFlight := false, completed := true }) }) := by
  have hslot : ∀ (i : Fin queueCapacity) e, s.entries i = some e → e.ticket i = t →
      s.slot t.index = some (i, e) := by
    rintro i e hi rfl
    simp [slot, Entry.ticket, hi]
  unfold complete
  split
  · next hnone =>
    refine .inl ⟨rfl, fun i e hi ht => ?_⟩
    rw [hslot i e hi ht] at hnone
    cases hnone
  · next i e hsome =>
    have hi : s.entries i = some e ∧ t.index = i := by
      unfold slot at hsome
      split at hsome
      · simp only [Option.map_eq_some_iff, Prod.mk.injEq] at hsome
        obtain ⟨e', he', rfl, rfl⟩ := hsome
        exact ⟨he', rfl⟩
      · cases hsome
    split
    · next hstale =>
      refine .inl ⟨rfl, fun k e' hk ht => ?_⟩
      rw [hslot k e' hk ht] at hsome
      cases hsome
      exact hstale.resolve_left fun hgen => hgen (by rw [← ht]; rfl)
    · next hlive =>
      simp only [not_or, Decidable.not_not, Bool.not_eq_false, Bool.not_eq_true] at hlive
      refine .inr ⟨i, e, hi.1, ?_, hlive.2.1, hlive.2.2, rfl⟩
      rw [Entry.ticket, ← hi.2, hlive.1]

/-! ## Runs -/

/-- What the calls of a run did. -/
inductive Event
  | admitted (r : Request) (t : Ticket)
  | dispatched (t : Ticket) (r : Request)
  | completed (t : Ticket)
  deriving DecidableEq

/-- The lane and the latest time that it was called at. -/
structure Lane where
  admission : Admission
  now : ℕ

/-- What a call to `admitRequest` tells. -/
def admitted (r : Request) : Result Ticket → List Event
  | .ok t => [.admitted r t]
  | .error _ => []

/-- What a call to `dispatch` tells. -/
def dispatched : Option (Ticket × Request) → List Event
  | some (t, r) => [.dispatched t r]
  | none => []

/-- What a call to `complete` tells. -/
def completed (t : Ticket) : Result Unit → List Event
  | .ok () => [.completed t]
  | .error _ => []

/-- One call, at a time that does not go back. -/
inductive Lane.Step : Lane → List Event → Lane → Prop
  | admission (lane : Lane) (r : Request) (now : ℕ) (h : lane.now ≤ now) :
      Step lane (admitted r (lane.admission.admitRequest r now).1) ⟨(lane.admission.admitRequest r now).2, now⟩
  | dispatch (lane : Lane) (now : ℕ) (h : lane.now ≤ now) :
      Step lane (dispatched (lane.admission.dispatch now).1) ⟨(lane.admission.dispatch now).2, now⟩
  | complete (lane : Lane) (t : Ticket) :
      Step lane (completed t (lane.admission.complete t).1) ⟨(lane.admission.complete t).2, lane.now⟩

/-- The runs of an empty lane, with their histories. -/
def Runs : List Event → Lane → Prop := Tells Lane.Step ⟨{}, 0⟩

/-- What holds of the slots after a history. -/
structure Invariant (log : List Event) (s : Admission) (now : ℕ) : Prop where
  free : ∀ i k e e', i ≠ k → s.entries i = some e → s.entries k = some e' → e.inFlight = true →
    e'.inFlight = true → ¬e.request.Conflicts e'.request
  unique : ∀ i k e e', s.entries i = some e → s.entries k = some e' →
    e.request.owner = e'.request.owner → e.request.nonce = e'.request.nonce → i = k
  flags : ∀ i e, s.entries i = some e → e.inFlight = true → e.completed = false
  limit : ∀ owner, s.owned owner ≤ ownerCapacity
  known : ∀ i e, s.entries i = some e → .admitted e.request (e.ticket i) ∈ log
  generations : ∀ r t, .admitted r t ∈ log → t.generation ≤ s.generation
  once : ∀ r r' t t', .admitted r t ∈ log → .admitted r' t' ∈ log → t.generation = t'.generation →
    r = r' ∧ t = t'
  stored : ∀ r t, .admitted r t ∈ log → now ≤ r.deadline →
    ∃ i e, s.entries i = some e ∧ e.ticket i = t ∧ e.request = r
  running : ∀ i e, s.entries i = some e → e.inFlight = true → .dispatched (e.ticket i) e.request ∈ log
  waiting : ∀ i e, s.entries i = some e → e.completed = false → .completed (e.ticket i) ∉ log
  dispatched : ∀ t r, .dispatched t r ∈ log → .admitted r t ∈ log ∧ (.completed t ∈ log ∨
    ∃ i e, s.entries i = some e ∧ e.ticket i = t ∧ e.inFlight = true)
  ended : ∀ t, .completed t ∈ log → ∃ r, .admitted r t ∈ log
  completed : ∀ t, log.count (.completed t) ≤ 1

namespace Invariant

variable {log : List Event}

theorem start : Invariant [] {} 0 where
  free _ _ _ _ _ h := by cases h
  unique _ _ _ _ h := by cases h
  flags _ _ h := by cases h
  limit owner := by simp [owned, Counts]
  known _ _ h := by cases h
  generations _ _ h := by cases h
  once _ _ _ _ h := by cases h
  stored _ _ h := by cases h
  running _ _ h := by cases h
  waiting _ _ h := by cases h
  dispatched _ _ h := by cases h
  ended _ h := by cases h
  completed _ := Nat.zero_le _

/-- An entry of a ticket is in its slot. -/
theorem ticket_inj (h : Invariant log s now) {i k : Fin queueCapacity} {e e' : Entry}
    (hi : s.entries i = some e) (hk : s.entries k = some e') (ht : e.generation = e'.generation) :
    i = k := by
  obtain ⟨-, hticket⟩ := h.once _ _ _ _ (h.known i e hi) (h.known k e' hk) ht
  exact Fin.ext (congrArg Ticket.index hticket)

/-- Time passes and expired entries go. -/
theorem evict (h : Invariant log s now) {later : ℕ} (hlater : now ≤ later) :
    Invariant log (s.evicted later) later := by
  have hsub : ∀ {i e}, (s.evicted later).entries i = some e → s.entries i = some e :=
    fun hi => (evicted_entries.mp hi).1
  exact {
    free := fun i k e e' hik hi hk => h.free i k e e' hik (hsub hi) (hsub hk)
    unique := fun i k e e' hi hk => h.unique i k e e' (hsub hi) (hsub hk)
    flags := fun i e hi => h.flags i e (hsub hi)
    limit := fun owner => (owned_mono fun i ⟨e, he, hcounts⟩ => ⟨e, hsub he, hcounts⟩).trans (h.limit owner)
    known := fun i e hi => h.known i e (hsub hi)
    generations := h.generations
    once := h.once
    stored := fun r t hmem hdeadline => by
      obtain ⟨i, e, hi, ht, rfl⟩ := h.stored r t hmem (hlater.trans hdeadline)
      exact ⟨i, e, evicted_entries.mpr ⟨hi, .inr hdeadline⟩, ht, rfl⟩
    running := fun i e hi => h.running i e (hsub hi)
    waiting := fun i e hi => h.waiting i e (hsub hi)
    dispatched := fun t r hmem => by
      obtain ⟨hadmitted, hcompleted | ⟨i, e, hi, ht, hflight⟩⟩ := h.dispatched t r hmem
      · exact ⟨hadmitted, .inl hcompleted⟩
      · exact ⟨hadmitted, .inr ⟨i, e, evicted_entries.mpr ⟨hi, .inl hflight⟩, ht, hflight⟩⟩
    ended := h.ended
    completed := h.completed }

/-- Time passes. -/
theorem later (h : Invariant log s now) {later : ℕ} (hlater : now ≤ later) : Invariant log s later :=
  { h with stored := fun r t hmem hdeadline => h.stored r t hmem (hlater.trans hdeadline) }

/-- A slot after one of them has been filled. -/
theorem update_eq_some {f : Fin queueCapacity → Option Entry} {i k : Fin queueCapacity} {e e' : Entry} :
    Function.update f i (some e) k = some e' ↔ k = i ∧ e' = e ∨ k ≠ i ∧ f k = some e' := by
  by_cases hki : k = i
  · subst hki
    simp [eq_comm]
  · simp [hki]

/-- A request is admitted. -/
theorem admission (h : Invariant log s now) {later : ℕ} (hlater : now ≤ later)
    (hadmitted : Admitted r later s t s') : Invariant (log ++ [.admitted r t]) s' later := by
  have hev := h.evict hlater
  obtain ⟨i, hindex, hempty, rfl⟩ := hadmitted.slot
  have hticket : t = ⟨i, s.generation + 1⟩ := by rw [← hindex, ← hadmitted.generation]
  subst hticket
  have hold : ∀ {k e}, (s.evicted later).entries k = some e → k ≠ i := by
    rintro k e hk rfl
    rw [hempty] at hk
    cases hk
  -- no event of the history has the new generation
  have hfresh : ∀ {r' : Request} {t' : Ticket}, .admitted r' t' ∈ log → t'.generation ≠ s.generation + 1 :=
    fun hmem heq => absurd (h.generations _ _ hmem) (by omega)
  have hmem : ∀ {r' : Request} {t' : Ticket}, Event.admitted r' t' ∈ log ++ [.admitted r ⟨i, s.generation + 1⟩] ↔
      .admitted r' t' ∈ log ∨ r' = r ∧ t' = ⟨i, s.generation + 1⟩ := by simp
  constructor
  case free =>
    intro k l e e' hkl hk hl hflight hflight'
    obtain ⟨rfl, rfl⟩ | ⟨-, hk⟩ := update_eq_some.mp hk
    · cases hflight
    · obtain ⟨rfl, rfl⟩ | ⟨-, hl⟩ := update_eq_some.mp hl
      · cases hflight'
      · exact hev.free k l e e' hkl hk hl hflight hflight'
  case unique =>
    intro k l e e' hk hl howner hnonce
    obtain ⟨rfl, rfl⟩ | ⟨-, hk'⟩ := update_eq_some.mp hk
    · obtain ⟨rfl, rfl⟩ | ⟨-, hl'⟩ := update_eq_some.mp hl
      · rfl
      · exact absurd hnonce.symm (hadmitted.fresh l e' hl' howner.symm)
    · obtain ⟨rfl, rfl⟩ | ⟨-, hl'⟩ := update_eq_some.mp hl
      · exact absurd hnonce (hadmitted.fresh k e hk' howner)
      · exact hev.unique k l e e' hk' hl' howner hnonce
  case flags =>
    intro k e hk hflight
    obtain ⟨rfl, rfl⟩ | ⟨-, hk⟩ := update_eq_some.mp hk
    · rfl
    · exact hev.flags k e hk hflight
  case limit =>
    intro owner
    by_cases howner : owner = r.owner
    · subst howner
      refine (owned_le_succ (s := s.evicted later) (i := i) fun k hki hcounts => ?_).trans hadmitted.room
      dsimp only at hcounts
      rwa [Function.update_of_ne hki] at hcounts
    · refine (owned_mono fun k ⟨e, he, hcounts⟩ => ?_).trans (hev.limit owner)
      obtain ⟨rfl, rfl⟩ | ⟨-, hk⟩ := update_eq_some.mp he
      · exact absurd hcounts.1.symm howner
      · exact ⟨e, hk, hcounts⟩
  case known =>
    intro k e hk
    obtain ⟨rfl, rfl⟩ | ⟨-, hk⟩ := update_eq_some.mp hk
    · exact hmem.mpr (.inr ⟨rfl, rfl⟩)
    · exact hmem.mpr (.inl (hev.known k e hk))
  case generations =>
    intro r' t' ht
    obtain ht | ⟨rfl, rfl⟩ := hmem.mp ht
    · exact (h.generations r' t' ht).trans (Nat.le_succ _)
    · exact le_rfl
  case once =>
    intro r₁ r₂ t₁ t₂ h₁ h₂ hgen
    obtain h₁' | ⟨rfl, rfl⟩ := hmem.mp h₁
    · obtain h₂' | ⟨rfl, rfl⟩ := hmem.mp h₂
      · exact h.once _ _ _ _ h₁' h₂' hgen
      · exact absurd hgen (hfresh h₁')
    · obtain h₂' | ⟨rfl, rfl⟩ := hmem.mp h₂
      · exact absurd hgen.symm (hfresh h₂')
      · exact ⟨rfl, rfl⟩
  case stored =>
    intro r' t' ht hdeadline
    obtain ht | ⟨rfl, rfl⟩ := hmem.mp ht
    · obtain ⟨k, e, hk, hticket⟩ := hev.stored r' t' ht hdeadline
      exact ⟨k, e, update_eq_some.mpr (.inr ⟨hold hk, hk⟩), hticket⟩
    · exact ⟨i, _, update_eq_some.mpr (.inl ⟨rfl, rfl⟩), rfl, rfl⟩
  case running =>
    intro k e hk hflight
    obtain ⟨rfl, rfl⟩ | ⟨-, hk⟩ := update_eq_some.mp hk
    · cases hflight
    · exact List.mem_append_left _ (hev.running k e hk hflight)
  case waiting =>
    intro k e hk hcompleted hmem'
    have hlog : Event.completed (e.ticket k) ∈ log := by simpa using hmem'
    obtain ⟨rfl, rfl⟩ | ⟨-, hk⟩ := update_eq_some.mp hk
    · obtain ⟨r', hadm⟩ := h.ended _ hlog
      exact hfresh hadm rfl
    · exact hev.waiting k e hk hcompleted hlog
  case dispatched =>
    intro t' r' ht
    have ht : Event.dispatched t' r' ∈ log := by simpa using ht
    obtain ⟨hadm, hdone | ⟨k, e, hk, hticket⟩⟩ := hev.dispatched t' r' ht
    · exact ⟨List.mem_append_left _ hadm, .inl (List.mem_append_left _ hdone)⟩
    · exact ⟨List.mem_append_left _ hadm, .inr ⟨k, e, update_eq_some.mpr (.inr ⟨hold hk, hk⟩), hticket⟩⟩
  case ended =>
    intro t' ht
    obtain ⟨r', hadm⟩ := h.ended t' (by simpa using ht)
    exact ⟨r', List.mem_append_left _ hadm⟩
  case completed =>
    intro t'
    simpa [List.count_append] using h.completed t'

/-- An entry with other flags in its slot. -/
def mark (s : Admission) (i : Fin queueCapacity) (e : Entry) (inFlight completed : Bool)
    (cursor : Fin queueCapacity) : Admission :=
  { s with
    entries := Function.update s.entries i
      (some { e with inFlight := inFlight, completed := completed })
    cursor := cursor }

section Mark

variable {i cursor : Fin queueCapacity} {e : Entry} {inFlight completed : Bool}

/-- The entries before and after a mark have the same requests and tickets. -/
theorem of_mark (hi : s.entries i = some e) {k : Fin queueCapacity} {x : Entry}
    (hk : (mark s i e inFlight completed cursor).entries k = some x) :
    ∃ y, s.entries k = some y ∧ y.request = x.request ∧ y.ticket k = x.ticket k := by
  obtain ⟨rfl, rfl⟩ | ⟨-, hk⟩ := update_eq_some.mp hk
  · exact ⟨e, hi, rfl, rfl⟩
  · exact ⟨x, hk, rfl, rfl⟩

theorem to_mark (hi : s.entries i = some e) {k : Fin queueCapacity} {y : Entry}
    (hk : s.entries k = some y) :
    ∃ x, (mark s i e inFlight completed cursor).entries k = some x ∧ x.request = y.request ∧
      x.ticket k = y.ticket k := by
  by_cases hki : k = i
  · subst hki
    cases hi.symm.trans hk
    exact ⟨_, update_eq_some.mpr (.inl ⟨rfl, rfl⟩), rfl, rfl⟩
  · exact ⟨y, update_eq_some.mpr (.inr ⟨hki, hk⟩), rfl, rfl⟩

/-- A ready request is dispatched. -/
theorem dispatch (h : Invariant log s now) {later : ℕ} (hlater : now ≤ later) (hi : s.entries i = some e)
    (hready : s.Ready later e) : Invariant (log ++ [.dispatched (e.ticket i) e.request])
      (mark s i e true e.completed cursor) later := by
  have hmem : ∀ {r' : Request} {t' : Ticket},
      Event.admitted r' t' ∈ log ++ [.dispatched (e.ticket i) e.request] ↔ .admitted r' t' ∈ log := by simp
  have hdone : ∀ {t' : Ticket},
      Event.completed t' ∈ log ++ [.dispatched (e.ticket i) e.request] ↔ .completed t' ∈ log := by simp
  constructor
  case free =>
    intro k l x y hkl hk hl hflight hflight'
    obtain ⟨rfl, rfl⟩ | ⟨hki, hk'⟩ := update_eq_some.mp hk
    · obtain ⟨rfl, rfl⟩ | ⟨-, hl'⟩ := update_eq_some.mp hl
      · exact absurd rfl hkl
      · exact hready.free l y hl' hflight'
    · obtain ⟨rfl, rfl⟩ | ⟨-, hl'⟩ := update_eq_some.mp hl
      · rw [Request.conflicts_comm]
        exact hready.free k x hk' hflight
      · exact h.free k l x y hkl hk' hl' hflight hflight'
  case unique =>
    intro k l x y hk hl howner hnonce
    obtain ⟨x', hk', hx, -⟩ := of_mark hi hk
    obtain ⟨y', hl', hy, -⟩ := of_mark hi hl
    exact h.unique k l x' y' hk' hl' (by rw [hx, hy, howner]) (by rw [hx, hy, hnonce])
  case flags =>
    intro k x hk hflight
    obtain ⟨rfl, rfl⟩ | ⟨-, hk'⟩ := update_eq_some.mp hk
    · exact hready.uncompleted
    · exact h.flags k x hk' hflight
  case limit =>
    intro owner
    refine (owned_mono fun k ⟨x, hx, howner, hcompleted⟩ => ?_).trans (h.limit owner)
    obtain ⟨rfl, rfl⟩ | ⟨-, hk'⟩ := update_eq_some.mp hx
    · exact ⟨e, hi, howner, hcompleted⟩
    · exact ⟨x, hk', howner, hcompleted⟩
  case known =>
    intro k x hk
    obtain ⟨y, hk', hy, hticket⟩ := of_mark hi hk
    rw [hmem, ← hy, ← hticket]
    exact h.known k y hk'
  case generations => exact fun r' t' ht => h.generations r' t' (hmem.mp ht)
  case once => exact fun r₁ r₂ t₁ t₂ h₁ h₂ => h.once r₁ r₂ t₁ t₂ (hmem.mp h₁) (hmem.mp h₂)
  case stored =>
    intro r' t' ht hdeadline
    obtain ⟨k, y, hk, hticket, hreq⟩ := h.stored r' t' (hmem.mp ht) (hlater.trans hdeadline)
    obtain ⟨x, hk', hx, hx'⟩ := to_mark hi hk
    exact ⟨k, x, hk', hx'.trans hticket, hx.trans hreq⟩
  case running =>
    intro k x hk hflight
    obtain ⟨rfl, rfl⟩ | ⟨-, hk'⟩ := update_eq_some.mp hk
    · exact List.mem_append_right _ (List.mem_singleton.mpr rfl)
    · exact List.mem_append_left _ (h.running k x hk' hflight)
  case waiting =>
    intro k x hk hcompleted
    rw [hdone]
    obtain ⟨rfl, rfl⟩ | ⟨-, hk'⟩ := update_eq_some.mp hk
    · exact h.waiting k e hi hready.uncompleted
    · exact h.waiting k x hk' hcompleted
  case dispatched =>
    intro t' r' ht
    rw [hmem, hdone]
    obtain ht | ht := List.mem_append.mp ht
    · obtain ⟨hadm, hcompleted | ⟨k, x, hk, hticket, hflight⟩⟩ := h.dispatched t' r' ht
      · exact ⟨hadm, .inl hcompleted⟩
      · have hki : k ≠ i := by
          rintro rfl
          cases hi.symm.trans hk
          exact absurd hready.waiting (by rw [hflight]; decide)
        exact ⟨hadm, .inr ⟨k, x, update_eq_some.mpr (.inr ⟨hki, hk⟩), hticket, hflight⟩⟩
    · cases List.mem_singleton.mp ht
      exact ⟨h.known i e hi, .inr ⟨i, _, update_eq_some.mpr (.inl ⟨rfl, rfl⟩), rfl, rfl⟩⟩
  case ended =>
    intro t' ht
    obtain ⟨r', hadm⟩ := h.ended t' (hdone.mp ht)
    exact ⟨r', hmem.mpr hadm⟩
  case completed =>
    intro t'
    simpa [List.count_append] using h.completed t'

/-- A request in flight is completed. -/
theorem complete (h : Invariant log s now) (hi : s.entries i = some e) (hopen : e.completed = false) :
    Invariant (log ++ [.completed (e.ticket i)]) (mark s i e false true s.cursor) now := by
  have hmem : ∀ {r' : Request} {t' : Ticket},
      Event.admitted r' t' ∈ log ++ [.completed (e.ticket i)] ↔ .admitted r' t' ∈ log := by simp
  have hdone : ∀ {t' : Ticket}, Event.completed t' ∈ log ++ [.completed (e.ticket i)] ↔
      .completed t' ∈ log ∨ t' = e.ticket i := by simp
  constructor
  case free =>
    intro k l x y hkl hk hl hx hy
    obtain ⟨rfl, rfl⟩ | ⟨-, hk'⟩ := update_eq_some.mp hk
    · cases hx
    · obtain ⟨rfl, rfl⟩ | ⟨-, hl'⟩ := update_eq_some.mp hl
      · cases hy
      · exact h.free k l x y hkl hk' hl' hx hy
  case unique =>
    intro k l x y hk hl howner hnonce
    obtain ⟨x', hk', hx, -⟩ := of_mark hi hk
    obtain ⟨y', hl', hy, -⟩ := of_mark hi hl
    exact h.unique k l x' y' hk' hl' (by rw [hx, hy, howner]) (by rw [hx, hy, hnonce])
  case flags =>
    intro k x hk hx
    obtain ⟨rfl, rfl⟩ | ⟨-, hk'⟩ := update_eq_some.mp hk
    · cases hx
    · exact h.flags k x hk' hx
  case limit =>
    intro owner
    refine (owned_mono fun k ⟨x, hx, howner, hcompleted⟩ => ?_).trans (h.limit owner)
    obtain ⟨rfl, rfl⟩ | ⟨-, hk'⟩ := update_eq_some.mp hx
    · cases hcompleted
    · exact ⟨x, hk', howner, hcompleted⟩
  case known =>
    intro k x hk
    obtain ⟨y, hk', hy, hticket⟩ := of_mark hi hk
    rw [hmem, ← hy, ← hticket]
    exact h.known k y hk'
  case generations => exact fun r' t' ht => h.generations r' t' (hmem.mp ht)
  case once => exact fun r₁ r₂ t₁ t₂ h₁ h₂ => h.once r₁ r₂ t₁ t₂ (hmem.mp h₁) (hmem.mp h₂)
  case stored =>
    intro r' t' ht hdeadline
    obtain ⟨k, y, hk, hticket, hreq⟩ := h.stored r' t' (hmem.mp ht) hdeadline
    obtain ⟨x, hk', hx, hx'⟩ := to_mark hi hk
    exact ⟨k, x, hk', hx'.trans hticket, hx.trans hreq⟩
  case running =>
    intro k x hk hx
    obtain ⟨rfl, rfl⟩ | ⟨-, hk'⟩ := update_eq_some.mp hk
    · cases hx
    · exact List.mem_append_left _ (h.running k x hk' hx)
  case waiting =>
    intro k x hk hx ht
    obtain ⟨rfl, rfl⟩ | ⟨hki, hk'⟩ := update_eq_some.mp hk
    · cases hx
    · obtain ht | ht := hdone.mp ht
      · exact h.waiting k x hk' hx ht
      · exact hki (h.ticket_inj hk' hi (congrArg Ticket.generation ht))
  case dispatched =>
    intro t' r' ht
    rw [hmem, hdone]
    have ht : Event.dispatched t' r' ∈ log := by simpa using ht
    obtain ⟨hadm, hcompleted | ⟨k, x, hk, hticket, hx⟩⟩ := h.dispatched t' r' ht
    · exact ⟨hadm, .inl (.inl hcompleted)⟩
    · refine ⟨hadm, ?_⟩
      by_cases hki : k = i
      · subst hki
        cases hi.symm.trans hk
        exact .inl (.inr hticket.symm)
      · exact .inr ⟨k, x, update_eq_some.mpr (.inr ⟨hki, hk⟩), hticket, hx⟩
  case ended =>
    intro t' ht
    obtain ht | rfl := hdone.mp ht
    · obtain ⟨r', hadm⟩ := h.ended t' ht
      exact ⟨r', hmem.mpr hadm⟩
    · exact ⟨e.request, hmem.mpr (h.known i e hi)⟩
  case completed =>
    intro t'
    rw [List.count_append]
    by_cases ht : t' = e.ticket i
    · subst ht
      have hnone := List.count_eq_zero.mpr (h.waiting i e hi hopen)
      rw [hnone, List.count_singleton_self]
    · have hother := List.count_eq_zero.mpr
        (show Event.completed t' ∉ [.completed (e.ticket i)] by simpa using ht)
      rw [hother]
      exact h.completed t'

end Mark

theorem step {lane lane' : Lane} {events : List Event} (h : Invariant log lane.admission lane.now)
    (hstep : Lane.Step lane events lane') : Invariant (log ++ events) lane'.admission lane'.now := by
  cases hstep with
  | admission r now hnow =>
    obtain ⟨e, heq | heq⟩ | ⟨t, s', heq, hadmitted⟩ := admitRequest_cases r now lane.admission
    · simpa [heq, admitted] using h.later hnow
    · simpa [heq, admitted] using h.evict hnow
    · simpa only [heq, admitted] using h.admission hnow hadmitted
  | dispatch now hnow =>
    obtain ⟨heq, -⟩ | ⟨i, e, hi, hready, heq⟩ := dispatch_cases now lane.admission
    · simpa [heq, Admission.dispatched] using h.later hnow
    · rw [heq]
      exact h.dispatch hnow hi hready
  | complete t =>
    obtain ⟨heq, -⟩ | ⟨i, e, hi, rfl, hflight, hopen, heq⟩ := complete_cases t lane.admission
    · simpa [heq, Admission.completed] using h
    · rw [heq]
      exact h.complete hi hopen

end Invariant

theorem Runs.invariant {log : List Event} {lane : Lane} (h : Runs log lane) :
    Invariant log lane.admission lane.now :=
  Tells.invariant (I := fun log lane => Invariant log lane.admission lane.now) h .start
    fun _ _ _ _ hinv hstep => hinv.step hstep

/-! ## The lane -/

section Lane

variable {log : List Event} {lane : Lane}

/-- A dispatched ticket that has not been completed. -/
def Outstanding (log : List Event) (t : Ticket) : Prop := (∃ r, .dispatched t r ∈ log) ∧ .completed t ∉ log

/-- An identity is free again only when its deadline has passed and it is not in flight. -/
theorem Invariant.readmitted (h : Invariant log s now) {later : ℕ} (hlater : now ≤ later) {r' : Request}
    {t' : Ticket} (hmem : .admitted r t ∈ log) (howner : r'.owner = r.owner) (hnonce : r'.nonce = r.nonce)
    (hok : (s.admitRequest r' later).1 = .ok t') :
    r.deadline < later ∧ ∀ i e, s.entries i = some e → e.ticket i = t → e.inFlight = false := by
  obtain ⟨e, heq | heq⟩ | ⟨t₁, s', heq, hadmitted⟩ := admitRequest_cases r' later s
  · rw [heq] at hok
    cases hok
  · rw [heq] at hok
    cases hok
  have hev := h.evict hlater
  constructor
  · by_contra hdeadline
    obtain ⟨i, e, hi, -, rfl⟩ := hev.stored r t hmem (Nat.le_of_not_lt hdeadline)
    exact hadmitted.fresh i e hi howner.symm hnonce.symm
  · intro i e hi ht
    by_contra hflight
    obtain ⟨hreq, -⟩ := h.once _ _ _ _ (h.known i e hi) hmem (congrArg Ticket.generation ht)
    subst hreq
    exact hadmitted.fresh i e (evicted_entries.mpr ⟨hi, .inl (by simpa using hflight)⟩) howner.symm hnonce.symm

/-- An entry in flight stays until its own ticket is completed. -/
theorem carries {events : List Event} {lane' : Lane}
    (hstep : Lane.Step lane events lane') {i : Fin queueCapacity} {e : Entry}
    (hi : lane.admission.entries i = some e) (hflight : e.inFlight = true) :
    lane'.admission.entries i = some e ∨ events = [.completed (e.ticket i)] := by
  cases hstep with
  | admission r now hnow =>
    have hev : (lane.admission.evicted now).entries i = some e := evicted_entries.mpr ⟨hi, .inl hflight⟩
    left
    obtain ⟨_, heq | heq⟩ | ⟨t, s', heq, hadmitted⟩ := admitRequest_cases r now lane.admission
    · rwa [heq]
    · rwa [heq]
    · rw [heq]
      obtain ⟨k, -, hempty, rfl⟩ := hadmitted.slot
      refine Invariant.update_eq_some.mpr (.inr ⟨?_, hev⟩)
      rintro rfl
      cases hempty.symm.trans hev
  | dispatch now hnow =>
    left
    obtain ⟨heq, -⟩ | ⟨k, e', hk, hready, heq⟩ := dispatch_cases now lane.admission
    · rwa [heq]
    · rw [heq]
      refine Invariant.update_eq_some.mpr (.inr ⟨?_, hi⟩)
      rintro rfl
      cases hi.symm.trans hk
      exact absurd hready.waiting (by rw [hflight]; decide)
  | complete t =>
    obtain ⟨heq, -⟩ | ⟨k, e', hk, rfl, -, -, heq⟩ := complete_cases t lane.admission
    · exact .inl (by rwa [heq])
    · rw [heq]
      by_cases hki : i = k
      · subst hki
        cases hi.symm.trans hk
        exact .inr rfl
      · exact .inl (Invariant.update_eq_some.mpr (.inr ⟨hki, hi⟩))

/-- A ticket completes the request that it was dispatched with, if that is outstanding. -/
theorem Invariant.completes (h : Invariant log s now) (hout : Outstanding log t) :
    ∃ i e, s.entries i = some e ∧ e.ticket i = t ∧ (∀ r, .dispatched t r ∈ log → e.request = r) ∧
      s.complete t = (.ok (), { s with
        entries := Function.update s.entries i (some { e with inFlight := false, completed := true }) }) := by
  obtain ⟨⟨r, hdispatched⟩, hopen⟩ := hout
  obtain ⟨-, hdone | ⟨i, e, hi, rfl, hflight⟩⟩ := h.dispatched t r hdispatched
  · exact absurd hdone hopen
  obtain ⟨-, hstale⟩ | ⟨k, e', hk, hticket, -, -, heq⟩ := complete_cases (e.ticket i) s
  · obtain hwaiting | hcompleted := hstale i e hi rfl
    · rw [hflight] at hwaiting
      cases hwaiting
    · rw [h.flags i e hi hflight] at hcompleted
      cases hcompleted
  · have hki : k = i := h.ticket_inj hk hi (congrArg Ticket.generation hticket)
    subst hki
    cases hi.symm.trans hk
    refine ⟨k, e, hi, rfl, fun r' hr' => ?_, heq⟩
    exact (h.once _ _ _ _ (h.known k e hi) (h.dispatched _ r' hr').1 rfl).1

/-- Every other ticket completes nothing. -/
theorem Invariant.stale (h : Invariant log s now) (hout : ¬Outstanding log t) :
    s.complete t = (.error .invalidTicket, s) := by
  obtain ⟨heq, -⟩ | ⟨i, e, hi, rfl, hflight, hopen, -⟩ := complete_cases t s
  · exact heq
  · exact absurd ⟨⟨_, h.running i e hi hflight⟩, h.waiting i e hi hopen⟩ hout

/-- A request is dispatched exactly when one is ready. -/
theorem dispatch_isSome (s : Admission) (now : ℕ) :
    (s.dispatch now).1.isSome ↔ ∃ i e, s.entries i = some e ∧ s.Ready now e := by
  obtain ⟨heq, hnone⟩ | ⟨i, e, hi, hready, heq⟩ := dispatch_cases now s
  · rw [heq]
    simpa using hnone
  · rw [heq]
    exact ⟨fun _ => ⟨i, e, hi, hready⟩, fun _ => rfl⟩

/-- A state that differs by expired entries that were not in flight. -/
structure Evicts (s : Admission) (now : ℕ) (s' : Admission) : Prop where
  generation : s'.generation = s.generation
  cursor : s'.cursor = s.cursor
  entries : ∀ i, s'.entries i = s.entries i ∨ s'.entries i = none ∧
    ∃ e, s.entries i = some e ∧ e.inFlight = false ∧ e.request.deadline < now

theorem evicts_evicted (s : Admission) (now : ℕ) : Evicts s now (s.evicted now) where
  generation := rfl
  cursor := rfl
  entries i := by
    cases hi : s.entries i with
    | none => exact .inl (by simp [evicted, hi])
    | some e =>
      by_cases hkeep : e.inFlight = true ∨ now ≤ e.request.deadline
      · exact .inl (evicted_entries.mpr ⟨hi, hkeep⟩)
      · simp only [not_or, Bool.not_eq_true, Nat.not_le] at hkeep
        refine .inr ⟨?_, e, rfl, hkeep⟩
        simp [evicted, hi, hkeep.1, hkeep.2]

theorem evicts_refl (s : Admission) (now : ℕ) : Evicts s now s := ⟨rfl, rfl, fun _ => .inl rfl⟩

/-- A refused request changes nothing but the expired entries. -/
theorem evicts_of_error {e : Error} (h : (s.admitRequest r now).1 = .error e) :
    Evicts s now (s.admitRequest r now).2 := by
  obtain ⟨e', heq | heq⟩ | ⟨t', s', heq, -⟩ := admitRequest_cases r now s
  · rw [heq]
    exact evicts_refl s now
  · rw [heq]
    exact evicts_evicted s now
  · rw [heq] at h
    cases h

/-- The admission lane, over all runs. -/
theorem admission_lane (h : Runs log lane) :
    (∀ i k e e', i ≠ k → lane.admission.entries i = some e → lane.admission.entries k = some e' →
      e.inFlight = true → e'.inFlight = true → ¬e.request.Conflicts e'.request) ∧
    (∀ i k e e', lane.admission.entries i = some e → lane.admission.entries k = some e' →
      e.request.owner = e'.request.owner → e.request.nonce = e'.request.nonce → i = k) ∧
    (∀ r t r' t' now, .admitted r t ∈ log → lane.now ≤ now → r'.owner = r.owner → r'.nonce = r.nonce →
      (lane.admission.admitRequest r' now).1 = .ok t' → r.deadline < now ∧
        ∀ i e, lane.admission.entries i = some e → e.ticket i = t → e.inFlight = false) ∧
    (∀ events lane', Lane.Step lane events lane' → ∀ i e, lane.admission.entries i = some e →
      e.inFlight = true → lane'.admission.entries i = some e ∨ events = [.completed (e.ticket i)]) ∧
    (∀ owner, (Finset.univ.filter fun i => ∃ e, lane.admission.entries i = some e ∧
      e.request.owner = owner ∧ e.completed = false).card ≤ ownerCapacity) ∧
    (∀ t, log.count (.completed t) ≤ 1) ∧
    (∀ t, Outstanding log t → ∃ i e, lane.admission.entries i = some e ∧ e.ticket i = t ∧
      (∀ r, .dispatched t r ∈ log → e.request = r) ∧
      lane.admission.complete t = (.ok (), { lane.admission with
        entries := Function.update lane.admission.entries i
          (some { e with inFlight := false, completed := true }) })) ∧
    (∀ t, ¬Outstanding log t → lane.admission.complete t = (.error .invalidTicket, lane.admission)) ∧
    (∀ now, (lane.admission.dispatch now).1.isSome ↔
      ∃ i e, lane.admission.entries i = some e ∧ lane.admission.Ready now e) ∧
    (∀ now, (lane.admission.dispatch now).1 = none → (lane.admission.dispatch now).2 = lane.admission) ∧
    (∀ r now e, (lane.admission.admitRequest r now).1 = .error e →
      Evicts lane.admission now (lane.admission.admitRequest r now).2) := by
  have hinv := h.invariant
  refine ⟨hinv.free, hinv.unique, ?_, ?_, hinv.limit, hinv.completed, fun t => hinv.completes,
    fun t => hinv.stale, dispatch_isSome lane.admission, ?_, fun r now e => evicts_of_error⟩
  · intro r t r' t' now hmem hnow howner hnonce hok
    exact hinv.readmitted hnow hmem howner hnonce hok
  · intro events lane' hstep i e hi hflight
    exact carries hstep hi hflight
  · intro now hnone
    obtain ⟨heq, -⟩ | ⟨i, e, -, -, heq⟩ := dispatch_cases now lane.admission
    · rw [heq]
    · rw [heq] at hnone
      cases hnone

/-- A request of the tests. -/
def exampleRequest (owner : ℕ) (writeResources : Resources) : Request :=
  ⟨Key.ofNat owner, 1, 0, writeResources, 100⟩

/-- The lane after its first request has been dispatched. -/
def exampleLane : Lane :=
  ⟨((({} : Admission).admitRequest (exampleRequest 1 1) 1).2.dispatch 1).2, 1⟩

/-- The first ticket completes after its dispatch. -/
theorem admission_lane_example : (exampleLane.admission.complete ⟨0, 1⟩).1 = .ok () := by
  have hadmission := Lane.Step.admission ⟨{}, 0⟩ (exampleRequest 1 1) 1 (Nat.zero_le 1)
  have hdispatch := Lane.Step.dispatch ⟨(({} : Admission).admitRequest (exampleRequest 1 1) 1).2, 1⟩ 1 le_rfl
  have hfirst : admitted (exampleRequest 1 1) (({} : Admission).admitRequest (exampleRequest 1 1) 1).1 =
      [.admitted (exampleRequest 1 1) ⟨0, 1⟩] := by decide +kernel
  have hsecond :
      dispatched ((({} : Admission).admitRequest (exampleRequest 1 1) 1).2.dispatch 1).1 =
        [.dispatched ⟨0, 1⟩ (exampleRequest 1 1)] := by decide +kernel
  dsimp only at hadmission hdispatch
  rw [hfirst] at hadmission
  rw [hsecond] at hdispatch
  have hrun : Runs [.admitted (exampleRequest 1 1) ⟨0, 1⟩, .dispatched ⟨0, 1⟩ (exampleRequest 1 1)]
      exampleLane := (Tells.single hadmission).tail hdispatch
  obtain ⟨-, -, -, -, -, -, hcompletes, -⟩ := admission_lane hrun
  obtain ⟨i, e, -, -, -, heq⟩ := hcompletes ⟨0, 1⟩ ⟨⟨exampleRequest 1 1, by simp⟩, by simp⟩
  rw [heq]

end Lane

end StockMesh.Admission

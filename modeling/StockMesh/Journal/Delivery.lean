import StockMesh.Journal.Entries

/-! # Safety of the sender

Over all runs of the sender, with any answers of the node and crashes between any two effects. Each
transmission has an attempt of its own on the disk, so that an entry is sent at most `maxAttempts` times,
and an outcome is recorded only after a final status (`sender_safety`). -/

namespace StockMesh.Journal

open Host (Answer Value Rpc)

variable {τ : Type} {codec : Codec τ} {signing : Signing} {maxAttempts : ℕ} {log more : List (Event τ)}

/-! ## Histories -/

/-- How many requests of an identity have left. -/
def transmissions (log : List (Event τ)) (id : String) : ℕ :=
  log.countP fun
    | .transmitted t => t.id = id
    | _ => false

/-- How many attempts of an identity have been recorded. -/
def recordings (log : List (Event τ)) (id : String) : ℕ :=
  log.countP fun
    | .recorded e => e.id = id
    | _ => false

theorem transmissions_append (id : String) :
    transmissions (log ++ more) id = transmissions log id + transmissions more id := List.countP_append

theorem recordings_append (id : String) :
    recordings (log ++ more) id = recordings log id + recordings more id := List.countP_append

@[simp] theorem transmissions_transmitted (t : Transmission) (id : String) :
    transmissions ([.transmitted t] : List (Event τ)) id = if t.id = id then 1 else 0 := by
  simp [transmissions, List.countP_cons]

@[simp] theorem recordings_transmitted (t : Transmission) (id : String) :
    recordings ([.transmitted t] : List (Event τ)) id = 0 := by simp [recordings]

@[simp] theorem transmissions_recorded (l : List (Entry τ × ℕ)) (id : String) :
    transmissions (l.map fun x => .recorded x.1) id = 0 := by
  simp [transmissions, List.countP_eq_zero]

theorem recordings_recorded (l : List (Entry τ × ℕ)) (id : String) :
    recordings (l.map fun x => .recorded x.1) id = (l.map fun x => x.1.id).count id := by
  simp only [recordings, List.countP_map, List.count, Function.comp_def]
  exact List.countP_congr fun x _ => by simp

@[simp] theorem transmissions_nil (id : String) : transmissions ([] : List (Event τ)) id = 0 := rfl

@[simp] theorem recordings_nil (id : String) : recordings ([] : List (Event τ)) id = 0 := rfl

/-- Events that are no attempt and no request. -/
def Quiet (events : List (Event τ)) : Prop :=
  ∀ id, transmissions events id = 0 ∧ recordings events id = 0

theorem Quiet.nil : Quiet ([] : List (Event τ)) := fun _ => ⟨rfl, rfl⟩

theorem Quiet.inserted (l : List (Entry τ)) : Quiet (l.map .inserted) := fun id => by
  simp [transmissions, recordings, List.countP_eq_zero]

theorem Quiet.read (allowSend : Bool) (b : Batch τ) : Quiet [.read allowSend b] := fun _ => ⟨rfl, rfl⟩

theorem Quiet.returned (phases : List Phase) : Quiet ([.returned phases] : List (Event τ)) :=
  fun _ => ⟨rfl, rfl⟩

/-- A batch has read a final status of an identity. -/
def Witnessed (log : List (Event τ)) (failed : Bool) (id : String) : Prop :=
  ∃ allowSend b status, .read allowSend b ∈ log ∧ (id, status) ∈ b.statuses ∧ Final failed status

theorem Witnessed.append {failed : Bool} {id : String} (h : Witnessed log failed id) :
    Witnessed (log ++ more) failed id := by
  obtain ⟨allowSend, b, status, hread, hstatus⟩ := h
  exact ⟨allowSend, b, status, List.mem_append_left _ hread, hstatus⟩

/-- Where an entry comes from, and what its outcome rests on. -/
structure Settled (log : List (Event τ)) (e : Entry τ) : Prop where
  inserted : ∃ e₀, .inserted e₀ ∈ log ∧ e = { e₀ with phase := e.phase, attempts := e.attempts }
  failed : e.phase = .failed → Witnessed log true e.id
  finalized : e.phase = .finalized ∨ e.phase = .reconciled → Witnessed log false e.id

theorem Settled.append {e : Entry τ} (h : Settled log e) : Settled (log ++ more) e where
  inserted := by
    obtain ⟨e₀, hmem, heq⟩ := h.inserted
    exact ⟨e₀, List.mem_append_left _ hmem, heq⟩
  failed hp := (h.failed hp).append
  finalized hp := (h.finalized hp).append

/-- A later state is settled if its update rests on a final status. -/
theorem Settled.revises {j : Journal τ} {u : Update} {old e : Entry τ} (h : Settled log old)
    (hrevises : u.Revises j old e) (hfailed : u.phase = .failed → Witnessed log true u.id)
    (hfinalized : u.phase = .finalized → Witnessed log false u.id) : Settled log e where
  inserted := by
    obtain ⟨e₀, hmem, heq⟩ := h.inserted
    refine ⟨e₀, hmem, ?_⟩
    rw [hrevises.follows.same, heq]
  failed hp := hrevises.id ▸ hfailed (hrevises.phase ▸ hp)
  finalized hp := by
    obtain hp | hp := hp
    · exact hrevises.id ▸ hfinalized (hrevises.phase ▸ hp)
    · have hid : e.id = old.id := hrevises.follows.id
      exact hid ▸ h.finalized (.inl (hrevises.follows.advances.2.2 hp))

/-- What has come before an attempt of `e` is sent. -/
structure Announced (log : List (Event τ)) (e : Entry τ) : Prop where
  active : e.phase.active = true
  inserted : ∃ e₀, .inserted e₀ ∈ log ∧ e = { e₀ with phase := e.phase, attempts := e.attempts }
  /-- The last batch may send, the node does not know the entry there and its time has not passed; after
  these reads the attempt is recorded. -/
  batch : ∃ before b after, log = before ++ .read true b :: after ∧
    (∀ allowSend b', .read allowSend b' ∉ after) ∧ .recorded e ∈ after ∧
    (e.id, .null) ∈ b.statuses ∧ ∃ h, b.height = some h ∧ h ≤ e.lastValidHeight

theorem Announced.append {e : Entry τ} (h : Announced log e)
    (hmore : ∀ allowSend b, .read allowSend b ∉ more) : Announced (log ++ more) e where
  active := h.active
  inserted := by
    obtain ⟨e₀, hmem, heq⟩ := h.inserted
    exact ⟨e₀, List.mem_append_left _ hmem, heq⟩
  batch := by
    obtain ⟨before, b, after, rfl, hafter, hrecorded, hrest⟩ := h.batch
    refine ⟨before, b, after ++ more, by simp, fun allowSend b' hmem => ?_,
      List.mem_append_left _ hrecorded, hrest⟩
    exact (List.mem_append.mp hmem).elim (hafter allowSend b') (hmore allowSend b')

/-! ## Steps and the journal -/

/-- The store of a sender. -/
def Process.store : Process τ → Store τ
  | .down file => .down file
  | .idle j | .ready j _ | .sending j _ => .running j

theorem Process.store_of_journal {p : Process τ} {j : Journal τ} (h : p.journal = some j) :
    p.store = .running j := by
  cases p with
  | down file => cases h
  | idle j' | ready j' b | sending j' s =>
    cases h
    rfl

/-- A step of the sender is some calls on its journal. -/
theorem Process.Step.steps {p p' : Process τ} {events : List (Event τ)}
    (h : Process.Step codec signing maxAttempts p events p') :
    Relation.ReflTransGen (Store.Step codec) p.store p'.store := by
  have hreceipt : ∀ (j : Journal τ) io id checked, Relation.ReflTransGen (Store.Step codec)
      (.running j) (.running (j.recordReceipt codec io id checked).2) := by
    intro j io id checked
    obtain ⟨updates, hsame, -⟩ := @recordReceipt_snd _ codec j io id checked
    rw [hsame]
    exact commit_steps j io updates
  have hcommit : ∀ {j j' : Journal τ} {io updates} {result : Answer Unit},
      j.commit codec io updates = (result, j') →
      Relation.ReflTransGen (Store.Step codec) (.running j) (.running j') := by
    intro j j' io updates result h
    have hsteps := @commit_steps _ codec j io updates
    rwa [h] at hsteps
  cases h with
  | opened file capacity maxBytes j h => exact .single (.opened file capacity maxBytes j h)
  | cut file capacity s h => exact .single (.cut file capacity s h)
  | crashed p j h =>
    rw [store_of_journal h]
    exact .single (.crashed j)
  | inserted j pending io => exact .single (.called j (.insert pending io))
  | compacted j io => exact .single (.called j (.compact io))
  | reconciledBasket j fetch io id => exact hreceipt j io id _
  | reconciledExposure j fetch io id => exact hreceipt j io id _
  | reconciledSwap j fetch io id => exact hreceipt j io id _
  | read | spawned | transmitted | lost | joined => exact .refl
  | recorded j b io j' h => exact hcommit h
  | unrecorded j b io message j' h => exact hcommit h
  | acknowledged j s io j' hlater hchunk h => exact hcommit h
  | unacknowledged j s io message j' hlater hchunk h => exact hcommit h

theorem Entry.Becomes.attempts {old e : Entry τ} (h : old.Becomes e) : old.attempts ≤ e.attempts := by
  induction h with
  | refl => exact le_rfl
  | tail _ hstep ih => exact ih.trans hstep.attempts.1

/-! ## The invariant -/

/-- The entry of a thread that has not sent yet. -/
def unsent (x : (Entry τ × ℕ) × Option Bool) : Option (Entry τ) :=
  if x.2.isNone then some x.1.1 else none

/-- The threads that have not sent yet, and the chunks to come. -/
def Sending.pending (s : Sending τ) : List (Entry τ) :=
  s.later.map Prod.fst ++ s.chunk.filterMap unsent

/-- What a batch that is sending may still send. -/
structure Sending.Pending (log : List (Event τ)) (j : Journal τ) (s : Sending τ) : Prop where
  nodup : (s.pending.map Entry.id).Nodup
  journaled : ∀ e ∈ s.pending, { e with phase := .unknown, attempts := e.attempts + 1 } ∈ j.entries
  announced : ∀ e ∈ s.pending, Announced log e
  fewer : ∀ e ∈ s.pending, transmissions log e.id < recordings log e.id
  clean : s.pending ≠ [] → j.poisoned = false
  submitted : ∀ u ∈ s.acknowledged, u.phase = .submitted

/-- What holds between two effects of a batch. -/
def Process.Stage (maxAttempts : ℕ) (log : List (Event τ)) : Process τ → Prop
  | .down _ | .idle _ => True
  | .ready j b => ∃ allowSend before, log = before ++ [.read allowSend b] ∧
      b.Decided maxAttempts allowSend j
  | .sending j s => s.Pending log j

/-- The recorded attempts of an identity are those of its entry. -/
def Spent (codec : Codec τ) (maxAttempts : ℕ) (log : List (Event τ)) (s : Store τ) : Prop :=
  ∀ id, 0 < recordings log id → ∃ e : Entry τ, e.id = id ∧ recordings log id ≤ e.attempts ∧
    e.attempts ≤ maxAttempts ∧ s.Carries codec e

/-- What holds of every run. -/
structure Process.Safe (codec : Codec τ) (maxAttempts : ℕ) (log : List (Event τ)) (p : Process τ) :
    Prop where
  settled : p.store.All codec (Settled log)
  spent : Spent codec maxAttempts log p.store
  sent : ∀ id, transmissions log id ≤ recordings log id
  stage : p.Stage maxAttempts log

theorem Spent.of_quiet {s s' : Store τ} (h : Spent codec maxAttempts log s) (hquiet : Quiet more)
    (hsteps : Relation.ReflTransGen (Store.Step codec) s s') (hinv : s.Invariant codec) :
    Spent codec maxAttempts (log ++ more) s' := by
  intro id hpos
  rw [recordings_append, (hquiet id).2, Nat.add_zero] at hpos ⊢
  obtain ⟨e, hid, hle, hmax, hcarries⟩ := h id hpos
  exact ⟨e, hid, hle, hmax, (carries_of_steps hsteps hinv hcarries).2⟩

/-- The attempts of a journaled entry are at least the recorded ones. -/
theorem Spent.le_attempts {j : Journal τ} {e : Entry τ} (h : Spent codec maxAttempts log (.running j))
    (he : e ∈ j.entries) : recordings log e.id ≤ e.attempts := by
  obtain hzero | hpos := Nat.eq_zero_or_pos (recordings log e.id)
  · omega
  · obtain ⟨e₀, hid, hle, -, e', he', hbecomes⟩ := h e.id hpos
    have hsame : e'.id = e₀.id := by rw [hbecomes.kept.1]
    obtain rfl := Table.eq_of_key he' he (hsame.trans hid)
    exact hle.trans hbecomes.attempts

theorem sent_of_quiet (h : ∀ id, transmissions log id ≤ recordings log id) (hquiet : Quiet more) :
    ∀ id, transmissions (log ++ more) id ≤ recordings (log ++ more) id := by
  intro id
  rw [transmissions_append, recordings_append, (hquiet id).1, (hquiet id).2]
  exact h id

/-! ## Steps keep the invariant -/

/-- What an insertion appends is prepared. -/
theorem Call.handed_insert {j : Journal τ} {pending : List (Entry τ)} {io : Flush} {e : Entry τ}
    (h : e ∈ (Call.insert pending io).handed codec j) : e.phase = .prepared := by
  cases hgranted : j.admitBatch codec pending with
  | error message =>
    simp only [Call.handed, hgranted] at h
    cases h
  | ok u =>
    simp only [Call.handed, hgranted] at h
    simp only [admitBatch, bind_eq_ok, refuse_eq_ok] at hgranted
    obtain ⟨_, -, _, -, taken, hfold, -⟩ := hgranted
    obtain hnone | hall := @staged_eq _ codec j pending
    · rw [hnone] at h
      cases h
    · exact ((foldlM_admitEntry hfold).1 e (hall ▸ h)).phase

/-- All entries stay settled. -/
theorem Process.Step.settled {p p' : Process τ} {events : List (Event τ)}
    (h : Process.Step codec signing maxAttempts p events p')
    (hall : p.store.All codec (Settled log)) (hstage : p.Stage maxAttempts log) :
    p'.store.All codec (Settled (log ++ events)) := by
  have hkept : p.store.All codec (Settled (log ++ events)) := hall.mono fun e he => he.append
  have hreceipt : ∀ (j : Journal τ) io id checked,
      (Store.running j).All codec (Settled (log ++ events)) →
      (Store.running (j.recordReceipt codec io id checked).2).All codec (Settled (log ++ events)) := by
    intro j io id checked hj
    obtain ⟨updates, hsame, hreconciled⟩ := @recordReceipt_snd _ codec j io id checked
    rw [hsame]
    refine hj.commit io updates fun u hu old e hrevises hold => hold.revises hrevises ?_ ?_
    · exact fun hp => by cases (hreconciled u hu).symm.trans hp
    · exact fun hp => by cases (hreconciled u hu).symm.trans hp
  -- the outcomes of a batch are told by its statuses
  have hdecided : ∀ (j : Journal τ) b io, (Process.ready j b).Stage maxAttempts log →
      (Store.running j).All codec (Settled (log ++ events)) →
      (Store.running (j.commit codec io b.updates).2).All codec (Settled (log ++ events)) := by
    rintro j b io ⟨allowSend, before, hlog, hdecided⟩ hj
    have hread : .read allowSend b ∈ log := by
      rw [hlog]
      exact List.mem_append_right _ (List.mem_singleton_self _)
    refine hj.commit io b.updates fun u hu old e hrevises hold => hold.revises hrevises ?_ ?_
    · intro hp
      obtain ⟨status, hmem, hfinal⟩ := (hdecided.told u hu).failed hp
      exact Witnessed.append ⟨allowSend, b, status, hread, hmem, hfinal⟩
    · intro hp
      obtain ⟨status, hmem, hfinal⟩ := (hdecided.told u hu).finalized hp
      exact Witnessed.append ⟨allowSend, b, status, hread, hmem, hfinal⟩
  have hsubmitted : ∀ (j : Journal τ) (s : Sending τ) io, s.Pending log j →
      (Store.running j).All codec (Settled (log ++ events)) →
      (Store.running (j.commit codec io s.acknowledged).2).All codec (Settled (log ++ events)) := by
    intro j s io hs hj
    refine hj.commit io s.acknowledged fun u hu old e hrevises hold => hold.revises hrevises ?_ ?_
    · exact fun hp => by cases (hs.submitted u hu).symm.trans hp
    · exact fun hp => by cases (hs.submitted u hu).symm.trans hp
  cases h with
  | opened file capacity maxBytes j h => exact hkept.opened h
  | cut file capacity s h => exact hkept.cut h
  | crashed p j h =>
    rw [store_of_journal h] at hkept
    exact hkept.crashed
  | inserted j pending io =>
    refine hkept.call (.insert pending io) fun e he => ⟨?_, fun hp => ?_, fun hp => ?_⟩
    · exact ⟨e, List.mem_append_right _ (List.mem_map.mpr ⟨e, he, rfl⟩), rfl⟩
    · cases (Call.handed_insert he).symm.trans hp
    · obtain hp | hp := hp <;> cases (Call.handed_insert he).symm.trans hp
  | compacted j io => exact hkept.call (.compact io) fun e he => absurd he List.not_mem_nil
  | reconciledBasket j fetch io id => exact hreceipt j io id _ hkept
  | reconciledExposure j fetch io id => exact hreceipt j io id _ hkept
  | reconciledSwap j fetch io id => exact hreceipt j io id _ hkept
  | read | spawned | transmitted | lost | joined => exact hkept
  | recorded j b io j' h =>
    have hcommit := hdecided j b io hstage hkept
    rwa [h] at hcommit
  | unrecorded j b io message j' h =>
    have hcommit := hdecided j b io hstage hkept
    rwa [h] at hcommit
  | acknowledged j s io j' hlater hchunk h =>
    have hcommit := hsubmitted j s io hstage hkept
    rwa [h] at hcommit
  | unacknowledged j s io message j' hlater hchunk h =>
    have hcommit := hsubmitted j s io hstage hkept
    rwa [h] at hcommit

/-- The journal after the attempts of a batch are recorded. -/
theorem Batch.Decided.recorded {allowSend : Bool} {j j' : Journal τ} {b : Batch τ} {io : Flush}
    (hb : b.Decided maxAttempts allowSend j) (hinv : (Store.running j).Invariant codec)
    (h : j.commit codec io b.updates = (.ok (), j')) :
    (∀ x ∈ b.sends, { x.1 with phase := .unknown, attempts := x.1.attempts + 1 } ∈ j'.entries) ∧
      (b.sends ≠ [] → j'.poisoned = false) := by
  obtain ⟨records, torn, hvalid⟩ := hinv
  obtain ⟨hrevised, hclean⟩ := commit_eq_ok hvalid h
  refine ⟨fun x hx => ?_, fun hne => hclean ?_⟩
  · obtain ⟨e, he, old, hrevises⟩ := hrevised _ (hb.sends x hx).update
    -- the update revises the entry that the batch read
    have hold : old = x.1 :=
      Table.eq_of_key hrevises.journaled (hb.sends x hx).journaled
        (hrevises.follows.id.symm.trans hrevises.id)
    have hsame := hrevises.follows.same
    rw [hrevises.phase, hrevises.attempts, hold] at hsame
    exact hsame ▸ he
  · obtain ⟨x, hx⟩ := List.exists_mem_of_ne_nil _ hne
    exact List.ne_nil_of_mem (hb.sends x hx).update

theorem count_sends {l : List (Entry τ × ℕ)} (hnodup : (l.map fun x => x.1.id).Nodup) {x : Entry τ × ℕ}
    (hx : x ∈ l) : (l.map fun x => x.1.id).count x.1.id = 1 :=
  List.count_eq_one_of_mem hnodup (List.mem_map.mpr ⟨x, hx, rfl⟩)

/-- The recorded attempts stay those of the entries. -/
theorem Process.Step.spent {p p' : Process τ} {events : List (Event τ)}
    (h : Process.Step codec signing maxAttempts p events p') (hp : p.Safe codec maxAttempts log) :
    Spent codec maxAttempts (log ++ events) p'.store := by
  have hinv := hp.settled.invariant
  have hsteps := h.steps
  have hquiet : Quiet events → Spent codec maxAttempts (log ++ events) p'.store := fun hquiet =>
    hp.spent.of_quiet hquiet hsteps hinv
  cases h with
  | inserted j pending io => exact hquiet (.inserted _)
  | read j rpc allowSend ids b h => exact hquiet (.read _ _)
  | acknowledged j s io j' hlater hchunk h => exact hquiet (.returned _)
  | transmitted j s i x response h =>
    intro id hpos
    rw [recordings_append, recordings_transmitted, Nat.add_zero] at hpos ⊢
    exact hp.spent id hpos
  | recorded j b io j' h =>
    obtain ⟨allowSend, before, hlog, hdecided⟩ := hp.stage
    obtain ⟨hjournaled, -⟩ := hdecided.recorded hinv h
    intro id hpos
    rw [recordings_append, recordings_recorded] at hpos ⊢
    by_cases hmem : id ∈ b.sends.map fun x => x.1.id
    · obtain ⟨x, hx, rfl⟩ := List.mem_map.mp hmem
      have hle := hp.spent.le_attempts (hdecided.sends x hx).journaled
      have hfewer := (hdecided.sends x hx).fewer
      rw [count_sends hdecided.nodup hx]
      exact ⟨{ x.1 with phase := .unknown, attempts := x.1.attempts + 1 }, rfl,
        Nat.add_le_add_right hle 1, hfewer, _, hjournaled x hx, .refl⟩
    · rw [List.count_eq_zero.mpr hmem, Nat.add_zero] at hpos ⊢
      obtain ⟨e, hid, hle, hmax, hcarries⟩ := hp.spent id hpos
      exact ⟨e, hid, hle, hmax, (carries_of_steps hsteps hinv hcarries).2⟩
  | _ => exact hquiet .nil

/-- A thread that is done is no longer pending. -/
theorem filterMap_set_perm {α β : Type} (f : α → Option β) {l : List α} {i : ℕ} {a c : α} {b : β}
    (hget : l[i]? = some a) (ha : f a = some b) (hc : f c = none) :
    (l.filterMap f).Perm (b :: (l.set i c).filterMap f) := by
  induction l generalizing i with
  | nil => cases hget
  | cons x l ih =>
    cases i with
    | zero =>
      cases hget
      rw [List.set_cons_zero, List.filterMap_cons_some ha, List.filterMap_cons_none hc]
    | succ i =>
      rw [List.getElem?_cons_succ] at hget
      rw [List.set_cons_succ]
      cases hx : f x with
      | none =>
        rw [List.filterMap_cons_none hx, List.filterMap_cons_none hx]
        exact ih hget
      | some y =>
        rw [List.filterMap_cons_some hx, List.filterMap_cons_some hx]
        exact ((ih hget).cons y).trans (.swap b y _)

theorem Sending.pending_set {s : Sending τ} {i : ℕ} {x : Entry τ × ℕ}
    (h : s.chunk[i]? = some (x, none)) (result : Bool) :
    s.pending.Perm (x.1 :: { s with chunk := s.chunk.set i (x, some result) }.pending) := by
  have hunsent : unsent (x, none) = some x.1 := rfl
  have hdone : unsent (x, some result) = none := rfl
  exact ((filterMap_set_perm unsent h hunsent hdone).append_left _).trans List.perm_middle

/-- Fewer pending entries, and the same history. -/
theorem Sending.Pending.of_subperm {j : Journal τ} {s s' : Sending τ} (h : s.Pending log j)
    (hsub : s'.pending.Subperm s.pending) (hsubmitted : ∀ u ∈ s'.acknowledged, u.phase = .submitted) :
    s'.Pending log j where
  nodup := by
    obtain ⟨l, hperm, hl⟩ := hsub
    exact (hperm.map Entry.id).nodup_iff.mp ((hl.map Entry.id).nodup h.nodup)
  journaled e he := h.journaled e (hsub.subset he)
  announced e he := h.announced e (hsub.subset he)
  fewer e he := h.fewer e (hsub.subset he)
  clean hne := by
    obtain ⟨e, he⟩ := List.exists_mem_of_ne_nil _ hne
    exact h.clean (List.ne_nil_of_mem (hsub.subset he))
  submitted := hsubmitted

theorem Sending.foldl_joinThread (l : List ((Entry τ × ℕ) × Option Bool)) (s : Sending τ)
    (hs : ∀ u ∈ s.acknowledged, u.phase = .submitted) :
    (l.foldl joinThread s).later = s.later ∧ (l.foldl joinThread s).chunk = s.chunk ∧
      ∀ u ∈ (l.foldl joinThread s).acknowledged, u.phase = .submitted := by
  induction l generalizing s with
  | nil => exact ⟨rfl, rfl, hs⟩
  | cons x l ih =>
    rw [List.foldl_cons]
    have hstep : (s.joinThread x).later = s.later ∧ (s.joinThread x).chunk = s.chunk ∧
        ∀ u ∈ (s.joinThread x).acknowledged, u.phase = .submitted := by
      unfold joinThread
      split
      · refine ⟨rfl, rfl, fun u hu => ?_⟩
        obtain hu | hu := List.mem_append.mp hu
        · exact hs u hu
        · rw [List.mem_singleton.mp hu]
      · exact ⟨rfl, rfl, hs⟩
    obtain ⟨hlater, hchunk, hsubmitted⟩ := ih _ hstep.2.2
    exact ⟨hlater.trans hstep.1, hchunk.trans hstep.2.1, hsubmitted⟩

/-- The stage of a batch follows its effects. -/
theorem Process.Step.stage {p p' : Process τ} {events : List (Event τ)}
    (h : Process.Step codec signing maxAttempts p events p') (hp : p.Safe codec maxAttempts log) :
    p'.Stage maxAttempts (log ++ events) := by
  have hinv := hp.settled.invariant
  cases h with
  | read j rpc allowSend ids b h => exact ⟨allowSend, log, rfl, prepareBatch_eq_ok h⟩
  | recorded j b io j' h =>
    obtain ⟨allowSend, before, hlog, hdecided⟩ := hp.stage
    obtain ⟨hjournaled, hclean⟩ := hdecided.recorded hinv h
    have hpending : (Sending.pending { later := b.sends, phases := b.phases }) =
        b.sends.map Prod.fst := List.append_nil _
    have hmem : ∀ e ∈ b.sends.map Prod.fst, ∃ x ∈ b.sends, x.1 = e := fun e he =>
      List.mem_map.mp he
    refine ⟨?_, ?_, ?_, ?_, ?_, fun u hu => absurd hu List.not_mem_nil⟩ <;> rw [hpending]
    · rw [List.map_map]
      exact hdecided.nodup
    · intro e he
      obtain ⟨x, hx, rfl⟩ := hmem e he
      exact hjournaled x hx
    · intro e he
      obtain ⟨x, hx, rfl⟩ := hmem e he
      obtain ⟨records, torn, hvalid, hentries, -⟩ := hp.settled
      have hsend := hdecided.sends x hx
      obtain ⟨e₀, hinserted, heq⟩ := (hentries _ hsend.journaled).inserted
      obtain rfl := hdecided.allowed (List.ne_nil_of_mem hx)
      refine ⟨hsend.active, ⟨e₀, List.mem_append_left _ hinserted, heq⟩, before, b,
        b.sends.map fun x => .recorded x.1, ?_, ?_, List.mem_map.mpr ⟨x, hx, rfl⟩, hsend.unknown,
        hsend.inTime⟩
      · rw [hlog, List.append_assoc, List.singleton_append]
      · intro allow b' hread
        obtain ⟨y, -, hy⟩ := List.mem_map.mp hread
        cases hy
    · intro e he
      obtain ⟨x, hx, rfl⟩ := hmem e he
      have hle := hp.sent x.1.id
      rw [transmissions_append, recordings_append, transmissions_recorded, recordings_recorded,
        count_sends hdecided.nodup hx]
      omega
    · exact fun hne => hclean fun hnone => hne (by rw [hnone]; rfl)
  | spawned j s h =>
    rw [List.append_nil]
    refine hp.stage.of_subperm (List.Perm.subperm ?_) hp.stage.submitted
    -- the next chunk is what the chunks to come begin with
    have hnew : ((s.later.take 4).map fun x => (x, (none : Option Bool))).filterMap unsent =
        (s.later.take 4).map Prod.fst := by
      rw [List.filterMap_map, ← List.filterMap_eq_map]
      rfl
    unfold Sending.pending
    rw [hnew, h, List.filterMap_nil, List.append_nil, ← List.map_append]
    exact (List.perm_append_comm.trans (.of_eq (List.take_append_drop 4 _))).map _
  | transmitted j s i x response h =>
    have hs : s.Pending log j := hp.stage
    have hperm := Sending.pending_set h (acknowledges x.1 response)
    have hnodup := (hperm.map Entry.id).nodup_iff.mp hs.nodup
    obtain ⟨hnew, -⟩ := List.nodup_cons.mp hnodup
    have hless : Sending.Pending log j
        { s with chunk := s.chunk.set i (x, some (acknowledges x.1 response)) } :=
      hs.of_subperm ((List.sublist_cons_self _ _).subperm.trans hperm.symm.subperm) hs.submitted
    refine ⟨hless.nodup, hless.journaled, fun e he => ?_, fun e he => ?_, hless.clean,
      hless.submitted⟩
    · exact (hless.announced e he).append fun allow b hread => by simp at hread
    · have hne : x.1.transmission.id ≠ e.id := fun hid => hnew (List.mem_map.mpr ⟨e, he, hid.symm⟩)
      rw [transmissions_append, recordings_append, transmissions_transmitted, recordings_transmitted,
        if_neg hne]
      exact hless.fewer e he
  | lost j s i x h =>
    rw [List.append_nil]
    have hs : s.Pending log j := hp.stage
    have hperm := Sending.pending_set h false
    exact hs.of_subperm ((List.sublist_cons_self _ _).subperm.trans hperm.symm.subperm) hs.submitted
  | joined j s h =>
    rw [List.append_nil]
    have hs : s.Pending log j := hp.stage
    obtain ⟨hlater, hchunk, hsubmitted⟩ :=
      Sending.foldl_joinThread s.chunk { s with chunk := [] } hs.submitted
    have hpending : s.join.pending = s.later.map Prod.fst := by
      unfold Sending.join Sending.pending
      rw [hlater, hchunk, List.filterMap_nil, List.append_nil]
    refine hs.of_subperm ?_ hsubmitted
    rw [hpending]
    exact (List.sublist_append_left _ _).subperm
  | _ => trivial

/-- Requests have recorded attempts. -/
theorem Process.Step.sent {p p' : Process τ} {events : List (Event τ)}
    (h : Process.Step codec signing maxAttempts p events p') (hp : p.Safe codec maxAttempts log) :
    ∀ id, transmissions (log ++ events) id ≤ recordings (log ++ events) id := by
  cases h with
  | inserted j pending io => exact sent_of_quiet hp.sent (.inserted _)
  | read j rpc allowSend ids b h => exact sent_of_quiet hp.sent (.read _ _)
  | acknowledged j s io j' hlater hchunk h => exact sent_of_quiet hp.sent (.returned _)
  | recorded j b io j' h =>
    intro id
    rw [transmissions_append, recordings_append, transmissions_recorded, Nat.add_zero]
    exact (hp.sent id).trans (Nat.le_add_right _ _)
  | transmitted j s i x response h =>
    intro id
    have hs : s.Pending log j := hp.stage
    have hmem : x.1 ∈ s.pending :=
      (Sending.pending_set h (acknowledges x.1 response)).mem_iff.mpr List.mem_cons_self
    rw [transmissions_append, recordings_append, transmissions_transmitted, recordings_transmitted]
    split
    · next hid =>
      have hfewer : transmissions log x.1.id < recordings log x.1.id := hs.fewer _ hmem
      have hid' : x.1.id = id := hid
      rw [hid'] at hfewer
      exact hfewer
    · exact hp.sent id
  | _ => exact sent_of_quiet hp.sent .nil

/-- Every run is safe. -/
theorem Delivers.safe {p : Process τ} (h : Delivers codec signing maxAttempts log p) :
    p.Safe codec maxAttempts log := by
  refine Tells.invariant h ?_ fun log p events p' hp hstep =>
    ⟨hstep.settled hp.settled hp.stage, hstep.spent hp, hstep.sent hp, hstep.stage hp⟩
  refine ⟨⟨[], [], ?_, Sound.empty, fun e he => absurd he List.not_mem_nil⟩,
    fun id hpos => absurd hpos (Nat.lt_irrefl 0), fun id => le_rfl, trivial⟩
  exact ⟨rfl, trivial, fun e he => absurd he List.not_mem_nil, torn_nil codec⟩

/-! ## The theorem -/

/-- The journal opens again to its entries. -/
def Durable (codec : Codec τ) (j : Journal τ) : Prop :=
  ∃ j', openJournal codec j.capacity j.maxBytes j.file = .ok j' ∧ j'.entries = j.entries

/-- A step that sends. -/
theorem Process.Safe.transmits {p p' : Process τ} {events : List (Event τ)}
    (hp : p.Safe codec maxAttempts log) (h : Process.Step codec signing maxAttempts p events p')
    {t : Transmission} (ht : .transmitted t ∈ events) :
    ∃ j e, p.journal = some j ∧ Durable codec j ∧ events = [.transmitted t] ∧ t = e.transmission ∧
      Announced log e ∧ transmissions log e.id < recordings log e.id ∧
      { e with phase := .unknown, attempts := e.attempts + 1 } ∈ j.entries := by
  cases h with
  | transmitted j s i x response h =>
    obtain rfl : t = x.1.transmission := by simpa using ht
    have hs : s.Pending log j := hp.stage
    have hmem : x.1 ∈ s.pending :=
      (Sending.pending_set h (acknowledges x.1 response)).mem_iff.mpr List.mem_cons_self
    obtain ⟨records, torn, hvalid, -⟩ := hp.settled
    exact ⟨j, x.1, rfl, hvalid.durable (hs.clean (List.ne_nil_of_mem hmem)), rfl, rfl,
      hs.announced _ hmem, hs.fewer _ hmem, hs.journaled _ hmem⟩
  | inserted | recorded => simp at ht
  | _ => simp at ht

/-- A step that tells a recorded attempt. -/
theorem Process.Safe.records {p p' : Process τ} {events : List (Event τ)}
    (hp : p.Safe codec maxAttempts log) (h : Process.Step codec signing maxAttempts p events p')
    {e : Entry τ} (he : .recorded e ∈ events) :
    ∃ j j', p.journal = some j ∧ p'.journal = some j' ∧ e ∈ j.entries ∧ e.attempts < maxAttempts ∧
      { e with phase := .unknown, attempts := e.attempts + 1 } ∈ j'.entries ∧ Durable codec j' := by
  have hafter := h.settled hp.settled hp.stage
  cases h with
  | recorded j b io j' h =>
    obtain ⟨allowSend, before, -, hdecided⟩ := hp.stage
    obtain ⟨x, hx, heq⟩ := List.mem_map.mp he
    cases heq
    obtain ⟨hjournaled, hclean⟩ := hdecided.recorded hp.settled.invariant h
    obtain ⟨records, torn, hvalid, -⟩ := hafter
    exact ⟨j, j', rfl, rfl, (hdecided.sends x hx).journaled, (hdecided.sends x hx).fewer,
      hjournaled x hx, hvalid.durable (hclean (List.ne_nil_of_mem hx))⟩
  | inserted => simp at he
  | _ => simp at he

/-- Every attempt is on the disk before its request leaves, once for each request, in a batch that may
send and has read that the node does not know the transaction and that its time has not passed. Outcomes
rest on final statuses, and the resources of an entry stay reserved until it is failed or reconciled. -/
theorem sender_safety {p : Process τ} (h : Delivers codec signing maxAttempts log p) :
    (∀ id, transmissions log id ≤ maxAttempts) ∧
    (∀ before t after, log = before ++ .transmitted t :: after → ∃ e, t = e.transmission ∧
      Announced before e ∧ transmissions before t.id < recordings before t.id) ∧
    (∀ events p', Process.Step codec signing maxAttempts p events p' →
      ∀ e, .recorded e ∈ events → ∃ j j', p.journal = some j ∧ p'.journal = some j' ∧ e ∈ j.entries ∧
        e.attempts < maxAttempts ∧
        { e with phase := .unknown, attempts := e.attempts + 1 } ∈ j'.entries ∧ Durable codec j') ∧
    (∀ events p', Process.Step codec signing maxAttempts p events p' →
      ∀ t, .transmitted t ∈ events → ∃ j, p.journal = some j ∧ Durable codec j ∧
        ∃ e ∈ j.entries, t = e.transmission ∧ e.phase = .unknown) ∧
    (∀ j, p.journal = some j → ∀ e ∈ j.entries,
      (e.phase = .failed → Witnessed log true e.id) ∧
      (e.phase = .finalized ∨ e.phase = .reconciled → Witnessed log false e.id)) ∧
    ∀ more p' j j', p.journal = some j → Tells (Process.Step codec signing maxAttempts) p more p' →
      p'.journal = some j' → ∀ old ∈ j.entries, ∃ e ∈ j'.entries,
        e = { old with phase := e.phase, attempts := e.attempts } ∧
        (e.phase ≠ .failed → e.phase ≠ .reconciled →
          ∀ r ∈ e.resources, j'.reservations r = some e.id) := by
  have hsafe := h.safe
  refine ⟨fun id => ?_, fun before t after hlog => ?_, fun events p' hstep e he => ?_,
    fun events p' hstep t ht => ?_, fun j hj e he => ?_, fun more p' j j' hj hmore hj' old hold => ?_⟩
  · obtain hzero | hpos := Nat.eq_zero_or_pos (recordings log id)
    · have hsent := hsafe.sent id
      omega
    · obtain ⟨e, -, hle, hmax, -⟩ := hsafe.spent id hpos
      exact (hsafe.sent id).trans (hle.trans hmax)
  · -- the step that sent it
    subst hlog
    obtain ⟨log', q, xs, ys, q', hrun, hstep, rfl⟩ := Tells.exists_step h
    have hq : q.Safe codec maxAttempts log' := Delivers.safe hrun
    obtain ⟨j, e, -, -, hevents, rfl, hannounced, hfewer, -⟩ :=
      hq.transmits hstep (List.mem_append_right _ List.mem_cons_self)
    obtain rfl : xs = [] := by
      have hlength := congrArg List.length hevents
      simp only [List.length_append, List.length_cons, List.length_nil] at hlength
      exact List.length_eq_zero_iff.mp (by omega)
    rw [List.append_nil]
    exact ⟨e, rfl, hannounced, hfewer⟩
  · exact hsafe.records hstep he
  · obtain ⟨j, e, hj, hdurable, -, rfl, -, -, hmem⟩ := hsafe.transmits hstep ht
    exact ⟨j, hj, hdurable, _, hmem, rfl, rfl⟩
  · have hall := hsafe.settled
    rw [Process.store_of_journal hj] at hall
    obtain ⟨records, torn, hvalid, hentries, -⟩ := hall
    exact ⟨(hentries e he).failed, (hentries e he).finalized⟩
  · have hinv := hsafe.settled.invariant
    have hsteps := hmore.reaches Process.store fun _ _ _ hstep => hstep.steps
    rw [Process.store_of_journal hj, Process.store_of_journal hj'] at hsteps
    rw [Process.store_of_journal hj] at hinv
    have hcarries : Store.Carries codec old (.running j) := ⟨old, hold, .refl⟩
    obtain ⟨⟨records, torn, hvalid⟩, e, he, hbecomes⟩ := carries_of_steps hsteps hinv hcarries
    refine ⟨e, he, hbecomes.kept.1, fun hfailed hreconciled r hr => ?_⟩
    exact (hvalid.indexed.reservations r e.id).mpr
      ⟨e, he, Phase.terminal_eq_false.mpr ⟨hfailed, hreconciled⟩, hr, rfl⟩

/-! ## An example -/

/-- The account that signs the example. -/
def exampleSigner : List UInt8 :=
  [237, 73, 40, 198, 40, 209, 194, 198, 234, 233, 3, 56, 144, 89, 149, 97, 41, 89, 39, 58, 92, 99,
    249, 54, 54, 193, 70, 20, 172, 135, 55, 209]

/-- A message of one account and no instruction. -/
def exampleMessage : List UInt8 := [1, 0, 0, 1] ++ exampleSigner ++ .replicate 32 7 ++ [0]

/-- Its signature by the account. -/
def exampleSignature : List UInt8 :=
  [55, 168, 53, 174, 185, 165, 48, 179, 239, 104, 0, 235, 61, 44, 160, 177, 85, 44, 144, 35, 176, 80,
    222, 150, 231, 200, 202, 224, 49, 52, 210, 198, 121, 189, 150, 119, 200, 119, 213, 45, 158, 97, 191,
    149, 1, 5, 222, 146, 139, 245, 222, 167, 255, 137, 241, 37, 68, 121, 224, 89, 55, 227, 229, 5]

/-- Its hash. -/
def exampleHash : List UInt8 :=
  [61, 84, 152, 0, 193, 220, 137, 81, 111, 146, 52, 128, 181, 138, 165, 115, 123, 9, 118, 142, 235, 17,
    183, 113, 23, 82, 39, 22, 244, 124, 126, 2]

/-- The plain codec with the hash of the message. -/
def signedCodec : Codec Empty :=
  { plainCodec with sha256 := fun bytes => if bytes = exampleMessage then exampleHash else [] }

/-- The decoding and the signature of the message. -/
def exampleSigning : Signing where
  deserialize bytes :=
    if bytes = exampleMessage then .ok ⟨exampleMessage, 1, [.ofBytes exampleSigner]⟩
    else .error "io error"
  verifyStrict key bytes signature :=
    if key = .ofBytes exampleSigner ∧ bytes = exampleMessage ∧ signature = exampleSignature then .ok ()
    else .error "invalid transaction signature"
  base58 bytes :=
    if bytes = exampleSignature then
      "27YLRwAhQw32WGnNLYLRXZBM3YcNQNDPEmN8vUgAykYHruAXXrdomHfqYNhx74QLsDjGWuf4sJVQq1tXmrN7QALU"
    else ""

/-- The signed transaction. -/
def signedEntry : Entry Empty where
  id := "trade"
  quoteId := none
  signature :=
    "27YLRwAhQw32WGnNLYLRXZBM3YcNQNDPEmN8vUgAykYHruAXXrdomHfqYNhx74QLsDjGWuf4sJVQq1tXmrN7QALU"
  wire := [1] ++ exampleSignature ++ exampleMessage
  messageHash := exampleHash
  lastValidHeight := 1000
  resources := [.ofNat 5]
  expectedExposure := none
  expectedSwap := none
  expectedBasket := none
  phase := .prepared
  attempts := 0

/-- The journal after its insertion. -/
def signedJournal : Journal Empty := (exampleStart.insertBatch signedCodec .done [signedEntry]).2

/-- A node at height 900 that does not know the transaction. -/
def exampleRpc : Rpc where
  genesis := "genesis"
  call method _ :=
    if method = "getGenesisHash" then .ok (.string "genesis")
    else if method = "getSignatureStatuses" then .ok (.object [("value", .array [.null])])
    else .ok (.number (.natural 900))

/-- What the batch of the transaction decides. -/
def exampleBatch : Batch Empty where
  statuses := [("trade", .null)]
  absent := [(signedEntry, 0)]
  height := some 900
  updates := [⟨"trade", .unknown, true⟩]
  sends := [(signedEntry, 0)]
  phases := [.unknown]

theorem signed_opens : openJournal signedCodec 1 4096 [] = .ok exampleStart := by
  have hwritten : Written signedCodec [] [] [] :=
    ⟨rfl, trivial, fun e he => absurd he List.not_mem_nil, torn_nil _⟩
  exact (openJournal_eq_ok hwritten Sound.empty).mpr ⟨⟨by decide, by decide, by decide, by decide⟩,
    by decide, by decide, rfl, rfl, rfl, rfl, .nil, rfl, rfl, rfl⟩

/-- The insertion is recorded. -/
theorem signed_inserted : (Call.insert [signedEntry] .done).handed signedCodec exampleStart =
      [signedEntry] ∧
    signedJournal.entries = Table.empty.insert signedEntry ∧ signedJournal.poisoned = false ∧
    signedJournal.seq = 1 ∧ signedJournal.maxBytes = 4096 ∧ signedJournal.bytes ≤ 1500 := by
  have hgranted : exampleStart.admitBatch signedCodec [signedEntry] = .ok () := rfl
  obtain ⟨record, hfold, hlength⟩ : ∃ record : List UInt8,
      [signedEntry].foldlM (exampleStart.addRecord signedCodec) (exampleStart.seq, []) =
        .ok (1, record) ∧ record.length ≤ 1500 := by
    have hframes : (frames signedCodec 0 [signedEntry]).length ≤ 1500 := by
      rw [frames, frames_nil, List.append_nil, length_frame]
      decide +kernel
    refine ⟨frames signedCodec 0 [signedEntry], ?_, hframes⟩
    have hseq : exampleStart.seq = 0 := rfl
    have hbytes : exampleStart.bytes = 0 := rfl
    have hmax : exampleStart.maxBytes = 4096 := rfl
    rw [hseq]
    refine (foldlM_addRecord (by decide) (by decide)).mpr
      ⟨by decide, ⟨by decide +kernel, trivial⟩, ?_, ?_⟩
    · rw [List.nil_append, hbytes, hmax]
      omega
    · rw [List.nil_append, List.length_singleton]
  obtain ⟨hhanded, hinsert⟩ := insert_handed rfl hgranted hfold
  rw [signedJournal, hinsert]
  exact ⟨hhanded, rfl, rfl, rfl, rfl, (Nat.zero_add _).trans_le hlength⟩

theorem signed_prepared : signedJournal.prepareBatch signedCodec.toCrates exampleSigning 3 exampleRpc true
    ["trade"] = .ok exampleBatch := by
  have hmem : signedEntry ∈ signedJournal.entries := by
    rw [signed_inserted.2.1]
    exact Table.mem_insert_self _ _
  have hfind : signedJournal.entries.find signedEntry.id = some signedEntry := Table.find_key hmem
  rw [show signedEntry.id = "trade" from rfl] at hfind
  have hverify : verifyEntry signedCodec.toCrates exampleSigning (signedEntry, 0) = .ok () := by
    decide +kernel
  have hgather : ["trade"].foldlM signedJournal.gatherEntry ([], []) =
      .ok (["trade"], [signedEntry]) := by
    simp only [List.foldlM_cons, List.foldlM_nil, gatherEntry, hfind]
    rfl
  have hactive : ([(signedEntry, 0)] : List (Entry Empty × ℕ)).forM
      (verifyEntry signedCodec.toCrates exampleSigning) = .ok () :=
    forM_eq_ok.mpr fun x hx => by rw [List.mem_singleton.mp hx, hverify]
  have hzip : [signedEntry].zipIdx.filter (fun x => x.1.phase.active) = [(signedEntry, 0)] := rfl
  have hgenesis : exampleRpc.checkGenesis = .ok () := rfl
  simp only [prepareBatch, hgather, ok_bind, hzip, hactive, hgenesis]
  rfl

/-- The attempt is recorded. -/
theorem signed_recorded : ∃ j', signedJournal.commit signedCodec .done exampleBatch.updates =
    (.ok (), j') := by
  obtain ⟨-, hentries, hclean, hseq, hmax, hbytes⟩ := signed_inserted
  have hmem : signedEntry ∈ signedJournal.entries := by
    rw [hentries]
    exact Table.mem_insert_self _ _
  have hlength : (signedCodec.encode (1 + 1) (signedEntry.updated .unknown true)).length ≤ 1500 := by
    decide +kernel
  have hok : (signedJournal.updateBatch signedCodec .done [⟨signedEntry.id, .unknown, true⟩]).1 =
      .ok () := by
    refine (updateBatch_done hmem (by decide) true hclean ?_ ?_).mpr ⟨fun _ => by decide, ?_, ?_⟩
    · rw [hseq]
      decide
    · omega
    · rw [hseq]
      exact hlength.trans (by decide)
    · rw [hseq, hmax]
      have hsum := Nat.add_le_add hbytes (Nat.add_le_add_left hlength 8)
      exact hsum.trans (by decide)
  generalize hupdated : signedJournal.updateBatch signedCodec .done
    [⟨signedEntry.id, .unknown, true⟩] = out at hok
  obtain ⟨result, j'⟩ := out
  cases hok
  have hupdates : exampleBatch.updates = [⟨signedEntry.id, .unknown, true⟩] := rfl
  refine ⟨j', ?_⟩
  rw [hupdates, commit, if_neg (by simp), hupdated]

/-- A run that sends the transaction. -/
theorem delivers_example : ∃ log p, Delivers signedCodec exampleSigning 3
    (log ++ [.transmitted signedEntry.transmission]) p := by
  obtain ⟨j', hcommit⟩ := signed_recorded
  have hopened : Delivers signedCodec exampleSigning 3 [] (.idle exampleStart) :=
    .single (.opened [] 1 4096 exampleStart signed_opens)
  have hready := (hopened.tail (.inserted exampleStart [signedEntry] .done)).tail
    (.read signedJournal exampleRpc true ["trade"] exampleBatch signed_prepared)
  have hsending := hready.tail (.recorded signedJournal exampleBatch .done j' hcommit)
  have hspawned := hsending.tail (.spawned j' _ rfl)
  exact ⟨_, _, hspawned.tail (.transmitted j' _ 0 (signedEntry, 0) (.error "RPC request timed out") rfl)⟩

theorem sender_safety_example : ∃ log : List (Event Empty),
    (∀ id, transmissions (log ++ [.transmitted signedEntry.transmission]) id ≤ 3) ∧
    ∃ e, signedEntry.transmission = e.transmission ∧ Announced log e ∧
      transmissions log signedEntry.transmission.id < recordings log signedEntry.transmission.id := by
  obtain ⟨log, p, hrun⟩ := delivers_example
  have hsafety := sender_safety hrun
  exact ⟨log, hsafety.1, hsafety.2.1 log _ [] rfl⟩

end StockMesh.Journal

import StockMesh.Host.Feed

/-! # Publication over all interleavings

Whatever the threads of a feed do, installed revisions increase and a snapshot installed before an
invalidation is not served afterwards (`Guarded`). Slots, generations and hashes are only compared with
the snapshot that `prepare` read, and the compare-exchange guards the revision alone. They are ordered in
every run where a `prepare` loads the revision of the snapshot it has read (`Timely`), and not in
every run (`publication_reorders`). -/

namespace StockMesh.Host.Feed

/-- The installed snapshots of a log. -/
def installs (log : List Event) : List Snapshot :=
  log.filterMap fun e => match e with
    | .installed s => some s
    | _ => none

/-- The snapshot served by an event, with the length of the log when its call began. -/
def answer : Event → Option (ℕ × Snapshot)
  | .returned began s => some (began, s)
  | .accepted began s => some (began, s)
  | _ => none

/-- Every snapshot installed before an invalidation that is among the first `b` events has a revision
below `r`. -/
def Past (log : List Event) (b r : ℕ) : Prop :=
  ∀ i j s, i < j → j < b → log[i]? = some (.installed s) → log[j]? = some .invalidated → s.revision < r

/-- A snapshot may follow the one before it. -/
def Follows (previous : Option Snapshot) (next : Snapshot) : Prop :=
  ∀ p ∈ previous, p.slot ≤ next.slot ∧ p.generation ≤ next.generation ∧
    (p.generation = next.generation → p.hash = next.hash)

/-- What a log of a feed should satisfy. -/
structure Coherent (log : List Event) : Prop where
  slots : (installs log).Pairwise fun x y => x.slot ≤ y.slot
  hashes : (installs log).Pairwise fun x y => x.generation = y.generation → x.hash = y.hash
  generations : (installs log).Pairwise fun x y => x.generation ≤ y.generation
  revisions : (installs log).Pairwise fun x y => x.revision < y.revision
  fenced : ∀ (i j : ℕ) (s v : Snapshot) (b : ℕ) (e : Event), log[i]? = some (.installed s) →
    log[j]? = some .invalidated → i < j → e ∈ log → answer e = some (b, v) → j < b → v ≠ s

/-- A `prepare` loads the revision while the snapshot it has read is current and no installation is
between its compare-exchange and its write. -/
def Timely (t : ℕ) (s s' : Feed) : Prop :=
  ∀ response previous next, s.threads t = .previousRead response previous →
    s'.threads t = .prepared next → s.current = previous ∧ ∀ u x, s.threads u ≠ .exchanged x

/-- The thread is inside a critical section. -/
def Critical : Thread → Prop
  | .installing _ | .exchanged _ | .written _ | .invalidating | .cleared => True
  | _ => False

/-- The thread holds a prepared snapshot that is not yet exchanged. -/
def Ready (pc : Thread) (next : Snapshot) : Prop := pc = .prepared next ∨ pc = .installing next

/-- The thread reads since an event and has seen `healthy`, or not yet. -/
def Reads : Thread → ℕ → Bool → Prop
  | .reading _ began, b, seen => began = b ∧ seen = false
  | .admitted _ began, b, seen => began = b ∧ seen = true
  | .copied _ began _, b, seen => began = b ∧ seen = true
  | .rechecked _ began _, b, seen => began = b ∧ seen = true
  | _, _, _ => False

/-- No revision is left, and the feed stays unhealthy. -/
def Exhausted (s : Feed) : Prop :=
  s.revision + 1 = u64Size ∧ s.healthy = false ∧
    ∀ t x, s.threads t ≠ .exchanged x ∧ s.threads t ≠ .written x

@[simp] theorem threads_goto (s : Feed) (t u : ℕ) (pc : Thread) :
    (s.goto t pc).threads u = if u = t then pc else s.threads u := by
  simp [goto, Function.update_apply]

theorem threads_goto_self (s : Feed) (t : ℕ) (pc : Thread) : (s.goto t pc).threads t = pc := by
  rw [threads_goto, if_pos rfl]

@[simp] theorem log_goto (s : Feed) (t : ℕ) (pc : Thread) : (s.goto t pc).log = s.log := rfl

@[simp] theorem lock_goto (s : Feed) (t : ℕ) (pc : Thread) : (s.goto t pc).lock = s.lock := rfl

@[simp] theorem revision_goto (s : Feed) (t : ℕ) (pc : Thread) :
    (s.goto t pc).revision = s.revision := rfl

@[simp] theorem current_goto (s : Feed) (t : ℕ) (pc : Thread) : (s.goto t pc).current = s.current := rfl

@[simp] theorem healthy_goto (s : Feed) (t : ℕ) (pc : Thread) : (s.goto t pc).healthy = s.healthy := rfl

@[simp] theorem installs_append_installed (log : List Event) (s : Snapshot) :
    installs (log ++ [.installed s]) = installs log ++ [s] := by simp [installs]

/-- Other events install nothing. -/
theorem installs_append (log : List Event) {e : Event} (h : ∀ s, e ≠ .installed s) :
    installs (log ++ [e]) = installs log := by
  cases e <;> simp_all [installs]

@[simp] theorem installs_append_invalidated (log : List Event) :
    installs (log ++ [.invalidated]) = installs log := by simp [installs]

@[simp] theorem installs_append_returned (log : List Event) (b : ℕ) (s : Snapshot) :
    installs (log ++ [.returned b s]) = installs log := by simp [installs]

@[simp] theorem installs_append_accepted (log : List Event) (b : ℕ) (s : Snapshot) :
    installs (log ++ [.accepted b s]) = installs log := by simp [installs]

/-- An installed event is an installed snapshot. -/
theorem mem_installs {log : List Event} {i : ℕ} {s : Snapshot}
    (h : log[i]? = some (.installed s)) : s ∈ installs log := by
  rw [installs, List.mem_filterMap]
  exact ⟨_, List.mem_of_getElem? h, rfl⟩

theorem Past.mono {log : List Event} {b c r q : ℕ} (h : Past log b r) (hb : c ≤ b) (hr : r ≤ q) :
    Past log c q := fun i j s hij hj hi hinv => (h i j s hij (hj.trans_le hb) hi hinv).trans_le hr

/-- Later events do not matter to the first ones. -/
theorem Past.append {log : List Event} {b r : ℕ} (h : Past log b r) (hb : b ≤ log.length)
    (es : List Event) : Past (log ++ es) b r := by
  intro i j s hij hj hi hinv
  rw [List.getElem?_append_left (by omega)] at hi hinv
  exact h i j s hij hj hi hinv

/-- An event that is no invalidation bars nothing. -/
theorem Past.append_other {log : List Event} {r : ℕ} (h : Past log log.length r) {e : Event}
    (he : e ≠ .invalidated) : Past (log ++ [e]) (log ++ [e]).length r := by
  intro i j s hij hj hi hinv
  rw [List.length_append, List.length_singleton] at hj
  rcases Nat.lt_succ_iff_lt_or_eq.mp hj with hj | rfl
  · exact h.append le_rfl [e] i j s hij hj hi hinv
  · rw [List.getElem?_concat_length] at hinv
    exact absurd (Option.some.inj hinv) he

/-- What `prepare` makes of the snapshot and revision it has read. -/
theorem prepare_eq_ok {cfg : FeedConfig} {previous : Option Snapshot} {loaded : ℕ}
    {response : Response} {next : Snapshot} (h : prepare cfg previous loaded response = .ok next) :
    next.revision = loaded + 1 ∧ next.revision < u64Size ∧ Follows previous next := by
  rw [prepare, bind_eq_ok] at h
  obtain ⟨revision, hrevision, h⟩ := h
  obtain ⟨slot, -, h⟩ := bind_eq_ok.mp h
  obtain ⟨values, -, h⟩ := bind_eq_ok.mp h
  obtain ⟨_, -, h⟩ := bind_eq_ok.mp h
  obtain ⟨accounts, -, h⟩ := bind_eq_ok.mp h
  obtain ⟨_, hslot, h⟩ := bind_eq_ok.mp h
  obtain ⟨generation, hgeneration, h⟩ := bind_eq_ok.mp h
  obtain ⟨hlt, rfl⟩ := bounded_eq_ok.mp hrevision
  cases h
  refine ⟨rfl, hlt, ?_⟩
  intro p hp
  rw [Option.mem_def] at hp
  subst hp
  have hnot : ¬slot < p.slot := by
    intro hlt
    rw [refuse, if_pos ⟨p, rfl, hlt⟩] at hslot
    cases hslot
  refine ⟨not_lt.mp hnot, ?_⟩
  rw [nextGeneration] at hgeneration
  split at hgeneration
  · next hhash =>
    cases hgeneration
    exact ⟨le_rfl, fun _ => hhash⟩
  · obtain ⟨-, rfl⟩ := bounded_eq_ok.mp hgeneration
    exact ⟨Nat.le_succ _, fun heq => absurd heq (Nat.succ_ne_self _).symm⟩

/-- Revisions and fences, whatever the interleaving. -/
structure Guarded (s : Feed) : Prop where
  lock : ∀ t, Critical (s.threads t) → s.lock = some t
  revision_lt : s.revision < u64Size
  ready : ∀ t next, Ready (s.threads t) next →
    next.revision ≤ s.revision + 1 ∧ next.revision < u64Size
  exchanged : ∀ t next, s.threads t = .exchanged next →
    next.revision = s.revision ∧ ∀ x ∈ installs s.log, x.revision < next.revision
  bound : ∀ x ∈ installs s.log, x.revision ≤ s.revision
  sorted : (installs s.log).Pairwise fun x y => x.revision < y.revision
  current : s.current = (installs s.log).getLast?
  cleared : ∀ t, s.threads t = .cleared → s.healthy = false
  began : ∀ t b seen, Reads (s.threads t) b seen → b ≤ s.log.length
  barred : Past s.log s.log.length s.revision ∨ Exhausted s
  seen : ∀ t b, Reads (s.threads t) b true → Past s.log b s.revision
  served : ∀ e b v, e ∈ s.log → answer e = some (b, v) → b ≤ s.log.length ∧ Past s.log b v.revision

section Step

variable {cfg : FeedConfig} {t : ℕ} {s s' : Feed}

theorem lock_step (h : Guarded s) (hstep : Step cfg t s s') :
    ∀ u, Critical (s'.threads u) → s'.lock = some u := by
  intro u
  have hu := h.lock u
  have ht := h.lock t
  cases hstep <;> simp only [threads_goto, lock_goto] <;> grind [Critical]

theorem revision_step (h : Guarded s) (hstep : Step cfg t s s') :
    s.revision ≤ s'.revision ∧ s'.revision < u64Size := by
  have hlt := h.revision_lt
  have ht := h.ready t
  cases hstep <;> simp only [revision_goto] <;> grind [Ready, bumped]

theorem ready_step (h : Guarded s) (hstep : Step cfg t s s') :
    ∀ u next, Ready (s'.threads u) next →
      next.revision ≤ s'.revision + 1 ∧ next.revision < u64Size := by
  intro u next
  have hu := h.ready u
  have ht := h.ready t
  cases hstep with
  | prepared at_pc ok =>
    have hnext := prepare_eq_ok ok
    simp only [threads_goto, revision_goto]
    grind [Ready]
  | bump at_pc =>
    simp only [threads_goto, revision_goto]
    grind [Ready, bumped]
  | _ =>
    simp only [threads_goto, revision_goto]
    grind [Ready]

/-- The exchanged revision is new, and no other thread can change it before the write. -/
theorem exchanged_step (h : Guarded s) (hstep : Step cfg t s s') :
    ∀ u next, s'.threads u = .exchanged next →
      next.revision = s'.revision ∧ ∀ x ∈ installs s'.log, x.revision < next.revision := by
  intro u next
  have hu := h.exchanged u next
  have ht := h.lock t
  have hlock := h.lock u
  have hbound := h.bound
  cases hstep <;> simp only [threads_goto, revision_goto, log_goto] <;>
    grind [Critical, installs_append_invalidated, installs_append_returned,
      installs_append_accepted]

theorem installs_step (h : Guarded s) (hstep : Step cfg t s s') :
    (∀ x ∈ installs s'.log, x.revision ≤ s'.revision) ∧
    ((installs s'.log).Pairwise fun x y => x.revision < y.revision) ∧
    s'.current = (installs s'.log).getLast? := by
  have hbound := h.bound
  have hsorted := h.sorted
  have hcurrent := h.current
  have hgrow := (revision_step h hstep).1
  cases hstep with
  | write at_pc =>
    obtain ⟨heq, hlt⟩ := h.exchanged t _ at_pc
    simp only [log_goto, revision_goto, current_goto, installs_append_installed]
    refine ⟨?_, ?_, by simp⟩
    · intro x hx
      rcases List.mem_append.mp hx with hx | hx
      · exact hbound x hx
      · rw [List.mem_singleton.mp hx, heq]
    · rw [List.pairwise_append]
      refine ⟨hsorted, List.pairwise_singleton _ _, ?_⟩
      intro x hx y hy
      rw [List.mem_singleton.mp hy]
      exact hlt x hx
  | _ =>
    simp only [log_goto, revision_goto, current_goto, installs_append_invalidated,
      installs_append_returned, installs_append_accepted] at hgrow ⊢
    exact ⟨fun x hx => (hbound x hx).trans hgrow, hsorted, hcurrent⟩

theorem cleared_step (h : Guarded s) (hstep : Step cfg t s s') :
    ∀ u, s'.threads u = .cleared → s'.healthy = false := by
  intro u
  have hu := h.cleared u
  have ht := h.lock t
  have hlock := h.lock u
  cases hstep <;> simp only [threads_goto, healthy_goto] <;> grind [Critical]

theorem began_step (h : Guarded s) (hstep : Step cfg t s s') :
    ∀ u b seen, Reads (s'.threads u) b seen → b ≤ s'.log.length := by
  intro u b seen
  have hu := h.began u b seen
  have ht := h.began t b false
  have ht' := h.began t b true
  cases hstep <;> simp only [threads_goto, log_goto] <;> grind [Reads]

/-- Without a revision left, nothing is exchanged any more and the feed stays unhealthy. -/
theorem exhausted_step (h : Guarded s) (hstep : Step cfg t s s') (hs : Exhausted s) :
    Exhausted s' := by
  obtain ⟨hlast, hhealthy, hpc⟩ := hs
  have ht := hpc t
  have hready := h.ready t
  cases hstep <;>
    refine ⟨?_, ?_, fun u x => ?_⟩ <;>
    first
      | have hu := hpc u x
      | skip
  all_goals simp only [threads_goto, revision_goto, healthy_goto]
  all_goals grind [Ready, bumped]

/-- An invalidation leaves all installed snapshots behind the revision, or no revision is left. -/
theorem barred_step (h : Guarded s) (hstep : Step cfg t s s') :
    Past s'.log s'.log.length s'.revision ∨ Exhausted s' := by
  have hgrow := (revision_step h hstep).1
  rcases h.barred with hpast | hs
  · cases hstep with
    | bump at_pc =>
      -- the revision moves on, unless it was the last one
      by_cases hlt : s.revision + 1 < u64Size
      · left
        intro i j x hij hj hi hinv
        have hx : x ∈ installs s.log := by simpa using mem_installs hi
        have hle := h.bound x hx
        simp only [revision_goto, bumped, if_pos hlt]
        omega
      · right
        have hrevision := h.revision_lt
        refine ⟨?_, h.cleared t at_pc, fun u x => ?_⟩
        · simp only [revision_goto, bumped, if_neg hlt]
          omega
        · have hu := h.lock u
          have ht := h.lock t
          simp only [threads_goto]
          grind [Critical]
    | write at_pc => exact .inl ((hpast.append_other (by simp)).mono le_rfl hgrow)
    | «return» at_pc same => exact .inl ((hpast.append_other (by simp)).mono le_rfl hgrow)
    | accept at_pc same fits => exact .inl ((hpast.append_other (by simp)).mono le_rfl hgrow)
    | _ => exact .inl (hpast.mono le_rfl hgrow)
  · exact .inr (exhausted_step h hstep hs)

/-- A step writes at most one event, and serves what a read that has seen `healthy` has copied. -/
theorem log_step (hstep : Step cfg t s s') :
    ∃ es, s'.log = s.log ++ es ∧ ∀ e ∈ es, ∀ b v, answer e = some (b, v) →
      Reads (s.threads t) b true ∧ s.revision = v.revision := by
  cases hstep with
  | write at_pc => exact ⟨[_], rfl, by simp [answer]⟩
  | bump at_pc => exact ⟨[_], rfl, by simp [answer]⟩
  | «return» at_pc same =>
    refine ⟨[_], rfl, ?_⟩
    intro e he b v hv
    rw [List.mem_singleton.mp he] at hv
    cases hv
    exact ⟨by simp [at_pc, Reads], same⟩
  | accept at_pc same fits =>
    refine ⟨[_], rfl, ?_⟩
    intro e he b v hv
    rw [List.mem_singleton.mp he] at hv
    cases hv
    exact ⟨by simp [at_pc, Reads], same.trans fits.1⟩
  | _ => exact ⟨[], by simp only [log_goto, List.append_nil], by simp⟩

theorem past_step (hstep : Step cfg t s s') {b r q : ℕ} (hpast : Past s.log b r)
    (hb : b ≤ s.log.length) (hr : r ≤ q) : Past s'.log b q := by
  obtain ⟨es, hlog, -⟩ := log_step hstep
  rw [hlog]
  exact (hpast.append hb es).mono le_rfl hr

/-- What a read that has seen `healthy` may still serve lies past every earlier invalidation. -/
theorem seen_step (h : Guarded s) (hstep : Step cfg t s s') :
    ∀ u b, Reads (s'.threads u) b true → Past s'.log b s'.revision := by
  intro u b hu
  have hgrow := (revision_step h hstep).1
  have hcase : Reads (s.threads u) b true ∨ Reads (s.threads u) b false ∧ s.healthy = true := by
    revert hu
    cases hstep <;> simp only [threads_goto] <;> grind [Reads]
  rcases hcase with hu | ⟨hu, hhealthy⟩
  · exact past_step hstep (h.seen u b hu) (h.began u b true hu) hgrow
  · -- a feed that is healthy has revisions left
    have hb := h.began u b false hu
    have hpast := h.barred.resolve_right fun hs => absurd (hhealthy.symm.trans hs.2.1) (by simp)
    exact past_step hstep (hpast.mono hb le_rfl) hb hgrow

theorem served_step (h : Guarded s) (hstep : Step cfg t s s') :
    ∀ e b v, e ∈ s'.log → answer e = some (b, v) →
      b ≤ s'.log.length ∧ Past s'.log b v.revision := by
  intro e b v he hv
  obtain ⟨es, hlog, hes⟩ := log_step hstep
  have hle : s.log.length ≤ s'.log.length := by simp [hlog]
  rcases List.mem_append.mp (hlog ▸ he) with he | he
  · obtain ⟨hb, hpast⟩ := h.served e b v he hv
    exact ⟨hb.trans hle, past_step hstep hpast hb le_rfl⟩
  · obtain ⟨hreads, hrevision⟩ := hes e he b v hv
    have hb := h.began t b true hreads
    exact ⟨hb.trans hle, past_step hstep (h.seen t b hreads) hb hrevision.le⟩

theorem Guarded.step (h : Guarded s) (hstep : Step cfg t s s') : Guarded s' where
  lock := lock_step h hstep
  revision_lt := (revision_step h hstep).2
  ready := ready_step h hstep
  exchanged := exchanged_step h hstep
  bound := (installs_step h hstep).1
  sorted := (installs_step h hstep).2.1
  current := (installs_step h hstep).2.2
  cleared := cleared_step h hstep
  began := began_step h hstep
  barred := barred_step h hstep
  seen := seen_step h hstep
  served := served_step h hstep

end Step

theorem Guarded.start : Guarded {} := by
  constructor <;> simp [Critical, Ready, Reads, installs, u64Size, Past]

/-- Revisions and fences in every run. -/
theorem Run.guarded {cfg : FeedConfig} {ok : ℕ → Feed → Feed → Prop} {s : Feed}
    (h : Run cfg ok s) : Guarded s := by
  induction h with
  | start => exact .start
  | step _ hstep _ ih => exact ih.step hstep

/-- No snapshot installed before an invalidation is served after it. -/
theorem Guarded.fenced {s : Feed} (h : Guarded s) {i j b : ℕ} {x v : Snapshot} {e : Event}
    (hi : s.log[i]? = some (.installed x)) (hj : s.log[j]? = some .invalidated) (hij : i < j)
    (he : e ∈ s.log) (hv : answer e = some (b, v)) (hb : j < b) : v ≠ x := by
  have hlt := (h.served e b v he hv).2 i j x hij hb hi hj
  rintro rfl
  exact lt_irrefl _ hlt

/-! ## Timely publication -/

/-- Slots, generations and hashes, where snapshots are prepared from the current one. -/
structure Chained (s : Feed) : Prop where
  ready : ∀ t next, Ready (s.threads t) next → next.revision = s.revision + 1 →
    Follows s.current next ∧ ∀ u x, s.threads u ≠ .exchanged x
  exchanged : ∀ t next, s.threads t = .exchanged next → Follows s.current next
  ordered : (installs s.log).Pairwise fun x y => Follows (some x) y

theorem Follows.trans {x y z : Snapshot} (hxy : Follows (some x) y) (hyz : Follows (some y) z) :
    Follows (some x) z := by
  obtain ⟨hslot, hgeneration, hhash⟩ := hxy x rfl
  obtain ⟨hslot', hgeneration', hhash'⟩ := hyz y rfl
  rintro p ⟨⟩
  refine ⟨hslot.trans hslot', hgeneration.trans hgeneration', fun heq => ?_⟩
  -- generations do not go back, so the middle one is the same
  have hmid : x.generation = y.generation := by omega
  exact (hhash hmid).trans (hhash' (by omega))

theorem Follows.concat {xs : List Snapshot} {next : Snapshot}
    (hxs : xs.Pairwise fun x y => Follows (some x) y) (hnext : Follows xs.getLast? next) :
    (xs ++ [next]).Pairwise fun x y => Follows (some x) y := by
  rw [List.pairwise_append]
  refine ⟨hxs, List.pairwise_singleton _ _, ?_⟩
  intro x hx y hy
  rw [List.mem_singleton.mp hy]
  obtain ⟨ys, last, rfl⟩ := (List.eq_nil_or_concat' xs).resolve_left (List.ne_nil_of_mem hx)
  rw [List.getLast?_concat] at hnext
  rcases List.mem_append.mp hx with hx | hx
  · exact ((List.pairwise_append.mp hxs).2.2 x hx last (by simp)).trans hnext
  · rw [List.mem_singleton.mp hx]
    exact hnext

section Timely

variable {cfg : FeedConfig} {t : ℕ} {s s' : Feed}

theorem Chained.ready_step (hguard : Guarded s) (h : Chained s) (hstep : Step cfg t s s')
    (htimely : Timely t s s') :
    ∀ u next, Ready (s'.threads u) next → next.revision = s'.revision + 1 →
      Follows s'.current next ∧ ∀ v x, s'.threads v ≠ .exchanged x := by
  intro u next
  have hu := h.ready u next
  have ht := h.ready t next
  have hbound := hguard.ready u next
  cases hstep with
  | prepared at_pc ok =>
    have hnext := prepare_eq_ok ok
    have hfits := htimely _ _ _ at_pc (threads_goto_self s t _)
    simp only [threads_goto, revision_goto, current_goto]
    grind [Ready]
  | exchange at_pc expected =>
    -- whatever else is ready has been superseded
    simp only [threads_goto, revision_goto, current_goto]
    grind [Ready]
  | write at_pc =>
    simp only [threads_goto, revision_goto, current_goto]
    grind [Ready]
  | bump at_pc =>
    simp only [threads_goto, revision_goto, current_goto]
    grind [Ready, bumped]
  | _ =>
    simp only [threads_goto, revision_goto, current_goto]
    grind [Ready]

theorem Chained.exchanged_step (hguard : Guarded s) (h : Chained s) (hstep : Step cfg t s s') :
    ∀ u next, s'.threads u = .exchanged next → Follows s'.current next := by
  intro u next
  have hu := h.exchanged u next
  have hready := h.ready t
  have hlock := hguard.lock u
  have ht := hguard.lock t
  cases hstep <;> simp only [threads_goto, current_goto] <;> grind [Ready, Critical]

theorem Chained.ordered_step (hguard : Guarded s) (h : Chained s) (hstep : Step cfg t s s') :
    (installs s'.log).Pairwise fun x y => Follows (some x) y := by
  cases hstep with
  | write at_pc =>
    rw [log_goto, installs_append_installed]
    exact Follows.concat h.ordered (hguard.current ▸ h.exchanged t _ at_pc)
  | _ =>
    simp only [log_goto, installs_append_invalidated, installs_append_returned,
      installs_append_accepted]
    exact h.ordered

theorem Chained.step (hguard : Guarded s) (h : Chained s) (hstep : Step cfg t s s')
    (htimely : Timely t s s') : Chained s' where
  ready := h.ready_step hguard hstep htimely
  exchanged := h.exchanged_step hguard hstep
  ordered := h.ordered_step hguard hstep

end Timely

theorem Chained.start : Chained {} := by
  constructor <;> simp [Ready, installs]

theorem Run.chained {cfg : FeedConfig} {s : Feed} (h : Run cfg Timely s) : Chained s := by
  induction h with
  | start => exact .start
  | step run hstep htimely ih => exact ih.step run.guarded hstep htimely

/-- A feed whose snapshots are always prepared from the current one keeps its log coherent. -/
theorem timely_publication (cfg : FeedConfig) (s : Feed) (h : Run cfg Timely s) : Coherent s.log where
  slots := h.chained.ordered.imp fun hxy => (hxy _ rfl).1
  hashes := h.chained.ordered.imp fun hxy => (hxy _ rfl).2.2
  generations := h.chained.ordered.imp fun hxy => (hxy _ rfl).2.1
  revisions := h.guarded.sorted
  fenced _ _ _ _ _ _ hi hj hij he hv hb := h.guarded.fenced hi hj hij he hv hb

/-! ## Runs of whole publications -/

/-- The feed after an installation. -/
def published (s : Feed) (next : Snapshot) : Feed :=
  { s with current := some next, healthy := true, revision := next.revision, lock := none,
           log := s.log ++ [Event.installed next] }

section Runs

variable {cfg : FeedConfig} {ok : ℕ → Feed → Feed → Prop} {s : Feed} {t : ℕ} {next : Snapshot}

/-- A thread prepares a snapshot while nothing moves. -/
theorem Run.prepares (h : Run cfg ok s) (hok : ∀ t s s', Timely t s s' → ok t s s')
    {response : Response} (hidle : s.threads t = .idle) (hfree : s.lock = none)
    (hquiet : ∀ u x, s.threads u ≠ .exchanged x)
    (hnext : prepare cfg s.current s.revision response = .ok next) :
    Run cfg ok (s.goto t (.prepared next)) := by
  have hread := h.step (.readPrevious response hidle hfree) (hok _ _ _ (by simp [Timely, hidle]))
  have htimely : Timely t (s.goto t (.previousRead response s.current))
      ((s.goto t (.previousRead response s.current)).goto t (.prepared next)) := by
    rintro response previous next hpc -
    rw [threads_goto_self] at hpc
    cases hpc
    refine ⟨rfl, fun u x => ?_⟩
    rw [threads_goto]
    split
    · simp
    · exact hquiet u x
  have hprepared := hread.step (.prepared (threads_goto_self s t _) hnext) (hok _ _ _ htimely)
  simpa [goto] using hprepared

/-- A thread installs its snapshot while nothing moves. -/
theorem Run.installs (h : Run cfg ok s) (hok : ∀ t s s', Timely t s s' → ok t s s')
    (hpc : s.threads t = .prepared next) (hfree : s.lock = none)
    (hrevision : s.revision + 1 = next.revision) : Run cfg ok ((s.published next).goto t .idle) := by
  have hlock := h.step (.lockInstall hpc hfree) (hok _ _ _ (by simp [Timely, hpc]))
  have hexchange := hlock.step (.exchange (threads_goto_self _ t _) (by
    show 1 ≤ next.revision ∧ s.revision = next.revision - 1
    omega)) (hok _ _ _ (by simp [Timely]))
  have hwrite := hexchange.step (.write (threads_goto_self _ t _)) (hok _ _ _ (by simp [Timely]))
  have hpublish := hwrite.step (.publish (threads_goto_self _ t _)) (hok _ _ _ (by simp [Timely]))
  simpa [goto, published] using hpublish

end Runs

/-- A feed of one account that may be absent. -/
def oneKey : FeedConfig where
  keys := [.ofFn fun _ => 1]
  explicitAbsence := [.ofFn fun _ => 1]
  maxBytes := 1
  digest := fun _ => .ofFn fun _ => 7

/-- The response of a node at a slot. -/
def absentAt (slot : ℕ) : Response where
  slot := some slot
  values := some [none]

/-- The snapshot of that response. -/
def emptyAt (slot revision : ℕ) : Snapshot where
  slot := slot
  generation := 1
  hash := .ofFn fun _ => 7
  accounts := [{ key := .ofFn fun _ => 1, owner := .ofFn fun _ => 0, executable := false,
                 lamports := 0, data := [] }]
  revision := revision

/-- The feed after the publication of slot 5. -/
def atFive : Feed := ({} : Feed).published (emptyAt 5 1)

theorem Run.atFive {ok : ℕ → Feed → Feed → Prop} (hok : ∀ t s s', Timely t s s' → ok t s s') :
    Run oneKey ok atFive := by
  have hprepared : Run oneKey ok (goto {} 0 (.prepared (emptyAt 5 1))) :=
    Run.start.prepares hok (rfl : ({} : Feed).threads 0 = .idle) rfl (by simp)
      (rfl : prepare oneKey none 0 (absentAt 5) = .ok (emptyAt 5 1))
  have hinstalled := hprepared.installs hok (threads_goto_self _ 0 _) rfl rfl
  simpa [Feed.atFive, published, goto] using hinstalled

theorem timely_publication_once : Run oneKey Timely atFive ∧ Coherent atFive.log := by
  have hrun : Run oneKey Timely atFive := .atFive fun _ _ _ h => h
  exact ⟨hrun, timely_publication oneKey _ hrun⟩

/-- A thread reads the snapshot of slot 5, another one publishes slot 10, and the first one then loads
the new revision and installs slot 7. -/
theorem publication_reorders :
    ¬∀ (cfg : FeedConfig) (s : Feed), Run cfg (fun _ _ _ => True) s → Coherent s.log := by
  intro hall
  have hany : ∀ (t : ℕ) (s s' : Feed), Timely t s s' → True := fun _ _ _ _ => trivial
  have hread := (Run.atFive hany).step
    (.readPrevious (t := 1) (absentAt 7) rfl rfl) trivial
  have hquiet : ∀ u x, (atFive.goto 1 (.previousRead (absentAt 7) (some (emptyAt 5 1)))).threads u ≠
      .exchanged x := by
    intro u x
    rw [threads_goto]
    split <;> simp [atFive, published]
  have hten := hread.prepares (t := 0) hany (by simp [atFive, published]) rfl hquiet
    (rfl : prepare oneKey (some (emptyAt 5 1)) 1 (absentAt 10) = .ok (emptyAt 10 2))
  have hinstalled := hten.installs hany (threads_goto_self _ 0 _) rfl rfl
  have hseven := hinstalled.step
    (@Step.prepared oneKey 1 _ (absentAt 7) (some (emptyAt 5 1)) (emptyAt 7 3)
      (by simp [published, atFive]) rfl) trivial
  have hreordered := hseven.installs hany (threads_goto_self _ 1 _) rfl rfl
  have hslots := (hall _ _ hreordered).slots
  simp [published, atFive, goto, installs, emptyAt] at hslots

end StockMesh.Host.Feed

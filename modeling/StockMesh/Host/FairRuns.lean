import StockMesh.Host.Fair

/-! # Runs of the fair-price engine

Over all evaluations and restarts, the watermark of a source follows what has been accepted of it
(`Follows`): sequences do not decrease and one sequence has one digest. A decision is the consensus of one
hull for each configured group (`fair_engine`). -/

namespace StockMesh.Host.Fair

open Journal (refuse_eq_ok)

variable {services : Services}

/-! ## Accepted observations -/

/-- The digest of an observation. -/
def Services.digest (services : Services) (o : Observation) : Answer Key := do
  let bytes ← services.signingBytes o
  .ok (services.sha256 bytes)

/-- An observation becomes the watermark of its source. -/
def Accepts (services : Services) (t : Table Watermark.source) (accepted : List Observation)
    (t' : Table Watermark.source) : Prop :=
  ∃ o digest, accepted = [o] ∧ services.digest o = .ok digest ∧
    ¬Replays t ⟨o.sourceId, o.sequence, digest⟩ ∧ t' = t.insert ⟨o.sourceId, o.sequence, digest⟩

/-- The watermarks follow the accepted observations. -/
structure Follows (services : Services) (accepted : List Observation) (t : Table Watermark.source) :
    Prop where
  ordered : accepted.Pairwise fun a b => a.sourceId = b.sourceId → a.sequence ≤ b.sequence
  agree : ∀ a ∈ accepted, ∀ b ∈ accepted, a.sourceId = b.sourceId → a.sequence = b.sequence →
    ∃ digest, services.digest a = .ok digest ∧ services.digest b = .ok digest
  known : ∀ a ∈ accepted, ∃ w, t.find a.sourceId = some w ∧ a.sequence ≤ w.sequence ∧
    (a.sequence = w.sequence → services.digest a = .ok w.digest)

theorem Follows.nil (t : Table Watermark.source) : Follows services [] t where
  ordered := .nil
  agree _ h := absurd h List.not_mem_nil
  known _ h := absurd h List.not_mem_nil

/-- An observation that is no replay comes after all others of its source. -/
theorem Follows.accept {accepted more : List Observation} {t t' : Table Watermark.source}
    (h : Follows services accepted t) (haccepts : Accepts services t more t') :
    Follows services (accepted ++ more) t' := by
  obtain ⟨o, digest, rfl, hdigest, hreplay, rfl⟩ := haccepts
  have hafter : ∀ a ∈ accepted, a.sourceId = o.sourceId → a.sequence ≤ o.sequence ∧
      (a.sequence = o.sequence → services.digest a = .ok digest) := by
    intro a ha hsource
    obtain ⟨w, hw, hle, heq⟩ := h.known a ha
    have hstale : ¬(o.sequence < w.sequence ∨ o.sequence = w.sequence ∧ digest ≠ w.digest) :=
      fun hbad => hreplay ⟨w, hsource ▸ hw, hbad⟩
    simp only [not_or, Nat.not_lt, not_and, ne_eq, not_not] at hstale
    refine ⟨hle.trans hstale.1, fun hsame => ?_⟩
    have hmark : o.sequence = w.sequence := le_antisymm (hsame ▸ hle) hstale.1
    rw [heq (hsame.trans hmark), hstale.2 hmark]
  constructor
  case ordered =>
    refine List.pairwise_append.mpr ⟨h.ordered, List.pairwise_singleton _ _, fun a ha b hb hsource => ?_⟩
    rw [List.mem_singleton.mp hb] at hsource ⊢
    exact (hafter a ha hsource).1
  case agree =>
    intro a ha b hb hsource hsequence
    rw [List.mem_append, List.mem_singleton] at ha hb
    obtain ha | rfl := ha
    · obtain hb | rfl := hb
      · exact h.agree a ha b hb hsource hsequence
      · exact ⟨digest, (hafter a ha hsource).2 hsequence, hdigest⟩
    · obtain hb | rfl := hb
      · exact ⟨digest, hdigest, (hafter b hb hsource.symm).2 hsequence.symm⟩
      · exact ⟨digest, hdigest, hdigest⟩
  case known =>
    intro a ha
    rw [Table.find_insert]
    by_cases hsource : o.sourceId = a.sourceId
    · rw [if_pos hsource]
      rw [List.mem_append, List.mem_singleton] at ha
      obtain ha | rfl := ha
      · exact ⟨_, rfl, hafter a ha hsource.symm⟩
      · exact ⟨_, rfl, le_rfl, fun _ => hdigest⟩
    · rw [if_neg hsource]
      rw [List.mem_append, List.mem_singleton] at ha
      obtain ha | rfl := ha
      · exact h.known a ha
      · exact absurd rfl hsource

theorem Follows.tells {accepted more : List Observation} {t t' : Table Watermark.source}
    (h : Follows services accepted t) (hrun : Tells (Accepts services) t more t') :
    Follows services (accepted ++ more) t' :=
  hrun.invariant (I := fun more t' => Follows services (accepted ++ more) t')
    (by rwa [List.append_nil]) fun log t₁ events t₂ hfollows hstep => by
      rw [← List.append_assoc]
      exact hfollows.accept hstep

/-! ## Hulls -/

/-- The group of a source. -/
def Policy.groupOf (policy : Policy) (id : ℕ) : Option ℕ :=
  (policy.sources.find? fun s => s.id = id).map Source.group

/-- The least interval that holds the observations of a group. -/
structure Hull (policy : Policy) (xs : List SignedObservation) (g : Interval) : Prop where
  low : ∃ x ∈ xs, policy.groupOf x.observation.sourceId = some g.group ∧ x.observation.lowQ32 = g.low
  high : ∃ x ∈ xs, policy.groupOf x.observation.sourceId = some g.group ∧ x.observation.highQ32 = g.high
  holds : ∀ x ∈ xs, policy.groupOf x.observation.sourceId = some g.group →
    g.low ≤ x.observation.lowQ32 ∧ x.observation.highQ32 ≤ g.high

/-- An observation inside its bounds, and an expiry that does not exceed them. -/
structure Fit (e : Engine) (stockHash : Key) (slot nowMs expiresSlot expiresMs : ℕ) (o : Observation) :
    Prop where
  bound : o.policyHash = e.policyHash ∧ o.stockStateHash = stockHash
  past : o.slot ≤ slot ∧ o.observedMs ≤ nowMs
  age : slot ≤ o.slot + e.policy.maxAgeSlots ∧ nowMs ≤ o.observedMs + e.policy.maxAgeMs
  unexpired : slot ≤ o.expiresSlot ∧ nowMs ≤ o.expiresMs
  expiresSlot : expiresSlot ≤ o.expiresSlot ∧ expiresSlot ≤ o.slot + e.policy.maxAgeSlots
  expiresMs : expiresMs ≤ o.expiresMs ∧ expiresMs ≤ o.observedMs + e.policy.maxAgeMs

theorem Fit.mono {e : Engine} {stockHash : Key} {slot nowMs expiresSlot expiresMs earlierSlot earlierMs : ℕ}
    {o : Observation} (h : Fit e stockHash slot nowMs expiresSlot expiresMs o)
    (hslot : earlierSlot ≤ expiresSlot) (hms : earlierMs ≤ expiresMs) :
    Fit e stockHash slot nowMs earlierSlot earlierMs o :=
  { h with
    expiresSlot := ⟨hslot.trans h.expiresSlot.1, hslot.trans h.expiresSlot.2⟩
    expiresMs := ⟨hms.trans h.expiresMs.1, hms.trans h.expiresMs.2⟩ }

variable {e : Engine} {stockHash : Key} {slot nowMs : ℕ}

/-- The first match of a list is that of its pairs. -/
theorem find?_of_zip {sources : List Source} {keys : List Key} {id : ℕ} {x : Source × Key}
    (h : (sources.zip keys).find? (fun x => x.1.id = id) = some x) :
    sources.find? (fun s => s.id = id) = some x.1 := by
  induction sources generalizing keys with
  | nil => cases h
  | cons s sources ih =>
    cases keys with
    | nil => cases h
    | cons k keys =>
      rw [List.zip_cons_cons, List.find?_cons] at h
      rw [List.find?_cons]
      by_cases hid : s.id = id
      · simp only [hid, decide_true, Option.some.injEq] at h ⊢
        rw [← h]
      · simp only [hid, decide_false] at h ⊢
        exact ih h

/-- What one observation stages. -/
structure Stages (services : Services) (e : Engine) (stockHash : Key) (slot nowMs : ℕ) (st : Staged)
    (o : Observation) (group : ℕ) (st' : Staged) : Prop where
  grouped : e.policy.groupOf o.sourceId = some group
  configured : group ∈ e.policy.sources.map Source.group
  fit : Fit e stockHash slot nowMs st'.expiresSlot st'.expiresMs o
  expires : st'.expiresSlot ≤ st.expiresSlot ∧ st'.expiresMs ≤ st.expiresMs
  next : Accepts services st.next [o] st'.next
  groups : st'.groups = st.groups.insert (widen st.groups group o)

theorem stages_of_ok {st st' : Staged} {signed : SignedObservation}
    (h : e.stage services stockHash slot nowMs st signed = .ok st') :
    ∃ group, Stages services e stockHash slot nowMs st signed.observation group st' := by
  simp only [Engine.stage, bind_eq_ok, present_eq_ok, refuse_eq_ok, bounded_eq_ok] at h
  obtain ⟨⟨source, key⟩, hfind, _, hfit, bytes, hbytes, _, -, _, hreplay, ageSlot, ⟨-, rfl⟩, ageMs,
    ⟨-, rfl⟩, hst⟩ := h
  cases hst
  have hsource := find?_of_zip hfind
  simp only [Engine.Unfit, not_or, Nat.not_lt, ne_eq, not_not] at hfit
  obtain ⟨-, hpolicy, hstock, -, hslot, hms, hageSlot, hageMs, hexpiresSlot, hexpiresMs, -, -⟩ := hfit
  refine ⟨source.group, ?_, List.mem_map_of_mem (List.mem_of_find?_eq_some hsource), ?_, ?_, ?_, rfl⟩
  · rw [Policy.groupOf, hsource]
    rfl
  · refine ⟨⟨hpolicy, hstock⟩, ⟨hslot, hms⟩, ⟨by omega, by omega⟩, ⟨hexpiresSlot, hexpiresMs⟩, ?_, ?_⟩
    · dsimp only
      omega
    · dsimp only
      omega
  · dsimp only
    omega
  · refine ⟨_, _, rfl, ?_, hreplay, rfl⟩
    rw [Services.digest, hbytes]
    rfl

/-- What the first observations have staged. -/
structure Reads (services : Services) (e : Engine) (stockHash : Key) (slot nowMs : ℕ)
    (xs : List SignedObservation) (st : Staged) : Prop where
  fit : ∀ x ∈ xs, Fit e stockHash slot nowMs st.expiresSlot st.expiresMs x.observation
  next : Tells (Accepts services) e.latest (xs.map SignedObservation.observation) st.next
  hulls : ∀ g ∈ st.groups, Hull e.policy xs g
  configured : ∀ g ∈ st.groups, g.group ∈ e.policy.sources.map Source.group
  covered : ∀ x ∈ xs, ∃ g ∈ st.groups, e.policy.groupOf x.observation.sourceId = some g.group

/-- A hull of other observations. -/
theorem Hull.append_of_ne {policy : Policy} {xs : List SignedObservation} {g : Interval}
    {x : SignedObservation} (h : Hull policy xs g)
    (hne : policy.groupOf x.observation.sourceId ≠ some g.group) : Hull policy (xs ++ [x]) g where
  low := by
    obtain ⟨y, hy, hlow⟩ := h.low
    exact ⟨y, List.mem_append_left _ hy, hlow⟩
  high := by
    obtain ⟨y, hy, hhigh⟩ := h.high
    exact ⟨y, List.mem_append_left _ hy, hhigh⟩
  holds y hy hgroup := by
    rw [List.mem_append, List.mem_singleton] at hy
    obtain hy | rfl := hy
    · exact h.holds y hy hgroup
    · exact absurd hgroup hne

/-- A hull after one more observation of its group. -/
theorem Hull.widened {policy : Policy} {xs : List SignedObservation} {groups : Table Interval.group}
    {group : ℕ} {x : SignedObservation} (hhulls : ∀ g ∈ groups, Hull policy xs g)
    (hcovered : ∀ x ∈ xs, ∃ g ∈ groups, policy.groupOf x.observation.sourceId = some g.group)
    (hgroup : policy.groupOf x.observation.sourceId = some group) :
    Hull policy (xs ++ [x]) (widen groups group x.observation) := by
  have hlast : x ∈ xs ++ [x] := List.mem_append_right _ List.mem_cons_self
  unfold widen
  cases hfind : groups.find group with
  | none =>
    have hfirst : ∀ y ∈ xs, policy.groupOf y.observation.sourceId ≠ some group := by
      intro y hy hsame
      obtain ⟨g, hg, hyg⟩ := hcovered y hy
      rw [hsame, Option.some.injEq] at hyg
      exact Table.find_eq_none.mp hfind g hg hyg.symm
    refine ⟨⟨x, hlast, hgroup, rfl⟩, ⟨x, hlast, hgroup, rfl⟩, fun y hy hsame => ?_⟩
    rw [List.mem_append, List.mem_singleton] at hy
    obtain hy | rfl := hy
    · exact absurd hsame (hfirst y hy)
    · exact ⟨le_rfl, le_rfl⟩
  | some g =>
    obtain ⟨hg, rfl⟩ := Table.find_eq_some.mp hfind
    have hull := hhulls g hg
    constructor
    case low =>
      obtain ⟨y, hy, hsame, hlow⟩ := hull.low
      obtain hle | hle := le_total g.low x.observation.lowQ32
      · exact ⟨y, List.mem_append_left _ hy, hsame, hlow.trans (min_eq_left hle).symm⟩
      · exact ⟨x, hlast, hgroup, (min_eq_right hle).symm⟩
    case high =>
      obtain ⟨y, hy, hsame, hhigh⟩ := hull.high
      obtain hle | hle := le_total g.high x.observation.highQ32
      · exact ⟨x, hlast, hgroup, (max_eq_right hle).symm⟩
      · exact ⟨y, List.mem_append_left _ hy, hsame, hhigh.trans (max_eq_left hle).symm⟩
    case holds =>
      intro y hy hsame
      rw [List.mem_append, List.mem_singleton] at hy
      obtain hy | rfl := hy
      · obtain ⟨hlow, hhigh⟩ := hull.holds y hy hsame
        exact ⟨(min_le_left _ _).trans hlow, hhigh.trans (le_max_left _ _)⟩
      · exact ⟨min_le_right _ _, le_max_right _ _⟩

theorem group_widen (groups : Table Interval.group) (group : ℕ) (o : Observation) :
    (widen groups group o).group = group := by
  unfold widen
  split <;> rfl

theorem Reads.stage {xs : List SignedObservation} {st st' : Staged} {x : SignedObservation} {group : ℕ}
    (h : Reads services e stockHash slot nowMs xs st)
    (hstages : Stages services e stockHash slot nowMs st x.observation group st') :
    Reads services e stockHash slot nowMs (xs ++ [x]) st' := by
  constructor
  case fit =>
    intro y hy
    rw [List.mem_append, List.mem_singleton] at hy
    obtain hy | rfl := hy
    · exact (h.fit y hy).mono hstages.expires.1 hstages.expires.2
    · exact hstages.fit
  case next =>
    rw [List.map_append]
    exact h.next.tail hstages.next
  case hulls =>
    intro g hg
    rw [hstages.groups, Table.mem_insert, group_widen] at hg
    obtain rfl | ⟨hg, hne⟩ := hg
    · exact Hull.widened h.hulls h.covered hstages.grouped
    · refine (h.hulls g hg).append_of_ne fun hsame => ?_
      rw [hstages.grouped, Option.some.injEq] at hsame
      exact hne hsame.symm
  case configured =>
    intro g hg
    rw [hstages.groups, Table.mem_insert] at hg
    obtain rfl | ⟨hg, -⟩ := hg
    · rw [group_widen]
      exact hstages.configured
    · exact h.configured g hg
  case covered =>
    intro y hy
    rw [List.mem_append, List.mem_singleton] at hy
    obtain hy | rfl := hy
    · obtain ⟨g, hg, hgroup⟩ := h.covered y hy
      by_cases hsame : g.group = group
      · refine ⟨_, hstages.groups ▸ Table.mem_insert_self _ _, ?_⟩
        rw [hgroup, group_widen, hsame]
      · refine ⟨g, ?_, hgroup⟩
        rw [hstages.groups, Table.mem_insert, group_widen]
        exact .inr ⟨hg, hsame⟩
    · refine ⟨_, hstages.groups ▸ Table.mem_insert_self _ _, ?_⟩
      rw [group_widen, hstages.grouped]

theorem reads_of_foldlM {xs : List SignedObservation} {expiresSlot expiresMs : ℕ} {st : Staged}
    (h : xs.foldlM (e.stage services stockHash slot nowMs)
      ⟨.empty, e.latest, [], .empty, expiresSlot, expiresMs⟩ = .ok st) :
    Reads services e stockHash slot nowMs xs st := by
  induction xs using List.reverseRecOn generalizing st with
  | nil =>
    cases h
    exact ⟨fun _ hx => absurd hx List.not_mem_nil, .refl, fun g hg => absurd hg (Table.notMem_empty g),
      fun g hg => absurd hg (Table.notMem_empty g), fun _ hx => absurd hx List.not_mem_nil⟩
  | append_singleton xs x ih =>
    rw [List.foldlM_append] at h
    obtain ⟨st₁, hinit, hlast⟩ := bind_eq_ok.mp h
    obtain ⟨st₂, hstage, hpure⟩ := bind_eq_ok.mp hlast
    cases hpure
    obtain ⟨group, hstages⟩ := stages_of_ok hstage
    exact (ih hinit).stage hstages

/-! ## Decisions -/

/-- What a decision rests on. -/
structure Decides (e : Engine) (xs : List SignedObservation) (slot nowMs : ℕ) (d : Decision) : Prop where
  hulls : ∃ intervals, consensus intervals e.policy.faultyGroups e.policy.maxWidthBps = .ok d.band ∧
    (intervals.map Interval.group).Nodup ∧
    (∀ group, group ∈ intervals.map Interval.group ↔ group ∈ e.policy.sources.map Source.group) ∧
    ∀ g ∈ intervals, Hull e.policy xs g
  fit : ∀ x ∈ xs, Fit e d.stockHash slot nowMs d.expiresSlot d.expiresMs x.observation

/-- The observations of an evaluation that succeeded. -/
theorem decides_of_ok {context : StockContext} {xs : List SignedObservation} {d : Decision}
    {next : Table Watermark.source} (hgroups : e.groups = groupsOf e.policy.sources)
    (h : e.decide services context xs slot nowMs = .ok (d, next)) :
    Decides e xs slot nowMs d ∧
      Tells (Accepts services) e.latest (xs.map SignedObservation.observation) next ∧
      ∀ clock ∈ e.lastClock, clock.1 ≤ slot ∧ clock.2 ≤ nowMs := by
  simp only [Engine.decide, bind_eq_ok, refuse_eq_ok, not_not] at h
  obtain ⟨stockHash, hbind, st, hfold, _, hlength, band, hband, commitment, -, hout⟩ := h
  cases hout
  have hreads := reads_of_foldlM hfold
  have hconsensus : consensus st.groups.rows e.policy.faultyGroups e.policy.maxWidthBps = .ok band := by
    unfold admissible at hband
    split at hband
    · next heq =>
      cases hband
      exact heq
    all_goals cases hband
  have hnodup := st.groups.nodup_keys
  refine ⟨⟨⟨st.groups.rows, hconsensus, hnodup, ?_, hreads.hulls⟩, hreads.fit⟩, hreads.next, ?_⟩
  · -- as many hulls as groups, and each of a configured group
    have hsubset : (st.groups.rows.map Interval.group).toFinset ⊆ groupsOf e.policy.sources := by
      intro group hgroup
      obtain ⟨g, hg, rfl⟩ := List.mem_map.mp (List.mem_toFinset.mp hgroup)
      exact List.mem_toFinset.mpr (hreads.configured g hg)
    have hcard : (st.groups.rows.map Interval.group).toFinset.card = (groupsOf e.policy.sources).card := by
      rw [List.toFinset_card_of_nodup hnodup, List.length_map, hlength, hgroups]
    have hsame := Finset.eq_of_subset_of_card_le hsubset hcard.ge
    intro group
    rw [← List.mem_toFinset, hsame, groupsOf, List.mem_toFinset]
  · simp only [Engine.bind, bind_eq_ok, refuse_eq_ok, not_or, not_exists, not_and, Nat.not_lt] at hbind
    obtain ⟨_, hclock, -⟩ := hbind
    exact hclock.2.2

/-! ## Runs -/

/-- What the calls of a run did. -/
inductive Event
  | accepted (o : Observation)
  | evaluated (slot nowMs : ℕ)

/-- What an evaluation tells. -/
def evaluated (xs : List SignedObservation) (slot nowMs : ℕ) : Answer Decision → List Event
  | .ok _ => xs.map (fun x => .accepted x.observation) ++ [.evaluated slot nowMs]
  | .error _ => []

/-- A call, or a restart of an engine of the same policy that restores the watermarks. -/
inductive Engine.Step (services : Services) : Engine → List Event → Engine → Prop
  | evaluate (e : Engine) (context : StockContext) (xs : List SignedObservation) (slot nowMs : ℕ) :
      Step services e (evaluated xs slot nowMs (e.evaluate services context xs slot nowMs).1)
        (e.evaluate services context xs slot nowMs).2
  | restart (e fresh restored : Engine) (hnew : Engine.new services e.policy = .ok fresh)
      (hrestore : fresh.restoreWatermarks e.watermarks = (.ok (), restored)) :
      Step services e [] restored

/-- The accepted observations of a history. -/
def observations (log : List Event) : List Observation :=
  log.filterMap fun
    | .accepted o => some o
    | .evaluated _ _ => none

/-- The clocks of the evaluations of a history. -/
def clocks (log : List Event) : List (ℕ × ℕ) :=
  log.filterMap fun
    | .accepted _ => none
    | .evaluated slot nowMs => some (slot, nowMs)

theorem observations_evaluated (log : List Event) (xs : List SignedObservation) (slot nowMs : ℕ)
    (d : Decision) : observations (log ++ evaluated xs slot nowMs (.ok d)) =
      observations log ++ xs.map SignedObservation.observation := by
  simp [observations, evaluated, List.filterMap_append, List.filterMap_map]

theorem clocks_evaluated (log : List Event) (xs : List SignedObservation) (slot nowMs : ℕ) (d : Decision) :
    clocks (log ++ evaluated xs slot nowMs (.ok d)) = clocks log ++ [(slot, nowMs)] := by
  simp [clocks, evaluated, List.filterMap_append, List.filterMap_map]

/-- What holds of an engine after a history. -/
structure Invariant (services : Services) (start : Engine) (log : List Event) (e : Engine) : Prop where
  same : e = { start with latest := e.latest, lastClock := e.lastClock }
  follows : Follows services (observations log) e.latest
  clocks : (clocks log).Pairwise fun a b => a.1 ≤ b.1 ∧ a.2 ≤ b.2
  last : ∀ clock ∈ Fair.clocks log, ∃ last ∈ e.lastClock, clock.1 ≤ last.1 ∧ clock.2 ≤ last.2

/-- An engine is built as its policy says. -/
theorem new_eq_ok {policy : Policy} (h : Engine.new services policy = .ok e) :
    e.policy = policy ∧ e.groups = groupsOf policy.sources := by
  simp only [Engine.new, bind_eq_ok] at h
  obtain ⟨_, -, _, -, _, -, _, -, _, -, _, -, _, -, hout⟩ := h
  cases hout
  exact ⟨rfl, rfl⟩

/-- Restoring its own watermarks into a fresh engine gives the engine back. -/
theorem restored_eq {start fresh restored : Engine} {policy : Policy}
    (hstart : Engine.new services policy = .ok start)
    (hsame : e = { start with latest := e.latest, lastClock := e.lastClock })
    (hnew : Engine.new services e.policy = .ok fresh)
    (hrestore : fresh.restoreWatermarks e.watermarks = (.ok (), restored)) : restored = e := by
  have hpolicy : e.policy = policy := by
    rw [hsame]
    exact (new_eq_ok hstart).1
  rw [hpolicy, hstart] at hnew
  cases hnew
  unfold Engine.restoreWatermarks at hrestore
  dsimp only at hrestore
  split at hrestore
  · cases hrestore
  · cases hrestore
    exact hsame.symm

/-- An evaluation that fails changes nothing. -/
theorem evaluate_of_error {context : StockContext} {xs : List SignedObservation} {message : String}
    (h : (e.evaluate services context xs slot nowMs).1 = .error message) :
    (e.evaluate services context xs slot nowMs).2 = e := by
  unfold Engine.evaluate at h ⊢
  split at h
  · rfl
  · cases h

/-- An evaluation fails and changes nothing, or stores what it has staged. -/
theorem evaluate_cases (services : Services) (e : Engine) (context : StockContext)
    (xs : List SignedObservation) (slot nowMs : ℕ) :
    (∃ message, e.evaluate services context xs slot nowMs = (.error message, e)) ∨
      ∃ d next, e.decide services context xs slot nowMs = .ok (d, next) ∧
        e.evaluate services context xs slot nowMs =
          (.ok d, { e with latest := next, lastClock := some (slot, nowMs) }) := by
  unfold Engine.evaluate
  cases hdecide : e.decide services context xs slot nowMs with
  | error message => exact .inl ⟨message, rfl⟩
  | ok x => exact .inr ⟨x.1, x.2, rfl, rfl⟩

theorem Invariant.groups {start : Engine} {policy : Policy} {log : List Event}
    (h : Invariant services start log e) (hstart : Engine.new services policy = .ok start) :
    e.policy = policy ∧ e.groups = groupsOf e.policy.sources := by
  obtain ⟨hpolicy, hgroups⟩ := new_eq_ok hstart
  rw [h.same]
  exact ⟨hpolicy, by rw [hgroups, hpolicy]⟩

theorem Invariant.step {start e' : Engine} {policy : Policy} {log events : List Event}
    (hstart : Engine.new services policy = .ok start) (h : Invariant services start log e)
    (hstep : Engine.Step services e events e') : Invariant services start (log ++ events) e' := by
  cases hstep with
  | evaluate context xs slot nowMs =>
    obtain ⟨message, heq⟩ | ⟨d, next, hdecide, heq⟩ := evaluate_cases services e context xs slot nowMs
    · rw [heq]
      simpa [evaluated] using h
    obtain ⟨-, htells, hclock⟩ := decides_of_ok (h.groups hstart).2 hdecide
    rw [heq]
    constructor
    case same =>
      dsimp only
      rw [h.same]
    case follows =>
      rw [observations_evaluated]
      exact h.follows.tells htells
    case clocks =>
      rw [clocks_evaluated]
      refine List.pairwise_append.mpr ⟨h.clocks, List.pairwise_singleton _ _, fun a ha b hb => ?_⟩
      rw [List.mem_singleton.mp hb]
      obtain ⟨last, hlast, hle⟩ := h.last a ha
      exact ⟨hle.1.trans (hclock last hlast).1, hle.2.trans (hclock last hlast).2⟩
    case last =>
      intro clock hmem
      rw [clocks_evaluated, List.mem_append, List.mem_singleton] at hmem
      refine ⟨(slot, nowMs), rfl, ?_⟩
      obtain hmem | rfl := hmem
      · obtain ⟨last, hlast, hle⟩ := h.last clock hmem
        exact ⟨hle.1.trans (hclock last hlast).1, hle.2.trans (hclock last hlast).2⟩
      · exact ⟨le_rfl, le_rfl⟩
  | restart fresh restored hnew hrestore =>
    rw [List.append_nil, restored_eq hstart h.same hnew hrestore]
    exact h

/-- The fair-price engine, over all runs. -/
theorem fair_engine {policy : Policy} {start : Engine} {log : List Event}
    (hstart : Engine.new services policy = .ok start)
    (hrun : Tells (Engine.Step services) start log e) :
    ((observations log).Pairwise fun a b => a.sourceId = b.sourceId → a.sequence ≤ b.sequence) ∧
    (∀ a ∈ observations log, ∀ b ∈ observations log, a.sourceId = b.sourceId → a.sequence = b.sequence →
      ∃ digest, services.digest a = .ok digest ∧ services.digest b = .ok digest) ∧
    (∀ a ∈ observations log, ∃ w, e.latest.find a.sourceId = some w ∧ a.sequence ≤ w.sequence) ∧
    ((clocks log).Pairwise fun a b => a.1 ≤ b.1 ∧ a.2 ≤ b.2) ∧
    (∀ context xs slot nowMs d, (e.evaluate services context xs slot nowMs).1 = .ok d →
      Decides e xs slot nowMs d) ∧
    (∀ context xs slot nowMs message, (e.evaluate services context xs slot nowMs).1 = .error message →
      (e.evaluate services context xs slot nowMs).2.watermarks = e.watermarks) := by
  have hinv : Invariant services start log e := by
    refine Tells.invariant (I := Invariant services start) hrun ?_ fun _ _ _ _ h => h.step hstart
    exact ⟨rfl, .nil _, .nil, fun _ h => absurd h List.not_mem_nil⟩
  refine ⟨hinv.follows.ordered, hinv.follows.agree, ?_, hinv.clocks, ?_, ?_⟩
  · intro a ha
    obtain ⟨w, hw, hle, -⟩ := hinv.follows.known a ha
    exact ⟨w, hw, hle⟩
  · intro context xs slot nowMs d hd
    obtain ⟨message, heq⟩ | ⟨d', next, hdecide, heq⟩ := evaluate_cases services e context xs slot nowMs
    · rw [heq] at hd
      cases hd
    · rw [heq] at hd
      cases hd
      exact (decides_of_ok (hinv.groups hstart).2 hdecide).1
  · intro context xs slot nowMs message herror
    rw [evaluate_of_error herror]

/-! ## An evaluation -/

/-- A source of the example: its text, key, the digest of its observation and the signature. -/
structure ExampleSource where
  text : String
  key : ℕ
  digest : ℕ
  signature : String

def exampleSources : List ExampleSource := [
  ⟨"GhFJh9xhWQULf6W1WJLNTViiTWEs4wAj3FevZ616wxL2",
    0xe92eb6054fe9bc682a1bcf3b759f65ab38a4cfbd81c4d1f3342e4cc9cded8b0b,
    0x366f615f700886b82ee7f593c6daf9c60f8f2fd80753e409944eb6b4e534b604,
    "2scSFy6vZuxvRAxRpAxmf8VvpFnJGcXuac95P8TixhF9yHhNyv9BoNFmeF1i281QrbQ1FgUjSnRMKJw6wtVozEKW"⟩,
  ⟨"HqznL4EpJTbWZmqqetb4sJPftBUN1s6uNdQURBAfAsBr",
    0xfa4834147f6e690c3693eff61336046403cd8ae2a14f31b3c407358569239565,
    0x2b55088955caffe0e7030c289652ba7e73892b20c5392147cef644bc055e1432,
    "5QriAJLFBi5PdgethRjmUggVA1dgcKEm4uumUtTZiEyDAnYWTvCgcchKxZC5woVbTPCFQQ1fYJd7A467fMCeG4EU"⟩,
  ⟨"2iXtA8oeZqUU5pofxK971TCEvFGfems2AcDRaZHKD2pQ",
    0x197f6b23e16c8532c6abc838facd5ea789be0c76b2920334039bfa8b3d368d61,
    0xb795cfaad784312127051aa2753d02877121ba2b3c4b95dfd0c112446381b24b,
    "YBfdjE1NLXuB1ShmePMJ613nUGvzUoEi3Br42YH3g2NqiP2HnHceK6VRNGzKzigKa32rtNax2gr33WFKB63PhFB"⟩]

def exampleBase : String := "4vJ9JU1bJJE96FWSJKvHsmmFADCg4gpZQff4P3bkLKi"

def exampleQuote : String := "8qbHbw2BbbTHBW1sbeqakYXVKRQM8Ne7pLK7m6CVfeR"

/-- A key as JSON. -/
def keyJson (k : Key) : String := "[" ++ ",".intercalate (k.toList.map fun b => toString b.toNat) ++ "]"

/-- The signed bytes of an observation. -/
def observationBytes (o : Observation) : List UInt8 :=
  "SKEW_EXECUTION_INTERVAL_V1\x00".toUTF8.toList ++ "\x7b\"source_id\":".toUTF8.toList ++
    (toString o.sourceId).toUTF8.toList ++ (",\"policy_hash\":" ++ keyJson o.policyHash ++
      ",\"stock_state_hash\":" ++ keyJson o.stockStateHash ++ s!",\"sequence\":{o.sequence}" ++
      s!",\"slot\":{o.slot},\"observed_ms\":{o.observedMs},\"expires_slot\":{o.expiresSlot}" ++
      s!",\"expires_ms\":{o.expiresMs},\"low_q32\":{o.lowQ32},\"high_q32\":{o.highQ32}\x7d").toUTF8.toList

/-- The functions of the other crates, on the inputs of the example. -/
def exampleServices : Services where
  key text :=
    if text = exampleBase then .ok (.ofFn fun _ => 1)
    else if text = exampleQuote then .ok (.ofFn fun _ => 2)
    else present ((exampleSources.find? fun x => x.text = text).map fun x => Key.ofNat x.key) "public key"
  verifyingKey _ := .ok ()
  hashPolicy _ := .ok (Key.ofNat 0x8766b22490da441813686951286d7c606863d38e9209235029b1dba1d98e7af5)
  hashStockPolicy _ := .ok (Key.ofNat 0xfd502dcb570f117652f24072af3ade0f26d4d998eeac84714fc3469e46aa3c60)
  hashDecision _ _ _ _ _ _ :=
    .ok (Key.ofNat 0xf874f6d99c15b7698763682ea5d00b5050975c1ac58fab82b90a01341d6d4033)
  verifyContext _ _ := .ok (Key.ofNat 0xcfaa610be2bceae4d5025d876322c051cdf686edea02c927be8f136be956c2e3)
  signingBytes o := .ok (observationBytes o)
  verifySignature key _ text :=
    refuse (¬∃ x ∈ exampleSources, Key.ofNat x.key = key ∧ x.signature = text) "interval signature"
  sha256 bytes :=
    -- the digit of the source
    let source := (bytes.getD 40 0).toNat - '0'.toNat
    Key.ofNat ((exampleSources[source]?.map ExampleSource.digest).getD 0)

def examplePolicy : Policy where
  instrument := "NVDA"
  issuer := "fixture-issuer"
  baseMint := exampleBase
  quoteMint := exampleQuote
  version := 3
  stockPolicyHash := Key.ofNat 0xfd502dcb570f117652f24072af3ade0f26d4d998eeac84714fc3469e46aa3c60
  sources := exampleSources.zipIdx.map fun x => ⟨x.2, x.2, x.1.text⟩
  faultyGroups := 1
  maxAgeSlots := 2
  maxAgeMs := 1000
  maxWidthBps := 2000

def exampleContext : StockContext where
  policy := ⟨"NVDA", 3, "F25s3DdjXdCxYBhh2z8FBusVEMT4b9bGNFVKJi3wFoF4", exampleQuote,
    [⟨exampleBase, "fixture-issuer", false⟩], 2⟩
  state := ⟨"NVDA", 3, 8, 100, 102, true, [⟨exampleBase, true, true, true, false⟩]⟩
  signature := "csRNi6tvqkUgyENSSaAecFruwbTGxjPBFFCfhbVz7ciEYhn3h9pFqazNXvZnjoJTPP4VrNa6cfnnxYppAac8zwY"

/-- The observation of a source. -/
def exampleObservation (source low high : ℕ) : SignedObservation where
  observation := {
    sourceId := source
    policyHash := Key.ofNat 0x8766b22490da441813686951286d7c606863d38e9209235029b1dba1d98e7af5
    stockStateHash := Key.ofNat 0xcfaa610be2bceae4d5025d876322c051cdf686edea02c927be8f136be956c2e3
    sequence := 1
    slot := 100
    observedMs := 10000
    expiresSlot := 102
    expiresMs := 10900
    lowQ32 := low * scale
    highQ32 := high * scale }
  signature := (exampleSources[source]?.map ExampleSource.signature).getD ""

/-- The intervals of three sources. -/
def exampleObservations : List SignedObservation :=
  [exampleObservation 0 100 102, exampleObservation 1 101 103, exampleObservation 2 100 103]

/-- The engine of the policy. -/
def exampleEngine : Engine where
  policy := examplePolicy
  policyHash := Key.ofNat 0x8766b22490da441813686951286d7c606863d38e9209235029b1dba1d98e7af5
  keys := exampleSources.map fun x => Key.ofNat x.key
  groups := groupsOf examplePolicy.sources
  latest := .empty
  lastClock := none

theorem exampleEngine_new : Engine.new exampleServices examplePolicy = .ok exampleEngine := by
  have hbase : exampleServices.key examplePolicy.baseMint = .ok (.ofFn fun _ => 1) := by decide
  have hquote : exampleServices.key examplePolicy.quoteMint = .ok (.ofFn fun _ => 2) := by decide
  have hkeys : examplePolicy.sources.foldlM (addSource exampleServices) ([], []) =
      .ok ([2, 1, 0], exampleSources.map fun x => Key.ofNat x.key) := by decide
  simp only [Engine.new, hbase, hquote, hkeys, ok_bind]
  rw [refuse_of_not (by decide), refuse_of_not (by decide),
    refuse_of_not (by decide)]
  rfl

/-- One observation of each source is accepted. -/
theorem fair_engine_example : ∃ log e, Tells (Engine.Step exampleServices) exampleEngine log e ∧
    observations log = exampleObservations.map SignedObservation.observation ∧
    ∀ a ∈ observations log, ∃ w, e.latest.find a.sourceId = some w ∧ a.sequence ≤ w.sequence := by
  have hok : ((exampleEngine.evaluate exampleServices exampleContext exampleObservations 101 10500).1).isOk =
      true := by
    decide
  obtain ⟨d, hd⟩ := exists_of_isOk hok
  have hrun := Tells.single
    (@Engine.Step.evaluate exampleServices exampleEngine exampleContext exampleObservations 101 10500)
  refine ⟨_, _, hrun, ?_, (fair_engine exampleEngine_new hrun).2.2.1⟩
  rw [hd]
  exact observations_evaluated [] exampleObservations 101 10500 d

end StockMesh.Host.Fair

import StockMesh.Compiler.Envelope
import StockMesh.Foundation.Alongside
import StockMesh.Reflow.Fresh
import StockMesh.Reflow.Safety

/-! # The caches of the executor

`execute` and `executeFresh` run side by side on the same host. Every cached curve is the curve of the
cached snapshot and the tape is the tape of the cached curves, whatever a turn skips; so both read,
invoke and settle alike as long as the tape covers the venues of the turn. A turn that is not covered
reaches the search with a tape that does not match. -/

namespace StockMesh

open Budgeted Stateful Function

variable {σ : Type}

/-! ## Worlds side by side -/

/-- The same host and calls. -/
structure Halted (w w' : World σ) : Prop where
  host_eq : w'.host = w.host
  calls_eq : w'.calls = w.calls

/-- The same host and calls, and `k` units of work left to both. -/
structure Beside (k : ℕ) (w w' : World σ) : Prop extends Halted w w' where
  left : w.meter.used + k ≤ w.meter.limit
  left' : w'.meter.used + k ≤ w'.meter.limit
  limit_lt : w.meter.limit < u32Size
  limit_lt' : w'.meter.limit < u32Size

theorem Beside.mono {k l : ℕ} {w w' : World σ} (h : Beside k w w') (hl : l ≤ k) : Beside l w w' :=
  ⟨h.toHalted, by have := h.left; omega, by have := h.left'; omega, h.limit_lt, h.limit_lt'⟩

/-- Both ask the host the same. -/
theorem Beside.ask {α : Type} {k : ℕ} {w w' : World σ} (h : Beside k w w') (run : σ → α × σ)
    (record : α → Call) :
    Meets (fun a w₁ b w₂ => b = a ∧ run w.host = (a, w₁.host) ∧ Beside k w₁ w₂) Halted
      (StockMesh.ask run record w) (StockMesh.ask run record w') := by
  unfold StockMesh.ask
  rw [h.host_eq, h.calls_eq]
  exact .ok ⟨rfl, rfl, ⟨⟨rfl, rfl⟩, h.left, h.left', h.limit_lt, h.limit_lt'⟩⟩

/-- Both ask the host the same, and an error of the host ends both. -/
theorem Beside.ask_lift {α : Type} {k : ℕ} {w w' : World σ} (h : Beside k w w')
    (run : σ → Result α × σ) (record : Result α → Call) :
    Meets (fun a w₁ b w₂ => b = a ∧ run w.host = (.ok a, w₁.host) ∧ Beside k w₁ w₂) Halted
      ((StockMesh.ask run record >>= fun answer => (lift answer : Exec σ α)) w)
      ((StockMesh.ask run record >>= fun answer => (lift answer : Exec σ α)) w') := by
  apply (h.ask run record).bind
  rintro r w₁ _ w₂ - - ⟨rfl, hrun, hw⟩
  apply Meets.lift
  · rintro a rfl
    exact ⟨rfl, hrun, hw⟩
  · exact hw.toHalted

/-- Both do work with the same result. -/
theorem Beside.work {α : Type} {n k : ℕ} {w w' : World σ} (h : Beside (n + k) w w')
    {x y : Metered α} {r : Result α} (hx : RunsTo x n r) (hy : RunsTo y n r) :
    Meets (fun a w₁ b w₂ => b = a ∧ r = .ok a ∧ w₁.host = w.host ∧ Beside k w₁ w₂) Halted
      (StockMesh.work x w) (StockMesh.work y w') := by
  obtain ⟨i, hi, hxm⟩ := hx.enough w.meter (by have := h.left; omega) h.limit_lt
  obtain ⟨j, hj, hym⟩ := hy.enough w'.meter (by have := h.left'; omega) h.limit_lt'
  unfold StockMesh.work
  rw [hxm, hym]
  have hleft := h.left
  have hleft' := h.left'
  cases r with
  | error e => exact .error ⟨h.host_eq, h.calls_eq⟩
  | ok a =>
    refine .ok ⟨rfl, rfl, rfl, ⟨h.host_eq, h.calls_eq⟩, ?_, ?_, h.limit_lt, h.limit_lt'⟩
    · show w.meter.used + i + k ≤ w.meter.limit
      omega
    · show w'.meter.used + j + k ≤ w'.meter.limit
      omega

/-- Only the second one works. -/
theorem Beside.work_right {α : Type} {n k : ℕ} {w w' : World σ} (h : Beside (n + k) w w')
    {y : Metered α} {a : α} (hy : RunsTo y n (.ok a)) :
    ∃ w₂, StockMesh.work y w' = (.ok a, w₂) ∧ Beside k w w₂ := by
  obtain ⟨j, hj, hym⟩ := hy.enough w'.meter (by have := h.left'; omega) h.limit_lt'
  have hleft := h.left
  have hleft' := h.left'
  refine ⟨{ w' with meter := w'.meter.spend j }, ?_, ⟨h.host_eq, h.calls_eq⟩, ?_, ?_, h.limit_lt,
    h.limit_lt'⟩
  · unfold StockMesh.work
    rw [hym]
  · omega
  · show w'.meter.used + j + k ≤ w'.meter.limit
    omega

/-! ## Matching tapes -/

theorem length_slice {α : Type} {n : ℕ} (hn : n ≤ maxEdges) (array : Edge → α) :
    (slice n array).length = n := by
  rw [slice, List.length_take, List.length_ofFn]
  exact Nat.min_eq_left hn

theorem curveAt_slice {n : ℕ} (curves : Edge → Curve) {i : Edge} (hi : i.val < n) :
    curveAt (slice n curves) i = curves i := by
  rw [curveAt, slice, List.getD_eq_getElem?_getD, List.getElem?_take_of_lt hi, List.getElem?_ofFn]
  simp

/-- A curve agrees with its own prefix sums. -/
theorem matchBands_self {c : Curve} (hc : c.Valid) {ix : IndexedCurve} (hix : Indexed c ix) {j : ℕ}
    (hj : j ≤ c.len) :
    ResidualTape.matchBands ix (c.bands.drop j) j (ix.capacity j) = some c.capacity := by
  obtain ⟨d, hd⟩ : ∃ d, d = c.len - j := ⟨_, rfl⟩
  induction d generalizing j with
  | zero =>
    obtain rfl : j = c.len := by omega
    rw [bands_drop_of_le le_rfl, ResidualTape.matchBands, hix.capacity_eq _ le_rfl,
      List.take_of_length_le hc.length_bands.le, hc.capacity_eq]
  | succ d ih =>
    have hlt : j < c.len := by omega
    have hsum : ix.capacity (j + 1) = ix.capacity j + (bandAt c j).inputCapacity := by
      rw [hix.capacity_eq (j + 1) hlt, hix.capacity_eq j hj, bands_take_succ hc hlt,
        Bands.total_append]
      simp
    -- the running capacity stays within the whole, so the sum does not leave the word
    have hfit : ix.capacity (j + 1) < u64Size := by
      have htotal : ix.capacity (j + 1) ≤ Bands.total Segment.inputCapacity c.bands := by
        rw [hix.capacity_eq (j + 1) hlt]
        calc Bands.total Segment.inputCapacity (c.bands.take (j + 1))
            ≤ Bands.total Segment.inputCapacity (c.bands.take (j + 1))
              + Bands.total Segment.inputCapacity (c.bands.drop (j + 1)) := Nat.le_add_right _ _
          _ = Bands.total Segment.inputCapacity c.bands := by
              rw [← Bands.total_append, List.take_append_drop]
      have hcap := hc.capacity_le
      have hmax : maxAtoms < u64Size := by decide
      rw [hc.capacity_eq] at hcap
      omega
    rw [bands_drop hc hlt, ResidualTape.matchBands]
    rw [if_neg (by omega), if_neg (by rw [hix.rates_eq j hlt]; simp [hsum]), ← hsum]
    exact ih hlt (by omega)

/-- A tape matches the curves it was built from exactly on the venues it was built for. -/
theorem ResidualTape.Spec.matches_iff {curves : List Curve} {built eligible : Mask} {L : Merged}
    {t : ResidualTape} (ht : t.Spec curves built L) :
    t.matchesCurves curves eligible = true ↔ eligible.Within built := by
  unfold ResidualTape.matchesCurves
  rw [decide_eq_true_eq, ht.edges_eq, ht.mask_eq]
  constructor
  · exact fun h => h.2.1
  · refine fun h => ⟨rfl, h, fun i _ hi => ?_⟩
    have hbuilt := Mask.within_iff.mp h i hi
    have hvalid := ht.selected.valid i hbuilt
    have hix := ht.indexed i hbuilt
    unfold ResidualTape.matchesVenue
    rw [decide_eq_true_eq]
    refine ⟨hix.len_eq.symm, hvalid.len_le, ?_⟩
    have hself := matchBands_self hvalid hix (Nat.zero_le _)
    rwa [hix.capacity_eq 0 (Nat.zero_le _), List.take_zero, Bands.total_nil, List.drop_zero] at hself

/-- Searching two matching tapes over the same curves is the same. -/
theorem search_tapes_runs {curves c₀ c₁ : List Curve} {b₀ b₁ eligible : Mask} {L₀ L₁ : Merged}
    {t₀ t₁ : ResidualTape} (h₀ : t₀.Spec c₀ b₀ L₀) (h₁ : t₁.Spec c₁ b₁ L₁)
    (hm₀ : t₀.matchesCurves curves eligible = true) (hm₁ : t₁.matchesCurves curves eligible = true)
    (snapshots : List Snapshot) (amount legLimit : ℕ) :
    ∃ r, RunsTo (searchTape snapshots curves t₀ amount eligible legLimit)
        (searchCost allocateCost) r ∧
      RunsTo (searchTape snapshots curves t₁ amount eligible legLimit) (searchCost allocateCost) r := by
  obtain ⟨htape₀, href₀⟩ := search_runs h₀ hm₀ snapshots amount legLimit
  obtain ⟨htape₁, href₁⟩ := search_runs h₁ hm₁ snapshots amount legLimit
  -- both are the reference search, which has one result
  have heq := href₀.unique href₁ (by decide) (by decide)
  refine ⟨_, htape₀, ?_⟩
  rw [heq]
  exact htape₁

/-! ## The scan -/

section Scan

variable {host : ExecutionHost σ} {pins : List EdgePin} {intent : Intent} {limits : Limits}
  {slot : ℕ} {st : Progress} {reads : List (Edge × Snapshot)} {scan scan' : PinScan} {i : Edge}
  {s : Snapshot}

/-- What a turn may rely on when it starts. -/
structure Cached (pins : List EdgePin) (intent : Intent) (st : Progress) : Prop where
  curves : ∀ i, (st.curves i).len ≠ 0 → CompiledFrom intent (st.snapshots i) (st.curves i)
  tape : ∀ t, st.tape = some t → ∃ L, t.Spec (slice pins.length st.curves) t.compiledMask L

/-- What the scan knows after it read some venues. -/
structure Scanning (pins : List EdgePin) (intent : Intent) (slot : ℕ) (st : Progress)
    (reads : List (Edge × Snapshot)) (scan : PinScan) : Prop where
  curves : ∀ i, (scan.curves i).len ≠ 0 → CompiledFrom intent (scan.snapshots i) (scan.curves i)
  compiled : ∀ i, scan.eligible.has i = true → (scan.curves i).len ≠ 0
  read : ∀ i, scan.eligible.has i = true → (i, scan.snapshots i) ∈ reads
  chosen : ∀ i, scan.eligible.has i = true → Candidate pins intent slot st i (scan.snapshots i)
  admitted : ∀ p ∈ reads, Candidate pins intent slot st p.1 p.2 → scan.eligible.has p.1 = true
  clean : scan.dirty = false → st.tape ≠ none ∧ scan.snapshots = st.snapshots ∧
    scan.curves = st.curves ∧
    ∀ p ∈ reads, Candidate pins intent slot st p.1 p.2 → ¬Uncached st p.1 p.2
  soiled : scan.dirty = true → st.tape = none ∨
    ∃ p ∈ reads, Candidate pins intent slot st p.1 p.2 ∧ Uncached st p.1 p.2

/-- Two scans that differ in their counters only. -/
structure SameScan (scan scan' : PinScan) : Prop where
  snapshots_eq : scan'.snapshots = scan.snapshots
  curves_eq : scan'.curves = scan.curves
  eligible_eq : scan'.eligible = scan.eligible

/-- A compiled curve has a band. -/
theorem CompiledFrom.valid {c : Curve} (h : CompiledFrom intent s c) : c.Valid := by
  obtain ⟨r, hrun, -, henvelope⟩ := compile_runs s intent.amountIn
  have heq : r = .ok c := hrun.unique h (by decide) (by decide)
  exact (henvelope c heq).valid

/-- A venue that is no candidate changes nothing. -/
theorem Scanning.skip (h : Scanning pins intent slot st reads scan)
    (hnot : ¬Candidate pins intent slot st i s) :
    Scanning pins intent slot st (reads ++ [(i, s)]) scan := by
  refine ⟨h.curves, h.compiled, fun j hj => List.mem_append_left _ (h.read j hj), h.chosen, ?_, ?_, ?_⟩
  · intro p hp hcand
    rcases List.mem_append.mp hp with hp | hp
    · exact h.admitted p hp hcand
    · rw [List.mem_singleton.mp hp] at hcand
      exact absurd hcand hnot
  · intro hdirty
    obtain ⟨htape, hsnap, hcurves, hcached⟩ := h.clean hdirty
    refine ⟨htape, hsnap, hcurves, fun p hp hcand => ?_⟩
    rcases List.mem_append.mp hp with hp | hp
    · exact hcached p hp hcand
    · rw [List.mem_singleton.mp hp] at hcand
      exact absurd hcand hnot
  · intro hdirty
    apply (h.soiled hdirty).imp_right
    rintro ⟨p, hp, hrest⟩
    exact ⟨p, List.mem_append_left _ hp, hrest⟩

/-- The venues admitted after one more, whether its curve was cached or not. -/
theorem Scanning.admit_read (h : Scanning pins intent slot st reads scan)
    (hcand : Candidate pins intent slot st i s) (scan' : PinScan)
    (hsnap : scan'.snapshots = update scan.snapshots i s)
    (helig : scan'.eligible = scan.eligible ||| Mask.bit i) :
    (∀ j, scan'.eligible.has j = true → (j, scan'.snapshots j) ∈ reads ++ [(i, s)] ∧
      Candidate pins intent slot st j (scan'.snapshots j)) ∧
    ∀ p ∈ reads ++ [(i, s)], Candidate pins intent slot st p.1 p.2 →
      scan'.eligible.has p.1 = true := by
  constructor
  · intro j hj
    rw [helig, Mask.has_or, Mask.has_bit, Bool.or_eq_true, decide_eq_true_eq] at hj
    rw [hsnap]
    by_cases hij : i = j
    · subst hij
      rw [update_self]
      exact ⟨List.mem_append_right _ (List.mem_singleton_self _), hcand⟩
    · have hold := hj.resolve_right hij
      rw [update_of_ne (Ne.symm hij)]
      exact ⟨List.mem_append_left _ (h.read j hold), h.chosen j hold⟩
  · intro p hp hpc
    rw [helig, Mask.has_or, Mask.has_bit, Bool.or_eq_true, decide_eq_true_eq]
    rcases List.mem_append.mp hp with hp | hp
    · exact Or.inl (h.admitted p hp hpc)
    · rw [List.mem_singleton.mp hp]
      exact Or.inr rfl

/-- A candidate whose curve has to be compiled. -/
theorem Scanning.compile (h : Scanning pins intent slot st reads scan)
    (hcand : Candidate pins intent slot st i s)
    (hmiss : (scan.curves i).len = 0 ∨ scan.snapshots i ≠ s) {c : Curve}
    (hc : CompiledFrom intent s c) :
    Scanning pins intent slot st (reads ++ [(i, s)])
      { snapshots := update scan.snapshots i s
        curves := update scan.curves i c
        curvesCompiled := scan.curvesCompiled + 1
        dirty := true
        eligible := scan.eligible ||| Mask.bit i } := by
  obtain ⟨hread, hadmitted⟩ := h.admit_read hcand
    { snapshots := update scan.snapshots i s
      curves := update scan.curves i c
      curvesCompiled := scan.curvesCompiled + 1
      dirty := true
      eligible := scan.eligible ||| Mask.bit i } rfl rfl
  refine ⟨fun j hj => ?_, fun j hj => ?_, fun j hj => (hread j hj).1, fun j hj => (hread j hj).2,
    hadmitted, (fun hdirty => by cases hdirty), fun _ => ?_⟩
  · dsimp only at hj ⊢
    by_cases hij : j = i
    · subst hij
      rw [update_self, update_self]
      exact hc
    · rw [update_of_ne hij] at hj
      rw [update_of_ne hij, update_of_ne hij]
      exact h.curves j hj
  · dsimp only at hj ⊢
    by_cases hij : j = i
    · subst hij
      rw [update_self]
      exact hc.valid.len_pos.ne'
    · rw [update_of_ne hij]
      rw [Mask.has_or, Mask.has_bit, Bool.or_eq_true, decide_eq_true_eq] at hj
      exact h.compiled j (hj.resolve_right (Ne.symm hij))
  · -- the first curve compiled in a turn was missing when the turn started
    rcases hdirty : scan.dirty with _ | _
    · obtain ⟨-, hsnap, hcurves, -⟩ := h.clean hdirty
      rw [hcurves, hsnap] at hmiss
      exact Or.inr ⟨(i, s), List.mem_append_right _ (List.mem_singleton_self _), hcand, hmiss⟩
    · apply (h.soiled hdirty).imp_right
      rintro ⟨p, hp, hrest⟩
      exact ⟨p, List.mem_append_left _ hp, hrest⟩

/-- A candidate whose curve is cached. -/
theorem Scanning.keep (h : Scanning pins intent slot st reads scan)
    (hcand : Candidate pins intent slot st i s) (hlen : (scan.curves i).len ≠ 0)
    (hsnap : scan.snapshots i = s) :
    Scanning pins intent slot st (reads ++ [(i, s)])
      { scan with
        snapshots := update scan.snapshots i s
        eligible := scan.eligible ||| Mask.bit i } := by
  have hsame : update scan.snapshots i s = scan.snapshots := by rw [← hsnap, update_eq_self]
  obtain ⟨hread, hadmitted⟩ := h.admit_read hcand
    { scan with
      snapshots := update scan.snapshots i s
      eligible := scan.eligible ||| Mask.bit i } rfl rfl
  refine ⟨fun j hj => ?_, fun j hj => ?_, fun j hj => (hread j hj).1, fun j hj => (hread j hj).2,
    hadmitted, fun hdirty => ?_, fun hdirty => ?_⟩
  · dsimp only at hj ⊢
    rw [hsame]
    exact h.curves j hj
  · dsimp only at hj ⊢
    rw [Mask.has_or, Mask.has_bit, Bool.or_eq_true, decide_eq_true_eq] at hj
    rcases hj with hj | rfl
    · exact h.compiled j hj
    · exact hlen
  · obtain ⟨htape, hsnaps, hcurves, hcached⟩ := h.clean hdirty
    refine ⟨htape, by rw [← hsnaps]; exact hsame, hcurves, fun p hp hpc => ?_⟩
    rcases List.mem_append.mp hp with hp | hp
    · exact hcached p hp hpc
    · rw [List.mem_singleton.mp hp, Uncached, ← hcurves, ← hsnaps, not_or, not_not]
      exact ⟨hlen, hsnap⟩
  · apply (h.soiled hdirty).imp_right
    rintro ⟨p, hp, hrest⟩
    exact ⟨p, List.mem_append_left _ hp, hrest⟩

/-- Most work of reading one venue. -/
def pinCost : ℕ := 1 + maxSegments * maxSegments

/-- Both read one venue alike. -/
theorem readPin_meets {k : ℕ} {w w' : World σ} (hscan : Scanning pins intent slot st reads scan)
    (hsame : SameScan scan scan') (hw : Beside (pinCost + k) w w') :
    Meets (fun a w₁ b w₂ => ∃ s, host.snapshot i.val w.host = (.ok s, w₁.host) ∧
        ¬Mismatched intent (pinAt pins i) s ∧
        Scanning pins intent slot st (reads ++ [(i, s)]) a ∧ SameScan a b ∧ Beside k w₁ w₂) Halted
      (readPin host pins intent slot st.used st.usedResources scan i w)
      (readPinFresh host pins intent slot st.used st.usedResources scan' i w') := by
  obtain ⟨hsnaps, hcurves, helig⟩ := hsame
  unfold readPin readPinFresh
  apply (Beside.work (n := 1) (k := maxSegments * maxSegments + k)
    (hw.mono (by unfold pinCost; omega)) (runsTo_charge 1) (runsTo_charge 1)).bind
  rintro _ w₁ _ w₂ - - ⟨-, -, hhost, hw₁⟩
  apply (hw₁.ask_lift (host.snapshot i.val) (.snapshot i.val)).bind
  rintro _ w₃ s w₄ - - ⟨rfl, hread, hw₃⟩
  rw [hhost] at hread
  apply (Meets.lift (Q := fun _ w₁ _ w₂ => ¬Mismatched intent (pinAt pins i) s ∧
    w₁.host = w₃.host ∧ Beside (maxSegments * maxSegments + k) w₁ w₂)
    (fun _ hok => ⟨rejectIf_eq_ok.mp hok, rfl, hw₃⟩) hw₃.toHalted).bind
  rintro _ w₅ _ w₆ - - ⟨hmatch, hhost₅, hw₅⟩
  rw [← hhost₅] at hread
  split
  · rename_i hused
    exact Meets.pure ⟨s, hread, hmatch, hscan.skip fun hcand => hcand.1 hused,
      ⟨hsnaps, hcurves, helig⟩, hw₅.mono (by omega)⟩
  rename_i hfree
  split
  · rename_i hgone
    exact Meets.pure ⟨s, hread, hmatch, hscan.skip fun hcand => hcand.2 hgone,
      ⟨hsnaps, hcurves, helig⟩, hw₅.mono (by omega)⟩
  rename_i havail
  have hcand : Candidate pins intent slot st i s := ⟨hfree, havail⟩
  split
  · -- both compile the snapshot
    rename_i hmiss
    obtain ⟨r, hrun, -, -⟩ := compile_runs s intent.amountIn
    apply (hw₅.work hrun hrun).bind
    rintro _ w₇ c w₈ - - ⟨rfl, rfl, hhost₇, hw₇⟩
    refine Meets.pure ⟨s, by rw [hhost₇]; exact hread, hmatch, hscan.compile hcand hmiss hrun,
      ⟨?_, ?_, ?_⟩, hw₇⟩
    · rw [hsnaps]
    · rw [hcurves]
    · rw [helig]
  · -- only the second one compiles, and gets the cached curve again
    rename_i hhit
    rw [not_or, not_not] at hhit
    obtain ⟨hlen, hsnap⟩ := hhit
    have hc : CompiledFrom intent s (scan.curves i) := by
      rw [← hsnap]
      exact hscan.curves i hlen
    obtain ⟨w₇, hwork, hw₇⟩ := hw₅.work_right hc
    rw [Comp.bind_apply_ok hwork]
    refine Meets.pure ⟨s, hread, hmatch, hscan.keep hcand hlen hsnap, ⟨?_, ?_, ?_⟩, hw₇⟩
    · rw [hsnaps]
    · rw [hcurves, update_eq_self]
    · rw [helig]

/-- Both read the pinned venues alike. -/
theorem readPins_meets {st st' : Progress} (hcached : Cached pins intent st) (hused : st'.used = st.used)
    (hresources : st'.usedResources = st.usedResources) (hsnaps : st'.snapshots = st.snapshots)
    (hcurves : st'.curves = st.curves) {k : ℕ} {w w' : World σ}
    (hw : Beside (maxEdges * pinCost + k) w w') :
    Meets (fun scan w₁ scan' w₂ => ∃ reads, Answered host w.host reads w₁.host ∧
        reads.map Prod.fst = venues pins.length ∧
        (∀ p ∈ reads, ¬Mismatched intent (pinAt pins p.1) p.2) ∧
        Scanning pins intent slot st reads scan ∧ SameScan scan scan' ∧ Beside k w₁ w₂) Halted
      (readPins host pins intent slot st w) (readPinsFresh host pins intent slot st' w') := by
  have hcount := length_venues_le pins.length
  unfold readPins readPinsFresh
  rw [hused, hresources, hsnaps, hcurves]
  apply (Meets.foldlM (I := fun as scan w₁ scan' w₂ => ∃ reads,
    Answered host w.host reads w₁.host ∧ reads.map Prod.fst ++ as = venues pins.length ∧
      (∀ p ∈ reads, ¬Mismatched intent (pinAt pins p.1) p.2) ∧
      Scanning pins intent slot st reads scan ∧ SameScan scan scan' ∧
      Beside (as.length * pinCost + k) w₁ w₂) ?_ (venues pins.length) ?_).mono
  · rintro scan w₁ scan' w₂ ⟨reads, hreads, hvenues, hmatch, hscan, hsame, hw₁⟩
    rw [List.append_nil] at hvenues
    exact ⟨reads, hreads, hvenues, hmatch, hscan, hsame, hw₁.mono (by simp)⟩
  · exact fun _ _ h => h
  · rintro i is scan w₁ scan' w₂ ⟨reads, hreads, hvenues, hmatch, hscan, hsame, hw₁⟩
    have hleft : Beside (pinCost + (is.length * pinCost + k)) w₁ w₂ := by
      apply hw₁.mono
      rw [List.length_cons, Nat.succ_mul]
      omega
    apply (readPin_meets hscan hsame hleft).mono
    · rintro a w₃ b w₄ ⟨s, hread, hpin, hscan', hsame', hw₃⟩
      refine ⟨reads ++ [(i, s)], hreads.snoc hread, ?_, ?_, hscan', hsame', hw₃⟩
      · rw [List.map_append, List.append_assoc]
        exact hvenues
      · intro p hp
        rcases List.mem_append.mp hp with hp | hp
        · exact hmatch p hp
        · rw [List.mem_singleton.mp hp]
          exact hpin
    · exact fun _ _ h => h
  · refine ⟨[], Answered.nil, rfl, by simp, ?_, ⟨rfl, rfl, rfl⟩, hw.mono ?_⟩
    · refine ⟨hcached.curves, fun i hi => ?_, fun i hi => ?_, fun i hi => ?_, by simp,
        fun hdirty => ⟨?_, rfl, rfl, by simp⟩, fun hdirty => Or.inl (Option.isNone_iff_eq_none.mp hdirty)⟩
      · rw [Mask.has_zero] at hi
        cases hi
      · rw [Mask.has_zero] at hi
        cases hi
      · rw [Mask.has_zero] at hi
        cases hi
      · intro hnone
        rw [hnone] at hdirty
        cases hdirty
    · have := Nat.mul_le_mul_right pinCost hcount
      omega

/-- The admitted venues have valid curves. -/
theorem Scanning.selected (h : Scanning pins intent slot st reads scan)
    (hpins : pins.length ≤ maxEdges) (hvenues : reads.map Prod.fst = venues pins.length) :
    Selected (slice pins.length scan.curves) scan.eligible := by
  have hlt : ∀ i, scan.eligible.has i = true → i.val < pins.length := by
    intro i hi
    have hmem := List.mem_map_of_mem (f := Prod.fst) (h.read i hi)
    rw [hvenues] at hmem
    exact mem_venues.mp hmem
  refine ⟨?_, fun i hi => ?_, fun i hi => ?_⟩
  · rw [length_slice hpins]
    exact hpins
  · rw [length_slice hpins]
    exact hlt i hi
  · rw [curveAt_slice _ (hlt i hi)]
    exact (h.curves i (h.compiled i hi)).valid

/-! ## The tape -/

/-- What a turn knows about the tape it is going to search: it is the tape of the current curves, and
it was built for the venues of this turn or is the one kept from before. -/
structure Taped (pins : List EdgePin) (st : Progress) (scan : PinScan) (t : ResidualTape) :
    Prop where
  spec : ∃ L, t.Spec (slice pins.length scan.curves) t.compiledMask L
  rebuilt : scan.dirty = true → t.compiledMask = scan.eligible
  kept : scan.dirty = false → st.tape = some t

/-- The tape covers the venues of the turn exactly when the turn is covered. -/
theorem Scanning.within_iff (h : Scanning pins intent slot st reads scan) {t : ResidualTape}
    (ht : Taped pins st scan t) :
    scan.eligible.Within t.compiledMask ↔ Covered pins intent slot st reads := by
  rcases hdirty : scan.dirty with _ | _
  · obtain ⟨-, -, -, hcached⟩ := h.clean hdirty
    have htape := ht.kept hdirty
    constructor
    · intro hwithin
      refine Or.inr fun t' ht' p hp hcand => ?_
      obtain rfl : t = t' := Option.some.inj (htape.symm.trans ht')
      exact Mask.within_iff.mp hwithin p.1 (h.admitted p hp hcand)
    · rintro (⟨p, hp, hcand, hmiss⟩ | hcover)
      · exact absurd hmiss (hcached p hp hcand)
      · exact Mask.within_iff.mpr fun i hi => hcover t htape _ (h.read i hi) (h.chosen i hi)
  · rw [ht.rebuilt hdirty]
    refine ⟨fun _ => ?_, fun _ => Mask.within_iff.mpr fun i hi => hi⟩
    rcases h.soiled hdirty with hnone | hmiss
    · refine Or.inr fun t' ht' => ?_
      rw [hnone] at ht'
      cases ht'
    · exact Or.inl hmiss

/-- Both have a tape of the current curves. -/
theorem refreshTape_meets (hscan : Scanning pins intent slot st reads scan)
    (hpins : pins.length ≤ maxEdges) (hvenues : reads.map Prod.fst = venues pins.length)
    (hcached : Cached pins intent st) (hsome : scan.eligible ≠ 0) {builds k : ℕ} {w w' : World σ}
    (hw : Beside (buildCost + k) w w') :
    Meets (fun r w₁ t' w₂ => (∃ t, r.1 = some t ∧ Taped pins st scan t) ∧
        (∃ L, t'.Spec (slice pins.length scan.curves) scan.eligible L) ∧ Beside k w₁ w₂) Halted
      (refreshTape pins scan st.tape builds w)
      (work (ResidualTape.build (slice pins.length scan.curves) scan.eligible) w') := by
  have hsel := hscan.selected hpins hvenues
  obtain ⟨L, hL⟩ := Merge.exists_merge (streamsAt_sorted hsel fun _ => 0)
  obtain ⟨t', hrun, hspec⟩ := build_runs hsel hsome hL
  unfold refreshTape
  split
  · rename_i hdirty
    have hright : work (ResidualTape.build (slice pins.length scan.curves) scan.eligible) w'
        = (work (ResidualTape.build (slice pins.length scan.curves) scan.eligible) >>= pure) w' := by
      rw [bind_pure]
    rw [hright]
    apply (hw.work hrun hrun).bind
    rintro t w₁ _ w₂ - - ⟨rfl, ht, -, hw₁⟩
    cases ht
    refine Meets.pure ⟨⟨_, rfl, ⟨L, ?_⟩, fun _ => hspec.mask_eq, fun hclean => ?_⟩, ⟨L, hspec⟩, hw₁⟩
    · rw [hspec.mask_eq]
      exact hspec
    · rw [hdirty] at hclean
      cases hclean
  · rename_i hclean
    rw [Bool.not_eq_true] at hclean
    obtain ⟨htape, -, hcurves, -⟩ := hscan.clean hclean
    obtain ⟨t, ht⟩ := Option.ne_none_iff_exists'.mp htape
    obtain ⟨w₂, hwork, hw₂⟩ := hw.work_right hrun
    rw [hwork]
    refine .ok ⟨⟨t, ht, ⟨?_, fun hdirty => ?_, fun _ => ht⟩⟩, ⟨L, hspec⟩, hw₂⟩
    · rw [hcurves]
      exact hcached.tape t ht
    · rw [hclean] at hdirty
      cases hdirty

end Scan

/-! ## A turn -/

section Turn

variable {host : ExecutionHost σ} {pins : List EdgePin} {intent : Intent} {limits : Limits}
  {slot : ℕ} {st st' : Progress} {scan scan' : PinScan}

/-- Other counters of work. -/
def Receipt.recount (receipt : Receipt) (units compiled builds : ℕ) : Receipt :=
  { receipt with
    workUnits := units
    curvesCompiled := compiled
    tapeBuilds := builds }

@[simp] theorem Receipt.uncounted_recount (receipt : Receipt) (units compiled builds : ℕ) :
    (receipt.recount units compiled builds).uncounted = receipt.uncounted := rfl

/-- Two executions at the same point: only counters of work and the tape may differ. -/
def Alike (st st' : Progress) : Prop :=
  ∃ units compiled builds tape,
    st' = { st with receipt := st.receipt.recount units compiled builds, tape := tape }

theorem Alike.refl (st : Progress) : Alike st st := ⟨_, _, _, _, rfl⟩

/-- A planned turn: the cache of the scan and its tape. -/
structure Ready (pins : List EdgePin) (intent : Intent) (st : Progress) (scan : PinScan) : Prop where
  curves : ∀ i, (scan.curves i).len ≠ 0 → CompiledFrom intent (scan.snapshots i) (scan.curves i)
  tape : ∀ t, st.tape = some t → ∃ L, t.Spec (slice pins.length scan.curves) t.compiledMask L

/-- Work for the turns that are left. -/
def turnBudget (legs : ℕ) : ℕ := (maxLegs + 1 - legs) * roundCost

/-- The round counter looks at no counter of work. -/
theorem countRound_recount (receipt : Receipt) (units compiled builds : ℕ) :
    countRound limits (receipt.recount units compiled builds)
      = (countRound limits receipt).map fun r => r.recount units compiled builds := by
  unfold countRound Receipt.recount
  dsimp only
  by_cases hbound : limits.maxLegs ≤ receipt.legs
  · rw [rejectIf_of _ hbound]
    rfl
  rw [rejectIf_of_not _ hbound, ok_bind, ok_bind]
  split
  · by_cases hreflow : limits.maxReflows ≤ receipt.reflows
    · rw [rejectIf_of _ hreflow]
      rfl
    · rw [rejectIf_of_not _ hreflow]
      rfl
  · rfl

/-- A counted round has a leg left. -/
theorem countRound_legs {receipt receipt' : Receipt} (h : countRound limits receipt = .ok receipt') :
    receipt'.legs = receipt.legs ∧ receipt.legs < limits.maxLegs := by
  unfold countRound at h
  rw [bind_eq_ok] at h
  obtain ⟨_, hbound, h⟩ := h
  rw [rejectIf_eq_ok, not_le] at hbound
  split at h
  · rw [bind_eq_ok] at h
    obtain ⟨_, -, h⟩ := h
    cases h
    exact ⟨rfl, hbound⟩
  · cases h
    exact ⟨rfl, hbound⟩

/-- Both count the round. -/
theorem countRound_meets {receipt : Receipt} (units compiled builds : ℕ) {w w' : World σ}
    (hw : Halted w w') :
    Meets (fun r w₁ r' w₂ => countRound limits receipt = .ok r ∧
        r' = r.recount units compiled builds ∧ w₁ = w ∧ w₂ = w') Halted
      ((lift (countRound limits receipt) : Exec σ Receipt) w)
      ((lift (countRound limits (receipt.recount units compiled builds)) : Exec σ Receipt) w') := by
  rw [countRound_recount]
  cases hcount : countRound limits receipt with
  | error e => exact .error hw
  | ok r => exact .ok ⟨rfl, rfl, rfl, rfl⟩

/-- Both plan the same turn when the tape covers it. -/
theorem planTurn_meets (hpins : pins.length ≤ maxEdges) (hlegs : limits.maxLegs ≤ maxLegs)
    (hcached : Cached pins intent st) (halike : Alike st st') {w w' : World σ}
    (hcover : ∀ reads, Surveyed host pins intent slot w.host reads →
      Covered pins intent slot st reads)
    (hw : Beside (turnBudget st.receipt.legs) w w') :
    Meets (fun x w₁ y w₂ => Alike x.1 y.1 ∧ SameScan x.2.1 y.2.1 ∧ y.2.2 = x.2.2 ∧
        Ready pins intent x.1 x.2.1 ∧ x.1.receipt.legs = st.receipt.legs ∧
        Beside (1 + turnBudget (st.receipt.legs + 1)) w₁ w₂) Halted
      (planTurn host pins intent limits slot st w)
      (planTurnFresh host pins intent limits slot st' w') := by
  obtain ⟨units, compiled, builds, tape, rfl⟩ := halike
  unfold planTurn planTurnFresh
  apply (countRound_meets units compiled builds hw.toHalted).bind
  rintro receipt w _ w' - - ⟨hcount, rfl, rfl, rfl⟩
  obtain ⟨hsame, hlt⟩ := countRound_legs hcount
  -- the budget of this turn and of the ones after it
  have hbudget : turnBudget st.receipt.legs
      = maxEdges * pinCost + (buildCost + (searchCost allocateCost
        + (1 + turnBudget (st.receipt.legs + 1)))) := by
    unfold turnBudget
    rw [show maxLegs + 1 - st.receipt.legs = (maxLegs + 1 - (st.receipt.legs + 1)) + 1 by omega,
      Nat.succ_mul]
    unfold roundCost pinCost
    omega
  apply (hw.ask host.slot .slot).bind
  rintro _ w₁ current w₂ - - ⟨rfl, hslot, hw₁⟩
  apply (Meets.lift (Q := fun _ w₃ _ w₄ => current = slot ∧ w₃.host = w₁.host ∧
    Beside (turnBudget st.receipt.legs) w₃ w₄)
    (fun _ hok => ⟨not_not.mp (rejectIf_eq_ok.mp hok), rfl, hw₁⟩) hw₁.toHalted).bind
  rintro _ w₃ _ w₄ - - ⟨rfl, hhost, hw₃⟩
  rw [hbudget] at hw₃
  let st' : Progress := { st with receipt := st.receipt.recount units compiled builds, tape := tape }
  have hused : st'.used = st.used := rfl
  apply (readPins_meets hcached hused rfl rfl rfl hw₃).bind
  rintro scan w₅ scan' w₆ - - ⟨reads, hreads, hvenues, hmatch, hscan, hscans, hw₅⟩
  obtain ⟨hsnaps, hcurves, helig⟩ := hscans
  rw [helig]
  apply (Meets.lift (Q := fun _ w₁ _ w₂ => scan.eligible ≠ 0 ∧
    Beside (buildCost + (searchCost allocateCost + (1 + turnBudget (st.receipt.legs + 1)))) w₁ w₂)
    (fun _ hok => ⟨rejectIf_eq_ok.mp hok, hw₅⟩) hw₅.toHalted).bind
  rintro _ w₇ _ w₈ - - ⟨hsome, hw₇⟩
  rw [hcurves]
  apply (refreshTape_meets hscan hpins hvenues hcached hsome hw₇).bind
  rintro ⟨tape₁, builds₁⟩ w₉ t' w₁₀ - - ⟨⟨t, rfl, htaped⟩, ⟨L', hspec'⟩, hw₉⟩
  obtain ⟨L, hspec⟩ := htaped.spec
  have hsurveyed : Surveyed host pins intent current w.host reads :=
    ⟨by rw [hslot], ⟨w₅.host, by rw [hslot, ← hhost]; exact hreads⟩, hvenues, hmatch⟩
  have hmatches : t.matchesCurves (slice pins.length scan.curves) scan.eligible = true :=
    hspec.matches_iff.mpr ((hscan.within_iff htaped).mpr (hcover reads hsurveyed))
  have hmatches' : t'.matchesCurves (slice pins.length scan.curves) scan.eligible = true :=
    hspec'.matches_iff.mpr (Mask.within_iff.mpr fun i hi => hi)
  obtain ⟨r, hrun, hrun'⟩ := search_tapes_runs hspec hspec' hmatches hmatches'
    (slice pins.length scan.snapshots) st.remaining
    (legBudget limits
      { receipt with curvesCompiled := scan.curvesCompiled, tapeBuilds := builds₁ })
  rw [hsnaps]
  apply (hw₉.work hrun hrun').bind
  rintro _ w₁₁ report w₁₂ - - ⟨rfl, -, -, hw₁₁⟩
  refine Meets.pure ⟨?_, ⟨hsnaps, hcurves, helig⟩, rfl, ⟨hscan.curves, ?_⟩, ?_, hw₁₁⟩
  · refine ⟨units, scan'.curvesCompiled, builds + 1, some t', ?_⟩
    by_cases hzero : receipt.legs = 0
    · simp [Receipt.recount, hzero]
    · simp [Receipt.recount, hzero]
  · rintro _ ⟨⟩
    exact ⟨L, hspec⟩
  · dsimp only
    split
    · exact hsame
    · exact hsame

/-- Both settle the same leg. -/
theorem executeLeg_meets (halike : Alike st st') (hscans : SameScan scan scan')
    (hready : Ready pins intent st scan) (plan : Allocation) {k : ℕ} {w w' : World σ}
    (hw : Beside (1 + k) w w') :
    Meets (fun x w₁ y w₂ => Alike x y ∧ Cached pins intent x ∧
        x.receipt.legs = st.receipt.legs + 1 ∧ Beside k w₁ w₂) Halted
      (executeLeg host pins st scan plan w) (executeLeg host pins st' scan' plan w') := by
  obtain ⟨units, compiled, builds, tape, rfl⟩ := halike
  obtain ⟨hsnaps, hcurves, helig⟩ := hscans
  unfold executeLeg
  rw [hsnaps]
  cases imminent pins.length scan.snapshots plan.inputs with
  | none => exact .error hw.toHalted
  | some edge =>
    dsimp only
    unfold settle
    rw [helig, hsnaps, hcurves]
    apply (hw.work (runsTo_charge 1) (runsTo_charge 1)).bind
    rintro _ w₁ _ w₂ - - ⟨-, -, -, hw₁⟩
    apply (hw₁.ask_lift (host.invoke edge.val (plan.inputs edge))
      (.invoke edge.val (plan.inputs edge))).bind
    rintro _ w₃ _ w₄ - - ⟨-, -, hw₃⟩
    apply (hw₃.ask_lift host.balances .balances).bind
    rintro _ w₅ after w₆ - - ⟨rfl, -, hw₅⟩
    -- the checks on the balances are the same on both sides
    have hcheck : ∀ {α : Type} (r : Result α) {v v' : World σ}, Beside k v v' →
        Meets (fun a v₁ b v₂ => b = a ∧ Beside k v₁ v₂) Halted ((lift r : Exec σ α) v)
          ((lift r : Exec σ α) v') := fun r v v' hv =>
      Meets.lift (fun _ _ => ⟨rfl, hv⟩) hv.toHalted
    apply (hcheck _ hw₅).bind
    rintro _ w₇ spent w₈ - - ⟨rfl, hw₇⟩
    apply (hcheck _ hw₇).bind
    rintro _ w₉ received w₁₀ - - ⟨rfl, hw₉⟩
    apply (hcheck _ hw₉).bind
    rintro _ w₁₁ _ w₁₂ - - ⟨-, hw₁₁⟩
    exact Meets.pure ⟨⟨units, compiled, builds, tape, rfl⟩, ⟨hready.curves, hready.tape⟩, rfl, hw₁₁⟩

/-- One turn of both. -/
theorem round_meets (hpins : pins.length ≤ maxEdges) (hlegs : limits.maxLegs ≤ maxLegs)
    (hcached : Cached pins intent st) (halike : Alike st st') {w w' : World σ}
    (hcover : ∀ reads, Surveyed host pins intent slot w.host reads →
      Covered pins intent slot st reads)
    (hw : Beside (turnBudget st.receipt.legs) w w') :
    Meets (fun x w₁ y w₂ => Alike x y ∧ Cached pins intent x ∧
        Beside (turnBudget x.receipt.legs) w₁ w₂) Halted
      (round host pins intent limits slot st w) (roundFresh host pins intent limits slot st' w') := by
  unfold round roundFresh
  apply (planTurn_meets hpins hlegs hcached halike hcover hw).bind
  rintro ⟨x, scan, plan⟩ w₁ ⟨y, scan', plan'⟩ w₂ - - ⟨hxy, hscans, rfl, hready, hcount, hw₁⟩
  rw [← hcount] at hw₁
  apply (executeLeg_meets hxy hscans hready plan' hw₁).mono
  · rintro x' w₃ y' w₄ ⟨hxy', hcached', hcount', hw₃⟩
    rw [← hcount'] at hw₃
    exact ⟨hxy', hcached', hw₃⟩
  · exact fun _ _ h => h

/-- Both loops, while every turn is covered. -/
theorem rounds_meets (hpins : pins.length ≤ maxEdges) (hlegs : limits.maxLegs ≤ maxLegs) (k : ℕ)
    (hcached : Cached pins intent st) (halike : Alike st st') {w w' : World σ}
    (hcover : ∀ st₁ w₁, Relation.ReflTransGen (Turned host pins intent limits slot) (st, w) (st₁, w₁) →
      ∀ reads, Surveyed host pins intent slot w₁.host reads →
        Covered pins intent slot st₁ reads)
    (hw : Beside (turnBudget st.receipt.legs) w w') :
    Meets (fun x w₁ y w₂ => Alike x y ∧ Halted w₁ w₂) Halted
      (rounds host pins intent limits slot k st w)
      (roundsFresh host pins intent limits slot k st' w') := by
  induction k generalizing st st' w w' with
  | zero => exact .error hw.toHalted
  | succ k ih =>
    unfold rounds roundsFresh
    apply (round_meets hpins hlegs hcached halike (hcover st w .refl) hw).bind
    rintro x w₁ y w₂ hround - ⟨hxy, hcached', hw₁⟩
    have hremaining : y.remaining = x.remaining := by
      obtain ⟨_, _, _, _, rfl⟩ := hxy
      rfl
    rw [hremaining]
    split
    · exact Meets.pure ⟨hxy, hw₁.toHalted⟩
    · rename_i hmore
      apply ih hcached' hxy _ hw₁
      intro st₂ w₂ hreach
      exact hcover st₂ w₂ (.head ⟨hround, hmore⟩ hreach)

/-- Both end alike. -/
theorem finish_meets (start : Balances) (halike : Alike st st') {w w' : World σ}
    (hw : Halted w w') :
    Meets (fun r w₁ r' w₂ => r'.uncounted = r.uncounted ∧ Halted w₁ w₂) Halted
      (finish intent start st w) (finish intent start st' w') := by
  obtain ⟨units, compiled, builds, tape, rfl⟩ := halike
  unfold finish
  have hcheck : ∀ {α : Type} (r : Result α) {v v' : World σ}, Halted v v' →
      Meets (fun a v₁ b v₂ => b = a ∧ Halted v₁ v₂) Halted ((lift r : Exec σ α) v)
        ((lift r : Exec σ α) v') := fun r v v' hv => Meets.lift (fun _ _ => ⟨rfl, hv⟩) hv
  apply (hcheck _ hw).bind
  rintro _ w₁ spent w₂ - - ⟨rfl, hw₁⟩
  apply (hcheck _ hw₁).bind
  rintro _ w₃ received w₄ - - ⟨rfl, hw₃⟩
  apply (hcheck _ hw₃).bind
  rintro _ w₅ _ w₆ - - ⟨-, hw₅⟩
  apply (hcheck _ hw₅).bind
  rintro _ w₇ _ w₈ - - ⟨-, hw₇⟩
  have hmeter : Meets (fun _ w₁ _ w₂ => Halted w₁ w₂) Halted ((usedWork : Exec σ ℕ) w₇)
      ((usedWork : Exec σ ℕ) w₈) := .ok hw₇
  apply hmeter.bind
  rintro used w₉ used' w₁₀ - - hw₉
  exact Meets.pure ⟨rfl, hw₉⟩

/-! ## Every turn of a run -/

/-- What the host answers is determined. -/
theorem Answered.unique {s s₁ s₂ : σ} {reads reads' : List (Edge × Snapshot)}
    (h : Answered host s reads s₁) (h' : Answered host s reads' s₂)
    (hvenues : reads.map Prod.fst = reads'.map Prod.fst) : reads = reads' ∧ s₁ = s₂ := by
  induction h generalizing reads' s₂ with
  | nil =>
    cases h' with
    | nil => exact ⟨rfl, rfl⟩
    | snoc prev hread => simp at hvenues
  | snoc prev hread ih =>
    cases h' with
    | nil => simp at hvenues
    | snoc prev' hread' =>
      rw [List.map_append, List.map_append] at hvenues
      obtain ⟨hinit, hlast⟩ := List.append_inj' hvenues rfl
      obtain ⟨rfl, rfl⟩ := ih prev' hinit
      obtain rfl := List.singleton_inj.mp hlast
      rw [hread] at hread'
      cases hread'
      exact ⟨rfl, rfl⟩

/-- What a turn that searches knows about its curves and its tape. -/
theorem Searches.facts (hpins : pins.length ≤ maxEdges) (hlegs : limits.maxLegs ≤ maxLegs)
    (hcached : Cached pins intent st) {w : World σ}
    (hw : Beside (turnBudget st.receipt.legs) w w) {reads : List (Edge × Snapshot)}
    {t : ResidualTape} (h : Searches host pins intent limits slot st w reads scan t) :
    Scanning pins intent slot st reads scan ∧ Taped pins st scan t := by
  obtain ⟨⟨hslot, ⟨s', hreads⟩, hvenues, -⟩, receipt, w₁, w₂, w₃, builds, hcount, hask, hpinned,
    hsome, htape⟩ := h
  obtain ⟨-, hlt⟩ := countRound_legs hcount
  have hbudget : maxEdges * pinCost + (buildCost + 0) ≤ turnBudget st.receipt.legs := by
    have hone : 1 * roundCost ≤ turnBudget st.receipt.legs :=
      Nat.mul_le_mul_right _ (by omega)
    unfold roundCost at hone
    unfold pinCost
    omega
  obtain ⟨_, v₁, hask', -, hslot', hw₁⟩ := ((hw.mono hbudget).ask host.slot .slot).of_ok hask
  obtain rfl : w₁ = v₁ := (Prod.mk.inj (hask.symm.trans hask')).2
  obtain ⟨scan', v₂, -, reads', hreads', hvenues', -, hscan, -, hw₂⟩ :=
    (readPins_meets hcached rfl rfl rfl rfl hw₁).of_ok hpinned
  rw [hslot'] at hreads
  obtain ⟨rfl, -⟩ := hreads'.unique hreads (hvenues'.trans hvenues.symm)
  obtain ⟨_, _, -, ⟨t', ht', htaped⟩, -, -⟩ :=
    (refreshTape_meets hscan hpins hvenues hcached hsome hw₂).of_ok htape
  obtain rfl : t = t' := Option.some.inj ht'
  exact ⟨hscan, htaped⟩

/-- The search of a turn accepts the tape exactly when the turn is covered. -/
theorem Searches.matches_iff (hpins : pins.length ≤ maxEdges) (hlegs : limits.maxLegs ≤ maxLegs)
    (hcached : Cached pins intent st) {w : World σ}
    (hw : Beside (turnBudget st.receipt.legs) w w) {reads : List (Edge × Snapshot)}
    {t : ResidualTape} (h : Searches host pins intent limits slot st w reads scan t) :
    t.matchesCurves (slice pins.length scan.curves) scan.eligible = true ↔
      Covered pins intent slot st reads := by
  obtain ⟨hscan, htaped⟩ := h.facts hpins hlegs hcached hw
  obtain ⟨L, hspec⟩ := htaped.spec
  rw [hspec.matches_iff, hscan.within_iff htaped]

/-- A turn that succeeds was covered: its search accepted the tape. -/
theorem covered_of_round (hpins : pins.length ≤ maxEdges) (hlegs : limits.maxLegs ≤ maxLegs)
    (hcached : Cached pins intent st) {w w₁ : World σ} {x : Progress}
    (hw : Beside (turnBudget st.receipt.legs) w w)
    (hround : round host pins intent limits slot st w = (.ok x, w₁))
    {reads : List (Edge × Snapshot)} (hreads : Surveyed host pins intent slot w.host reads) :
    Covered pins intent slot st reads := by
  unfold round at hround
  obtain ⟨planned, w₂, hplan, -⟩ := Comp.bind_eq_ok.mp hround
  unfold planTurn at hplan
  obtain ⟨receipt, w₃, hcount, hcounted⟩ := Comp.bind_eq_ok.mp hplan
  obtain ⟨hreceipt, rfl⟩ := lift_eq_ok.mp hcount
  obtain ⟨current, w₄, hask, hasked⟩ := Comp.bind_eq_ok.mp hcounted
  obtain ⟨_, w₅, hstale, hagreed⟩ := Comp.bind_eq_ok.mp hasked
  obtain ⟨hcurrent, rfl⟩ := lift_eq_ok.mp hstale
  obtain rfl : current = slot := not_not.mp (rejectIf_eq_ok.mp hcurrent)
  obtain ⟨scan, w₆, hpinned, hscanned⟩ := Comp.bind_eq_ok.mp hagreed
  obtain ⟨_, w₇, hcapacity, hchosen⟩ := Comp.bind_eq_ok.mp hscanned
  obtain ⟨hsome, rfl⟩ := lift_eq_ok.mp hcapacity
  obtain ⟨⟨tape, builds⟩, w₈, htape, htaped⟩ := Comp.bind_eq_ok.mp hchosen
  cases tape with
  | none => cases htaped
  | some t =>
    have hsearches : Searches host pins intent limits current st w₃ reads scan t :=
      ⟨hreads, receipt, w₅, w₇, w₈, builds, hreceipt, hask, hpinned, rejectIf_eq_ok.mp hsome, htape⟩
    obtain ⟨report, w₉, hsearch, -⟩ := Comp.bind_eq_ok.mp htaped
    apply (hsearches.matches_iff hpins hlegs hcached hw).mp
    -- the search checks the tape before anything else
    unfold work searchTape at hsearch
    by_contra hmatch
    rw [rejectIf_of _ (by rw [Bool.not_eq_true] at hmatch; exact hmatch)] at hsearch
    cases hsearch

/-- What holds in every state in which a turn starts. -/
structure Prepared (pins : List EdgePin) (intent : Intent) (st : Progress) (w : World σ) : Prop where
  cached : Cached pins intent st
  budget : Beside (turnBudget st.receipt.legs) w w

/-- A turn prepares the next one. -/
theorem Prepared.turned (hpins : pins.length ≤ maxEdges) (hlegs : limits.maxLegs ≤ maxLegs)
    {w w' : World σ} (h : Prepared pins intent st w)
    (hturn : Turned host pins intent limits slot (st, w) (st', w')) :
    Prepared pins intent st' w' := by
  obtain ⟨hround, -⟩ := hturn
  obtain ⟨y, v, -, -, hcached, hbudget⟩ := (round_meets hpins hlegs h.cached (Alike.refl st)
    (fun reads => covered_of_round hpins hlegs h.cached h.budget hround) h.budget).of_ok hround
  exact ⟨hcached, ⟨⟨rfl, rfl⟩, hbudget.left, hbudget.left, hbudget.limit_lt, hbudget.limit_lt⟩⟩

/-- Every turn is prepared. -/
theorem Prepared.reach (hpins : pins.length ≤ maxEdges) (hlegs : limits.maxLegs ≤ maxLegs)
    {w w' : World σ} (h : Prepared pins intent st w)
    (hreach : Relation.ReflTransGen (Turned host pins intent limits slot) (st, w) (st', w')) :
    Prepared pins intent st' w' := by
  suffices hall : ∀ p, Relation.ReflTransGen (Turned host pins intent limits slot) (st, w) p →
      Prepared pins intent p.1 p.2 from hall _ hreach
  intro p hp
  induction hp with
  | refl => exact h
  | tail _ hturn ih => exact ih.turned hpins hlegs hturn

/-- What an execution opens with: no curve, no tape, no leg and the whole budget. -/
theorem opening_eq_ok {s : σ} {start : Balances} {w : World σ}
    (h : opening host pins intent limits (World.start s) = (.ok (slot, start, st), w)) :
    pins.length ≤ maxEdges ∧ limits.maxLegs ≤ maxLegs ∧ (∀ i, (st.curves i).len = 0) ∧
      st.tape = none ∧ st.receipt.legs = 0 ∧ w.meter = ⟨0, limits.maxWork⟩ := by
  unfold opening at h
  obtain ⟨_, w₁, hbounds, h⟩ := Comp.bind_eq_ok.mp h
  have hlimits := rejectIf_eq_ok.mp (lift_eq_ok.mp hbounds).1
  obtain ⟨_, w₂, -, h⟩ := Comp.bind_eq_ok.mp h
  obtain ⟨_, w₃, -, h⟩ := Comp.bind_eq_ok.mp h
  obtain ⟨_, w₄, -, h⟩ := Comp.bind_eq_ok.mp h
  obtain ⟨_, w₅, -, h⟩ := Comp.bind_eq_ok.mp h
  obtain ⟨_, w₆, -, h⟩ := Comp.bind_eq_ok.mp h
  obtain ⟨_, w₇, -, h⟩ := Comp.bind_eq_ok.mp h
  obtain ⟨_, w₈, hmeter, h⟩ := Comp.bind_eq_ok.mp h
  obtain ⟨first, w₉, hread, h⟩ := Comp.bind_eq_ok.mp h
  cases h
  refine ⟨by omega, by omega, fun _ => rfl, rfl, rfl, ?_⟩
  -- asking for the first snapshot leaves the new meter alone
  cases hmeter
  obtain ⟨answer, w₁₀, hask, hlift⟩ := Comp.bind_eq_ok.mp hread
  obtain ⟨-, rfl⟩ := lift_eq_ok.mp hlift
  cases hask
  rfl

/-- The first turn is prepared. -/
theorem opening_prepared {s : σ} {start : Balances} {w : World σ}
    (hwork : sufficientWork ≤ limits.maxWork) (hwidth : limits.maxWork < u32Size)
    (h : opening host pins intent limits (World.start s) = (.ok (slot, start, st), w)) :
    pins.length ≤ maxEdges ∧ limits.maxLegs ≤ maxLegs ∧ Prepared pins intent st w := by
  obtain ⟨hpins, hlegs, hcurves, htape, hcount, hmeter⟩ := opening_eq_ok h
  have hleft : w.meter.used + turnBudget st.receipt.legs ≤ w.meter.limit := by
    rw [hmeter, hcount, Nat.zero_add]
    exact hwork
  have hlimit : w.meter.limit < u32Size := by
    rw [hmeter]
    exact hwidth
  refine ⟨hpins, hlegs, ⟨fun i hi => absurd (hcurves i) hi, fun t ht => ?_⟩,
    ⟨⟨rfl, rfl⟩, hleft, hleft, hlimit, hlimit⟩⟩
  rw [htape] at ht
  cases ht

end Turn

/-! ## Whole executions -/

/-- When every turn of an execution is covered its caches are transparent, and at each search the tape
matches exactly when the turn is covered; what the search uses was compiled from the snapshots just
read in any case. -/
theorem caching_transparent {σ : Type} (host : ExecutionHost σ) (pins : List EdgePin)
    (intent : Intent) (limits : Limits) (s : σ) (hwork : sufficientWork ≤ limits.maxWork)
    (hwidth : limits.maxWork < u32Size) :
    (∀ slot st w reads scan t, TurnStart host pins intent limits s slot st w →
      Searches host pins intent limits slot st w reads scan t →
      (t.matchesCurves (slice pins.length scan.curves) scan.eligible = true ↔
        Covered pins intent slot st reads) ∧
      ∀ i, scan.eligible.has i = true → (i, scan.snapshots i) ∈ reads ∧
        CompiledFrom intent (scan.snapshots i) (scan.curves i)) ∧
    ((∀ slot st w reads, TurnStart host pins intent limits s slot st w →
      Surveyed host pins intent slot w.host reads → Covered pins intent slot st reads) →
      Transparent host pins intent limits s) := by
  have hsearched : ∀ slot st w reads scan t, TurnStart host pins intent limits s slot st w →
      Searches host pins intent limits slot st w reads scan t →
      (t.matchesCurves (slice pins.length scan.curves) scan.eligible = true ↔
        Covered pins intent slot st reads) ∧
      ∀ i, scan.eligible.has i = true → (i, scan.snapshots i) ∈ reads ∧
        CompiledFrom intent (scan.snapshots i) (scan.curves i) := by
    rintro slot st w reads scan t ⟨start, st₀, w₀, hopen, hreach⟩ hsearch
    obtain ⟨hpins, hlegs, hprepared⟩ := opening_prepared hwork hwidth hopen
    obtain ⟨hcached, hbudget⟩ := hprepared.reach hpins hlegs hreach
    refine ⟨hsearch.matches_iff hpins hlegs hcached hbudget, fun i hi => ?_⟩
    obtain ⟨hscan, -⟩ := hsearch.facts hpins hlegs hcached hbudget
    exact ⟨hscan.read i hi, hscan.curves i (hscan.compiled i hi)⟩
  refine ⟨hsearched, fun hcover => ⟨?_, fun slot st w reads scan t hstart hsearch => ?_⟩⟩
  · unfold execute executeFresh
    rcases hopen : opening host pins intent limits (World.start s) with ⟨e | ⟨slot, start, st⟩, w⟩
    · rw [Comp.bind_apply_error hopen, Comp.bind_apply_error hopen]
      exact ⟨rfl, rfl⟩
    rw [Comp.bind_apply_ok hopen, Comp.bind_apply_ok hopen]
    obtain ⟨hpins, hlegs, hcached, hbudget⟩ := opening_prepared hwork hwidth hopen
    have hloop := rounds_meets hpins hlegs (maxLegs + 1) hcached (Alike.refl st)
      (fun st₁ w₁ hreach reads => hcover slot st₁ w₁ reads ⟨start, st, w, hopen, hreach⟩) hbudget
    have hwhole : Meets (fun (r : Receipt) w₁ (r' : Receipt) w₂ =>
        r'.uncounted = r.uncounted ∧ Halted w₁ w₂) Halted
        ((rounds host pins intent limits slot (maxLegs + 1) st >>= finish intent start) w)
        ((roundsFresh host pins intent limits slot (maxLegs + 1) st >>= finish intent start) w) :=
      hloop.bind fun x w₁ y w₂ _ _ hxy => finish_meets start hxy.1 hxy.2
    dsimp only
    generalize ((rounds host pins intent limits slot (maxLegs + 1) st >>= finish intent start) w) = a
      at hwhole ⊢
    generalize ((roundsFresh host pins intent limits slot (maxLegs + 1) st >>= finish intent start) w)
      = b at hwhole ⊢
    cases hwhole with
    | ok h => exact ⟨congrArg Except.ok h.1.symm, h.2.calls_eq.symm⟩
    | error h => exact ⟨rfl, h.calls_eq.symm⟩
  · obtain ⟨hiff, hcompiled⟩ := hsearched slot st w reads scan t hstart hsearch
    exact ⟨hiff.mpr (hcover slot st w reads hstart hsearch.surveyed), hcompiled⟩

/-- Limits with enough work for every execution. -/
def ampleLimits : Limits := { maxWork := sufficientWork }

/-- Five atoms, which the first sample book takes in one turn. -/
def smallIntent : Intent := { sampleIntent with amountIn := 5, minOut := 5 }

/-- Selling five atoms to the sample books takes one turn, which is covered. -/
theorem caching_transparent_sample :
    (execute fixtureHost samplePins smallIntent ampleLimits (World.start sampleHost)).1.isOk = true ∧
      Transparent fixtureHost samplePins smallIntent ampleLimits sampleHost := by
  refine ⟨by decide +kernel, (caching_transparent fixtureHost samplePins smallIntent ampleLimits
    sampleHost (by decide) (by decide)).2 ?_⟩
  have hone : (match opening fixtureHost samplePins smallIntent ampleLimits
      (World.start sampleHost) with
    | (.ok (slot, _, st), w) =>
      match round fixtureHost samplePins smallIntent ampleLimits slot st w with
      | (.ok st', _) => decide (st'.remaining = 0)
      | (.error _, _) => true
    | (.error _, _) => true) = true := by decide +kernel
  rintro slot st w reads ⟨start, st₀, w₀, hopen, hreach⟩ -
  rw [hopen] at hone
  rcases Relation.ReflTransGen.cases_head hreach with heq | ⟨⟨st₁, w₁⟩, ⟨hround, hmore⟩, -⟩
  · cases heq
    obtain ⟨-, -, -, hnone, -⟩ := opening_eq_ok hopen
    refine Or.inr fun t ht => ?_
    rw [hnone] at ht
    cases ht
  · dsimp only at hone hround
    rw [hround] at hone
    exact absurd (of_decide_eq_true hone) hmore

/-- Venues `1` and `2` come and go with the number of invocations, and every invocation sells one
atom. -/
def flickerHost : ExecutionHost ℕ where
  slot n := (0, n)
  snapshot index n :=
    match index with
    | 0 => (.ok (sampleBook 3 1 scale), n)
    | 1 => (.ok { sampleBook 4 2 scale with enabled := decide (n ≠ 1) }, n)
    | _ => (.ok { sampleBook 5 4 scale with enabled := decide (n = 1) }, n)
  balances n := (.ok ⟨100 - n, n⟩, n)
  invoke _ _ n := (.ok (), n + 1)

/-- The pins of the three venues. -/
def flickerPins : List EdgePin :=
  [sampleBook 3 1 scale, sampleBook 4 2 scale, sampleBook 5 4 scale].map Snapshot.pin

/-- Three atoms. -/
def flickerIntent : Intent := { sampleIntent with amountIn := 3, minOut := 3 }

/-- The caches show: the tape built for venue `2` in the second turn does not cover venue `1` when it
returns unchanged in the third, and the execution ends with `Identity` where recompiling sells all. -/
theorem caching_shows : ¬∀ (σ : Type) (host : ExecutionHost σ) (pins : List EdgePin)
    (intent : Intent) (limits : Limits) (s : σ), sufficientWork ≤ limits.maxWork →
    limits.maxWork < u32Size → Transparent host pins intent limits s := by
  intro h
  obtain ⟨hsame, -⟩ := (h ℕ flickerHost flickerPins flickerIntent ampleLimits 0 (by decide)
    (by decide)).same
  have hcached : (execute flickerHost flickerPins flickerIntent ampleLimits
      (World.start 0)).1.isOk = false := by decide +kernel
  have hfresh : (executeFresh flickerHost flickerPins flickerIntent ampleLimits
      (World.start 0)).1.isOk = true := by decide +kernel
  generalize (execute flickerHost flickerPins flickerIntent ampleLimits (World.start 0)).1 = r
    at hsame hcached
  generalize (executeFresh flickerHost flickerPins flickerIntent ampleLimits (World.start 0)).1 = r'
    at hsame hfresh
  cases r with
  | ok a => cases hcached
  | error e =>
    cases r' with
    | ok b => cases hsame
    | error e' => cases hfresh

end StockMesh

import StockMesh.Settle.Economic
import StockMesh.Settle.Receipt
import StockMesh.Optimizer.OracleAsked

/-! # What an economic reflow does

Whatever the venues do, a reflow that returns spends exactly its input, through its first legs within their
signed budgets; a second leg spends exactly what the first one of its path delivered; no product loses; and
the exposure of what the products gained reaches the signed minimum (`economic_conserves`). -/

namespace StockMesh.Settle

open Stateful

/-! ## Paths -/

section Paths

variable {n : ℕ} {g : Graph n} {converters : ℕ → Option Converter}

/-- A path of the graph: a leg from the cash, and perhaps a leg from where it ends. -/
structure PathOf (g : Graph n) (converters : ℕ → Option Converter) (path : EconomicPath g.assetCount) :
    Prop where
  head : ∃ leg, g.legs[path.first]? = some leg ∧ leg.source = g.first ∧
    (path.second = none → leg.destination = path.terminal)
  product : (converters path.terminal).isSome = true

theorem PathSearch.add_eq_ok {k : ℕ} {search next : PathSearch k} {path : EconomicPath k}
    (h : search.add path = .ok next) : next.paths = search.paths ++ [path] := by
  rw [PathSearch.add, bind_eq_ok] at h
  obtain ⟨_, -, h⟩ := h
  cases h
  rfl

/-- Adding a path of the graph. -/
theorem PathSearch.add_paths {search next : PathSearch g.assetCount} {path : EconomicPath g.assetCount}
    (hpaths : ∀ p ∈ search.paths, PathOf g converters p) (hpath : PathOf g converters path)
    (h : search.add path = .ok next) : ∀ p ∈ next.paths, PathOf g converters p := by
  rw [PathSearch.add_eq_ok h]
  intro p hp
  rcases List.mem_append.mp hp with hp | hp
  · exact hpaths p hp
  · exact List.mem_singleton.mp hp ▸ hpath

/-- The paths of a graph begin at the cash and end at a product. -/
theorem economicPaths_eq_ok {paths : List (EconomicPath g.assetCount)}
    (h : economicPaths g converters = .ok paths) : ∀ path ∈ paths, PathOf g converters path := by
  rw [economicPaths, bind_eq_ok] at h
  obtain ⟨search, hsearch, h⟩ := h
  obtain ⟨_, -, h⟩ := bind_eq_ok.mp h
  cases h
  have hindex : ∀ p ∈ g.legs.zipIdx, g.legs[p.2]? = some p.1 := fun p hp =>
    List.mk_mem_zipIdx_iff_getElem?.mp hp
  -- the outer loop runs over first legs, the inner one over second legs
  refine List.foldlM_except_inv (P := fun s => ∀ p ∈ s.paths, PathOf g converters p) ?_ ?_ hsearch
  · rintro search ⟨head, i⟩ hmem next hpaths hstep
    rw [headPaths] at hstep
    split at hstep
    · cases hstep
      exact hpaths
    · next hsource =>
      have hlegs := hindex _ hmem
      have hsource := not_not.mp hsource
      obtain ⟨search₁, hdirect, htails⟩ := bind_eq_ok.mp hstep
      have hpaths₁ : ∀ p ∈ search₁.paths, PathOf g converters p := by
        split at hdirect
        · next hproduct =>
          exact PathSearch.add_paths hpaths ⟨⟨head, hlegs, hsource, fun _ => rfl⟩, hproduct⟩ hdirect
        · cases hdirect
          exact hpaths
      refine foldlM_inv (P := fun s => ∀ p ∈ s.paths, PathOf g converters p) ?_ hpaths₁ htails
      rintro search ⟨tail, j⟩ next hpaths hstep
      rw [tailPath] at hstep
      dsimp only at hstep
      split at hstep
      · next hcond =>
        exact PathSearch.add_paths hpaths ⟨⟨head, hlegs, hsource, fun h => by cases h⟩, hcond.2.2⟩ hstep
      · cases hstep
        exact hpaths
  · exact fun p hp => absurd hp List.not_mem_nil

end Paths

/-! ## Selections -/

section Selections

variable {k : ℕ} {paths : List (EconomicPath k)} (remainingCpis : ℕ)
  {quote : EconomicPath k → ℕ → Bool → Outcome ℕ} {Q : EconomicPath k → ℕ → Prop}

/-- The answers that a cache keeps were given. -/
def CacheOf (paths : List (EconomicPath k)) (Q : EconomicPath k → ℕ → Prop) (cache : QuoteCache) : Prop :=
  ∀ slot ∈ cache.slots, slot.2.2.isSome = true → ∃ path, paths[slot.1]? = some path ∧ Q path slot.2.1

theorem cacheOf_empty : CacheOf paths Q {} := by
  intro slot hslot hsome
  rw [List.eq_of_mem_replicate hslot] at hsome
  cases hsome

/-- What an answer tells about its path. -/
theorem cachedQuote_spec (hquote : ∀ path amount exact v, quote path amount exact = .ok v → Q path amount)
    {cache : QuoteCache} (hcache : CacheOf paths Q cache) (exact : Bool) (index amount : ℕ) :
    CacheOf paths Q (cachedQuote paths remainingCpis quote exact index amount cache).2 ∧
    ∀ v, (cachedQuote paths remainingCpis quote exact index amount cache).1 = .ok v →
      ∃ path, paths[index]? = some path ∧ Q path amount ∧ path.cpis ≤ remainingCpis := by
  unfold cachedQuote
  split
  · exact ⟨hcache, fun v h => by cases h⟩
  · next path hpath =>
    split
    · exact ⟨hcache, fun v h => by cases h⟩
    · next hcpis =>
      split
      · -- a hit answers what the slot holds
        next slot hslot =>
        refine ⟨hcache, fun v h => ?_⟩
        have hsome : slot.2.2 = some v := okOr_eq_ok.mp h
        obtain ⟨path', hpath', hQ⟩ := hcache slot (List.mem_of_find?_eq_some hslot) (by rw [hsome]; rfl)
        have hfound := List.find?_some hslot
        simp only [Bool.and_eq_true, decide_eq_true_eq] at hfound
        rw [hfound.1, hpath] at hpath'
        cases hpath'
        exact ⟨path, hpath, hfound.2 ▸ hQ, by omega⟩
      · -- a miss asks, and the answer takes a slot
        constructor
        · intro slot hslot hsome
          rcases List.mem_or_eq_of_mem_set hslot with hold | hnew
          · exact hcache slot hold hsome
          · subst hnew
            refine ⟨path, hpath, ?_⟩
            rcases hv : quote path amount exact with e | v
            · rw [hv] at hsome
              cases hsome
            · exact hquote path amount exact v hv
        · exact fun v h => ⟨path, hpath, hquote path amount exact v h, by omega⟩

/-- The best path for all that remains was quoted. -/
theorem bestFull_spec (hquote : ∀ path amount exact v, quote path amount exact = .ok v → Q path amount)
    (remaining : ℕ) (candidates : List ℕ) (best : Option (ℕ × ℕ)) {cache : QuoteCache}
    (hcache : CacheOf paths Q cache)
    (hbest : ∀ b ∈ best, ∃ path, paths[b.1]? = some path ∧ Q path remaining ∧ path.cpis ≤ remainingCpis) :
    CacheOf paths Q (bestFull paths remainingCpis quote remaining candidates best cache).2 ∧
    ∀ b ∈ (bestFull paths remainingCpis quote remaining candidates best cache).1,
      ∃ path, paths[b.1]? = some path ∧ Q path remaining ∧ path.cpis ≤ remainingCpis := by
  induction candidates generalizing best cache with
  | nil => exact ⟨hcache, hbest⟩
  | cons i rest ih =>
    rw [bestFull]
    obtain ⟨hnext, hanswer⟩ := cachedQuote_spec remainingCpis hquote hcache true i
      remaining
    split
    · exact ih _ hnext hbest
    · next output houtput =>
      obtain ⟨path, hpath, hQ, hcpis⟩ := hanswer output houtput
      have hnew : ∀ b ∈ some (i, output), ∃ path, paths[b.1]? = some path ∧ Q path remaining ∧
          path.cpis ≤ remainingCpis := by
        rintro b hb
        cases hb
        exact ⟨path, hpath, hQ, hcpis⟩
      split
      · next j prior =>
        refine ih _ hnext ?_
        split
        · exact hnew
        · exact hbest
      · exact ih _ hnext hnew

/-- A chosen path was quoted for the chosen amount. -/
theorem choosePath_eq_ok (hquote : ∀ path amount exact v, quote path amount exact = .ok v → Q path amount)
    {remaining calls : ℕ} {choice : EconomicPath k × ℕ}
    (h : choosePath paths remainingCpis quote remaining calls = .ok choice) :
    choice.1 ∈ paths ∧ Q choice.1 choice.2 := by
  rw [choosePath] at h
  dsimp only at h
  obtain ⟨best, hbest, h⟩ := bind_eq_ok.mp h
  obtain ⟨fullPath, hfullPath, h⟩ := bind_eq_ok.mp h
  obtain ⟨hcache, hfull⟩ := bestFull_spec remainingCpis hquote remaining (List.range paths.length) none
    cacheOf_empty fun _ hb => by cases hb
  have hfullPath := okOr_eq_ok.mp hfullPath
  obtain ⟨path, hpath, hQ, -⟩ := hfull best (okOr_eq_ok.mp hbest)
  rw [hfullPath] at hpath
  cases hpath
  have hdone : fullPath ∈ paths ∧ Q fullPath remaining := ⟨List.mem_of_getElem? hfullPath, hQ⟩
  split at h
  · cases h
    exact hdone
  · split at h
    · cases h
    · next plan hplan =>
      obtain ⟨selected, -, h⟩ := bind_eq_ok.mp h
      obtain ⟨path, hpath, h⟩ := bind_eq_ok.mp h
      obtain ⟨_, hpos, h⟩ := bind_eq_ok.mp h
      have hpath := okOr_eq_ok.mp hpath
      have hpos := need_eq_ok.mp hpos
      split at h
      · cases h
        exact hdone
      · cases h
        -- the refinement asked for what it allots
        have hclosed : ExactOracle.Closed (CacheOf paths Q) (refineQuote paths remainingCpis quote) :=
          fun edge amount cache hc => (cachedQuote_spec remainingCpis hquote hc false edge amount).1
        obtain ⟨cache, hc, v, hv⟩ := ExactOracle.refine_asked hclosed hcache hplan selected (by omega)
        have hanswer := (cachedQuote_spec remainingCpis hquote hc false selected
          (plan.inputs selected)).2
        rw [refineQuote] at hv
        dsimp only at hv
        split at hv
        · next output houtput =>
          obtain ⟨path', hpath', hQ', -⟩ := hanswer output houtput
          rw [hpath] at hpath'
          cases hpath'
          exact ⟨List.mem_of_getElem? hpath, hQ'⟩
        · cases hv

end Selections

/-! ## Rounds -/

/-- What a CPI brought to a token account. -/
def Cpi.gained (c : Cpi) (key : Key) : ℕ := tokenAmount c.after key - tokenAmount c.before key

section Rounds

variable {natives : Natives} {n : ℕ} {a : Accounts n} {g : Graph n} {clock : Clock} {program : ProgramId}
  {venues : Venues program} {wallet : Fin n} {converters : ℕ → Option Converter}

/-- A quoted path: its first leg within the budget left. -/
def QuotedPath (g : Graph n) (used : ℕ → ℕ) (path : EconomicPath g.assetCount) (input : ℕ) : Prop :=
  ∃ first, g.legs[path.first]? = some first ∧ input ≤ first.budget - used path.first

theorem quoteEconomicPath_eq_ok {ledger : Ledger} {oracle : Oracle natives} {used : ℕ → ℕ}
    {path : EconomicPath g.assetCount} {input v : ℕ} {exact : Bool}
    (h : quoteEconomicPath ledger a g clock oracle used converters path input exact = .ok v) :
    QuotedPath g used path input := by
  rw [quoteEconomicPath, bind_eq_ok] at h
  obtain ⟨first, hfirst, h⟩ := h
  obtain ⟨_, hbudget, -⟩ := bind_eq_ok.mp h
  exact ⟨first, okOr_eq_ok.mp hfirst, need_eq_ok.mp hbudget⟩

/-- A selected path is one of the candidates and was quoted. -/
theorem selectEconomicPath_eq_ok {ledger : Ledger} {oracle oracle' : Oracle natives} {used : ℕ → ℕ}
    {remainingCpis remaining : ℕ} {paths : List (EconomicPath g.assetCount)}
    {choice : EconomicPath g.assetCount × ℕ}
    (h : selectEconomicPath ledger a g clock oracle used converters remainingCpis paths remaining
      = .ok (choice, oracle')) :
    0 < remainingCpis ∧ choice.1 ∈ paths ∧ QuotedPath g used choice.1 choice.2 := by
  rw [selectEconomicPath, bind_eq_ok] at h
  obtain ⟨_, hneed, h⟩ := h
  obtain ⟨choice', hchoice, h⟩ := bind_eq_ok.mp h
  cases h
  refine ⟨(need_eq_ok.mp hneed).2, ?_⟩
  exact choosePath_eq_ok (Q := QuotedPath g used) remainingCpis
    (fun path amount exact v hv => quoteEconomicPath_eq_ok hv) hchoice

/-- The CPI of a leg. -/
theorem invokeEconomicLeg_eq_ok {index budget : ℕ} {s s' : Chain}
    (h : invokeEconomicLeg a g clock venues wallet index budget s = (.ok (), s')) :
    ∃ c : Cpi, c.leg = index ∧ c.before = s.ledger ∧ c.after = s'.ledger ∧ s'.cpis = s.cpis ++ [c] ∧
      s'.returnData = s.returnData := by
  rw [invokeEconomicLeg, lift_bind_eq_ok] at h
  obtain ⟨leg, -, h⟩ := h
  rw [get_bind, lift_bind_eq_ok] at h
  obtain ⟨data, -, h⟩ := h
  obtain ⟨-, hreturn, hcpis⟩ := invokeLeg_eq_ok h
  exact ⟨_, rfl, rfl, rfl, hcpis, hreturn⟩

/-- The first CPI of a path took at most `budget` of the cash, and only its destination gained. -/
structure FirstHop (a : Accounts n) (g : Graph n) (leg : Leg n g.assetCount) (budget : ℕ) (c : Cpi) :
    Prop where
  takes : tokenAmount c.after (tokenKey a g g.first) < tokenAmount c.before (tokenKey a g g.first)
  within : c.spent (tokenKey a g g.first) ≤ budget
  gives : tokenAmount c.before (tokenKey a g leg.destination)
    < tokenAmount c.after (tokenKey a g leg.destination)
  others : ∀ i, i ≠ g.first → i ≠ leg.destination →
    tokenAmount c.after (tokenKey a g i) = tokenAmount c.before (tokenKey a g i)

/-- The second CPI of a path took exactly what the first one delivered, and only its destination
gained. -/
structure SecondHop (a : Accounts n) (g : Graph n) (leg : Leg n g.assetCount) (first c : Cpi) : Prop where
  linked : c.before = first.after
  takes : tokenAmount c.after (tokenKey a g leg.source) + first.gained (tokenKey a g leg.source)
    = tokenAmount c.before (tokenKey a g leg.source)
  gives : tokenAmount c.before (tokenKey a g leg.destination)
    < tokenAmount c.after (tokenKey a g leg.destination)
  others : ∀ i, i ≠ leg.source → i ≠ leg.destination →
    tokenAmount c.after (tokenKey a g i) = tokenAmount c.before (tokenKey a g i)

/-- A round: the first CPI of a path and its second one, if it has two. -/
structure Round where
  first : Cpi
  second : Option Cpi

/-- The CPIs of a round. -/
def Round.cpis (r : Round) : List Cpi := r.first :: r.second.toList

/-- A round executes a path of the graph. -/
structure Round.Executes (a : Accounts n) (g : Graph n) (r : Round) : Prop where
  first : ∃ leg, g.legs[r.first.leg]? = some leg ∧ leg.source = g.first ∧
    FirstHop a g leg leg.budget r.first ∧
    ∀ c ∈ r.second, ∃ next, g.legs[c.leg]? = some next ∧ next.source = leg.destination ∧
      SecondHop a g next r.first c

/-- What the checks after the first CPI of a path establish. -/
structure FirstRecorded (a : Accounts n) (g : Graph n) (ledger : Ledger) (wallet : Key)
    (lamports index budget : ℕ) (leg : Leg n g.assetCount) (run next : EconomicRun natives g.assetCount)
    (received : ℕ) : Prop where
  lamports_eq : (ledger wallet).lamports = lamports
  current_eq : ∀ i, next.current i = tokenAmount ledger (tokenKey a g i)
  takes : next.current g.first < run.current g.first
  spent_le : run.current g.first - next.current g.first ≤ budget
  gives : run.current leg.destination < next.current leg.destination
  received_eq : received = next.current leg.destination - run.current leg.destination
  others : ∀ i, i ≠ g.first → i ≠ leg.destination → next.current i = run.current i
  used_eq : next.used = Function.update run.used index
    (run.used index + (run.current g.first - next.current g.first))
  executed_eq : next.executed = run.executed + 1

theorem recordFirst_eq_ok {ledger : Ledger} {lamports index budget received : ℕ}
    {leg : Leg n g.assetCount} {run next : EconomicRun natives g.assetCount}
    (h : recordFirst a g wallet lamports ledger index budget leg run = .ok (next, received)) :
    FirstRecorded a g ledger (a.key wallet) lamports index budget leg run next received := by
  rw [recordFirst, bind_eq_ok] at h
  obtain ⟨_, hlamports, h⟩ := h
  obtain ⟨current, hcurrent, h⟩ := bind_eq_ok.mp h
  obtain ⟨spent, hspent, h⟩ := bind_eq_ok.mp h
  obtain ⟨received', hreceived, h⟩ := bind_eq_ok.mp h
  obtain ⟨_, hmoved, h⟩ := bind_eq_ok.mp h
  obtain ⟨used, hused, h⟩ := bind_eq_ok.mp h
  obtain ⟨_, hothers, h⟩ := bind_eq_ok.mp h
  obtain ⟨hspent_le, rfl⟩ := checkedSub_eq_ok.mp hspent
  obtain ⟨hreceived_le, rfl⟩ := checkedSub_eq_ok.mp hreceived
  obtain ⟨hpos, hle, hgives⟩ := need_eq_ok.mp hmoved
  obtain ⟨-, rfl⟩ := checkedSum_eq_ok.mp hused
  cases h
  exact {
    lamports_eq := need_eq_ok.mp hlamports
    current_eq := fun i => balance_eq_ok (readEach_eq_ok.mp hcurrent i)
    takes := by show current g.first < _; omega
    spent_le := hle
    gives := by show _ < current leg.destination; omega
    received_eq := rfl
    others := need_eq_ok.mp hothers
    used_eq := rfl
    executed_eq := rfl }

/-- What the checks after the second CPI establish. -/
structure SecondRecorded (a : Accounts n) (g : Graph n) (ledger : Ledger) (wallet : Key)
    (lamports index received : ℕ) (previous : Fin g.assetCount → ℕ) (second : Leg n g.assetCount)
    (run next : EconomicRun natives g.assetCount) : Prop where
  lamports_eq : (ledger wallet).lamports = lamports
  current_eq : ∀ i, next.current i = tokenAmount ledger (tokenKey a g i)
  takes : next.current second.source + received = run.current second.source
  gives : run.current second.destination < next.current second.destination
  back : next.current second.source = previous second.source
  cash : next.current g.first = run.current g.first
  others : ∀ i, i ≠ g.first → i ≠ second.source → i ≠ second.destination → next.current i = run.current i
  used_eq : ∀ i, i ≠ index → next.used i = run.used i
  executed_eq : next.executed = run.executed + 1

theorem recordSecond_eq_ok {ledger : Ledger} {lamports index received : ℕ}
    {previous : Fin g.assetCount → ℕ} {second : Leg n g.assetCount}
    {run next : EconomicRun natives g.assetCount}
    (h : recordSecond a g wallet lamports ledger index received previous second run = .ok next) :
    SecondRecorded a g ledger (a.key wallet) lamports index received previous second run next := by
  rw [recordSecond, bind_eq_ok] at h
  obtain ⟨_, hlamports, h⟩ := h
  obtain ⟨current, hcurrent, h⟩ := bind_eq_ok.mp h
  obtain ⟨spent, hspent, h⟩ := bind_eq_ok.mp h
  obtain ⟨delivered, hdelivered, h⟩ := bind_eq_ok.mp h
  obtain ⟨_, hmoved, h⟩ := bind_eq_ok.mp h
  obtain ⟨_, hothers, h⟩ := bind_eq_ok.mp h
  obtain ⟨used, -, h⟩ := bind_eq_ok.mp h
  cases h
  obtain ⟨hspent_le, rfl⟩ := checkedSub_eq_ok.mp hspent
  obtain ⟨hdelivered_le, rfl⟩ := checkedSub_eq_ok.mp hdelivered
  obtain ⟨hexact, hpos, hback, hcash⟩ := need_eq_ok.mp hmoved
  exact {
    lamports_eq := need_eq_ok.mp hlamports
    current_eq := fun i => balance_eq_ok (readEach_eq_ok.mp hcurrent i)
    takes := by show current second.source + _ = _; omega
    gives := by show _ < current second.destination; omega
    back := hback
    cash := hcash
    others := need_eq_ok.mp hothers
    used_eq := fun i hi => Function.update_of_ne hi _ _
    executed_eq := rfl }

theorem spentThrough_append (log more : List Cpi) (leg : ℕ) (key : Key) :
    spentThrough (log ++ more) leg key = spentThrough log leg key + spentThrough more leg key := by
  simp [spentThrough]

/-- What a round does to the locals. -/
structure RoundStep (a : Accounts n) (g : Graph n) (converters : ℕ → Option Converter) (wallet : Key)
    (lamports : ℕ) (run next : EconomicRun natives g.assetCount) (s s' : Chain) (r : Round) : Prop where
  cpis : s'.cpis = s.cpis ++ r.cpis
  linked : Linked s.ledger r.cpis s'.ledger
  executes : r.Executes a g
  current : ∀ i, next.current i = tokenAmount s'.ledger (tokenKey a g i)
  lamports_eq : (s'.ledger wallet).lamports = lamports
  executed : next.executed = run.executed + r.cpis.length
  used : ∀ i leg, g.legs[i]? = some leg → leg.source = g.first →
    next.used i = run.used i + spentThrough r.cpis i (tokenKey a g g.first)
  budget : ∀ i leg, g.legs[i]? = some leg → leg.source = g.first → run.used i ≤ leg.budget →
    next.used i ≤ leg.budget
  kept : ∀ i, i ≠ g.first → run.current i ≤ next.current i
  transit : ∀ i, i ≠ g.first → (converters i).isNone = true → next.current i = run.current i

/-- A first CPI alone. -/
theorem FirstRecorded.firstHop {s : Chain} {ledger : Ledger} {lamports index budget received : ℕ}
    {leg : Leg n g.assetCount} {run next : EconomicRun natives g.assetCount}
    (h : FirstRecorded a g ledger (a.key wallet) lamports index budget leg run next received)
    (hcurrent : ∀ i, run.current i = tokenAmount s.ledger (tokenKey a g i)) {c : Cpi}
    (hbefore : c.before = s.ledger) (hafter : c.after = ledger) : FirstHop a g leg budget c := by
  have hold : ∀ i, tokenAmount c.before (tokenKey a g i) = run.current i := fun i => by
    rw [hbefore, hcurrent]
  have hnew : ∀ i, tokenAmount c.after (tokenKey a g i) = next.current i := fun i => by
    rw [hafter, h.current_eq]
  constructor
  · rw [hold, hnew]
    exact h.takes
  · rw [Cpi.spent, hold, hnew]
    exact h.spent_le
  · rw [hold, hnew]
    exact h.gives
  · intro i hfirst hdest
    rw [hold, hnew]
    exact h.others i hfirst hdest

theorem FirstHop.mono {leg : Leg n g.assetCount} {budget budget' : ℕ} {c : Cpi}
    (h : FirstHop a g leg budget c) (hle : budget ≤ budget') : FirstHop a g leg budget' c :=
  { h with within := h.within.trans hle }

section FirstUsed

variable {s : Chain} {ledger : Ledger} {lamports index budget received : ℕ} {leg : Leg n g.assetCount}
  {run next : EconomicRun natives g.assetCount}
  (h : FirstRecorded a g ledger (a.key wallet) lamports index budget leg run next received)
include h

theorem FirstRecorded.spent_cpi (hcurrent : ∀ i, run.current i = tokenAmount s.ledger (tokenKey a g i))
    {c : Cpi} (hbefore : c.before = s.ledger) (hafter : c.after = ledger) :
    c.spent (tokenKey a g g.first) = run.current g.first - next.current g.first := by
  rw [Cpi.spent, hbefore, hafter, hcurrent, h.current_eq]

/-- What is recorded as used is what the CPI took. -/
theorem FirstRecorded.used_cpi (hcurrent : ∀ i, run.current i = tokenAmount s.ledger (tokenKey a g i))
    {c : Cpi} (hcleg : c.leg = index) (hbefore : c.before = s.ledger) (hafter : c.after = ledger) (i : ℕ) :
    next.used i = run.used i + spentThrough [c] i (tokenKey a g g.first) := by
  have hspent := h.spent_cpi hcurrent hbefore hafter
  rw [h.used_eq, ← hspent]
  by_cases hi : i = index
  · subst hi
    simp [spentThrough, hcleg]
  · have hne : c.leg ≠ i := fun heq => hi (heq.symm.trans hcleg)
    rw [Function.update_of_ne hi]
    simp [spentThrough, hne]

/-- A quoted budget is left to its leg. -/
theorem FirstRecorded.used_le (hleg : g.legs[index]? = some leg)
    (hquoted : budget ≤ leg.budget - run.used index) {i : ℕ} {leg' : Leg n g.assetCount}
    (hleg' : g.legs[i]? = some leg') (hle : run.used i ≤ leg'.budget) : next.used i ≤ leg'.budget := by
  rw [h.used_eq]
  by_cases hi : i = index
  · subst hi
    rw [hleg] at hleg'
    cases hleg'
    rw [Function.update_self]
    have hspent := h.spent_le
    omega
  · rw [Function.update_of_ne hi]
    exact hle

end FirstUsed

/-- A second CPI after the first one. -/
theorem SecondRecorded.secondHop {ledger ledger' : Ledger}
    {lamports lamports' index index' budget received : ℕ}
    {leg second : Leg n g.assetCount} {run next last : EconomicRun natives g.assetCount}
    (h : FirstRecorded a g ledger (a.key wallet) lamports index budget leg run next received)
    (h' : SecondRecorded a g ledger' (a.key wallet) lamports' index' received run.current second next last)
    (hsource : second.source = leg.destination) {c d : Cpi}
    (hold : ∀ i, tokenAmount c.before (tokenKey a g i) = run.current i) (hafter : c.after = ledger)
    (hbefore : d.before = ledger) (hafter' : d.after = ledger') : SecondHop a g second c d := by
  have hmid : ∀ i, tokenAmount c.after (tokenKey a g i) = next.current i := fun i => by
    rw [hafter, h.current_eq]
  have hmid' : ∀ i, tokenAmount d.before (tokenKey a g i) = next.current i := fun i => by
    rw [hbefore, h.current_eq]
  have hnew : ∀ i, tokenAmount d.after (tokenKey a g i) = last.current i := fun i => by
    rw [hafter', h'.current_eq]
  constructor
  · rw [hbefore, hafter]
  · rw [hmid', hnew, Cpi.gained, hmid, hold, hsource, ← h.received_eq, ← hsource]
    exact h'.takes
  · rw [hmid', hnew]
    exact h'.gives
  · intro i hsrc hdest
    rw [hmid', hnew]
    by_cases hi : i = g.first
    · rw [hi]
      exact h'.cash
    · exact h'.others i hi hsrc hdest

/-- A round over one leg. -/
theorem FirstRecorded.roundStep {s s₁ : Chain} {path : EconomicPath g.assetCount}
    {lamports budget received : ℕ} {leg : Leg n g.assetCount}
    {run next : EconomicRun natives g.assetCount}
    (h : FirstRecorded a g s₁.ledger (a.key wallet) lamports path.first budget leg run next received)
    (hcurrent : ∀ i, run.current i = tokenAmount s.ledger (tokenKey a g i)) {c : Cpi}
    (hleg : g.legs[path.first]? = some leg) (hsource : leg.source = g.first) (hcleg : c.leg = path.first)
    (hbefore : c.before = s.ledger) (hafter : c.after = s₁.ledger) (hcpis : s₁.cpis = s.cpis ++ [c])
    (hbudget : budget ≤ leg.budget) (hquoted : budget ≤ leg.budget - run.used path.first)
    (hproduct : (converters leg.destination).isSome = true) :
    RoundStep a g converters (a.key wallet) lamports run next s s₁ ⟨c, none⟩ := by
  have hhop := h.firstHop hcurrent hbefore hafter
  have hspent := h.spent_cpi hcurrent hbefore hafter
  constructor
  · exact hcpis
  · exact ⟨hbefore, hafter.symm⟩
  · exact ⟨leg, hcleg.symm ▸ hleg, hsource, hhop.mono hbudget, fun d hd => by cases hd⟩
  · exact h.current_eq
  · exact h.lamports_eq
  · exact h.executed_eq
  · exact fun i leg' _ _ => h.used_cpi hcurrent hcleg hbefore hafter i
  · exact fun i leg' hleg' _ hle => h.used_le hleg hquoted hleg' hle
  · intro i hi
    by_cases hdest : i = leg.destination
    · rw [hdest]
      exact h.gives.le
    · exact (h.others i hi hdest).ge
  · intro i hi hnone
    refine h.others i hi fun hdest => ?_
    rw [← hdest, ← Option.not_isNone, hnone] at hproduct
    cases hproduct

/-- A round over two legs. -/
theorem SecondRecorded.roundStep {s s₁ s₂ : Chain} {path : EconomicPath g.assetCount}
    {lamports index budget received : ℕ} {leg second : Leg n g.assetCount}
    {run mid next : EconomicRun natives g.assetCount}
    (h : FirstRecorded a g s₁.ledger (a.key wallet) lamports path.first budget leg run mid received)
    (h' : SecondRecorded a g s₂.ledger (a.key wallet) lamports index received run.current second mid next)
    (hcurrent : ∀ i, run.current i = tokenAmount s.ledger (tokenKey a g i)) {c d : Cpi}
    (hleg : g.legs[path.first]? = some leg) (hsource : leg.source = g.first) (hcleg : c.leg = path.first)
    (hbefore : c.before = s.ledger) (hafter : c.after = s₁.ledger) (hcpis : s₁.cpis = s.cpis ++ [c])
    (hbudget : budget ≤ leg.budget) (hquoted : budget ≤ leg.budget - run.used path.first)
    (hsecond : g.legs[index]? = some second) (htransit : second.source = leg.destination)
    (hdleg : d.leg = index) (hbefore' : d.before = s₁.ledger) (hafter' : d.after = s₂.ledger)
    (hcpis' : s₂.cpis = s₁.cpis ++ [d]) (hproduct : (converters second.destination).isSome = true) :
    RoundStep a g converters (a.key wallet) lamports run next s s₂ ⟨c, some d⟩ := by
  have hhop := h.firstHop hcurrent hbefore hafter
  have hfirst : second.source ≠ g.first := by
    intro heq
    have hlt := leg.ordered
    rw [hsource, ← htransit, heq] at hlt
    exact lt_irrefl _ hlt
  have hold : ∀ i, tokenAmount c.before (tokenKey a g i) = run.current i := fun i => by
    rw [hbefore, hcurrent]
  have hne : second.source ≠ second.destination := second.ordered.ne
  -- a head is not the second leg
  have hindex : ∀ i (leg' : Leg n g.assetCount), g.legs[i]? = some leg' → leg'.source = g.first →
      i ≠ index := by
    rintro i leg' hleg' hsource' rfl
    rw [hsecond] at hleg'
    cases hleg'
    exact hfirst hsource'
  constructor
  · rw [hcpis', hcpis, List.append_assoc]
    rfl
  · exact ⟨hbefore, hbefore'.trans hafter.symm, hafter'.symm⟩
  · refine ⟨leg, hcleg.symm ▸ hleg, hsource, hhop.mono hbudget, ?_⟩
    rintro e he
    cases he
    exact ⟨second, hdleg.symm ▸ hsecond, htransit,
      SecondRecorded.secondHop h h' htransit hold hafter hbefore' hafter'⟩
  · exact h'.current_eq
  · exact h'.lamports_eq
  · rw [h'.executed_eq, h.executed_eq]
    rfl
  · intro i leg' hleg' hsource'
    have hi := hindex i leg' hleg' hsource'
    have hd : spentThrough [d] i (tokenKey a g g.first) = 0 := by
      have hdi : d.leg ≠ i := fun heq => hi (heq.symm.trans hdleg)
      simp [spentThrough, hdi]
    rw [h'.used_eq i hi, h.used_cpi hcurrent hcleg hbefore hafter i]
    show _ = run.used i + spentThrough ([c] ++ [d]) i _
    rw [spentThrough_append, hd, Nat.add_zero]
  · intro i leg' hleg' hsource' hle
    rw [h'.used_eq i (hindex i leg' hleg' hsource')]
    exact h.used_le hleg hquoted hleg' hle
  · intro i hi
    by_cases hsrc : i = second.source
    · rw [hsrc, h'.back]
    · have hmid := h.others i hi (htransit ▸ hsrc)
      by_cases hdest : i = second.destination
      · rw [← hmid, hdest]
        exact h'.gives.le
      · rw [h'.others i hi hsrc hdest, hmid]
  · intro i hi hnone
    have hdest : i ≠ second.destination := by
      rintro rfl
      rw [← Option.not_isNone, hnone] at hproduct
      cases hproduct
    by_cases hsrc : i = second.source
    · rw [hsrc, h'.back]
    · rw [h'.others i hi hsrc hdest, h.others i hi (htransit ▸ hsrc)]

/-- A selection only renews the oracle. -/
theorem RoundStep.of_oracle {s s' : Chain} {wallet : Key} {lamports : ℕ} {oracle : Oracle natives}
    {run next : EconomicRun natives g.assetCount} {r : Round}
    (h : RoundStep a g converters wallet lamports { run with oracle } next s s' r) :
    RoundStep a g converters wallet lamports run next s s' r :=
  ⟨h.cpis, h.linked, h.executes, h.current, h.lamports_eq, h.executed, h.used, h.budget, h.kept, h.transit⟩

/-- A round that goes on executes a quoted path. -/
theorem economicRound_some {lamports maximum : ℕ} {paths : List (EconomicPath g.assetCount)}
    {before : Fin g.assetCount → ℕ} {run next : EconomicRun natives g.assetCount} {s s' : Chain}
    (hpaths : ∀ path ∈ paths, PathOf g converters path)
    (hcurrent : ∀ i, run.current i = tokenAmount s.ledger (tokenKey a g i))
    (h : economicRound a g clock venues wallet lamports maximum converters paths before run s
      = (.ok (some next), s')) :
    next.executed ≤ maximum ∧ ∃ r, RoundStep a g converters (a.key wallet) lamports run next s s' r := by
  rw [economicRound, lift_bind_eq_ok] at h
  obtain ⟨remaining, -, h⟩ := h
  split at h
  · cases (pure_eq_ok.mp h).1
  rw [get_bind, lift_bind_eq_ok] at h
  obtain ⟨remainingCpis, hcpisLeft, h⟩ := h
  obtain ⟨-, rfl⟩ := checkedSub_eq_ok.mp hcpisLeft
  obtain ⟨⟨⟨path, amount⟩, oracle⟩, hselect, h⟩ := lift_bind_eq_ok.mp h
  dsimp only at h
  obtain ⟨leg, hleg, h⟩ := lift_bind_eq_ok.mp h
  obtain ⟨_, -, h⟩ := lift_bind_eq_ok.mp h
  obtain ⟨_, s₁, hinvoke, h⟩ := Comp.bind_eq_ok.mp h
  rw [get_bind] at h
  obtain ⟨⟨mid, received⟩, hrecord, h⟩ := lift_bind_eq_ok.mp h
  obtain ⟨last, s₂, hsecond, h⟩ := Comp.bind_eq_ok.mp h
  obtain ⟨hlast, rfl⟩ := pure_eq_ok.mp h
  cases hlast
  obtain ⟨hcpisLeft, hmem, first, hfirst, hquoted⟩ := selectEconomicPath_eq_ok hselect
  have hleg := okOr_eq_ok.mp hleg
  have hpath := hpaths _ hmem
  obtain ⟨head, hhead, hsource, hdirect⟩ := hpath.head
  rw [hleg] at hfirst hhead
  cases hfirst
  cases hhead
  dsimp only at hquoted
  obtain ⟨c, hcleg, hcbefore, hcafter, hcpis, -⟩ := invokeEconomicLeg_eq_ok hinvoke
  have hrec := recordFirst_eq_ok hrecord
  have hbudget : min (min remaining leg.budget) amount ≤ leg.budget := by omega
  have hquoted : min (min remaining leg.budget) amount ≤ leg.budget - run.used path.first := by omega
  rcases hpair : path.second with _ | j
  · -- the first leg ends at a product
    rw [hpair] at hsecond
    obtain ⟨rfl, rfl⟩ := pure_eq_ok.mp hsecond
    refine ⟨by rw [hrec.executed_eq]; show run.executed + 1 ≤ maximum; omega, ?_⟩
    have hstep := hrec.roundStep hcurrent hleg hsource hcleg hcbefore hcafter hcpis hbudget hquoted
      ((hdirect hpair).symm ▸ hpath.product)
    exact ⟨_, hstep.of_oracle⟩
  · -- the first leg ends in transit, and the second one spends all that arrived
    rw [hpair, executeSecond, lift_bind_eq_ok] at hsecond
    obtain ⟨second, hlegs, hsecond⟩ := hsecond
    obtain ⟨_, hneed, hsecond⟩ := lift_bind_eq_ok.mp hsecond
    obtain ⟨htransit, hterminal, hleft⟩ := need_eq_ok.mp hneed
    obtain ⟨_, s₃, hinvoke', hsecond⟩ := Comp.bind_eq_ok.mp hsecond
    rw [get_bind] at hsecond
    obtain ⟨hrecord', rfl⟩ := lift_eq_ok.mp hsecond
    obtain ⟨d, hdleg, hdbefore, hdafter, hdcpis, -⟩ := invokeEconomicLeg_eq_ok hinvoke'
    have hrec' := recordSecond_eq_ok hrecord'
    refine ⟨by rw [hrec'.executed_eq]; exact hleft, ?_⟩
    have hstep := SecondRecorded.roundStep hrec hrec' hcurrent hleg hsource hcleg hcbefore hcafter hcpis
      hbudget hquoted (okOr_eq_ok.mp hlegs) htransit hdleg hdbefore hdafter hdcpis
      (hterminal.symm ▸ hpath.product)
    exact ⟨_, hstep.of_oracle⟩

/-- A round ends the loop when the input is spent. -/
theorem economicRound_none {lamports maximum : ℕ} {paths : List (EconomicPath g.assetCount)}
    {before : Fin g.assetCount → ℕ} {run : EconomicRun natives g.assetCount} {s s' : Chain}
    (h : economicRound a g clock venues wallet lamports maximum converters paths before run s
      = (.ok none, s')) : s' = s := by
  rw [economicRound, lift_bind_eq_ok] at h
  obtain ⟨remaining, -, h⟩ := h
  split at h
  · exact (pure_eq_ok.mp h).2.symm
  · -- a round that selects returns its locals
    rw [get_bind, lift_bind_eq_ok] at h
    obtain ⟨remainingCpis, -, h⟩ := h
    obtain ⟨choice, -, h⟩ := lift_bind_eq_ok.mp h
    dsimp only at h
    obtain ⟨leg, -, h⟩ := lift_bind_eq_ok.mp h
    obtain ⟨_, -, h⟩ := lift_bind_eq_ok.mp h
    obtain ⟨_, s₁, -, h⟩ := Comp.bind_eq_ok.mp h
    rw [get_bind] at h
    obtain ⟨recorded, -, h⟩ := lift_bind_eq_ok.mp h
    obtain ⟨last, s₂, -, h⟩ := Comp.bind_eq_ok.mp h
    cases (pure_eq_ok.mp h).1

end Rounds

/-! ## The loop -/

section Statement

variable {n : ℕ} (a : Accounts n) (g : Graph n) (converters : ℕ → Option Converter)

/-- The CPIs of some rounds. -/
def roundsCpis (rounds : List Round) : List Cpi := rounds.flatMap Round.cpis

/-- The CPIs of a reflow: at most `maximum`, one after another, in rounds that each execute a path, and no
leg from the cash beyond its signed budget in total. -/
structure EconomicRan (maximum : ℕ) (start final : Ledger) (rounds : List Round) : Prop where
  linked : Linked start (roundsCpis rounds) final
  length_le : (roundsCpis rounds).length ≤ maximum
  executes : ∀ r ∈ rounds, r.Executes a g
  budget : ∀ i leg, g.legs[i]? = some leg → leg.source = g.first →
    spentThrough (roundsCpis rounds) i (tokenKey a g g.first) ≤ leg.budget

/-- What some atoms of an asset are worth; only products are worth anything. -/
def productGain (converter : Option Converter) (raw : ℕ) : Outcome ℕ :=
  match converter with
  | none => .ok 0
  | some converter => if raw = 0 then .ok 0 else converter.convert raw

/-- What a reflow did to the wallet's balances: exactly the input is spent, no other asset is lost, and what
the products gained is worth the exposure, which is the signed one at least. -/
structure EconomicConserved (start final : Ledger) (wallet : Key) (exposure : ℕ) : Prop where
  input : tokenAmount final (tokenKey a g g.first) + g.input = tokenAmount start (tokenKey a g g.first)
  kept : ∀ i, i ≠ g.first → tokenAmount start (tokenKey a g i) ≤ tokenAmount final (tokenKey a g i)
  transit : ∀ i, i ≠ g.first → (converters i).isNone = true →
    tokenAmount final (tokenKey a g i) = tokenAmount start (tokenKey a g i)
  exposure_eq : ∃ gains : Fin g.assetCount → ℕ,
    (∀ i, i ≠ g.first → productGain (converters i)
      (tokenAmount final (tokenKey a g i) - tokenAmount start (tokenKey a g i)) = .ok (gains i)) ∧
    exposure = ((List.finRange g.assetCount).tail.map gains).sum
  minimum : g.minOut ≤ exposure
  lamports : (final wallet).lamports = (start wallet).lamports

end Statement

section Loop

variable {natives : Natives} {n : ℕ} {a : Accounts n} {g : Graph n} {clock : Clock} {program : ProgramId}
  {venues : Venues program} {wallet : Fin n} {converters : ℕ → Option Converter}

theorem Linked.append {start mid final : Ledger} {log more : List Cpi} (h : Linked start log mid)
    (h' : Linked mid more final) : Linked start (log ++ more) final := by
  induction log generalizing start with
  | nil =>
    cases h
    exact h'
  | cons c log ih => exact ⟨h.1, ih h.2⟩

theorem roundsCpis_snoc (rounds : List Round) (r : Round) :
    roundsCpis (rounds ++ [r]) = roundsCpis rounds ++ r.cpis := by
  simp [roundsCpis]

/-- The locals account for the rounds. -/
structure EconomicAccounted (a : Accounts n) (g : Graph n) (converters : ℕ → Option Converter)
    (start : Chain) (wallet : Key) (rounds : List Round) (run : EconomicRun natives g.assetCount)
    (s : Chain) : Prop where
  cpis : s.cpis = start.cpis ++ roundsCpis rounds
  linked : Linked start.ledger (roundsCpis rounds) s.ledger
  executes : ∀ r ∈ rounds, r.Executes a g
  current : ∀ i, run.current i = tokenAmount s.ledger (tokenKey a g i)
  lamports : (s.ledger wallet).lamports = (start.ledger wallet).lamports
  executed : run.executed = (roundsCpis rounds).length
  used : ∀ i leg, g.legs[i]? = some leg → leg.source = g.first →
    run.used i = spentThrough (roundsCpis rounds) i (tokenKey a g g.first)
  budget : ∀ i leg, g.legs[i]? = some leg → leg.source = g.first → run.used i ≤ leg.budget
  kept : ∀ i, i ≠ g.first → tokenAmount start.ledger (tokenKey a g i) ≤ run.current i
  transit : ∀ i, i ≠ g.first → (converters i).isNone = true →
    run.current i = tokenAmount start.ledger (tokenKey a g i)

/-- Before the first round there is nothing to account for. -/
theorem economicAccounted_start {s : Chain} {before : Fin g.assetCount → ℕ}
    (hbefore : ∀ i, before i = tokenAmount s.ledger (tokenKey a g i)) (oracle : Oracle natives)
    (wallet : Key) :
    EconomicAccounted a g converters s wallet [] { oracle, current := before } s where
  cpis := (List.append_nil _).symm
  linked := rfl
  executes := fun _ hr => by cases hr
  current := hbefore
  lamports := rfl
  executed := rfl
  used := fun _ _ _ _ => rfl
  budget := fun _ _ _ _ => Nat.zero_le _
  kept := fun i _ => (hbefore i).ge
  transit := fun i _ _ => hbefore i

/-- A round keeps the locals in step with the ledger. -/
theorem EconomicAccounted.step {start s s' : Chain} {wallet : Key} {rounds : List Round}
    {run next : EconomicRun natives g.assetCount} {r : Round}
    (h : EconomicAccounted a g converters start wallet rounds run s)
    (hstep : RoundStep a g converters wallet (start.ledger wallet).lamports run next s s' r) :
    EconomicAccounted a g converters start wallet (rounds ++ [r]) next s' := by
  constructor
  · rw [hstep.cpis, h.cpis, roundsCpis_snoc, List.append_assoc]
  · rw [roundsCpis_snoc]
    exact h.linked.append hstep.linked
  · intro q hq
    rcases List.mem_append.mp hq with hq | hq
    · exact h.executes q hq
    · exact List.mem_singleton.mp hq ▸ hstep.executes
  · exact hstep.current
  · exact hstep.lamports_eq
  · rw [hstep.executed, h.executed, roundsCpis_snoc, List.length_append]
  · intro i leg hleg hsource
    rw [hstep.used i leg hleg hsource, h.used i leg hleg hsource, roundsCpis_snoc, spentThrough_append]
  · exact fun i leg hleg hsource => hstep.budget i leg hleg hsource (h.budget i leg hleg hsource)
  · exact fun i hi => (h.kept i hi).trans (hstep.kept i hi)
  · exact fun i hi hnone => (hstep.transit i hi hnone).trans (h.transit i hi hnone)

/-- The loop keeps the locals in step with the ledger. -/
theorem runEconomic_accounted {maximum : ℕ} {paths : List (EconomicPath g.assetCount)}
    {before : Fin g.assetCount → ℕ} {start s s' : Chain} {fuel : ℕ} {rounds : List Round}
    {run final : EconomicRun natives g.assetCount} (hpaths : ∀ path ∈ paths, PathOf g converters path)
    (h : EconomicAccounted a g converters start (a.key wallet) rounds run s) (hle : run.executed ≤ maximum)
    (hrun : runEconomic a g clock venues wallet (start.ledger (a.key wallet)).lamports maximum converters
      paths before fuel run s = (.ok final, s')) :
    ∃ rounds', EconomicAccounted a g converters start (a.key wallet) rounds' final s' ∧
      final.executed ≤ maximum := by
  induction fuel generalizing rounds run s with
  | zero =>
    obtain ⟨rfl, rfl⟩ := pure_eq_ok.mp hrun
    exact ⟨rounds, h, hle⟩
  | succ fuel ih =>
    rw [runEconomic] at hrun
    obtain ⟨next, s₁, hround, hrest⟩ := Comp.bind_eq_ok.mp hrun
    cases next with
    | none =>
      obtain ⟨rfl, rfl⟩ := pure_eq_ok.mp hrest
      cases economicRound_none hround
      exact ⟨rounds, h, hle⟩
    | some next =>
      obtain ⟨hnext, r, hstep⟩ := economicRound_some hpaths h.current hround
      exact ih (h.step hstep) hnext hrest

/-! ## The last checks -/

/-- One asset of the last check. -/
theorem addExposure_eq_ok {before current : Fin g.assetCount → ℕ} {ledger : Ledger} {exposure next : ℕ}
    {i : Fin g.assetCount}
    (h : addExposure a g wallet converters before ledger current exposure i = .ok next) :
    ∃ gain, productGain (converters i) (current i - before i) = .ok gain ∧ next = exposure + gain := by
  rw [addExposure, bind_eq_ok] at h
  obtain ⟨gained, hgain, h⟩ := h
  obtain ⟨_, -, h⟩ := bind_eq_ok.mp h
  obtain ⟨_, -, h⟩ := bind_eq_ok.mp h
  cases h
  rw [gainOf, bind_eq_ok] at hgain
  obtain ⟨raw, hraw, hgain⟩ := hgain
  obtain ⟨-, rfl⟩ := checkedSub_eq_ok.mp hraw
  rcases hconverter : converters i with _ | converter
  · rw [hconverter] at hgain
    obtain ⟨_, -, hgain⟩ := bind_eq_ok.mp hgain
    cases hgain
    exact ⟨0, rfl, rfl⟩
  · rw [hconverter] at hgain
    dsimp only at hgain
    unfold productGain
    dsimp only
    split at hgain
    · next hzero =>
      cases hgain
      exact ⟨0, if_pos hzero, rfl⟩
    · next hpos =>
      obtain ⟨gain, hconvert, hgain⟩ := bind_eq_ok.mp hgain
      exact ⟨gain, (if_neg hpos).trans hconvert, (checkedSum_eq_ok.mp hgain).2.symm⟩

/-- The exposure of some assets is the sum of their gains. -/
theorem exposures_eq_ok {before current : Fin g.assetCount → ℕ} {ledger : Ledger}
    {assets : List (Fin g.assetCount)} {start exposure : ℕ}
    (h : assets.foldlM (addExposure a g wallet converters before ledger current) start = .ok exposure) :
    (∀ i ∈ assets, ∃ gain, productGain (converters i) (current i - before i) = .ok gain) ∧
    exposure = start + (assets.map fun i : Fin g.assetCount =>
      ((productGain (converters i) (current i - before i)).toOption.getD 0)).sum := by
  induction assets generalizing start with
  | nil =>
    cases h
    exact ⟨fun i hi => absurd hi List.not_mem_nil, rfl⟩
  | cons i rest ih =>
    rw [List.foldlM_cons, bind_eq_ok] at h
    obtain ⟨next, hnext, h⟩ := h
    obtain ⟨gain, hgain, rfl⟩ := addExposure_eq_ok hnext
    obtain ⟨hrest, rfl⟩ := ih h
    constructor
    · intro j hj
      rcases List.mem_cons.mp hj with rfl | hj
      · exact ⟨gain, hgain⟩
      · exact hrest j hj
    · rw [List.map_cons, List.sum_cons, hgain, ← Nat.add_assoc]
      rfl

/-- The assets behind the cash. -/
theorem mem_tail_finRange (g : Graph n) (i : Fin g.assetCount) :
    i ∈ (List.finRange g.assetCount).tail ↔ i ≠ g.first := by
  have htwo := g.two_le
  obtain ⟨k, hk⟩ : ∃ k, g.assetCount = k + 1 := ⟨g.assetCount - 1, by omega⟩
  have hfirst : (g.first : ℕ) = 0 := rfl
  generalize g.first = first at hfirst ⊢
  revert i first
  rw [hk]
  intro i first hfirst
  rw [show first = 0 from Fin.ext hfirst, List.finRange_succ, List.tail_cons, List.mem_map]
  constructor
  · rintro ⟨j, -, rfl⟩
    exact Fin.succ_ne_zero j
  · intro hi
    exact ⟨i.pred hi, List.mem_finRange _, Fin.succ_pred i hi⟩

/-- The checks after the loop give the balances of the run. -/
theorem finishEconomic_conserved {start s : Chain} {rounds : List Round} {wallet : Fin n}
    {before : Fin g.assetCount → ℕ} {run : EconomicRun natives g.assetCount} {outcome : EconomicOutcome}
    (hbefore : ∀ i, before i = tokenAmount start.ledger (tokenKey a g i))
    (haccounted : EconomicAccounted a g converters start (a.key wallet) rounds run s)
    (h : finishEconomic a g wallet converters before s.ledger run = .ok outcome) :
    EconomicConserved a g converters start.ledger s.ledger (a.key wallet) outcome.exposureQ32 ∧
    outcome.sequence = g.sequence ∧ outcome.actualIn = g.input ∧ outcome.executed = run.executed := by
  rw [finishEconomic, bind_eq_ok] at h
  obtain ⟨actualIn, hin, h⟩ := h
  obtain ⟨_, hexact, h⟩ := bind_eq_ok.mp h
  obtain ⟨exposure, hexposure, h⟩ := bind_eq_ok.mp h
  obtain ⟨_, hmin, h⟩ := bind_eq_ok.mp h
  cases h
  obtain ⟨hin_le, rfl⟩ := checkedSub_eq_ok.mp hin
  have hexact := need_eq_ok.mp hexact
  refine ⟨?_, rfl, hexact, rfl⟩
  obtain ⟨hgains, hsum⟩ := exposures_eq_ok hexposure
  have hcurrent := haccounted.current
  constructor
  · rw [← hcurrent, ← hbefore]
    omega
  · intro i hi
    rw [← hcurrent]
    exact haccounted.kept i hi
  · intro i hi hnone
    rw [← hcurrent]
    exact haccounted.transit i hi hnone
  · -- the gains are those that the loop over the assets has converted
    refine ⟨fun i => (productGain (converters i) (run.current i - before i)).toOption.getD 0, ?_, ?_⟩
    · intro i hi
      obtain ⟨gain, hgain⟩ := hgains i ((mem_tail_finRange g i).mpr hi)
      rw [← hcurrent, ← hbefore]
      dsimp only
      rw [hgain]
      rfl
    · exact hsum.trans (Nat.zero_add _)
  · exact need_eq_ok.mp hmin
  · exact haccounted.lamports

/-- Whatever the venues do, a reflow that returns spends exactly its input, in at most `maximum` CPIs that
follow paths of the graph and keep the budgets of the legs from the cash; no product is lost, an asset in
transit is left as it was, and the products gained the exposure that it returns. -/
theorem executeEconomicGraph_conserved {maximum : ℕ} {s s' : Chain} {outcome : EconomicOutcome}
    (h : executeEconomicGraph natives a g clock venues wallet maximum converters s = (.ok outcome, s')) :
    (∃ rounds, s'.cpis = s.cpis ++ roundsCpis rounds ∧ outcome.executed = (roundsCpis rounds).length ∧
      EconomicRan a g maximum s.ledger s'.ledger rounds) ∧
    EconomicConserved a g converters s.ledger s'.ledger (a.key wallet) outcome.exposureQ32 ∧
    outcome.sequence = g.sequence ∧ outcome.actualIn = g.input := by
  rw [executeEconomicGraph, lift_bind_eq_ok] at h
  obtain ⟨_, -, h⟩ := h
  obtain ⟨paths, hpaths, h⟩ := lift_bind_eq_ok.mp h
  rw [get_bind, lift_bind_eq_ok] at h
  obtain ⟨before, hread, h⟩ := h
  obtain ⟨_, -, h⟩ := lift_bind_eq_ok.mp h
  obtain ⟨oracle, -, h⟩ := lift_bind_eq_ok.mp h
  obtain ⟨run, s₁, hrun, h⟩ := Comp.bind_eq_ok.mp h
  rw [get_bind] at h
  obtain ⟨hfinish, rfl⟩ := lift_eq_ok.mp h
  have hbefore : ∀ i, before i = tokenAmount s.ledger (tokenKey a g i) :=
    fun i => (checkedAsset_eq_ok (readEach_eq_ok.mp hread i)).1
  obtain ⟨rounds, haccounted, hle⟩ := runEconomic_accounted (economicPaths_eq_ok hpaths)
    (economicAccounted_start hbefore oracle (a.key wallet)) (Nat.zero_le maximum) hrun
  obtain ⟨hconserved, hsequence, hinput, hexecuted⟩ := finishEconomic_conserved hbefore haccounted hfinish
  refine ⟨⟨rounds, haccounted.cpis, hexecuted.trans haccounted.executed, ?_⟩, hconserved, hsequence, hinput⟩
  exact {
    linked := haccounted.linked
    length_le := haccounted.executed ▸ hle
    executes := haccounted.executes
    budget := fun i leg hleg hsource =>
      haccounted.used i leg hleg hsource ▸ haccounted.budget i leg hleg hsource }

/-- The reflow over the graph of some bytes: exactly the signed input is spent in rounds along paths of the
graph, nothing stays in transit, and what the products gained is worth the signed exposure at least. -/
theorem economic_conserves {d : Buffer} {maximum : ℕ} {s s' : Chain} {outcome : EconomicOutcome}
    (h : executeEconomicReflowFor natives a clock venues d wallet converters maximum s = (.ok outcome, s')) :
    ∃ g, Graph.decode d n = .ok g ∧
      (∃ rounds, s'.cpis = s.cpis ++ roundsCpis rounds ∧ outcome.executed = (roundsCpis rounds).length ∧
        EconomicRan a g maximum s.ledger s'.ledger rounds) ∧
      EconomicConserved a g converters s.ledger s'.ledger (a.key wallet) outcome.exposureQ32 ∧
      outcome.sequence = g.sequence ∧ outcome.actualIn = g.input := by
  obtain ⟨g, hg, h⟩ := lift_bind_eq_ok.mp h
  exact ⟨g, ad_eq_ok.mp hg, executeEconomicGraph_conserved h⟩

/-- Spend 600 of the first asset on the sample's pool for some exposure. -/
def economicPayload : Buffer := .ofList ([4, 2, 1, 8] ++ Buffer.toBytes 8 7 ++ Buffer.toBytes 8 600 ++
  Buffer.toBytes 8 500 ++ Buffer.toBytes 8 100 ++ [2, 3, 6, 4, 5, 6] ++
  [6, 0, 1, 0] ++ Buffer.toBytes 8 600 ++ [7, 8] ++ [6, 8, 9, 10, 11, 2, 4, 0])

/-- The second asset is a product of one share an atom. -/
def sampleConverters (i : ℕ) : Option Converter :=
  if i = 1 then
    (Converter.decode (seedLedger (.ofNat 15)) ⟨fixedRational, 10000, 1, 1⟩ 1000).toOption
  else none

/-- The sample reflow returns. -/
theorem economic_conserves_sample : ∃ outcome s', executeEconomicReflowFor noNatives seedAccounts sampleClock
      sampleVenues economicPayload 0 sampleConverters 1 { ledger := seedLedger } = (.ok outcome, s') ∧
    ∃ g, Graph.decode economicPayload 17 = .ok g ∧
      (∃ rounds, s'.cpis = roundsCpis rounds ∧ outcome.executed = (roundsCpis rounds).length ∧
        EconomicRan seedAccounts g 1 seedLedger s'.ledger rounds) ∧
      EconomicConserved seedAccounts g sampleConverters seedLedger s'.ledger (.ofNat 10)
        outcome.exposureQ32 ∧
      outcome.sequence = g.sequence ∧ outcome.actualIn = g.input := by
  obtain ⟨outcome, s', hrun⟩ := Comp.exists_of_isOk (x := executeEconomicReflowFor noNatives seedAccounts
    sampleClock sampleVenues economicPayload 0 sampleConverters 1) (s := { ledger := seedLedger }) (by
      rw [seedAccounts_eq]
      decide +kernel)
  exact ⟨outcome, s', hrun, economic_conserves hrun⟩

end Loop

end StockMesh.Settle

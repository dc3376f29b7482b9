import StockMesh.Settle.Graph
import Mathlib.Data.Fin.VecNotation

/-! # Conservation of a settled graph

Whatever the venues do, the balances read back after every CPI are those of the ledger, so the loop's
locals are a record of what happened (`Accounted`). One iteration keeps it (`Accounted.step`), the
checks after the loop turn it into the balances of the whole run (`graph_conserves`). -/

namespace StockMesh.Settle

open Stateful

/-- What a CPI took from a token account. -/
def Cpi.spent (c : Cpi) (key : Key) : ℕ := tokenAmount c.before key - tokenAmount c.after key

/-- Each CPI starts on the ledger that the one before it left. -/
def Linked : Ledger → List Cpi → Ledger → Prop
  | start, [], final => final = start
  | start, c :: log, final => c.before = start ∧ Linked c.after log final

/-- Everything a leg took from a token account over a log. -/
def spentThrough (log : List Cpi) (leg : ℕ) (key : Key) : ℕ :=
  ((log.filter fun c => c.leg = leg).map fun c => c.spent key).sum

/-- A CPI may follow a log. -/
theorem Linked.snoc {start final : Ledger} {log : List Cpi} (h : Linked start log final) {c : Cpi}
    (hbefore : c.before = final) : Linked start (log ++ [c]) c.after := by
  induction log generalizing start with
  | nil =>
    cases h
    exact ⟨hbefore, rfl⟩
  | cons d log ih => exact ⟨h.1, ih h.2⟩

@[simp] theorem spentThrough_nil (leg : ℕ) (key : Key) : spentThrough [] leg key = 0 := rfl

theorem spentThrough_snoc_self (log : List Cpi) (c : Cpi) (key : Key) :
    spentThrough (log ++ [c]) c.leg key = spentThrough log c.leg key + c.spent key := by
  simp [spentThrough]

theorem spentThrough_snoc_of_ne (log : List Cpi) {c : Cpi} {leg : ℕ} (h : c.leg ≠ leg) (key : Key) :
    spentThrough (log ++ [c]) leg key = spentThrough log leg key := by
  simp [spentThrough, h]

section Statement

variable {n : ℕ} (a : Accounts n) (g : Graph n)

/-- What a leg may spend on a ledger of the run: the signed input not yet spent, or what earlier legs
of the run produced. -/
def spendable (start ledger : Ledger) (leg : Leg n g.assetCount) : ℕ :=
  let held := tokenAmount ledger (tokenKey a g leg.source)
  let initial := tokenAmount start (tokenKey a g leg.source)
  if leg.source = g.first then g.input - (initial - held) else held - initial

/-- A CPI executed a leg: it moved the leg's two assets, within what was spendable, and nothing else of
the wallet. -/
structure Executes (start : Ledger) (wallet : Key) (leg : Leg n g.assetCount) (c : Cpi) : Prop where
  takes : tokenAmount c.after (tokenKey a g leg.source) < tokenAmount c.before (tokenKey a g leg.source)
  gives : tokenAmount c.before (tokenKey a g leg.destination)
    < tokenAmount c.after (tokenKey a g leg.destination)
  others : ∀ i, i ≠ leg.source → i ≠ leg.destination →
    tokenAmount c.after (tokenKey a g i) = tokenAmount c.before (tokenKey a g i)
  within : c.spent (tokenKey a g leg.source) ≤ spendable a g start c.before leg
  lamports : (c.after wallet).lamports = (c.before wallet).lamports

/-- The CPIs of a run: at most four, one after another, each executing a leg, and no leg beyond its
signed budget in total. -/
structure Ran (start final : Ledger) (wallet : Key) (log : List Cpi) : Prop where
  linked : Linked start log final
  length_le : log.length ≤ 4
  executes : ∀ c ∈ log, ∃ leg, g.legs[c.leg]? = some leg ∧ Executes a g start wallet leg c
  budget : ∀ i leg, g.legs[i]? = some leg →
    spentThrough log i (tokenKey a g leg.source) ≤ leg.budget

/-- What a settled graph did to the wallet's balances. -/
structure Conserved (start final : Ledger) (wallet : Key) : Prop where
  input : tokenAmount final (tokenKey a g g.first) + g.input = tokenAmount start (tokenKey a g g.first)
  output : tokenAmount start (tokenKey a g g.sink) + g.minOut ≤ tokenAmount final (tokenKey a g g.sink)
  transit : ∀ i, i ≠ g.first → i ≠ g.sink →
    tokenAmount final (tokenKey a g i) = tokenAmount start (tokenKey a g i)
  lamports : (final wallet).lamports = (start wallet).lamports

end Statement

section Loop

variable {natives : Natives} {n : ℕ} {a : Accounts n} {g : Graph n} {clock : Clock}
  {before : Fin g.assetCount → ℕ} {program : ProgramId} {venues : Venues program} {wallet : Fin n}

/-- The locals of the loop account for the log: balances are those of the ledger, `used` is what each
leg spent, and no leg is over its budget. -/
structure Accounted (a : Accounts n) (g : Graph n) (start : Chain) (wallet : Key) (iteration : ℕ)
    (log : List Cpi) (run : Run natives g.assetCount) (s : Chain) : Prop where
  cpis : s.cpis = start.cpis ++ log
  linked : Linked start.ledger log s.ledger
  current : ∀ i, run.current i = tokenAmount s.ledger (tokenKey a g i)
  lamports : (s.ledger wallet).lamports = (start.ledger wallet).lamports
  executes : ∀ c ∈ log, ∃ leg, g.legs[c.leg]? = some leg ∧ Executes a g start.ledger wallet leg c
  used : ∀ i leg, g.legs[i]? = some leg →
    run.used i = spentThrough log i (tokenKey a g leg.source)
  budget : ∀ i leg, g.legs[i]? = some leg → run.used i ≤ leg.budget
  executed : run.executed = log.length
  length_le : log.length ≤ iteration
  /-- Nothing is used before the first iteration, and in a fixed graph no leg is used before its own. -/
  fresh : (iteration = 0 ∨ run.oracle = none) → ∀ i, iteration ≤ i → run.used i = 0

/-- The budget of an iteration is left to its leg. -/
theorem Selected.within_budget {start s : Chain} {iteration : ℕ} {log : List Cpi}
    {run : Run natives g.assetCount}
    (h : Accounted a g start (a.key wallet) iteration log run s)
    (sel : Selected a g clock before s.ledger iteration run) :
    run.used sel.selection.index + sel.budget ≤ sel.leg.budget := by
  have hle := h.budget _ _ sel.leg_eq
  have hmin : sel.budget ≤ sel.leg.budget := by
    unfold Selected.budget
    omega
  have hamount : sel.budget ≤ sel.selection.amount := Nat.min_le_right _ _
  rcases selectLeg_eq_ok sel.select_eq with
    ⟨ho, -, hsel⟩ | ⟨o, -, -, hzero, -, hsel⟩ | ⟨o, o', -, -, -, hnext⟩
  · -- a fixed graph executes every leg once
    have hunused : run.used sel.selection.index = 0 := by
      rw [hsel]
      exact h.fresh (.inr ho) iteration le_rfl
    omega
  · -- the seed is the first CPI of all
    have hunused : run.used sel.selection.index = 0 := by
      rw [hsel]
      exact h.fresh (.inl hzero) 0 hzero.le
    omega
  · -- the oracle only quotes within the budget left
    obtain ⟨leg, hleg, hwithin⟩ := Oracle.nextNormalized_within hnext
    rw [sel.leg_eq] at hleg
    cases hleg
    omega

/-- What an iteration may spend is spendable on its ledger. -/
theorem Selected.available_le {start s : Chain} {iteration : ℕ} {log : List Cpi}
    {run : Run natives g.assetCount}
    (hbefore : ∀ i, before i = tokenAmount start.ledger (tokenKey a g i))
    (h : Accounted a g start (a.key wallet) iteration log run s)
    (sel : Selected a g clock before s.ledger iteration run) :
    sel.available ≤ spendable a g start.ledger s.ledger sel.leg := by
  have havailable := sel.available_eq
  unfold availableFor at havailable
  unfold spendable
  dsimp only
  split at havailable
  · next hsource =>
    rw [Except.ok.injEq] at havailable
    have hremaining := sel.remaining_eq
    rw [remainingInput, bind_eq_ok] at hremaining
    obtain ⟨spent, hspent, hremaining⟩ := hremaining
    obtain ⟨-, rfl⟩ := checkedSub_eq_ok.mp hspent
    obtain ⟨-, hremaining⟩ := checkedSub_eq_ok.mp hremaining
    rw [if_pos hsource, hsource, ← h.current, ← hbefore, hremaining, havailable]
  · next hsource =>
    obtain ⟨-, havailable⟩ := checkedSub_eq_ok.mp havailable
    rw [if_neg hsource, ← h.current, ← hbefore, havailable]

/-- Changing the oracle's state changes no account. -/
theorem Accounted.skip {start s : Chain} {iteration : ℕ} {log : List Cpi}
    {run : Run natives g.assetCount} {ledger : Ledger}
    (h : Accounted a g start (a.key wallet) iteration log run s)
    (sel : Selected a g clock before ledger iteration run) :
    Accounted a g start (a.key wallet) (iteration + 1) log sel.run' s where
  cpis := h.cpis
  linked := h.linked
  current := h.current
  lamports := h.lamports
  executes := h.executes
  used := h.used
  budget := h.budget
  executed := h.executed
  length_le := h.length_le.trans (Nat.le_succ _)
  fresh := by
    intro hfixed i hi
    rcases hfixed with hzero | hnone
    · omega
    · have hsome := selectLeg_isSome sel.select_eq
      rw [show sel.oracle = none from hnone] at hsome
      exact h.fresh (.inr (Option.isSome_eq_false_iff.mp hsome.symm |> Option.isNone_iff_eq_none.mp)) i
        (by omega)

/-- The record of an executed selection. -/
def Selected.cpi {s : Chain} {iteration : ℕ} {run : Run natives g.assetCount}
    (sel : Selected a g clock before s.ledger iteration run) (data : List UInt8) (after : Ledger) :
    Cpi :=
  ⟨sel.selection.index, legInstruction a g s.ledger sel.leg data, s.ledger, after⟩

/-- An executed selection took from its leg's source what the locals say. -/
theorem Recorded.spent_eq {start s s' : Chain} {iteration : ℕ} {log : List Cpi}
    {run next : Run natives g.assetCount} {lamports : ℕ}
    (h : Accounted a g start (a.key wallet) iteration log run s)
    {sel : Selected a g clock before s.ledger iteration run}
    (hrec : Recorded a g s'.ledger (a.key wallet) lamports iteration sel.budget sel.selection sel.leg
      sel.run' next) (data : List UInt8) :
    sel.run'.current sel.leg.source - next.current sel.leg.source
      = (sel.cpi data s'.ledger).spent (tokenKey a g sel.leg.source) := by
  rw [hrec.current_eq, show sel.run'.current = run.current from rfl, h.current]
  rfl

/-- Executing a selection keeps the locals in step with the ledger. -/
theorem Accounted.execute {start s s' : Chain} {iteration : ℕ} {log : List Cpi}
    {run next : Run natives g.assetCount} {data : List UInt8}
    (hbefore : ∀ i, before i = tokenAmount start.ledger (tokenKey a g i))
    (h : Accounted a g start (a.key wallet) iteration log run s)
    (sel : Selected a g clock before s.ledger iteration run)
    (hcpis : s'.cpis = s.cpis ++ [sel.cpi data s'.ledger])
    (hrec : Recorded a g s'.ledger (a.key wallet) (start.ledger (a.key wallet)).lamports iteration
      sel.budget sel.selection sel.leg sel.run' next) :
    Accounted a g start (a.key wallet) (iteration + 1) (log ++ [sel.cpi data s'.ledger]) next s' := by
  have hskip := h.skip sel
  have hwithin := sel.within_budget h
  -- the balances before and after are those of the two ledgers
  have hold : ∀ i, sel.run'.current i = tokenAmount s.ledger (tokenKey a g i) := h.current
  have hnew := hrec.current_eq
  have hspent := hrec.spent_eq h data
  have hspent_le := hspent ▸ hrec.spent_le
  have hused : next.used sel.selection.index = run.used sel.selection.index +
      (sel.cpi data s'.ledger).spent (tokenKey a g sel.leg.source) := by
    rw [hrec.used_eq, Function.update_self, hspent]
    rfl
  have hkeep : ∀ i, i ≠ sel.selection.index → next.used i = run.used i := by
    intro i hi
    rw [hrec.used_eq, Function.update_of_ne hi]
    rfl
  have hexecutes : Executes a g start.ledger (a.key wallet) sel.leg (sel.cpi data s'.ledger) :=
    { takes := by
        have htakes := hrec.takes
        rwa [hold, hnew] at htakes
      gives := by
        have hgives := hrec.gives
        rwa [hold, hnew] at hgives
      others := fun i hs hd => by
        show tokenAmount s'.ledger _ = tokenAmount s.ledger _
        rw [← hnew, ← hold]
        exact hrec.others i hs hd
      within := by
        have havailable := sel.available_le hbefore h
        have hmin : sel.budget ≤ sel.available := by
          unfold Selected.budget
          omega
        exact hspent_le.trans (hmin.trans havailable)
      lamports := by
        show (s'.ledger _).lamports = (s.ledger _).lamports
        rw [hrec.lamports_eq, h.lamports] }
  constructor
  · rw [hcpis, h.cpis, List.append_assoc]
  · exact h.linked.snoc rfl
  · exact hnew
  · rw [hrec.lamports_eq]
  · intro c hc
    rcases List.mem_append.mp hc with hc | hc
    · exact h.executes c hc
    · rw [List.mem_singleton] at hc
      subst hc
      exact ⟨sel.leg, sel.leg_eq, hexecutes⟩
  · intro i leg hleg
    by_cases hi : i = sel.selection.index
    · subst hi
      have hsnoc := spentThrough_snoc_self log (sel.cpi data s'.ledger) (tokenKey a g leg.source)
      have hold := h.used _ leg hleg
      rw [sel.leg_eq] at hleg
      cases hleg
      rw [hused, hold]
      exact hsnoc.symm
    · have hne : sel.selection.index ≠ i := fun heq => hi heq.symm
      rw [hkeep i hi, h.used i leg hleg]
      exact (spentThrough_snoc_of_ne log (c := sel.cpi data s'.ledger) hne _).symm
  · intro i leg hleg
    by_cases hi : i = sel.selection.index
    · subst hi
      rw [sel.leg_eq] at hleg
      cases hleg
      omega
    · rw [hkeep i hi]
      exact h.budget i leg hleg
  · rw [hrec.executed_eq, List.length_append]
    exact congrArg (· + 1) h.executed
  · rw [List.length_append]
    exact Nat.succ_le_succ h.length_le
  · intro hfixed i hi
    have hnone : sel.oracle = none := by
      rcases hfixed with hzero | hnone
      · omega
      · rw [hrec.oracle_eq] at hnone
        exact hnone
    -- the executed leg of a fixed graph is the one of this iteration
    have hindex : sel.selection.index = iteration := by
      rcases selectLeg_eq_ok sel.select_eq with
        ⟨-, -, hsel⟩ | ⟨o, -, ho, -⟩ | ⟨o, o', -, ho, -⟩
      · rw [hsel]
      · rw [hnone] at ho
        cases ho
      · rw [hnone] at ho
        cases ho
    rw [hkeep i (by omega)]
    exact hskip.fresh (.inr hnone) i hi

/-- An iteration keeps the locals in step with the ledger. -/
theorem Accounted.step {start s s' : Chain} {iteration : ℕ} {log : List Cpi}
    {run next : Run natives g.assetCount}
    (hbefore : ∀ i, before i = tokenAmount start.ledger (tokenKey a g i))
    (h : Accounted a g start (a.key wallet) iteration log run s)
    (hstep : Iterated a g clock before venues wallet
      (start.ledger (a.key wallet)).lamports iteration run s next s') :
    ∃ log', Accounted a g start (a.key wallet) (iteration + 1) log' next s' := by
  cases hstep with
  | skip sel idle => exact ⟨log, h.skip sel⟩
  | execute sel pos data_eq invoke_eq return_eq cpis_eq record_eq =>
    exact ⟨_, h.execute hbefore sel cpis_eq (recordLeg_eq_ok record_eq)⟩

/-- The loop keeps the locals in step with the ledger. -/
theorem runGraph_accounted {start s s' : Chain} {m : ℕ} {run final : Run natives g.assetCount}
    (hbefore : ∀ i, before i = tokenAmount start.ledger (tokenKey a g i)) {iteration : ℕ}
    {log : List Cpi} (h : Accounted a g start (a.key wallet) iteration log run s)
    (hrun : runGraph a g clock before venues wallet (start.ledger (a.key wallet)).lamports
      (List.range' iteration m) run s = (.ok final, s')) :
    ∃ k ≤ iteration + m, ∃ log', Accounted a g start (a.key wallet) k log' final s' := by
  induction m generalizing iteration log run s with
  | zero =>
    obtain ⟨hfinal, hs⟩ := pure_eq_ok.mp hrun
    cases hfinal
    cases hs
    exact ⟨iteration, le_rfl, log, h⟩
  | succ m ih =>
    rw [List.range'_succ, runGraph] at hrun
    obtain ⟨next, s₁, hiterate, hrest⟩ := Comp.bind_eq_ok.mp hrun
    cases next with
    | none =>
      obtain ⟨hstop, -⟩ := iterate_none hiterate
      obtain ⟨hfinal, hs⟩ := pure_eq_ok.mp hrest
      cases hfinal
      cases hs
      cases hstop
      exact ⟨iteration, by omega, log, h⟩
    | some next =>
      obtain ⟨log₁, h₁⟩ := h.step hbefore (iterate_some hiterate)
      obtain ⟨k, hk, log₂, h₂⟩ := ih h₁ hrest
      exact ⟨k, by omega, log₂, h₂⟩

/-- The checks after the loop give the balances of the run. -/
theorem finishGraph_conserved {start : Chain} {ledger : Ledger} {run : Run natives g.assetCount}
    {outcome : GraphOutcome} (hbefore : ∀ i, before i = tokenAmount start.ledger (tokenKey a g i))
    (hcurrent : ∀ i, run.current i = tokenAmount ledger (tokenKey a g i))
    (hlamports : (ledger (a.key wallet)).lamports = (start.ledger (a.key wallet)).lamports)
    (h : finishGraph a g before wallet ledger run = .ok outcome) :
    Conserved a g start.ledger ledger (a.key wallet) ∧ outcome.sequence = g.sequence ∧
    outcome.actualIn = g.input ∧
    outcome.actualOut = tokenAmount ledger (tokenKey a g g.sink)
      - tokenAmount start.ledger (tokenKey a g g.sink) ∧ g.minOut ≤ outcome.actualOut := by
  rw [finishGraph, bind_eq_ok] at h
  obtain ⟨actualIn, hin, h⟩ := h
  obtain ⟨actualOut, hout, h⟩ := bind_eq_ok.mp h
  obtain ⟨_, hexact, h⟩ := bind_eq_ok.mp h
  obtain ⟨_, hmin, h⟩ := bind_eq_ok.mp h
  obtain ⟨_, htransit, h⟩ := bind_eq_ok.mp h
  obtain ⟨after, -, h⟩ := bind_eq_ok.mp h
  obtain ⟨_, -, h⟩ := bind_eq_ok.mp h
  cases h
  obtain ⟨hin_le, rfl⟩ := checkedSub_eq_ok.mp hin
  obtain ⟨hout_le, rfl⟩ := checkedSub_eq_ok.mp hout
  have hexact := need_eq_ok.mp hexact
  have hmin := need_eq_ok.mp hmin
  rw [hbefore, hcurrent] at hin_le hexact hout_le hmin
  refine ⟨?_, rfl, ?_, ?_, ?_⟩
  · constructor
    · omega
    · omega
    · intro i hfirst hsink
      rw [← hcurrent, ← hbefore]
      exact need_eq_ok.mp htransit i hfirst hsink
    · exact hlamports
  · show before g.first - run.current g.first = g.input
    rw [hbefore, hcurrent, hexact]
  · show run.current g.sink - before g.sink = _
    rw [hbefore, hcurrent]
  · show g.minOut ≤ run.current g.sink - before g.sink
    rw [hbefore, hcurrent]
    exact hmin

/-- The parts of an execution: the balances it starts from, the loop, and the checks after it. -/
theorem executeGraph_eq_ok {s s' : Chain} {outcome : GraphOutcome}
    (h : executeGraph natives a g clock venues wallet s = (.ok outcome, s')) :
    ∃ before oracle run, (∀ i, before i = tokenAmount s.ledger (tokenKey a g i)) ∧
      (oracle : Option (Oracle natives)).isSome = g.reflow ∧
      runGraph a g clock before venues wallet (s.ledger (a.key wallet)).lamports
        (List.range' 0 (if g.reflow then 4 else g.legs.length)) { oracle, current := before } s
        = (.ok run, s') ∧
      finishGraph a g before wallet s'.ledger run = .ok outcome := by
  rw [executeGraph, get_bind, lift_bind_eq_ok] at h
  obtain ⟨before, hread, h⟩ := h
  obtain ⟨_, -, h⟩ := lift_bind_eq_ok.mp h
  obtain ⟨oracle, horacle, h⟩ := lift_bind_eq_ok.mp h
  obtain ⟨run, s₁, hrun, h⟩ := Comp.bind_eq_ok.mp h
  rw [get_bind] at h
  obtain ⟨hfinish, rfl⟩ := lift_eq_ok.mp h
  have hsome : oracle.isSome = g.reflow := by
    unfold Graph.reflow
    split at horacle
    · next hpos =>
      rcases hnew : Oracle.new natives s.ledger a g clock with e | o
      · rw [hnew] at horacle
        cases horacle
      · rw [hnew] at horacle
        cases horacle
        simp [hpos]
    · next hpos =>
      cases horacle
      simp [hpos]
  rw [List.range_eq_range', hsome] at hrun
  exact ⟨before, oracle, run, fun i => (checkedAsset_eq_ok (readEach_eq_ok.mp hread i)).1, hsome, hrun,
    hfinish⟩

variable (wallet) in
/-- Before the first iteration there is nothing to account for. -/
theorem accounted_start {s : Chain} (hbefore : ∀ i, before i = tokenAmount s.ledger (tokenKey a g i))
    (oracle : Option (Oracle natives)) :
    Accounted a g s (a.key wallet) 0 [] { oracle, current := before } s where
  cpis := (List.append_nil _).symm
  linked := rfl
  current := hbefore
  lamports := rfl
  executes := fun _ hc => by cases hc
  used := fun _ _ _ => rfl
  budget := fun _ _ _ => Nat.zero_le _
  executed := rfl
  length_le := Nat.zero_le _
  fresh := fun _ _ _ => rfl

/-- Four iterations with an oracle, one for each of at most four legs without. -/
theorem iterations_le (g : Graph n) : (if g.reflow then 4 else g.legs.length) ≤ 4 := by
  split
  · exact le_rfl
  · next hfixed =>
    refine g.fixed_le ?_
    unfold Graph.reflow at hfixed
    simpa using hfixed

/-- The loop leaves the accounts of the program alone. -/
theorem runGraph_owned {lamports : ℕ} {iterations : List ℕ} {run final : Run natives g.assetCount}
    {s s' : Chain}
    (h : runGraph a g clock before venues wallet lamports iterations run s = (.ok final, s')) {key : Key}
    (howner : (s.ledger key).owner = program) :
    (s'.ledger key).owner = program ∧ (s'.ledger key).data = (s.ledger key).data := by
  induction iterations generalizing run s with
  | nil =>
    obtain ⟨-, rfl⟩ := pure_eq_ok.mp h
    exact ⟨howner, rfl⟩
  | cons iteration iterations ih =>
    rw [runGraph] at h
    obtain ⟨next, s₁, hiterate, hrest⟩ := Comp.bind_eq_ok.mp h
    cases next with
    | none =>
      obtain ⟨rfl, -⟩ := iterate_none hiterate
      obtain ⟨-, rfl⟩ := pure_eq_ok.mp hrest
      exact ⟨howner, rfl⟩
    | some next =>
      cases iterate_some hiterate with
      | skip sel idle => exact ih hrest howner
      | execute sel pos data_eq invoke_eq return_eq cpis_eq record_eq =>
        obtain ⟨howner₁, hdata₁⟩ := venues.owned invoke_eq key howner
        obtain ⟨howner', hdata'⟩ := ih hrest howner₁
        exact ⟨howner', hdata'.trans hdata₁⟩

theorem executeGraph_owned {s s' : Chain} {outcome : GraphOutcome}
    (h : executeGraph natives a g clock venues wallet s = (.ok outcome, s')) {key : Key}
    (howner : (s.ledger key).owner = program) :
    (s'.ledger key).owner = program ∧ (s'.ledger key).data = (s.ledger key).data := by
  obtain ⟨before, oracle, run, -, -, hrun, -⟩ := executeGraph_eq_ok h
  exact runGraph_owned hrun howner

/-- A graph that executes conserves the wallet's balances. -/
theorem executeGraph_conserved {s s' : Chain} {outcome : GraphOutcome}
    (h : executeGraph natives a g clock venues wallet s = (.ok outcome, s')) :
    (∃ log, s'.cpis = s.cpis ++ log ∧ Ran a g s.ledger s'.ledger (a.key wallet) log) ∧
    Conserved a g s.ledger s'.ledger (a.key wallet) ∧ outcome.sequence = g.sequence ∧
    outcome.actualIn = g.input ∧
    outcome.actualOut = tokenAmount s'.ledger (tokenKey a g g.sink)
      - tokenAmount s.ledger (tokenKey a g g.sink) ∧ g.minOut ≤ outcome.actualOut := by
  obtain ⟨before, oracle, run, hbefore, -, hrun, hfinish⟩ := executeGraph_eq_ok h
  obtain ⟨k, hk, log, hlog⟩ := runGraph_accounted hbefore (accounted_start wallet hbefore oracle) hrun
  have hfour : k ≤ 4 := hk.trans ((Nat.zero_add _).le.trans (iterations_le g))
  refine ⟨⟨log, hlog.cpis, ?_⟩, finishGraph_conserved hbefore hlog.current hlog.lamports hfinish⟩
  exact {
    linked := hlog.linked
    length_le := hlog.length_le.trans hfour
    executes := hlog.executes
    budget := fun i leg hleg => hlog.used i leg hleg ▸ hlog.budget i leg hleg }

end Loop

/-! ## Settlement with the owner's nonce -/

section Settlement

variable {natives : Natives} {n : ℕ} {a : Accounts n} {clock : Clock} {program : ProgramId}
  {venues : Venues program}

/-- A settled graph: the balances of the run, its CPIs, and a nonce that advanced by one. -/
structure GraphSettled (a : Accounts n) (g : Graph n) (wallet nonce : Fin n) (s s' : Chain) :
    Prop where
  conserved : Conserved a g s.ledger s'.ledger (a.key wallet)
  /-- After the CPIs only the nonce is written. -/
  ran : ∃ log final, s'.cpis = s.cpis ++ log ∧ Ran a g s.ledger final (a.key wallet) log ∧
    ∀ key, key ≠ a.key nonce → s'.ledger key = final key
  sequence : u64At (s.ledger (a.key nonce)).data 40 = .ok g.sequence
  advanced : u64At (s'.ledger (a.key nonce)).data 40 = .ok (g.sequence + 1)

/-- A preflighted graph: the nonce holds its sequence and is no token account of the graph. -/
theorem preflightDecoded_eq_ok {g : Graph n} {ledger : Ledger} {wallet nonce : Fin n}
    {aggregate : List ℕ} {pending : ℕ}
    (h : preflightDecoded ledger a g program clock wallet nonce aggregate pending = .ok ()) :
    u64At (ledger (a.key nonce)).data 40 = .ok g.sequence ∧
    (ledger (a.key nonce)).owner = program ∧ ∀ i, tokenKey a g i ≠ a.key nonce := by
  rw [preflightDecoded, bind_eq_ok] at h
  obtain ⟨_, hidentity, h⟩ := h
  obtain ⟨_, hnonce, h⟩ := bind_eq_ok.mp h
  obtain ⟨_, -, h⟩ := bind_eq_ok.mp h
  obtain ⟨before, hread, -⟩ := bind_eq_ok.mp h
  obtain ⟨-, -, -, howner⟩ := need_eq_ok.mp hidentity
  refine ⟨?_, howner, ?_⟩
  · rw [checkNonce, bind_eq_ok] at hnonce
    obtain ⟨_, -, hnonce⟩ := hnonce
    obtain ⟨stored, hstored, hnonce⟩ := bind_eq_ok.mp hnonce
    rw [ad_eq_ok.mp hstored, need_eq_ok.mp hnonce]
  · intro i heq
    have hasset := readEach_eq_ok.mp hread i
    rw [preflightAsset, bind_eq_ok] at hasset
    obtain ⟨amount, hasset, -⟩ := hasset
    obtain ⟨-, hp, ht⟩ := checkedAsset_eq_ok hasset
    rw [heq, howner] at ht
    rcases hp with hp | hp
    · exact program.2.1 (ht.trans hp)
    · exact program.2.2 (ht.trans hp)

theorem writeData_eq_ok {key : Key} {offset : ℕ} {bytes : List UInt8} {s s' : Chain}
    (h : writeData key offset bytes s = (.ok (), s')) :
    ∃ data, (s.ledger key).data.splice offset bytes = some data ∧
      s' = { s with ledger := Function.update s.ledger key { s.ledger key with data } } := by
  unfold writeData at h
  split at h
  · next data hdata =>
    cases h
    exact ⟨data, hdata, rfl⟩
  · cases h

/-- Writing to another account changes no balance. -/
theorem tokenAmount_update {ledger : Ledger} {key other : Key} {account : Account}
    (h : other ≠ key) :
    tokenAmount (Function.update ledger key account) other = tokenAmount ledger other := by
  rw [tokenAmount, tokenAmount, Function.update_of_ne h]

/-- The parts of a settlement: the preflighted graph, its execution, the nonce and the receipt. -/
structure SettlesAs (natives : Natives) (a : Accounts n) (clock : Clock) (venues : Venues program)
    (d : Buffer) (g : Graph n) (wallet nonce : Fin n) (outcome : GraphOutcome) (s s₁ s' : Chain) :
    Prop where
  decode_eq : Graph.decode d n = .ok g
  preflight_eq : preflightDecoded s.ledger a g program clock wallet nonce [] 0 = .ok ()
  execute_eq : executeGraph natives a g clock venues wallet s = (.ok outcome, s₁)
  sequence_lt : outcome.sequence + 1 < u64Size
  finish_eq : ∃ data, (s₁.ledger (a.key nonce)).data.splice 40 (Buffer.toBytes 8 (outcome.sequence + 1) ++
      (Buffer.toBytes 8 outcome.actualIn ++ Buffer.toBytes 8 outcome.actualOut)) = some data ∧
    s' = { s₁ with
      ledger := Function.update s₁.ledger (a.key nonce) { s₁.ledger (a.key nonce) with data }
      returnData := outcome.receipt.take outcome.receiptLen }

theorem settleGraphFor_eq_ok {d : Buffer} {walletIndex nonceIndex : ℕ} {s s' : Chain}
    (h : settleGraphFor natives a clock venues d walletIndex nonceIndex s = (.ok (), s')) :
    ∃ g wallet nonce outcome s₁, (wallet : Fin n).val = walletIndex ∧
      (nonce : Fin n).val = nonceIndex ∧
      SettlesAs natives a clock venues d g wallet nonce outcome s s₁ s' := by
  rw [settleGraphFor, get_bind, lift_bind_eq_ok] at h
  obtain ⟨_, hpreflight, h⟩ := h
  obtain ⟨wallet, hwallet, h⟩ := lift_bind_eq_ok.mp h
  obtain ⟨nonce, hnonce, h⟩ := lift_bind_eq_ok.mp h
  obtain ⟨outcome, s₁, hexecute, h⟩ := Comp.bind_eq_ok.mp h
  obtain ⟨next, hnext, h⟩ := lift_bind_eq_ok.mp h
  obtain ⟨_, s₂, hwrite, hreturn⟩ := Comp.bind_eq_ok.mp h
  have hwallet := accountIndex_eq_ok.mp hwallet
  have hnonce := accountIndex_eq_ok.mp hnonce
  -- preflight and execution decode the same graph
  rw [preflightGraph, bind_eq_ok] at hpreflight
  obtain ⟨g, hg, hpreflight⟩ := hpreflight
  obtain ⟨wallet', hwallet', hpreflight⟩ := bind_eq_ok.mp hpreflight
  obtain ⟨nonce', hnonce', hpreflight⟩ := bind_eq_ok.mp hpreflight
  obtain rfl : wallet' = wallet := Fin.ext (by rw [accountIndex_eq_ok.mp hwallet', hwallet])
  obtain rfl : nonce' = nonce := Fin.ext (by rw [accountIndex_eq_ok.mp hnonce', hnonce])
  rw [executePreflightedGraphFor, lift_bind_eq_ok] at hexecute
  obtain ⟨g', hg', hexecute⟩ := hexecute
  obtain rfl : g' = g := Except.ok.inj (hg'.symm.trans hg)
  obtain ⟨data, hdata, rfl⟩ := writeData_eq_ok hwrite
  obtain ⟨hbound, rfl⟩ := checkedSum_eq_ok.mp hnext
  cases hreturn
  rw [List.append_assoc] at hdata
  exact ⟨g', wallet', nonce', outcome, s₁, hwallet, hnonce,
    ad_eq_ok.mp hg, hpreflight, hexecute, hbound, data, hdata, rfl⟩

/-- A settlement changes no account of the program except the nonce. -/
theorem SettlesAs.owned {d : Buffer} {g : Graph n} {wallet nonce : Fin n} {outcome : GraphOutcome}
    {s s₁ s' : Chain} (h : SettlesAs natives a clock venues d g wallet nonce outcome s s₁ s') {key : Key}
    (howner : (s.ledger key).owner = program) (hkey : key ≠ a.key nonce) :
    (s'.ledger key).owner = program ∧ (s'.ledger key).data = (s.ledger key).data := by
  obtain ⟨data, -, rfl⟩ := h.finish_eq
  show (Function.update s₁.ledger _ _ key).owner = _ ∧ (Function.update s₁.ledger _ _ key).data = _
  rw [Function.update_of_ne hkey]
  exact executeGraph_owned h.execute_eq howner

/-- Whatever the venues do, a graph that settles spends exactly its input, delivers its minimum, leaves
every other balance as it was, keeps every leg within its signed budget, and advances the nonce by
one. -/
theorem graph_conserves {d : Buffer} {walletIndex nonceIndex : ℕ} {s s' : Chain}
    (h : settleGraphFor natives a clock venues d walletIndex nonceIndex s = (.ok (), s')) :
    ∃ (g : Graph n) (wallet nonce : Fin n), Graph.decode d n = .ok g ∧ (wallet : ℕ) = walletIndex ∧
      (nonce : ℕ) = nonceIndex ∧ GraphSettled a g wallet nonce s s' := by
  obtain ⟨g, wallet, nonce, outcome, s₁, hwallet, hnonce, hsettles⟩ := settleGraphFor_eq_ok h
  obtain ⟨hsequence, -, hdistinct⟩ := preflightDecoded_eq_ok hsettles.preflight_eq
  obtain ⟨⟨log, hcpis, hran⟩, hconserved, hseq, -⟩ := executeGraph_conserved hsettles.execute_eq
  have hbound := hsettles.sequence_lt
  obtain ⟨data, hdata, rfl⟩ := hsettles.finish_eq
  refine ⟨g, wallet, nonce, hsettles.decode_eq, hwallet, hnonce, ?_⟩
  constructor
  · have hamount : ∀ i, tokenAmount (Function.update s₁.ledger (a.key nonce)
        { s₁.ledger (a.key nonce) with data }) (tokenKey a g i)
        = tokenAmount s₁.ledger (tokenKey a g i) := fun i => tokenAmount_update (hdistinct i)
    constructor
    · exact (hamount _).symm ▸ hconserved.input
    · exact (hamount _).symm ▸ hconserved.output
    · intro i hfirst hsink
      exact (hamount i).trans (hconserved.transit i hfirst hsink)
    · by_cases hkey : a.key wallet = a.key nonce
      · show (Function.update s₁.ledger _ _ _).lamports = _
        rw [hkey, Function.update_self, ← hkey]
        exact hconserved.lamports
      · show (Function.update s₁.ledger _ _ _).lamports = _
        rw [Function.update_of_ne hkey]
        exact hconserved.lamports
  · exact ⟨log, s₁.ledger, hcpis, hran, fun _ hkey => Function.update_of_ne hkey _ _⟩
  · exact hsequence
  · show u64At (Function.update s₁.ledger _ _ _).data 40 = _
    rw [Function.update_self, ← hseq]
    exact u64At_splice hdata hbound

end Settlement

/-! ## A settled graph -/

/-- A token account. -/
def tokenData (mint authority : Key) (amount : ℕ) : Buffer where
  size := 165
  byte i := if i < 32 then mint.toList.getD i 0
    else if i < 64 then authority.toList.getD (i - 32) 0
    else if i < 72 then (Buffer.toBytes 8 amount).getD (i - 64) 0
    else if i = 108 then 1 else 0

/-- A mint without extensions. -/
def mintData : Buffer := ⟨82, fun i => if i = 45 then 1 else 0⟩

/-- A nonce account. -/
def nonceData (wallet : Key) (sequence : ℕ) : Buffer :=
  .ofList (nonceTag ++ wallet.toList ++ Buffer.toBytes 8 sequence ++ List.replicate 16 0)

/-- The ledger with the given accounts. -/
def ledgerOf (accounts : List (Key × Account)) : Ledger := fun key =>
  ((accounts.find? fun p => p.1 = key).map Prod.snd).getD ⟨.ofNat 0, false, 0, ⟨0, fun _ => 0⟩⟩

/-- An executable account. -/
def programAccount : Account := ⟨.ofNat 0, true, 1, ⟨0, fun _ => 0⟩⟩

/-- The address of the sample deployment. -/
def sampleProgram : ProgramId := ⟨.ofNat 1, by decide, by decide⟩

/-- Move a token balance. -/
def creditToken (ledger : Ledger) (key : Key) (amount : ℕ) : Ledger := fun k =>
  if k = key ∧ (ledger key).owner = tokenId then
    { ledger key with
      data := ((ledger key).data.splice 64 (Buffer.toBytes 8 amount)).getD (ledger key).data }
  else ledger k

/-- A venue that swaps one for one between the source and destination of an AMM v4 instruction. -/
def sampleVenues : Venues sampleProgram where
  invoke _ ix ledger :=
    let input := Buffer.ofBytes ((ix.data.drop 1).take 8)
    match ix.accounts[5]?, ix.accounts[6]? with
    | some src, some dst =>
      let paid := creditToken ledger src.key (tokenAmount ledger src.key - input)
      .ok (creditToken paid dst.key (tokenAmount paid dst.key + input))
    | _, _ => .error .runtime
  owned := by
    intro number ix ledger ledger' h key howner
    have hcredit : ∀ (l : Ledger) (other : Key) (amount : ℕ), (l key).owner = sampleProgram →
        creditToken l other amount key = l key := by
      intro l other amount hl
      refine if_neg fun hboth => ?_
      rw [← hboth.1, hl] at hboth
      exact sampleProgram.2.1 hboth.2
    dsimp only at h
    split at h
    · cases h
      rw [hcredit _ _ _ (by rwa [hcredit _ _ _ howner]), hcredit _ _ _ howner]
      exact ⟨howner, rfl⟩
    · cases h

/-- Wallet, nonce, two tokens with their mints, the token program, and an AMM v4 pool with its
accounts. -/
def sampleLedger : Ledger := ledgerOf [
  (.ofNat 10, ⟨.ofNat 0, false, 5000, ⟨0, fun _ => 0⟩⟩),
  (.ofNat 11, ⟨.ofNat 1, false, 1, nonceData (.ofNat 10) 7⟩),
  (.ofNat 12, ⟨tokenId, false, 1, tokenData (.ofNat 13) (.ofNat 10) 1000⟩),
  (.ofNat 13, ⟨tokenId, false, 1, mintData⟩),
  (.ofNat 14, ⟨tokenId, false, 1, tokenData (.ofNat 15) (.ofNat 10) 50⟩),
  (.ofNat 15, ⟨tokenId, false, 1, mintData⟩),
  (tokenId, programAccount),
  (venueProgram .raydiumAmmV4, programAccount),
  (.ofNat 16, ⟨venueProgram .raydiumAmmV4, false, 1, ⟨752, fun _ => 0⟩⟩)]

/-- The account list of the sample. -/
def sampleAccounts : Accounts 10 where
  key := ![.ofNat 10, .ofNat 11, .ofNat 12, .ofNat 13, .ofNat 14, .ofNat 15, tokenId,
    venueProgram .raydiumAmmV4, .ofNat 16, .ofNat 17]
  isSigner key := key = .ofNat 10
  isWritable key := [Key.ofNat 10, .ofNat 11, .ofNat 12, .ofNat 14, .ofNat 16, .ofNat 17].contains key

theorem sampleAccounts_eq : sampleAccounts =
    { sampleAccounts with isWritable := fun key => key.number ∈ [10, 11, 12, 14, 16, 17] } :=
  congrArg (Accounts.mk _ _) (contains_ofNat [10, 11, 12, 14, 16, 17] (by decide))

/-- Spend 600 of the first asset in one AMM v4 leg for at least 500 of the second. -/
def samplePayload : Buffer := .ofList ([2, 2, 1, 0] ++ Buffer.toBytes 8 7 ++ Buffer.toBytes 8 600 ++
  Buffer.toBytes 8 500 ++ Buffer.toBytes 8 100 ++ [2, 3, 6, 4, 5, 6] ++
  [6, 0, 1, 0] ++ Buffer.toBytes 8 600 ++ [7, 8] ++ [6, 8, 6, 9, 9, 2, 4, 0])

/-- Every curve operation fails. -/
def noNatives : Natives where
  Clmm := Unit
  Orca := Unit
  Dlmm := Unit
  clmmDecode _ _ _ _ _ _ _ := .error .unsupported
  clmmRefresh curve _ _ _ := (curve, false)
  clmmQuote _ _ _ := .error .unsupported
  orcaDecode _ _ _ _ _ _ _ := .error .unsupported
  orcaQuote _ _ := .error .unsupported
  dlmmDecode _ _ _ _ _ _ := .error .unsupported
  dlmmQuote _ _ _ := .error .unsupported
  dammQuote _ _ _ _ _ _ := .error .unsupported

/-- A slot at which the samples run. -/
def sampleClock : Clock := ⟨50, 1, 1000⟩

/-- The sample graph settles. -/
theorem graph_conserves_sample : ∃ s', settleGraphFor noNatives sampleAccounts sampleClock sampleVenues
    samplePayload 0 1 { ledger := sampleLedger } = (.ok (), s') ∧
    ∃ (g : Graph 10) (wallet nonce : Fin 10), Graph.decode samplePayload 10 = .ok g ∧
      (wallet : ℕ) = 0 ∧ (nonce : ℕ) = 1 ∧
      GraphSettled sampleAccounts g wallet nonce { ledger := sampleLedger } s' := by
  obtain ⟨_, s', hrun⟩ := Comp.exists_of_isOk (x := settleGraphFor noNatives sampleAccounts
    sampleClock sampleVenues samplePayload 0 1) (s := { ledger := sampleLedger }) (by
      rw [sampleAccounts_eq]
      decide +kernel)
  exact ⟨s', hrun, graph_conserves hrun⟩

end StockMesh.Settle

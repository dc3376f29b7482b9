import StockMesh.Host.SwapRoundTrip
import StockMesh.Settle.FixedRun
import StockMesh.Settle.Conservation

/-! # Executing a compiled graph

The rules that `compileSwapGraph` checks on a specification drain every intermediate asset and spend the
input, as transfers between pots. So a run whose venues oblige ends with all of the input spent and every
intermediate asset back at its balance; only the least output is open, and the largest amount that a
venue's data can carry (`fixed_graph_executes`). -/

namespace StockMesh.Host

open Journal (refuse_eq_ok)
open Settle (AccountMeta Instruction Account Accounts Ledger Chain Clock Venues ProgramId Kept Trades
  tokenAmount tokenId tokenKey venueProgram creditToken transfer pots balances
  executePreflightedGraphFor preflightGraph)

/-- What satisfies a predicate has a last one. -/
theorem exists_last {α : Type} {p : α → Prop} {xs : List α} (h : ∃ x ∈ xs, p x) :
    ∃ before x after, xs = before ++ x :: after ∧ p x ∧ ∀ y ∈ after, ¬p y := by
  induction xs with
  | nil =>
    obtain ⟨x, hx, -⟩ := h
    cases hx
  | cons x xs ih =>
    by_cases hlater : ∃ y ∈ xs, p y
    · obtain ⟨before, y, after, rfl, hy, hafter⟩ := ih hlater
      exact ⟨x :: before, y, after, rfl, hy, hafter⟩
    · obtain ⟨y, hy, hp⟩ := h
      rcases List.mem_cons.mp hy with rfl | hy
      · exact ⟨[], y, xs, rfl, hp, fun z hz hpz => hlater ⟨z, hz, hpz⟩⟩
      · exact absurd ⟨y, hy, hp⟩ hlater

open SwapGraph SwapGraph.Compiled

namespace SwapGraph.Compiled

variable {spec : SwapGraph} {nonce program : Key} {read : Key → Answer AccountView} {ids : Identities}
  {inner : List TokenAsset} {spending : Spending} {out : Output} {g : Graph out.1.length}

/-- The key of the token account of an asset. -/
def tokenOf (metas : List AccountMeta) (g : Graph metas.length) (i : Fin g.assetCount) : Key :=
  (resolveAsset metas (g.assets i)).token

theorem nodup_tokens {routing : Routing}
    (h : Compiled read program nonce spec routing ids inner spending out g) :
    ((spec.input :: inner ++ [spec.output]).map TokenAsset.token).Nodup := by
  have hperm : (spec.input :: inner ++ [spec.output]).Perm spec.assets :=
    (h.reordered.append_right [spec.output]).cons spec.input
  exact (hperm.map _).nodup_iff.mpr (foldlM_checkAsset h.identities).distinct

theorem token_at {routing : Routing}
    (h : Compiled read program nonce spec routing ids inner spending out g) (i : Fin g.assetCount) :
    ((spec.input :: inner ++ [spec.output]).map TokenAsset.token)[(i : ℕ)]? =
      some (tokenOf out.1 g i) := by
  rw [← h.recovers.assets, List.map_map, List.getElem?_map, List.getElem?_ofFn, dif_pos i.isLt]
  rfl

theorem tokenOf_inj {routing : Routing}
    (h : Compiled read program nonce spec routing ids inner spending out g) {i j : Fin g.assetCount}
    (heq : tokenOf out.1 g i = tokenOf out.1 g j) : i = j := by
  have hi := h.token_at i
  have hj := h.token_at j
  rw [← heq, ← hi] at hj
  have hlt : (i : ℕ) < ((spec.input :: inner ++ [spec.output]).map TokenAsset.token).length :=
    (List.getElem?_eq_some_iff.mp hi).1
  exact Fin.ext ((List.getElem?_inj hlt h.nodup_tokens).mp hj.symm)

/-- A token is found at its place. -/
theorem position_eq {routing : Routing}
    (h : Compiled read program nonce spec routing ids inner spending out g) {i : Fin g.assetCount} {j : ℕ}
    (hj : position (spec.input :: inner ++ [spec.output]) (tokenOf out.1 g i) = some j) : j = i := by
  obtain ⟨a, ha, htoken⟩ := token_of_position hj
  have hi := h.token_at i
  have hlt : (i : ℕ) < ((spec.input :: inner ++ [spec.output]).map TokenAsset.token).length :=
    (List.getElem?_eq_some_iff.mp hi).1
  have hget : ((spec.input :: inner ++ [spec.output]).map TokenAsset.token)[j]? =
      some (tokenOf out.1 g i) := by
    rw [List.getElem?_map, ha, Option.map_some, htoken]
  exact ((List.getElem?_inj hlt h.nodup_tokens).mp (hi.trans hget.symm)).symm

theorem tokenOf_first {routing : Routing}
    (h : Compiled read program nonce spec routing ids inner spending out g) :
    tokenOf out.1 g g.first = spec.input.token :=
  (Option.some.inj (h.token_at g.first)).symm

theorem tokenOf_sink {routing : Routing}
    (h : Compiled read program nonce spec routing ids inner spending out g) :
    tokenOf out.1 g g.sink = spec.output.token := by
  have hcount : g.assetCount = inner.length + 2 := by
    have hlength := congrArg List.length h.recovers.assets
    simpa using hlength
  have hsink := h.token_at g.sink
  have hplace : (g.sink : ℕ) = inner.length + 1 := by
    show g.assetCount - 1 = inner.length + 1
    omega
  rw [hplace] at hsink
  simpa using hsink.symm

/-- The asset at a place. -/
theorem mem_place {routing : Routing}
    (h : Compiled read program nonce spec routing ids inner spending out g) (i : Fin g.assetCount) :
    ∃ a ∈ spec.input :: inner ++ [spec.output], a.token = tokenOf out.1 g i := by
  rw [← h.recovers.assets]
  exact ⟨_, List.mem_map_of_mem (List.mem_ofFn.mpr ⟨i, rfl⟩), rfl⟩

/-- The place of an intermediate asset. -/
theorem place_of_intermediate {routing : Routing}
    (h : Compiled read program nonce spec routing ids inner spending out g) {a : TokenAsset}
    (ha : a ∈ inner) : ∃ i, i ≠ g.first ∧ i ≠ g.sink ∧ tokenOf out.1 g i = a.token := by
  have hmem : a ∈ (List.ofFn g.assets).map (resolveAsset out.1) := by
    rw [h.recovers.assets]
    exact List.mem_cons_of_mem _ (List.mem_append_left _ ha)
  obtain ⟨x, hx, rfl⟩ := List.mem_map.mp hmem
  obtain ⟨i, rfl⟩ := List.mem_ofFn.mp hx
  have hnodup := h.nodup_tokens
  rw [List.cons_append, List.map_cons, List.map_append, List.nodup_cons, List.nodup_append] at hnodup
  have htoken := List.mem_map_of_mem (f := TokenAsset.token) ha
  refine ⟨i, ?_, ?_, rfl⟩
  · rintro rfl
    apply hnodup.1
    rw [← h.tokenOf_first]
    exact List.mem_append_left _ htoken
  · rintro rfl
    exact hnodup.2.2.2 _ htoken _ (List.mem_singleton_self _) h.tokenOf_sink

/-! ## The rules of the budgets -/

/-- A leg of a fixed graph passes its checks. -/
theorem checked (h : Compiled read program nonce spec .fixed ids inner spending out g) {m : ℕ}
    {leg : SwapLeg} (hleg : spec.legs[m]? = some leg) :
    ∃ source state state', position (spec.input :: inner ++ [spec.output]) leg.source = some source ∧
      spec.checkFixedLeg m leg source state = .ok state' := by
  obtain ⟨state, state', hcheck⟩ := foldlM_step_ok h.legs (List.mk_mem_zipIdx_iff_getElem?.mpr hleg)
  obtain ⟨source, hsource, hcheck⟩ := bind_eq_ok.mp hcheck
  obtain ⟨_, -, hcheck⟩ := bind_eq_ok.mp hcheck
  obtain ⟨_, -, hcheck⟩ := bind_eq_ok.mp hcheck
  exact ⟨source, state, state', present_eq_ok.mp hsource, hcheck⟩

/-- The last consumer of an intermediate asset takes all, behind its producers. -/
theorem last_consumer (h : Compiled read program nonce spec .fixed ids inner spending out g)
    {i : Fin g.assetCount} (hi : i ≠ g.first) {m : ℕ} {leg : SwapLeg} (hleg : spec.legs[m]? = some leg)
    (hsource : leg.source = tokenOf out.1 g i) (hlast : spec.LastConsumer m leg) :
    leg.budget = .remaining ∧ ∀ later ∈ spec.legs.drop m, later.destination ≠ leg.source := by
  obtain ⟨source, state, state', hposition, hcheck⟩ := h.checked hleg
  rw [hsource] at hposition
  have hplace := h.position_eq hposition
  have hne : source ≠ 0 := by
    rintro rfl
    exact hi (Fin.ext hplace.symm)
  obtain ⟨_, hproduced, hcheck⟩ := bind_eq_ok.mp hcheck
  obtain ⟨_, hdrains, -⟩ := bind_eq_ok.mp hcheck
  rw [refuse_eq_ok, not_and, not_not] at hproduced
  rw [refuse_eq_ok, not_and, not_and, not_not] at hdrains
  exact ⟨hdrains hne hlast, (hproduced hne).2⟩

/-- A leg whose budget is the rest has no bound. -/
theorem transfer_cap {l : Leg out.1.length g.assetCount}
    (hbudget : (resolveLeg out.1 g l).budget = .remaining) : (transfer l).cap = none := by
  unfold resolveLeg at hbudget
  split at hbudget
  · next hall => exact if_pos hall
  · cases hbudget

/-- An intermediate asset is consumed. -/
theorem consumed (h : Compiled read program nonce spec .fixed ids inner spending out g)
    {i : Fin g.assetCount} (hfirst : i ≠ g.first) (hsink : i ≠ g.sink) :
    ∃ leg ∈ spec.legs, leg.source = tokenOf out.1 g i := by
  obtain ⟨a, ha, htoken⟩ := h.mem_place i
  have hmiddle : a ∈ inner ++ [spec.output] := by
    rcases List.mem_cons.mp ha with rfl | ha
    · exact absurd (h.tokenOf_inj (htoken.symm.trans h.tokenOf_first.symm)) hfirst
    · exact ha
  have houtput : a.token ≠ spec.output.token := by
    intro heq
    exact hsink (h.tokenOf_inj ((htoken.symm.trans heq).trans h.tokenOf_sink.symm))
  obtain ⟨_, -, hused⟩ := bind_eq_ok.mp (h.used a hmiddle)
  rw [refuse_eq_ok, not_and, not_and, not_not] at hused
  obtain ⟨leg, hleg, hsource⟩ := hused rfl houtput
  exact ⟨leg, hleg, hsource.trans htoken⟩

/-- An intermediate asset is drained. -/
theorem drained (h : Compiled read program nonce spec .fixed ids inner spending out g)
    {i : Fin g.assetCount} (hfirst : i ≠ g.first) (hsink : i ≠ g.sink) :
    Drained i (g.legs.map transfer) := by
  have hlegs := h.recovers.legs
  have hconsumed : ∃ l ∈ g.legs, l.source = i := by
    obtain ⟨leg, hleg, hsource⟩ := h.consumed hfirst hsink
    rw [← hlegs] at hleg
    obtain ⟨l, hl, rfl⟩ := List.mem_map.mp hleg
    exact ⟨l, hl, h.tokenOf_inj hsource⟩
  obtain ⟨before, l, after, hsplit, rfl, hafter⟩ := exists_last hconsumed
  have hspec : spec.legs = before.map (resolveLeg out.1 g) ++
      resolveLeg out.1 g l :: after.map (resolveLeg out.1 g) := by
    rw [← hlegs, hsplit, List.map_append, List.map_cons]
  have hget : spec.legs[before.length]? = some (resolveLeg out.1 g l) := by
    rw [hspec, List.getElem?_append_right (by simp)]
    simp
  have hdrop : spec.legs.drop before.length =
      resolveLeg out.1 g l :: after.map (resolveLeg out.1 g) := by
    rw [hspec, List.drop_left' (by simp)]
  have hdrop' : spec.legs.drop (before.length + 1) = after.map (resolveLeg out.1 g) := by
    rw [← List.drop_drop, hdrop]
    rfl
  have hlast : spec.LastConsumer before.length (resolveLeg out.1 g l) := by
    intro later hlater
    rw [hdrop'] at hlater
    obtain ⟨l', hl', rfl⟩ := List.mem_map.mp hlater
    exact fun heq => hafter l' hl' (h.tokenOf_inj heq)
  obtain ⟨hbudget, hproducers⟩ := h.last_consumer hfirst hget rfl hlast
  refine ⟨before.map transfer, transfer l, after.map transfer, ?_, rfl, transfer_cap hbudget, ?_⟩
  · rw [hsplit, List.map_append, List.map_cons]
  · intro later hlater
    obtain ⟨l', hl', rfl⟩ := List.mem_map.mp hlater
    intro heq
    refine hproducers (resolveLeg out.1 g l') ?_ (congrArg (tokenOf out.1 g) heq)
    rw [hdrop]
    exact List.mem_cons_of_mem _ (List.mem_map_of_mem hl')

/-- What a leg adds to the spending. -/
structure Spent (l : Leg out.1.length g.assetCount) (state state' : Spending) : Prop where
  fixedInput : state'.fixedInput =
    state.fixedInput + if (transfer l).source = g.first then (transfer l).amount else 0
  inputRemainder : state'.inputRemainder = true ↔
    state.inputRemainder = true ∨ l.source = g.first ∧ (transfer l).cap = none

theorem spent_of_checkLeg (h : Compiled read program nonce spec .fixed ids inner spending out g)
    {l : Leg out.1.length g.assetCount} {m : ℕ} {state state' : Spending}
    (hcheck : spec.checkLeg .fixed (spec.input :: inner ++ [spec.output]) state
      (resolveLeg out.1 g l, m) = .ok state') : Spent l state state' := by
  obtain ⟨source, hsource, hcheck⟩ := bind_eq_ok.mp hcheck
  obtain ⟨_, -, hcheck⟩ := bind_eq_ok.mp hcheck
  obtain ⟨_, -, hcheck⟩ := bind_eq_ok.mp hcheck
  obtain ⟨_, -, hcheck⟩ := bind_eq_ok.mp hcheck
  obtain ⟨_, -, hcheck⟩ := bind_eq_ok.mp hcheck
  have hplace : source = l.source := h.position_eq (present_eq_ok.mp hsource)
  have hfirst : source = 0 ↔ l.source = g.first := by
    rw [hplace, Fin.ext_iff]
    rfl
  unfold spendBudget at hcheck
  by_cases hall : l.budget = u64Size - 1
  · have hbudget : (resolveLeg out.1 g l).budget = .remaining := if_pos hall
    have hcap : (transfer l).cap = none := if_pos hall
    have hamount : (transfer l).amount = 0 := by rw [Transfer.amount, hcap, Option.getD_none]
    simp only [hbudget] at hcheck
    obtain ⟨_, -, hcheck⟩ := bind_eq_ok.mp hcheck
    cases hcheck
    exact ⟨by simp [hamount], by simp [hfirst, hcap]⟩
  · have hbudget : (resolveLeg out.1 g l).budget = .exact l.budget := if_neg hall
    have hcap : (transfer l).cap = some l.budget := if_neg hall
    have hamount : (transfer l).amount = l.budget := by rw [Transfer.amount, hcap, Option.getD_some]
    simp only [hbudget] at hcheck
    obtain ⟨_, -, hcheck⟩ := bind_eq_ok.mp hcheck
    by_cases hzero : source = 0
    · rw [if_pos hzero] at hcheck
      obtain ⟨sum, hsum, hcheck⟩ := bind_eq_ok.mp hcheck
      obtain ⟨-, rfl⟩ := bounded_eq_ok.mp hsum
      cases hcheck
      have hsame : (transfer l).source = g.first := hfirst.mp hzero
      exact ⟨by simp [hsame, hamount], by simp [hcap]⟩
    · rw [if_neg hzero] at hcheck
      cases hcheck
      have hne : (transfer l).source ≠ g.first := fun heq => hzero (hfirst.mpr heq)
      exact ⟨(if_neg hne).symm ▸ rfl, by simp [hcap]⟩

/-- What some legs add to the spending. -/
theorem spent_of_checkLegs (h : Compiled read program nonce spec .fixed ids inner spending out g)
    {ls : List (Leg out.1.length g.assetCount)} {m : ℕ} {state state' : Spending}
    (hcheck : ((ls.map (resolveLeg out.1 g)).zipIdx m).foldlM
      (spec.checkLeg .fixed (spec.input :: inner ++ [spec.output])) state = .ok state') :
    state'.fixedInput = state.fixedInput +
        (((ls.map transfer).filter fun t => t.source = g.first).map Transfer.amount).sum ∧
      (state'.inputRemainder = true ↔ state.inputRemainder = true ∨
        ∃ l ∈ ls, l.source = g.first ∧ (transfer l).cap = none) := by
  induction ls generalizing m state with
  | nil =>
    cases hcheck
    simp
  | cons l ls ih =>
    rw [List.map_cons, List.zipIdx_cons, List.foldlM_cons] at hcheck
    obtain ⟨middle, hleg, hcheck⟩ := bind_eq_ok.mp hcheck
    have hspent := h.spent_of_checkLeg hleg
    obtain ⟨hinput, hremainder⟩ := ih hcheck
    rw [hinput, hremainder, hspent.fixedInput, hspent.inputRemainder, List.exists_mem_cons_iff, or_assoc]
    refine ⟨?_, Iff.rfl⟩
    rw [List.map_cons]
    by_cases hfirst : (transfer l).source = g.first
    · rw [if_pos hfirst, List.filter_cons_of_pos (by simpa using hfirst), List.map_cons, List.sum_cons,
        Nat.add_assoc]
    · rw [if_neg hfirst, List.filter_cons_of_neg (by simpa using hfirst), Nat.add_zero]

/-- The input is empty behind all legs. -/
theorem input_spent (h : Compiled read program nonce spec .fixed ids inner spending out g)
    {pot pot' : Fin g.assetCount → ℕ} (hflow : Flow (g.legs.map transfer) pot pot')
    (hpot : pot g.first = spec.inputAtoms) : pot' g.first = 0 := by
  have hlegs := h.legs
  rw [← h.recovers.legs] at hlegs
  obtain ⟨hinput, hremainder⟩ := h.spent_of_checkLegs hlegs
  have hdestination : ∀ t ∈ g.legs.map transfer, t.destination ≠ g.first := by
    intro t ht
    obtain ⟨l, -, rfl⟩ := List.mem_map.mp ht
    exact (Settle.first_ne_destination l).symm
  have hconserves := h.conserves.resolve_left Bool.false_ne_true
  by_cases hall : spending.inputRemainder = true
  · obtain hstart | ⟨l, hl, hsource, hcap⟩ := hremainder.mp hall
    · cases hstart
    · obtain ⟨before, after, hsplit⟩ := List.append_of_mem hl
      refine hflow.drained ⟨before.map transfer, transfer l, after.map transfer, ?_, hsource, hcap, ?_⟩
      · rw [hsplit, List.map_append, List.map_cons]
      · intro later hlater
        refine hdestination later ?_
        rw [hsplit, List.map_append, List.map_cons]
        exact List.mem_append_right _ (List.mem_cons_of_mem _ hlater)
  · rw [if_neg hall] at hconserves
    have hcap : ∀ t ∈ g.legs.map transfer, t.source = g.first → t.cap.isSome = true := by
      intro t ht hsource
      obtain ⟨l, hl, rfl⟩ := List.mem_map.mp ht
      rw [Option.isSome_iff_ne_none]
      exact fun hnone => hall (hremainder.mpr (.inr ⟨l, hl, hsource, hnone⟩))
    rw [hflow.paid hdestination hcap, hpot, ← hconserves, hinput]
    show 0 + _ - _ = 0
    rw [Nat.zero_add, Nat.sub_self]

end SwapGraph.Compiled

/-! ## Runs of the instruction -/

/-- A run spends the input and returns the intermediate assets. -/
structure SpendsInput (spec : SwapGraph) (start final : Ledger) : Prop where
  input : tokenAmount final spec.input.token + spec.inputAtoms = tokenAmount start spec.input.token
  transit : ∀ asset ∈ spec.intermediates,
    tokenAmount final asset.token = tokenAmount start asset.token

/-- A run is stopped at a leg whose data cannot be built: one of Phoenix, or one that takes more of an
intermediate asset than the largest input. -/
def Stopped (natives : Natives) {n : ℕ} (a : Accounts n) (g : Graph n) (clock : Clock)
    {program : ProgramId} (venues : Venues program) (wallet : Fin n) (start final : Chain) : Prop :=
  ∃ (k : ℕ) (run : Settle.Run natives g.assetCount),
    Settle.Reached a g clock venues wallet natives start k run final ∧
    ∃ sel : Settle.Selected a g clock (balances a g start.ledger) final.ledger k run,
      sel.budget ≠ 0 ∧
      Settle.legData a g clock final.ledger (a.key wallet) sel.leg sel.budget = .error .adapter ∧
      (sel.leg.venue = .phoenix ∨ maxInput < sel.budget ∧ sel.leg.source ≠ g.first)

theorem stopped_of_blocked {natives : Natives} {n : ℕ} {a : Accounts n} {g : Graph n} {clock : Clock}
    {program : ProgramId} {venues : Venues program} {wallet : Fin n} {start final : Chain}
    (h : Settle.Blocked a g clock venues wallet natives start final) :
    Stopped natives a g clock venues wallet start final := by
  obtain ⟨k, run, hreached, sel, hpos, hdata⟩ := h
  refine ⟨k, run, hreached, sel, hpos, hdata, (Settle.legData_blocked hpos hdata).imp_right fun hlt => ?_⟩
  refine ⟨hlt, fun hfirst => ?_⟩
  -- the rest of the input is in range
  have havailable := sel.available_eq
  rw [Settle.availableFor, if_pos hfirst, Except.ok.injEq] at havailable
  obtain ⟨spent, -, hremaining⟩ := bind_eq_ok.mp sel.remaining_eq
  obtain ⟨-, hremaining⟩ := Settle.checkedSub_eq_ok.mp hremaining
  have hbudget : sel.budget ≤ sel.available := (Nat.min_le_left _ _).trans (Nat.min_le_left _ _)
  have hinput := g.input_le
  omega

/-- A preflighted graph is covered, and its assets are admitted. -/
theorem preflight_covers {program : ProgramId} {n : ℕ} {a : Accounts n} {clock : Clock} {d : Buffer}
    {wallet nonce : Fin n} {aggregate : List ℕ} {ledger : Ledger} {g : Graph n}
    (hdecode : Graph.decode d n = .ok g)
    (h : preflightGraph program ledger a clock d wallet nonce aggregate 0 = .ok ()) :
    (∀ i, Settle.asset ledger a g (a.key wallet) i false = .ok (balances a g ledger i)) ∧
      g.input ≤ balances a g ledger g.first := by
  obtain ⟨g', hdecode', h⟩ := bind_eq_ok.mp h
  obtain rfl : g = g' := Except.ok.inj (hdecode.symm.trans (Settle.ad_eq_ok.mp hdecode'))
  obtain ⟨wallet', hwallet, hrun⟩ := bind_eq_ok.mp h
  obtain rfl : wallet' = wallet := Fin.ext (Settle.accountIndex_eq_ok.mp hwallet)
  obtain ⟨nonce', -, hrun⟩ := bind_eq_ok.mp hrun
  obtain ⟨_, -, hrun⟩ := bind_eq_ok.mp hrun
  obtain ⟨_, -, hrun⟩ := bind_eq_ok.mp hrun
  obtain ⟨_, -, hrun⟩ := bind_eq_ok.mp hrun
  obtain ⟨before, hbefore, hrun⟩ := bind_eq_ok.mp hrun
  obtain ⟨_, hcovered, -⟩ := bind_eq_ok.mp hrun
  have hasset : ∀ i, Settle.asset ledger a g (a.key wallet') i true = .ok (before i) := by
    intro i
    obtain ⟨amount, hamount, hrest⟩ := bind_eq_ok.mp (Settle.readEach_eq_ok.mp hbefore i)
    obtain ⟨_, -, hrest⟩ := bind_eq_ok.mp hrest
    rw [hamount, hrest]
  have hbalance : ∀ i, before i = balances a g ledger i := fun i => (Settle.checkedAsset_eq_ok (hasset i)).1
  refine ⟨fun i => ?_, ?_⟩
  · exact Settle.checkedAsset_of_kept (hasset i) ⟨rfl, rfl, fun _ _ => rfl⟩ rfl rfl
  · rw [← hbalance]
    exact (Settle.need_eq_ok.mp hcovered).2

/-- A run of a compiled graph whose venues oblige spends the input and returns the intermediate assets.
It fails for too little output alone, or it is stopped at a leg whose data cannot be built. -/
theorem fixed_graph_executes {find : List (List UInt8) → Key → Key} {program : ProgramId}
    {spec : SwapGraph} {readBank : Key → Answer AccountView} {ix : Instruction}
    (hcompile : compileSwapGraph find program spec readBank = .ok ix) (natives : Natives)
    (venues : Venues program) (a : Accounts ix.accounts.length) (hkeys : ∀ i, a.key i = ix.accounts[i].key)
    (clock : Clock) (wallet nonce : Fin ix.accounts.length) (aggregate : List ℕ) (start : Chain)
    (hpreflight : preflightGraph program start.ledger a clock (.ofList ix.data) wallet nonce aggregate 0 =
      .ok ()) :
    ∃ g, Graph.decode (.ofList ix.data) ix.accounts.length = .ok g ∧
      (Settle.Obliging a g clock venues wallet natives start →
      ∃ outcome final,
        executePreflightedGraphFor natives a clock venues (.ofList ix.data) wallet start =
          (outcome, final) ∧
        (SpendsInput spec start.ledger final.ledger ∧
            ((∃ o, outcome = .ok o ∧ o.actualIn = spec.inputAtoms) ∨ outcome = .error .minOut) ∨
          outcome = .error .adapter ∧ Stopped natives a g clock venues wallet start final)) := by
  obtain ⟨ids, inner, spending, out, g, hcompiled, rfl⟩ := compileGraph_eq_ok hcompile
  refine ⟨g, hcompiled.decoded, fun hobliging => ?_⟩
  have hrecovers := hcompiled.recovers
  obtain ⟨hadmitted, hcovered⟩ := preflight_covers hcompiled.decoded hpreflight
  have hfixed : g.reflowCalls = 0 := hrecovers.fixed.mpr rfl
  have hexecute : executePreflightedGraphFor natives a clock venues (.ofList out.2) wallet start =
      Settle.executeGraph natives a g clock venues wallet start := by
    rw [executePreflightedGraphFor, hcompiled.decoded]
    rfl
  have hkey : ∀ i, tokenKey a g i = tokenOf out.1 g i := fun i => hkeys _
  rw [hexecute]
  rcases Settle.executeGraph_obliging hfixed hadmitted hcovered hobliging with
    ⟨run, final, hrunning, hfinish⟩ | ⟨final, hstop, hblocked⟩
  · have hflow := hrunning.flow
    rw [List.take_length] at hflow
    have hstart : pots g (balances a g start.ledger) (balances a g start.ledger) g.first =
        spec.inputAtoms := by
      rw [← hrecovers.input]
      unfold pots
      rw [if_pos rfl, Nat.sub_self, Nat.sub_zero]
    have hempty : ∀ i, i ≠ g.sink → pots g (balances a g start.ledger) run.current i = 0 := by
      intro i hsink
      by_cases hfirst : i = g.first
      · subst hfirst
        exact hcompiled.input_spent hflow hstart
      · exact hflow.drained (hcompiled.drained hfirst hsink)
    have hreturned := hrunning.returned hempty
    refine ⟨_, final, hfinish, .inl ⟨⟨?_, ?_⟩, ?_⟩⟩
    · have hinput := hreturned.input
      unfold balances at hinput
      rw [hkey, hcompiled.tokenOf_first, hrecovers.input] at hinput
      exact hinput
    · intro asset hasset
      obtain ⟨i, hfirst, hsink, htoken⟩ :=
        hcompiled.place_of_intermediate (hcompiled.reordered.mem_iff.mpr hasset)
      have htransit := hreturned.transit i hfirst hsink
      unfold balances at htransit
      rw [hkey, htoken] at htransit
      exact htransit
    · rcases hrunning.finish hreturned with ⟨o, ho, hactual⟩ | hmin
      · exact .inl ⟨o, ho, hactual.trans hrecovers.input⟩
      · exact .inr hmin
  · exact ⟨_, final, hstop, .inr ⟨rfl, stopped_of_blocked hblocked⟩⟩

/-! ## Two pools that pay a fixed amount -/

theorem creditToken_kept (ledger : Ledger) (key : Key) (amount : ℕ) (k : Key) :
    Kept (ledger k) (creditToken ledger key amount k) := by
  unfold creditToken
  split
  · next h =>
    obtain ⟨rfl, -⟩ := h
    unfold Buffer.splice
    split
    · refine ⟨rfl, rfl, fun i hi => if_neg ?_⟩
      rw [Buffer.length_toBytes]
      omega
    · exact ⟨rfl, rfl, fun _ _ => rfl⟩
  · exact ⟨rfl, rfl, fun _ _ => rfl⟩

theorem eq_ok_get {ε α : Type} {x : Except ε α} (h : x.toOption.isSome = true) :
    x = .ok (x.toOption.get h) := by
  cases x with
  | ok a => rfl
  | error e => cases h

/-- The error of a result. -/
def errorOf {ε α : Type} : Except ε α → Option ε
  | .error e => some e
  | .ok _ => none

/-- A run that can be seen to fail. -/
theorem exists_of_error {ε σ α : Type} {x : Stateful.Comp ε σ α} {s : σ} {e : ε}
    (h : errorOf (x s).1 = some e) : ∃ s', x s = (.error e, s') := by
  rcases hx : x s with ⟨e' | a, s'⟩
  · rw [hx] at h
    exact ⟨s', by rw [Option.some.inj h]⟩
  · rw [hx] at h
    cases h

/-- The accounts of a swap are those of its leg. -/
theorem exists_account {n : ℕ} {a : Accounts n} (g : Graph n) (ledger : Ledger)
    (leg : Leg n g.assetCount) (data : List UInt8) {j : ℕ} {i : Fin n} (h : leg.accounts[j]? = some i) :
    ∃ m, (Settle.legInstruction a g ledger leg data).accounts[j]? = some m ∧ m.key = a.key i := by
  have hzip : leg.accounts.zipIdx[j]? = some (i, j) := by
    rw [List.getElem?_zipIdx, h]
    simp
  rw [Settle.legInstruction, List.getElem?_map, hzip]
  exact ⟨_, rfl, rfl⟩

namespace TwoPools

/-- The deployed program. -/
def deployment : ProgramId := ⟨program, by decide, by decide⟩

/-- A swap that pays a fixed amount. -/
def pay (paid input : ℕ) (src dst : Key) (ledger : Ledger) : Ledger :=
  let taken := creditToken ledger src (tokenAmount ledger src - input)
  creditToken taken dst (tokenAmount taken dst + paid)

/-- Every swap pays the given amount. -/
def venues (paid : ℕ) : Venues deployment where
  invoke _ ix ledger :=
    match ix.accounts[5]?, ix.accounts[6]? with
    | some src, some dst =>
      .ok (pay paid (Buffer.ofBytes ((ix.data.drop 1).take 8)) src.key dst.key ledger)
    | _, _ => .error .runtime
  owned := by
    intro number ix ledger ledger' h key howner
    have hcredit : ∀ (l : Ledger) (other : Key) (amount : ℕ), (l key).owner = deployment →
        creditToken l other amount key = l key := by
      intro l other amount hl
      refine if_neg fun hboth => ?_
      rw [← hboth.1, hl] at hboth
      exact deployment.2.1 hboth.2
    split at h
    · cases h
      unfold pay
      rw [hcredit _ _ _ (by rwa [hcredit _ _ _ howner]), hcredit _ _ _ howner]
      exact ⟨howner, rfl⟩
    · cases h

theorem invoke_of_accounts (paid number : ℕ) {ix : Instruction} {src dst : AccountMeta} {ledger : Ledger}
    (hsrc : ix.accounts[5]? = some src) (hdst : ix.accounts[6]? = some dst) :
    (venues paid).invoke number ix ledger =
      .ok (pay paid (Buffer.ofBytes ((ix.data.drop 1).take 8)) src.key dst.key ledger) := by
  unfold venues
  simp only [hsrc, hdst]

/-- The accounts of the instruction. -/
def accounts : Accounts instruction.accounts.length where
  key i := instruction.accounts[i].key
  isSigner key := instruction.accounts.any fun m => m.key = key && m.isSigner
  isWritable key := instruction.accounts.any fun m => m.key = key && m.isWritable

/-- The chain before the run. -/
def start : Chain where
  ledger := Settle.ledgerOf [
    (owner, ⟨.ofNat 0, false, 5000, .ofList []⟩),
    (nonce, ⟨program, false, 1, Settle.nonceData owner 7⟩),
    (.ofNat 10, ⟨tokenId, false, 1, Settle.tokenData (.ofNat 20) owner 1500⟩),
    (.ofNat 11, ⟨tokenId, false, 1, Settle.tokenData (.ofNat 21) owner 40⟩),
    (.ofNat 12, ⟨tokenId, false, 1, Settle.tokenData (.ofNat 22) owner 0⟩),
    (.ofNat 20, ⟨tokenId, false, 1, Settle.mintData⟩),
    (.ofNat 21, ⟨tokenId, false, 1, Settle.mintData⟩),
    (.ofNat 22, ⟨tokenId, false, 1, Settle.mintData⟩),
    (tokenId, Settle.programAccount),
    (venueProgram .raydiumAmmV4, Settle.programAccount),
    (.ofNat 30, ⟨venueProgram .raydiumAmmV4, false, 1, .ofList []⟩),
    (.ofNat 31, ⟨venueProgram .raydiumAmmV4, false, 1, .ofList []⟩)]

/-- The slot of the run. -/
def clock : Clock := ⟨5, 1, 1000⟩

/-- The graph of the instruction. -/
def graph : Graph instruction.accounts.length :=
  (Graph.decode (.ofList instruction.data) instruction.accounts.length).toOption.get (by decide +kernel)

theorem graph_eq : Graph.decode (.ofList instruction.data) instruction.accounts.length = .ok graph :=
  eq_ok_get _

/-- The owner. -/
def wallet : Fin instruction.accounts.length := ⟨0, by decide⟩

/-- What holds before the run, in one evaluation. -/
theorem evaluated_start :
    (∀ i, Settle.asset start.ledger accounts graph (accounts.key wallet) i false =
      .ok (balances accounts graph start.ledger i)) ∧
    preflightGraph deployment start.ledger accounts clock (.ofList instruction.data) wallet
      (⟨1, by decide⟩ : Fin instruction.accounts.length) [] 0 = .ok () ∧
    graph.legs.length = 2 := by
  decide +kernel

theorem admitted : ∀ i, Settle.asset start.ledger accounts graph (accounts.key wallet) i false =
    .ok (balances accounts graph start.ledger i) := evaluated_start.1

theorem preflight_ok : preflightGraph deployment start.ledger accounts clock (.ofList instruction.data)
    wallet (⟨1, by decide⟩ : Fin instruction.accounts.length) [] 0 = .ok () := evaluated_start.2.1

theorem legs_eq : graph.legs.length = 2 := evaluated_start.2.2

/-- The leg of a number. -/
def leg (k : Fin 2) : Leg instruction.accounts.length graph.assetCount :=
  graph.legs.get (k.cast legs_eq.symm)

/-- The ledger before a leg. -/
def ledgerAt (paid : ℕ) : ℕ → Ledger
  | 0 => start.ledger
  | 1 => pay paid 1000 (.ofNat 10) (.ofNat 11) start.ledger
  | _ => pay paid paid (.ofNat 11) (.ofNat 12) (pay paid 1000 (.ofNat 10) (.ofNat 11) start.ledger)

/-- The budget of a leg. -/
def budget (paid : ℕ) (k : Fin 2) : ℕ := if k = 0 then 1000 else paid

theorem ledgerAt_succ (paid : ℕ) (k : Fin 2) : ledgerAt paid (k + 1) =
    pay paid (budget paid k) (.ofNat (10 + k)) (.ofNat (10 + k + 1)) (ledgerAt paid k) :=
  match k with
  | 0 => rfl
  | 1 => rfl

/-- What holds along the runs, in one evaluation: of the legs, of their turns, and of the two results. -/
theorem evaluated_runs :
    (∀ k : Fin 2, (leg k).venue = .raydiumAmmV4 ∧ ∀ place : Fin 2, ∃ i ∈ (leg k).accounts[5 + (place : ℕ)]?,
      accounts.key i = .ofNat (10 + k + place)) ∧
    (∀ paid ∈ [500, maxInput + 1], ∀ k : Fin 2,
      (transfer (leg k)).spend (pots graph (balances accounts graph start.ledger)
        (balances accounts graph (ledgerAt paid k))) = budget paid k ∧
      (k = 0 ∨ paid = 500 →
        (tokenAmount (ledgerAt paid (k + 1)) (tokenKey accounts graph (leg k).source) + budget paid k =
          tokenAmount (ledgerAt paid k) (tokenKey accounts graph (leg k).source)) ∧
        (tokenAmount (ledgerAt paid k) (tokenKey accounts graph (leg k).destination) <
          tokenAmount (ledgerAt paid (k + 1)) (tokenKey accounts graph (leg k).destination)) ∧
        ∀ i, i ≠ (leg k).source → i ≠ (leg k).destination →
          tokenAmount (ledgerAt paid (k + 1)) (tokenKey accounts graph i) =
            tokenAmount (ledgerAt paid k) (tokenKey accounts graph i))) ∧
    errorOf (executePreflightedGraphFor Settle.noNatives accounts clock (venues (maxInput + 1))
      (.ofList instruction.data) wallet start).1 = some .adapter ∧
    (executePreflightedGraphFor Settle.noNatives accounts clock (venues 500)
      (.ofList instruction.data) wallet start).1.isOk = true := by
  decide +kernel

theorem mem_payments {paid : ℕ} (hpaid : paid = 500 ∨ paid = maxInput + 1) : paid ∈ [500, maxInput + 1] := by
  rcases hpaid with rfl | rfl <;> simp

theorem budget_eq {paid : ℕ} (hpaid : paid = 500 ∨ paid = maxInput + 1) (k : Fin 2) :
    (transfer (leg k)).spend (pots graph (balances accounts graph start.ledger)
      (balances accounts graph (ledgerAt paid k))) = budget paid k :=
  (evaluated_runs.2.1 paid (mem_payments hpaid) k).1

theorem budget_pos {paid : ℕ} (hpaid : paid = 500 ∨ paid = maxInput + 1) (k : Fin 2) :
    budget paid k ≠ 0 := by
  rcases hpaid with rfl | rfl <;> revert k <;> decide

theorem venue_eq (k : Fin 2) : (leg k).venue = .raydiumAmmV4 := (evaluated_runs.1 k).1

/-- The data carries the budget. -/
theorem data_eq {paid : ℕ} (hpaid : paid = 500 ∨ paid = maxInput + 1) {k : Fin 2} {data : List UInt8}
    {ledger : Ledger} (h : Settle.legData accounts graph clock ledger (accounts.key wallet) (leg k)
      (budget paid k) = .ok (some data)) :
    Buffer.ofBytes ((data.drop 1).take 8) = budget paid k ∧ (k = 0 ∨ paid = 500) := by
  rw [Settle.legData, venue_eq, if_neg (by decide)] at h
  obtain ⟨bytes, hbytes, h⟩ := bind_eq_ok.mp h
  cases h
  have hcarries : ∀ k : Fin 2, ∀ b ∈ (Venue.raydiumAmmV4.swapData (budget paid k) (leg k).direction).toOption,
      Buffer.ofBytes ((b.drop 1).take 8) = budget paid k ∧ (k = 0 ∨ paid = 500) := by
    rcases hpaid with rfl | rfl <;> decide
  rw [Settle.ad_eq_ok] at hbytes
  exact hcarries k data (by rw [hbytes]; rfl)

/-- The token accounts of a swap. -/
theorem swap_accounts (ledger : Ledger) (data : List UInt8) (k : Fin 2) (place : Fin 2) :
    ∃ m, (Settle.legInstruction accounts graph ledger (leg k) data).accounts[5 + (place : ℕ)]? = some m ∧
      m.key = .ofNat (10 + k + place) := by
  obtain ⟨i, hi, hkey⟩ := (evaluated_runs.1 k).2 place
  obtain ⟨m, hm, hmkey⟩ := exists_account graph ledger (leg k) data hi
  exact ⟨m, hm, hmkey.trans hkey⟩

/-- A swap pays. -/
theorem invoke_eq {paid : ℕ} (hpaid : paid = 500 ∨ paid = maxInput + 1) {k : Fin 2} {data : List UInt8}
    {ledger : Ledger} (h : Settle.legData accounts graph clock ledger (accounts.key wallet) (leg k)
      (budget paid k) = .ok (some data)) (number : ℕ) (hledger : ledger = ledgerAt paid k) :
    (venues paid).invoke number (Settle.legInstruction accounts graph ledger (leg k) data) ledger =
      .ok (ledgerAt paid (k + 1)) := by
  obtain ⟨src, hsrc, hsrckey⟩ := swap_accounts ledger data k 0
  obtain ⟨dst, hdst, hdstkey⟩ := swap_accounts ledger data k 1
  obtain ⟨hinput, -⟩ := data_eq hpaid h
  rw [invoke_of_accounts paid number hsrc hdst, hsrckey, hdstkey, hledger, ledgerAt_succ, ← hinput]
  rfl

theorem creditToken_account (ledger : Ledger) (key : Key) (amount : ℕ) (k : Key) :
    (creditToken ledger key amount k).executable = (ledger k).executable ∧
      (creditToken ledger key amount k).lamports = (ledger k).lamports := by
  unfold creditToken
  split
  · next h => rw [h.1]; exact ⟨rfl, rfl⟩
  · exact ⟨rfl, rfl⟩

/-- A swap trades. -/
theorem trades {paid : ℕ} (hpaid : paid = 500 ∨ paid = maxInput + 1) {k : Fin 2}
    (hk : k = 0 ∨ paid = 500) :
    Trades accounts graph wallet (leg k) (budget paid k) (ledgerAt paid k) (ledgerAt paid (k + 1)) := by
  have hpay := ledgerAt_succ paid k
  obtain ⟨hspends, hreturns, hothers⟩ := (evaluated_runs.2.1 paid (mem_payments hpaid) k).2 hk
  have hkept : ∀ key, Kept (ledgerAt paid k key) (ledgerAt paid (k + 1) key) := by
    intro key
    rw [hpay]
    have hfirst := creditToken_kept (ledgerAt paid k) (.ofNat (10 + k))
      (tokenAmount (ledgerAt paid k) (.ofNat (10 + k)) - budget paid k) key
    exact hfirst.trans (creditToken_kept _ _ _ key)
  exact {
    spends := hspends
    returns := hreturns
    others := hothers
    kept := fun i => hkept _
    mints := fun i => (hkept _).owner
    programs := fun i => by
      rw [hpay, pay]
      exact (creditToken_account _ _ _ _).1.trans (creditToken_account _ _ _ _).1
    lamports := by
      rw [hpay, pay]
      exact (creditToken_account _ _ _ _).2.trans (creditToken_account _ _ _ _).2 }

theorem obliging {paid : ℕ} (hpaid : paid = 500 ∨ paid = maxInput + 1) (natives : Natives) :
    Settle.Obliging accounts graph clock (venues paid) wallet natives start := by
  refine Settle.obliging_of_legs (P := fun k s => s.ledger = ledgerAt paid k) rfl admitted ?_
  intro k run s h l hleg hledger
  have hk : k < 2 := legs_eq ▸ (List.getElem?_eq_some_iff.mp hleg).1
  obtain rfl : leg ⟨k, hk⟩ = l := by
    obtain ⟨hlt, hget⟩ := List.getElem?_eq_some_iff.mp hleg
    exact hget
  have hbudget : (h.select clock hleg).budget = budget paid ⟨k, hk⟩ := by
    rw [h.budget_eq, h.current, hledger]
    exact budget_eq hpaid ⟨k, hk⟩
  have hpos := budget_pos hpaid ⟨k, hk⟩
  constructor
  · intro hzero
    exact absurd (hbudget.symm.trans hzero) hpos
  · intro _ hnone
    rw [Settle.legData, venue_eq, if_neg (by decide)] at hnone
    obtain ⟨_, -, hnone⟩ := bind_eq_ok.mp hnone
    cases hnone
  · intro data _ hdata
    rw [hbudget] at hdata ⊢
    have htrades := trades hpaid (data_eq hpaid hdata).2
    rw [← hledger] at htrades
    exact ⟨ledgerAt paid (k + 1), invoke_eq hpaid hdata _ hledger, htrades, fun s' hs' => hs'⟩

theorem compiled : compileSwapGraph (fun _ _ => nonce) deployment spec bank = .ok instruction :=
  compile_ok

end TwoPools

open TwoPools in
/-- A pool that pays more than the largest input stops the run at the next leg. -/
theorem fixed_graph_over_max :
    compileSwapGraph (fun _ _ => nonce) deployment spec bank = .ok instruction ∧
      (∀ i, accounts.key i = instruction.accounts[i].key) ∧
      preflightGraph deployment start.ledger accounts clock (.ofList instruction.data) wallet
        (⟨1, by decide⟩ : Fin instruction.accounts.length) [] 0 = .ok () ∧
      Graph.decode (.ofList instruction.data) instruction.accounts.length = .ok graph ∧
      Settle.Obliging accounts graph clock (TwoPools.venues (maxInput + 1)) wallet Settle.noNatives
        start ∧
      ∃ final, executePreflightedGraphFor Settle.noNatives accounts clock
        (TwoPools.venues (maxInput + 1)) (.ofList instruction.data) wallet start =
          (.error .adapter, final) :=
  ⟨compiled, fun _ => rfl, preflight_ok, graph_eq, obliging (.inr rfl) _,
    exists_of_error (x := executePreflightedGraphFor Settle.noNatives accounts clock
      (TwoPools.venues (maxInput + 1)) (.ofList instruction.data) wallet) (s := start) evaluated_runs.2.2.1⟩

open TwoPools in
theorem fixed_graph_executes_example : ∃ outcome final,
    executePreflightedGraphFor Settle.noNatives accounts clock (TwoPools.venues 500)
      (.ofList instruction.data) wallet start = (.ok outcome, final) ∧ outcome.actualIn = 1000 ∧
      SpendsInput spec start.ledger final.ledger := by
  obtain ⟨g, hdecode, hrun⟩ := fixed_graph_executes compiled Settle.noNatives (TwoPools.venues 500)
    accounts (fun _ => rfl) clock wallet (⟨1, by decide⟩ : Fin instruction.accounts.length) [] start
    preflight_ok
  obtain rfl : graph = g := Except.ok.inj (graph_eq.symm.trans hdecode)
  obtain ⟨outcome, final, hfinal, hresult⟩ := hrun (obliging (.inl rfl) _)
  obtain ⟨o, final', ho⟩ := Stateful.Comp.exists_of_isOk (x := executePreflightedGraphFor
    Settle.noNatives accounts clock (TwoPools.venues 500) (.ofList instruction.data) wallet) (s := start)
    evaluated_runs.2.2.2
  obtain ⟨rfl, rfl⟩ := Prod.mk.inj (hfinal.symm.trans ho)
  rcases hresult with ⟨hspends, ⟨o', ho', hactual⟩ | hmin⟩ | ⟨hadapter, -⟩
  · cases ho'
    exact ⟨o, final, ho, hactual, hspends⟩
  · cases hmin
  · cases hadapter

end StockMesh.Host

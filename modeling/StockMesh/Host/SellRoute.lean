import StockMesh.Foundation.Frontier
import StockMesh.Host.Feed
import StockMesh.Host.Value
import StockMesh.Journal.Progress
import Mathlib.Algebra.BigOperators.Group.Finset.Basic
import Mathlib.Algebra.Order.BigOperators.Group.Finset
import Mathlib.Data.List.MinMax
import Mathlib.Data.Prod.Lex

/-! # Routes of a sale

A sale spends a fixed amount through one to three stages. A quote of a stage offers a main option and at
most three alternatives, and `choose` follows all of them by layers, keeping the paths that leave one leg
for every stage to come, and takes the complete path with the greatest output. One layer goes through its
paths exactly if their quotes go well together and no option with room uses a pool of its path again. -/

namespace StockMesh.Host

open Frontier
open Journal (refuse_eq_ok)

/-! ## The search -/

/-- One stage of a path (`SellStage`). -/
structure SellStage where
  input : ℕ
  output : ℕ
  legs : List Value

/-- A chosen route (`SellRoute`). -/
structure SellRoute where
  stages : List SellStage
  oracleCalls : ℕ
  nativeEvaluations : ℕ

/-- The quotes of the stages. -/
abbrev StageQuote := ℕ → ℕ → Answer Value

/-- The output and the legs of an entry that has both. -/
def offeredEntry (entry : Value) : Option (ℕ × List Value) := do
  let output ← (entry.index "outputAtoms").asU64.filter (0 < ·)
  let legs ← (entry.index "legs").asArray.filter (!·.isEmpty)
  some (output, legs)

/-- `proposal_options`. -/
def proposalOptions (proposal : Value) : List (ℕ × List Value) :=
  (offeredEntry proposal).toList ++
    match (proposal.index "alternatives").asArray with
    | some alternatives => (alternatives.take 3).filterMap offeredEntry
    | none => []

/-- `result["budgetExhausted"] == true`. -/
def budgetExhausted (result : Value) : Bool :=
  match result.index "budgetExhausted" with
  | .bool b => b
  | _ => false

/-- The pool of a leg that was checked. -/
def poolOf (leg : Value) : String := (leg.index "pool").asStr.getD ""

/-- The pools of a path. -/
def poolsOf (path : List SellStage) : List String := path.flatMap fun s => s.legs.map poolOf

/-- The legs of a path. -/
def usedLegs (path : List SellStage) : ℕ := (path.map fun s => s.legs.length).sum

/-- What the next stage of a path spends. -/
def amountAt (input : ℕ) (path : List SellStage) : ℕ := (path.getLast?.map SellStage.output).getD input

/-- The pools taken and the sums of the legs so far. -/
structure LegTally where
  pools : List String
  spent : ℕ
  produced : ℕ

/-- `checked_add`, with its message. -/
def addedTo (a b : ℕ) (message : String) : Answer ℕ := bounded u64Size (a + b) message

/-- The checks of one leg. -/
def LegTally.add (t : LegTally) (leg : Value) : Answer LegTally := do
  let pool ← present ((leg.index "pool").asStr.filter (· ≠ "")) "sell option pool"
  let input ← present ((leg.index "inputAtoms").asU64.filter (0 < ·)) "sell option input"
  let output ← present ((leg.index "outputAtoms").asU64.filter (0 < ·)) "sell option output"
  refuse (pool ∈ t.pools) "sell option repeated pool"
  let spent ← addedTo t.spent input "sell option input overflow"
  let produced ← addedTo t.produced output "sell option output overflow"
  .ok ⟨pool :: t.pools, spent, produced⟩

/-- One option of a path. -/
def extendPath (count stage amount : ℕ) (path : List SellStage) (next : List (List SellStage))
    (option : ℕ × List Value) : Answer (List (List SellStage)) :=
  if maxLegs < usedLegs path + option.2.length + (count - stage - 1) then .ok next
  else do
    let t ← option.2.foldlM LegTally.add ⟨poolsOf path, 0, 0⟩
    refuse (t.spent ≠ amount ∨ t.produced ≠ option.1) "sell option conservation"
    .ok (next ++ [path ++ [⟨amount, option.1, option.2⟩]])

/-- The quotes of one stage by amount, the counters and the next layer. -/
structure StageSearch where
  memo : ℕ → Option (Option Value)
  oracleCalls : ℕ
  nativeEvaluations : ℕ
  next : List (List SellStage)

/-- The text that a pool without capacity fails with. -/
def capacityError : String := "native allocation: Capacity"

/-- Ask for a quote, unless there is one for the amount. -/
def StageSearch.ask (quote : StageQuote) (stage amount : ℕ) (s : StageSearch) : Answer StageSearch :=
  match s.memo amount with
  | some _ => .ok s
  | none =>
    match quote stage amount with
    | .ok result => do
      let calls ← addedTo s.oracleCalls ((result.index "oracleCalls").asU64.getD 0) "sell oracle calls"
      let evaluations ← addedTo s.nativeEvaluations ((result.index "nativeEvaluations").asU64.getD 0)
        "sell native evaluations"
      .ok { s with
        memo := Function.update s.memo amount (some (if budgetExhausted result then none else some result))
        oracleCalls := calls
        nativeEvaluations := evaluations }
    | .error e =>
      if e = capacityError then .ok { s with memo := Function.update s.memo amount (some none) }
      else .error e

/-- One path of the layer. -/
def StageSearch.visit (quote : StageQuote) (count stage input : ℕ) (s : StageSearch)
    (path : List SellStage) : Answer StageSearch := do
  let amount := amountAt input path
  let s ← s.ask quote stage amount
  match (s.memo amount).join with
  | none => .ok s
  | some proposal => do
    let next ← (proposalOptions proposal).foldlM (extendPath count stage amount path) s.next
    .ok { s with next := next }

/-- A layer with the counters so far. -/
structure SellSearch where
  frontier : List (List SellStage)
  oracleCalls : ℕ
  nativeEvaluations : ℕ

/-- One stage. -/
def SellSearch.stage (quote : StageQuote) (count input : ℕ) (s : SellSearch) (stage : ℕ) :
    Answer SellSearch := do
  let done ← s.frontier.foldlM (StageSearch.visit quote count stage input)
    ⟨fun _ => none, s.oracleCalls, s.nativeEvaluations, []⟩
  refuse (done.next.isEmpty) "sell bounded route unavailable"
  refuse (64 < done.next.length) "sell candidate bound"
  .ok ⟨done.next, done.oracleCalls, done.nativeEvaluations⟩

/-- What two complete paths are compared by. -/
def merit (path : List SellStage) : ℕ ×ₗ ℕᵒᵈ := toLex (amountAt 0 path, OrderDual.toDual (usedLegs path))

/-- `choose`. -/
def chooseSell (quote : StageQuote) (count input : ℕ) : Answer SellRoute := do
  refuse (¬(1 ≤ count ∧ count ≤ 3) ∨ input = 0 ∨ maxAtoms < input) "sell input bound"
  let s ← (List.range count).foldlM (SellSearch.stage quote count input) ⟨[[]], 0, 0⟩
  -- `max_by` keeps the last of the greatest
  let stages ← present (s.frontier.reverse.argmax merit) "sell bounded route unavailable"
  .ok ⟨stages, s.oracleCalls, s.nativeEvaluations⟩

/-! ## What the options are -/

/-- What a quote offers for an amount: nothing if it fails or runs out of budget. -/
def answerAt (quote : StageQuote) (stage amount : ℕ) : Option Value :=
  match quote stage amount with
  | .ok result => if budgetExhausted result then none else some result
  | .error _ => none

/-- The options of a stage for an amount. -/
def optionsAt (quote : StageQuote) (stage amount : ℕ) : List (ℕ × List Value) :=
  match answerAt quote stage amount with
  | none => []
  | some proposal => proposalOptions proposal

/-- A well-formed option that spends the amount and produces its output. -/
structure Conserving (amount : ℕ) (option : ℕ × List Value) : Prop where
  pool : ∀ leg ∈ option.2, ∃ pool, (leg.index "pool").asStr = some pool ∧ pool ≠ ""
  input : ∀ leg ∈ option.2, ∃ n, (leg.index "inputAtoms").asU64 = some n ∧ 0 < n
  output : ∀ leg ∈ option.2, ∃ n, (leg.index "outputAtoms").asU64 = some n ∧ 0 < n
  spent : (option.2.map fun leg => (leg.index "inputAtoms").asU64.getD 0).sum = amount
  produced : (option.2.map fun leg => (leg.index "outputAtoms").asU64.getD 0).sum = option.1
  /-- The output is a `u64`. -/
  bounded : option.1 < u64Size

/-- A chain of options of the first stages that uses no pool twice. -/
structure SellChain (quote : StageQuote) (input stages : ℕ) (chain : List SellStage) : Prop where
  length : chain.length = stages
  linked : ∀ k (h : k < chain.length), chain[k].input = amountAt input (chain.take k)
  offered : ∀ k (h : k < chain.length),
    (chain[k].output, chain[k].legs) ∈ optionsAt quote k chain[k].input
  pools : (poolsOf chain).Nodup

/-- A complete chain within the legs of a transaction. -/
structure AdmissibleSell (quote : StageQuote) (count input : ℕ) (chain : List SellStage) : Prop extends
    SellChain quote input count chain where
  legs : usedLegs chain ≤ maxLegs

/-- A chain up to a stage that leaves one leg for each stage to come. -/
structure PartialSell (quote : StageQuote) (count input stage : ℕ) (path : List SellStage) : Prop extends
    SellChain quote input stage path where
  legs : usedLegs path + (count - stage) ≤ maxLegs

/-- A chain no other one is better than: a greater output, then fewer legs. -/
structure BestSell (quote : StageQuote) (count input : ℕ) (chain : List SellStage) : Prop extends
    AdmissibleSell quote count input chain where
  best : ∀ other, AdmissibleSell quote count input other →
    amountAt 0 other < amountAt 0 chain ∨
      amountAt 0 other = amountAt 0 chain ∧ usedLegs chain ≤ usedLegs other

variable {quote : StageQuote} {count input : ℕ}

/-! ## Legs and options -/

theorem addedTo_eq_ok {a b c : ℕ} {message : String} :
    addedTo a b message = .ok c ↔ a + b < u64Size ∧ a + b = c := bounded_eq_ok

/-- The input of a leg. -/
def inputOf (leg : Value) : ℕ := (leg.index "inputAtoms").asU64.getD 0

/-- The output of a leg. -/
def outputOf (leg : Value) : ℕ := (leg.index "outputAtoms").asU64.getD 0

/-- A leg that passes the checks of its own fields. -/
structure SoundLeg (leg : Value) : Prop where
  pool : ∃ pool, (leg.index "pool").asStr = some pool ∧ pool ≠ ""
  input : ∃ n, (leg.index "inputAtoms").asU64 = some n ∧ 0 < n
  output : ∃ n, (leg.index "outputAtoms").asU64 = some n ∧ 0 < n

theorem LegTally.add_eq_ok {t t' : LegTally} {leg : Value} (h : SoundLeg leg) :
    t.add leg = .ok t' ↔ poolOf leg ∉ t.pools ∧ t.spent + inputOf leg < u64Size ∧
      t.produced + outputOf leg < u64Size ∧
      t' = ⟨poolOf leg :: t.pools, t.spent + inputOf leg, t.produced + outputOf leg⟩ := by
  obtain ⟨⟨pool, hpool, hne⟩, ⟨n, hin, hn⟩, m, hout, hm⟩ := h
  have hpoolOf : poolOf leg = pool := by simp [poolOf, hpool]
  have hinputOf : inputOf leg = n := by simp [inputOf, hin]
  have houtputOf : outputOf leg = m := by simp [outputOf, hout]
  have hp : (leg.index "pool").asStr.filter (· ≠ "") = some pool := by simp [hpool, hne]
  have hi : (leg.index "inputAtoms").asU64.filter (0 < ·) = some n := by simp [hin, hn]
  have ho : (leg.index "outputAtoms").asU64.filter (0 < ·) = some m := by simp [hout, hm]
  rw [hpoolOf, hinputOf, houtputOf, LegTally.add, present_eq_ok.mpr hp, ok_bind, present_eq_ok.mpr hi,
    ok_bind, present_eq_ok.mpr ho, ok_bind]
  simp only [bind_eq_ok, refuse_eq_ok, addedTo_eq_ok]
  constructor
  · rintro ⟨_, hfresh, _, ⟨hspent, rfl⟩, _, ⟨hproduced, rfl⟩, hend⟩
    exact ⟨hfresh, hspent, hproduced, (Except.ok.inj hend).symm⟩
  · rintro ⟨hfresh, hspent, hproduced, rfl⟩
    exact ⟨(), hfresh, _, ⟨hspent, rfl⟩, _, ⟨hproduced, rfl⟩, rfl⟩

/-- The legs of an option that pass their checks, on top of the pools of a path. -/
structure SoundLegs (pools : List String) (legs : List Value) : Prop where
  pools : ((legs.map poolOf).reverse ++ pools).Nodup
  spent : (legs.map inputOf).sum < u64Size
  produced : (legs.map outputOf).sum < u64Size

/-- What the checks of the legs end with. -/
def tallyOf (pools : List String) (legs : List Value) : LegTally :=
  ⟨(legs.map poolOf).reverse ++ pools, (legs.map inputOf).sum, (legs.map outputOf).sum⟩

/-- The legs of an option pass if no pool is taken twice and the sums are `u64`s. -/
theorem foldlM_add_eq_ok {pools : List String} {legs : List Value} {t : LegTally} (hpools : pools.Nodup)
    (hlegs : ∀ leg ∈ legs, SoundLeg leg) :
    legs.foldlM LegTally.add ⟨pools, 0, 0⟩ = .ok t ↔ SoundLegs pools legs ∧ t = tallyOf pools legs := by
  have hbound : 0 < u64Size := by decide
  refine foldlM_eq_ok_iff (SoundLegs pools) (tallyOf pools) rfl ⟨by simpa, by simpa, by simpa⟩ ?_ ?_
  · rintro done leg ⟨hnodup, hspent, hproduced⟩
    simp only [List.map_append, List.map_cons, List.map_nil, List.reverse_append, List.reverse_cons,
      List.reverse_nil, List.nil_append, List.cons_append, List.nodup_cons, List.sum_append,
      List.sum_cons, List.sum_nil] at hnodup hspent hproduced
    exact ⟨hnodup.2, by omega, by omega⟩
  · intro done leg t hleg hdone
    rw [LegTally.add_eq_ok (hlegs leg (hleg.subset (by simp)))]
    simp only [tallyOf, List.map_append, List.map_cons, List.map_nil, List.reverse_append, List.reverse_cons,
      List.reverse_nil, List.nil_append, List.cons_append, List.sum_append, List.sum_cons, List.sum_nil,
      Nat.add_zero]
    constructor
    · rintro ⟨hfresh, hspent, hproduced, rfl⟩
      refine ⟨⟨?_, ?_, ?_⟩, rfl⟩
      · simpa using ⟨by simpa using hfresh, by simpa using hdone.pools⟩
      · simpa using hspent
      · simpa using hproduced
    · rintro ⟨⟨hnodup, hspent, hproduced⟩, rfl⟩
      simp only [List.map_append, List.map_cons, List.map_nil, List.reverse_append, List.reverse_cons,
        List.reverse_nil, List.nil_append, List.cons_append, List.nodup_cons, List.sum_append,
        List.sum_cons, List.sum_nil, Nat.add_zero] at hnodup hspent hproduced
      exact ⟨hnodup.1, hspent, hproduced, rfl⟩

theorem Conserving.sound {amount : ℕ} {option : ℕ × List Value} (h : Conserving amount option) :
    ∀ leg ∈ option.2, SoundLeg leg :=
  fun leg hleg => ⟨h.pool leg hleg, h.input leg hleg, h.output leg hleg⟩

/-- An option leaves a leg for every stage to come. -/
def HasRoom (count stage : ℕ) (path : List SellStage) (option : ℕ × List Value) : Prop :=
  usedLegs path + option.2.length + (count - stage - 1) ≤ maxLegs

/-- An option uses no pool of its path again, and none twice. -/
def IsFresh (path : List SellStage) (option : ℕ × List Value) : Prop :=
  (poolsOf path ++ option.2.map poolOf).Nodup

instance (count stage : ℕ) (path : List SellStage) (option : ℕ × List Value) :
    Decidable (HasRoom count stage path option) := by unfold HasRoom; infer_instance

instance (path : List SellStage) (option : ℕ × List Value) : Decidable (IsFresh path option) := by
  unfold IsFresh; infer_instance

/-- A path with one more stage, if the option has room and is fresh. -/
def extension (count stage amount : ℕ) (path : List SellStage) (option : ℕ × List Value) :
    Option (List SellStage) :=
  if HasRoom count stage path option ∧ IsFresh path option then
    some (path ++ [⟨amount, option.1, option.2⟩])
  else none

/-- An option passes if it has no room or is fresh. -/
theorem extendPath_eq_ok {stage amount : ℕ} {path : List SellStage} {next next' : List (List SellStage)}
    {option : ℕ × List Value} (hpath : (poolsOf path).Nodup) (hamount : amount < u64Size)
    (h : Conserving amount option) :
    extendPath count stage amount path next option = .ok next' ↔
      (HasRoom count stage path option → IsFresh path option) ∧
        next' = next ++ (extension count stage amount path option).toList := by
  have hsound : SoundLegs (poolsOf path) option.2 ↔ IsFresh path option := by
    have hperm : ((option.2.map poolOf).reverse ++ poolsOf path).Perm
        (poolsOf path ++ option.2.map poolOf) :=
      List.perm_append_comm.trans ((List.reverse_perm _).append_left _)
    constructor
    · exact fun hlegs => hperm.nodup_iff.mp hlegs.pools
    · intro hfresh
      have hspent : (option.2.map inputOf).sum = amount := h.spent
      have hproduced : (option.2.map outputOf).sum = option.1 := h.produced
      exact ⟨hperm.nodup_iff.mpr hfresh, by omega, by have := h.bounded; omega⟩
  unfold extendPath extension
  by_cases hroom : HasRoom count stage path option
  · have hlt : ¬maxLegs < usedLegs path + option.2.length + (count - stage - 1) := Nat.not_lt.mpr hroom
    rw [if_neg hlt]
    simp only [bind_eq_ok, foldlM_add_eq_ok hpath h.sound, hsound, hroom, true_and, true_implies]
    constructor
    · rintro ⟨t, ⟨hfresh, rfl⟩, _, _, hend⟩
      rw [if_pos hfresh]
      exact ⟨hfresh, (Except.ok.inj hend).symm⟩
    · rintro ⟨hfresh, rfl⟩
      refine ⟨_, ⟨hfresh, rfl⟩, (), refuse_eq_ok.mpr ?_, by rw [if_pos hfresh]; rfl⟩
      -- a conserving option spends and produces what it says
      rintro (hspent | hproduced)
      · exact hspent h.spent
      · exact hproduced h.produced
  · rw [if_pos (Nat.not_le.mp hroom), if_neg fun hboth => hroom hboth.1]
    simp only [hroom, false_implies, true_and, Option.toList_none, List.append_nil]
    exact ⟨fun hend => (Except.ok.inj hend).symm, fun hend => congrArg Except.ok hend.symm⟩

/-- The options that a path meets are fresh wherever they have room. -/
def NoRepeat (count stage : ℕ) (path : List SellStage) (options : List (ℕ × List Value)) : Prop :=
  ∀ option ∈ options, HasRoom count stage path option → IsFresh path option

instance (count stage : ℕ) (path : List SellStage) (options : List (ℕ × List Value)) :
    Decidable (NoRepeat count stage path options) := by unfold NoRepeat; infer_instance

/-- The options of a path, one after another. -/
theorem foldlM_extendPath_eq_ok {stage amount : ℕ} {path : List SellStage}
    {next next' : List (List SellStage)} {options : List (ℕ × List Value)} (hpath : (poolsOf path).Nodup)
    (hamount : amount < u64Size) (h : ∀ option ∈ options, Conserving amount option) :
    options.foldlM (extendPath count stage amount path) next = .ok next' ↔
      NoRepeat count stage path options ∧
        next' = next ++ options.filterMap (extension count stage amount path) := by
  refine foldlM_eq_ok_iff (NoRepeat count stage path)
    (fun done => next ++ done.filterMap (extension count stage amount path)) (by simp) (by simp [NoRepeat])
    (fun done option hgood o ho => hgood o (by simp [ho])) ?_
  intro done option next'' hoption hdone
  rw [extendPath_eq_ok hpath hamount (h option (hoption.subset (by simp)))]
  have hlast : (done ++ [option]).filterMap (extension count stage amount path) =
      done.filterMap (extension count stage amount path) ++
        (extension count stage amount path option).toList := by
    rw [List.filterMap_append]
    cases hext : extension count stage amount path option <;> simp [hext]
  rw [hlast, List.append_assoc]
  refine and_congr_left fun _ => ⟨fun hfresh o ho => ?_, fun hgood => hgood option (by simp)⟩
  obtain hmem | rfl := List.mem_append.mp ho |>.imp_right List.mem_singleton.mp
  · exact hdone o hmem
  · exact hfresh

/-! ## One stage -/

/-- A quote that fails does so for want of capacity. -/
def CapacityOnly (quote : StageQuote) (stage amount : ℕ) : Prop :=
  ∀ e, quote stage amount = .error e → e = capacityError

/-- A counter of a quote. -/
def counterAt (field : String) (quote : StageQuote) (stage amount : ℕ) : ℕ :=
  match quote stage amount with
  | .ok result => (result.index field).asU64.getD 0
  | .error _ => 0

/-- What a counter adds up to over some amounts. -/
def stageCounter (field : String) (quote : StageQuote) (stage : ℕ) (amounts : Finset ℕ) : ℕ :=
  ∑ amount ∈ amounts, counterAt field quote stage amount

/-- A stage after quotes for some amounts. -/
def asked (quote : StageQuote) (stage calls evaluations : ℕ) (amounts : Finset ℕ)
    (next : List (List SellStage)) : StageSearch where
  memo := fun amount => if amount ∈ amounts then some (answerAt quote stage amount) else none
  oracleCalls := calls + stageCounter "oracleCalls" quote stage amounts
  nativeEvaluations := evaluations + stageCounter "nativeEvaluations" quote stage amounts
  next := next

/-- Amounts whose quotes go well: no failure but for capacity, and counters that are `u64`s. -/
structure AskedWell (quote : StageQuote) (stage calls evaluations : ℕ) (amounts : Finset ℕ) : Prop where
  capacity : ∀ amount ∈ amounts, CapacityOnly quote stage amount
  calls : calls + stageCounter "oracleCalls" quote stage amounts < u64Size
  evaluations : evaluations + stageCounter "nativeEvaluations" quote stage amounts < u64Size

variable {stage calls evaluations : ℕ} {amounts : Finset ℕ} {next : List (List SellStage)}

theorem stageCounter_insert {field : String} {amount : ℕ} (h : amount ∉ amounts) :
    stageCounter field quote stage (insert amount amounts) =
      stageCounter field quote stage amounts + counterAt field quote stage amount := by
  rw [stageCounter, Finset.sum_insert h, Nat.add_comm, stageCounter]

theorem stageCounter_mono {field : String} {amounts' : Finset ℕ} (h : amounts ⊆ amounts') :
    stageCounter field quote stage amounts ≤ stageCounter field quote stage amounts' :=
  Finset.sum_le_sum_of_subset h

theorem AskedWell.mono {amounts' : Finset ℕ} (h : AskedWell quote stage calls evaluations amounts')
    (hsub : amounts ⊆ amounts') : AskedWell quote stage calls evaluations amounts where
  capacity := fun amount hmem => h.capacity amount (hsub hmem)
  calls := (Nat.add_le_add_left (stageCounter_mono hsub) _).trans_lt h.calls
  evaluations := (Nat.add_le_add_left (stageCounter_mono hsub) _).trans_lt h.evaluations

/-- The memo of one more amount. -/
theorem update_memo {amount : ℕ} {answer : Option Value} (h : answer = answerAt quote stage amount) :
    Function.update (asked quote stage calls evaluations amounts next).memo amount (some answer) =
      fun a => if a ∈ insert amount amounts then some (answerAt quote stage a) else none := by
  funext a
  by_cases ha : a = amount
  · simp [ha, h]
  · simp [asked, ha]

/-- One more amount goes well exactly if its own quote does and the counters hold. -/
theorem askedWell_insert {amount : ℕ} (hmem : amount ∉ amounts)
    (h : AskedWell quote stage calls evaluations amounts) :
    AskedWell quote stage calls evaluations (insert amount amounts) ↔ CapacityOnly quote stage amount ∧
      calls + stageCounter "oracleCalls" quote stage amounts + counterAt "oracleCalls" quote stage amount <
        u64Size ∧
      evaluations + stageCounter "nativeEvaluations" quote stage amounts +
        counterAt "nativeEvaluations" quote stage amount < u64Size := by
  constructor
  · rintro ⟨hcapacity, hcalls, hevaluations⟩
    rw [stageCounter_insert hmem, ← Nat.add_assoc] at hcalls hevaluations
    exact ⟨hcapacity amount (Finset.mem_insert_self _ _), hcalls, hevaluations⟩
  · rintro ⟨hcapacity, hcalls, hevaluations⟩
    rw [Nat.add_assoc, ← stageCounter_insert hmem] at hcalls hevaluations
    refine ⟨fun a ha => ?_, hcalls, hevaluations⟩
    obtain rfl | ha := Finset.mem_insert.mp ha
    · exact hcapacity
    · exact h.capacity a ha

/-- A stage after one more quote. -/
theorem asked_insert {amount : ℕ} (hmem : amount ∉ amounts) :
    asked quote stage calls evaluations (insert amount amounts) next =
      { asked quote stage calls evaluations amounts next with
        memo := Function.update (asked quote stage calls evaluations amounts next).memo amount
          (some (answerAt quote stage amount))
        oracleCalls := calls + stageCounter "oracleCalls" quote stage amounts +
          counterAt "oracleCalls" quote stage amount
        nativeEvaluations := evaluations + stageCounter "nativeEvaluations" quote stage amounts +
          counterAt "nativeEvaluations" quote stage amount } := by
  rw [update_memo rfl, Nat.add_assoc, ← stageCounter_insert hmem, Nat.add_assoc, ← stageCounter_insert hmem]
  rfl

/-- Asking for one more amount goes well exactly if the amounts with it go well. -/
theorem asked_ask_eq_ok {amount : ℕ} {s : StageSearch}
    (h : AskedWell quote stage calls evaluations amounts) :
    (asked quote stage calls evaluations amounts next).ask quote stage amount = .ok s ↔
      AskedWell quote stage calls evaluations (insert amount amounts) ∧
        s = asked quote stage calls evaluations (insert amount amounts) next := by
  by_cases hmem : amount ∈ amounts
  · -- the memo answers
    have hmemo : (asked quote stage calls evaluations amounts next).memo amount =
        some (answerAt quote stage amount) := if_pos hmem
    rw [Finset.insert_eq_of_mem hmem, StageSearch.ask, hmemo]
    exact ⟨fun hend => ⟨h, (Except.ok.inj hend).symm⟩, fun ⟨_, hend⟩ => congrArg Except.ok hend.symm⟩
  · have hmemo : (asked quote stage calls evaluations amounts next).memo amount = none := if_neg hmem
    rw [askedWell_insert hmem h, asked_insert hmem, StageSearch.ask, hmemo]
    cases hquote : quote stage amount with
    | ok result =>
      have hcapacity : CapacityOnly quote stage amount := fun e he => by rw [hquote] at he; cases he
      have hcounter : ∀ field, counterAt field quote stage amount = (result.index field).asU64.getD 0 :=
        fun field => by rw [counterAt, hquote]
      have hanswer : answerAt quote stage amount = if budgetExhausted result then none else some result := by
        rw [answerAt, hquote]
      simp only [bind_eq_ok, addedTo_eq_ok, hcounter, hanswer]
      constructor
      · rintro ⟨_, ⟨hcalls, rfl⟩, _, ⟨hevaluations, rfl⟩, hend⟩
        exact ⟨⟨hcapacity, hcalls, hevaluations⟩, (Except.ok.inj hend).symm⟩
      · rintro ⟨⟨_, hcalls, hevaluations⟩, rfl⟩
        exact ⟨_, ⟨hcalls, rfl⟩, _, ⟨hevaluations, rfl⟩, rfl⟩
    | error e =>
      -- a quote that fails counts nothing
      have hcounter : ∀ field, counterAt field quote stage amount = 0 :=
        fun field => by rw [counterAt, hquote]
      have hanswer : answerAt quote stage amount = none := by rw [answerAt, hquote]
      have hcapacity : CapacityOnly quote stage amount ↔ e = capacityError :=
        ⟨fun hc => hc e hquote, fun he e' he' => by rw [hquote] at he'; cases he'; exact he⟩
      simp only [hcounter, hanswer, hcapacity, Nat.add_zero]
      by_cases he : e = capacityError
      · rw [if_pos he]
        constructor
        · exact fun hend => ⟨⟨he, h.calls, h.evaluations⟩, (Except.ok.inj hend).symm⟩
        · rintro ⟨-, rfl⟩
          rfl
      · rw [if_neg he]
        constructor
        · intro hend
          cases hend
        · exact fun hend => absurd hend.1.1 he

/-- The paths of one more stage that continue a path. -/
def extensionsOf (quote : StageQuote) (count input stage : ℕ) (path : List SellStage) :
    List (List SellStage) :=
  (optionsAt quote stage (amountAt input path)).filterMap
    (extension count stage (amountAt input path) path)

/-- The amounts that some paths spend next. -/
def amountsOf (input : ℕ) (paths : List (List SellStage)) : Finset ℕ :=
  (paths.map (amountAt input)).toFinset

/-- Paths that a stage goes through without an error. -/
structure VisitedWell (quote : StageQuote) (count input stage calls evaluations : ℕ)
    (paths : List (List SellStage)) : Prop where
  asked : AskedWell quote stage calls evaluations (amountsOf input paths)
  fresh : ∀ path ∈ paths, NoRepeat count stage path (optionsAt quote stage (amountAt input path))

/-- A stage after some paths. -/
def visited (quote : StageQuote) (count input stage calls evaluations : ℕ) (paths : List (List SellStage)) :
    StageSearch :=
  asked quote stage calls evaluations (amountsOf input paths)
    (paths.flatMap (extensionsOf quote count input stage))

/-- A path that the checks of a stage are made for. -/
structure SoundPath (quote : StageQuote) (input stage : ℕ) (path : List SellStage) : Prop where
  pools : (poolsOf path).Nodup
  bounded : amountAt input path < u64Size
  conserving : ∀ option ∈ optionsAt quote stage (amountAt input path),
    Conserving (amountAt input path) option

theorem amountsOf_concat (paths : List (List SellStage)) (path : List SellStage) :
    amountsOf input (paths ++ [path]) = insert (amountAt input path) (amountsOf input paths) := by
  ext a
  simp [amountsOf]

/-- One more path. -/
theorem visited_visit_eq_ok {done : List (List SellStage)} {path : List SellStage} {s : StageSearch}
    (hpath : SoundPath quote input stage path)
    (h : VisitedWell quote count input stage calls evaluations done) :
    (visited quote count input stage calls evaluations done).visit quote count stage input path = .ok s ↔
      VisitedWell quote count input stage calls evaluations (done ++ [path]) ∧
        s = visited quote count input stage calls evaluations (done ++ [path]) := by
  have hvisited : VisitedWell quote count input stage calls evaluations (done ++ [path]) ↔
      AskedWell quote stage calls evaluations (insert (amountAt input path) (amountsOf input done)) ∧
        NoRepeat count stage path (optionsAt quote stage (amountAt input path)) := by
    rw [← amountsOf_concat]
    constructor
    · exact fun hall => ⟨hall.asked, hall.fresh path (by simp)⟩
    · rintro ⟨hasked, hfresh⟩
      refine ⟨hasked, fun p hp => ?_⟩
      obtain hp | hp := List.mem_append.mp hp
      · exact h.fresh p hp
      · rwa [List.mem_singleton.mp hp]
  have hmemo : (asked quote stage calls evaluations (insert (amountAt input path) (amountsOf input done))
      (done.flatMap (extensionsOf quote count input stage))).memo (amountAt input path) =
        some (answerAt quote stage (amountAt input path)) := if_pos (Finset.mem_insert_self _ _)
  have hnext : (done ++ [path]).flatMap (extensionsOf quote count input stage) =
      done.flatMap (extensionsOf quote count input stage) ++ extensionsOf quote count input stage path := by
    simp
  rw [hvisited, visited, visited, amountsOf_concat, hnext, StageSearch.visit]
  simp only [bind_eq_ok, asked_ask_eq_ok h.asked]
  cases hanswer : answerAt quote stage (amountAt input path) with
  | none =>
    -- nothing is offered
    have hoptions : optionsAt quote stage (amountAt input path) = [] := by rw [optionsAt, hanswer]
    have hextensions : extensionsOf quote count input stage path = [] := by
      rw [extensionsOf, hoptions, List.filterMap_nil]
    rw [hanswer] at hmemo
    rw [hextensions, hoptions, List.append_nil]
    constructor
    · rintro ⟨_, ⟨hasked, rfl⟩, hend⟩
      rw [hmemo] at hend
      exact ⟨⟨hasked, by simp [NoRepeat]⟩, (Except.ok.inj hend).symm⟩
    · rintro ⟨⟨hasked, -⟩, rfl⟩
      exact ⟨_, ⟨hasked, rfl⟩, by rw [hmemo]; rfl⟩
  | some proposal =>
    have hoptions : optionsAt quote stage (amountAt input path) = proposalOptions proposal := by
      rw [optionsAt, hanswer]
    have hconserving := hpath.conserving
    rw [hoptions] at hconserving
    have hfold := fun next' => @foldlM_extendPath_eq_ok count stage (amountAt input path) path
      (done.flatMap (extensionsOf quote count input stage)) next' _ hpath.pools hpath.bounded hconserving
    rw [hanswer] at hmemo
    rw [extensionsOf, hoptions]
    constructor
    · rintro ⟨_, ⟨hasked, rfl⟩, hend⟩
      rw [hmemo] at hend
      obtain ⟨next', hoffered, hend⟩ := bind_eq_ok.mp hend
      obtain ⟨hfresh, rfl⟩ := (hfold next').mp hoffered
      exact ⟨⟨hasked, hfresh⟩, (Except.ok.inj hend).symm⟩
    · rintro ⟨⟨hasked, hfresh⟩, rfl⟩
      refine ⟨_, ⟨hasked, rfl⟩, ?_⟩
      rw [hmemo]
      exact bind_eq_ok.mpr ⟨_, (hfold _).mpr ⟨hfresh, rfl⟩, rfl⟩

/-- A stage goes through its paths exactly if they go well together. -/
theorem foldlM_visit_eq_ok {paths : List (List SellStage)} {s : StageSearch}
    (hpaths : ∀ path ∈ paths, SoundPath quote input stage path) (hcalls : calls < u64Size)
    (hevaluations : evaluations < u64Size) :
    paths.foldlM (StageSearch.visit quote count stage input) ⟨fun _ => none, calls, evaluations, []⟩ =
        .ok s ↔
      VisitedWell quote count input stage calls evaluations paths ∧
        s = visited quote count input stage calls evaluations paths := by
  refine foldlM_eq_ok_iff (VisitedWell quote count input stage calls evaluations)
    (visited quote count input stage calls evaluations) rfl ?_ ?_ ?_
  · exact ⟨⟨by simp [amountsOf], hcalls, hevaluations⟩, by simp⟩
  · intro done path h
    refine ⟨h.asked.mono ?_, fun p hp => h.fresh p (by simp [hp])⟩
    rw [amountsOf_concat]
    exact Finset.subset_insert _ _
  · exact fun done path s hmem h => visited_visit_eq_ok (hpaths path (hmem.subset (by simp))) h

end StockMesh.Host

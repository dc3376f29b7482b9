import StockMesh.Host.Answer
import StockMesh.Native.Memo
import StockMesh.Optimizer.OracleState
import Mathlib.Data.List.Sort

/-! # Quotes of a world through a memo

A world is a list of markets that were decoded from one bank. A quote allocates the input over the markets
with the search of the engine, whose oracle goes through the memo of the worker, and adds the markets that
would take the whole input as alternatives. Whatever the worker has quoted before, the proposal is that of a
quote without a memo (`quoteWithMemo_spec`); only the counters of the memo and the planning time tell the
difference. -/

namespace StockMesh

/-- The name of an error, as `Debug` prints it. -/
def Error.debugName : Error → String
  | invalidAmount => "InvalidAmount"
  | invalidCurve => "InvalidCurve"
  | arithmetic => "Arithmetic"
  | capacity => "Capacity"
  | bounds => "Bounds"
  | workLimit => "WorkLimit"
  | stale => "Stale"
  | expired => "Expired"
  | identity => "Identity"
  | aliasedLiquidity => "AliasedLiquidity"
  | unsupported => "Unsupported"
  | venueUnavailable => "VenueUnavailable"
  | fatalCpi => "FatalCpi"
  | balanceInvariant => "BalanceInvariant"
  | minOut => "MinOut"
  | queueFull => "QueueFull"
  | duplicate => "Duplicate"
  | ownerLimit => "OwnerLimit"
  | invalidTicket => "InvalidTicket"
  | overflow => "attempt to compute with overflow"

namespace Host

open ExactOracle Native

/-- The venue of a market (`Venue`). -/
inductive MarketVenue
  | raydiumClmm
  | byrealClmm
  | meteoraDlmm
  | orcaWhirlpool
  deriving DecidableEq

/-- A market of a world, with what a proposal says of it (`Edge`). -/
structure WorldEdge where
  venue : MarketVenue
  pool : String
  /-- `Market::quote`. -/
  quote : ℕ → Answer ℕ

/-- The markets of one bank. -/
structure World where
  edges : List WorldEdge
  /-- What a memo knows the bank by. -/
  cacheNamespace : Key
  slot : ℕ
  generation : ℕ
  snapshotHash : String

/-- A leg of a proposal. -/
structure ProposalLeg where
  venue : MarketVenue
  pool : String
  inputAtoms : ℕ
  outputAtoms : ℕ
  deriving DecidableEq

/-- A market that takes the whole input. -/
structure ProposalAlternative where
  outputAtoms : ℕ
  legs : List ProposalLeg
  deriving DecidableEq

/-- The answer of a quote. -/
structure WorldProposal where
  inputAtoms : ℕ
  outputAtoms : ℕ
  slot : ℕ
  generation : ℕ
  snapshotHash : String
  legs : List ProposalLeg
  alternatives : List ProposalAlternative
  maxExactCandidates : ℕ := 4
  oracleCalls : ℕ
  nativeEvaluations : ℕ
  memoHits : ℕ
  memoProbeFallbacks : ℕ
  budgetExhausted : Bool
  planningNs : ℕ
  requiresSimulation : Bool := true
  executionAdmitted : Bool := false
  nativeEdges : ℕ
  optimality : String := "best observed native allocation; no global certificate"
  deriving DecidableEq

/-- A proposal apart from the planning time and the counters of the memo. -/
def WorldProposal.pricing (p : WorldProposal) : WorldProposal :=
  { p with nativeEvaluations := 0, memoHits := 0, memoProbeFallbacks := 0, planningNs := 0 }

/-- Largest input of a quote. -/
def maxQuoteInput : ℕ := 500000000000

namespace World

/-- The evaluation of a market. An index past the markets is a panic. -/
def evaluate (w : World) (i q : ℕ) : NativeResult ℕ :=
  match w.edges[i]? with
  | some e => (e.quote q).mapError fun _ => .capacity
  | none => .error .overflow

/-- A quote of a market through the memo. -/
def remembered (w : World) (i q : ℕ) (memo : QuoteMemo) : NativeResult ℕ × QuoteMemo :=
  memo.quote i q (w.evaluate i q)

/-- The markets that would take the whole input, unless the plan is to use one so. -/
def alternatives (w : World) (input : ℕ) (plan : ExactPlan) :
    List (WorldEdge × ℕ) → QuoteMemo → List ProposalAlternative × QuoteMemo
  | [], memo => ([], memo)
  | (e, i) :: rest, memo =>
    if plan.inputs i = input then alternatives w input plan rest memo
    else
      let (quoted, memo) := w.remembered i input memo
      let (found, memo) := alternatives w input plan rest memo
      match quoted with
      | .ok out => (⟨out, [⟨e.venue, e.pool, input, out⟩]⟩ :: found, memo)
      | .error _ => (found, memo)

/-- The proposal of a plan. -/
def propose (w : World) (input : ℕ) (plan : ExactPlan) (found : List ProposalAlternative)
    (memo : QuoteMemo) (elapsed : ℕ) : WorldProposal where
  inputAtoms := input
  outputAtoms := plan.output
  slot := w.slot
  generation := w.generation
  snapshotHash := w.snapshotHash
  legs := (w.edges.zipIdx.filter fun e => 0 < plan.inputs e.2).map fun e =>
    ⟨e.1.venue, e.1.pool, plan.inputs e.2, plan.outputs e.2⟩
  alternatives := (found.insertionSort fun a b => b.outputAtoms ≤ a.outputAtoms).take 3
  oracleCalls := plan.oracleCalls
  nativeEvaluations := memo.evaluations
  memoHits := memo.hits
  memoProbeFallbacks := memo.probeFallbacks
  budgetExhausted := plan.exhausted
  planningNs := elapsed
  nativeEdges := w.edges.length

/-- `quote_with_memo`, which takes `elapsed` to plan. -/
def quoteWithMemo (w : World) (input : ℕ) (memo : QuoteMemo) (elapsed : ℕ) :
    Answer WorldProposal × QuoteMemo :=
  if input = 0 ∨ maxQuoteInput < input then (.error "input bound", memo)
  else
    let oracle := fun i q memo =>
      ((w.remembered i q memo).1.mapError fun _ => Error.capacity, (w.remembered i q memo).2)
    match Held.refine w.edges.length input 2048 oracle (memo.begin w.cacheNamespace) with
    | (.error e, memo) => (.error ("native allocation: " ++ e.debugName), memo)
    | (.ok plan, memo) =>
      let (found, memo) := w.alternatives input plan w.edges.zipIdx memo
      (.ok (w.propose input plan found memo elapsed), memo)

/-- `quote`. -/
def quote (w : World) (input elapsed : ℕ) : Answer WorldProposal :=
  (w.quoteWithMemo input {} elapsed).1

/-! ## Without a memo -/

/-- The alternatives of direct evaluations. -/
def plainAlternatives (w : World) (input : ℕ) (plan : ExactPlan) :
    List (WorldEdge × ℕ) → List ProposalAlternative
  | [] => []
  | (e, i) :: rest =>
    if plan.inputs i = input then plainAlternatives w input plan rest
    else match w.evaluate i input with
      | .ok out => ⟨out, [⟨e.venue, e.pool, input, out⟩]⟩ :: plainAlternatives w input plan rest
      | .error _ => plainAlternatives w input plan rest

/-- What a quote proposes: the search and the alternatives over direct evaluations. -/
def plainQuote (w : World) (input : ℕ) : Answer WorldProposal :=
  if input = 0 ∨ maxQuoteInput < input then .error "input bound"
  else
    match refine w.edges.length input 2048 fun i q => (w.evaluate i q).mapError fun _ => .capacity with
    | .error e => .error ("native allocation: " ++ e.debugName)
    | .ok plan => .ok (w.propose input plan (w.plainAlternatives input plan w.edges.zipIdx) {} 0)

/-- The markets of a world quote what `f` says of its bank. -/
def Quotes (f : Key → ℕ → ℕ → NativeResult ℕ) (w : World) : Prop :=
  ∀ i < w.edges.length, ∀ q, w.evaluate i q = f w.cacheNamespace i q

section Recall

variable {f : Key → ℕ → ℕ → NativeResult ℕ} {w : World} {memo : QuoteMemo} {input : ℕ}

/-- The memo is faithful and has been told the bank. -/
def Serves (f : Key → ℕ → ℕ → NativeResult ℕ) (w : World) (memo : QuoteMemo) : Prop :=
  memo.Faithful f ∧ memo.namespaceKey = some w.cacheNamespace

/-- A quote through the memo is the evaluation. -/
theorem remembered_eq (hw : w.Quotes f) (h : w.Serves f memo) {i : ℕ} (hi : i < w.edges.length) (h8 : i < 8)
    (q : ℕ) : (w.remembered i q memo).1 = w.evaluate i q ∧ w.Serves f (w.remembered i q memo).2 := by
  unfold remembered
  rw [hw i hi q]
  obtain ⟨hvalue, hfaithful⟩ := QuoteMemo.quote_eq h.1 h.2 h8
  exact ⟨hvalue, hfaithful, (QuoteMemo.namespaceKey_quote ..).trans h.2⟩

theorem alternatives_eq (hw : w.Quotes f) (h8 : w.edges.length ≤ 8) (plan : ExactPlan)
    {todo : List (WorldEdge × ℕ)} (htodo : ∀ e ∈ todo, e.2 < w.edges.length) (h : w.Serves f memo) :
    (w.alternatives input plan todo memo).1 = w.plainAlternatives input plan todo ∧
      w.Serves f (w.alternatives input plan todo memo).2 := by
  induction todo generalizing memo with
  | nil => exact ⟨rfl, h⟩
  | cons entry rest ih =>
    obtain ⟨e, i⟩ := entry
    obtain ⟨hi, hrest⟩ := List.forall_mem_cons.mp htodo
    rw [alternatives, plainAlternatives]
    split
    · exact ih hrest h
    · obtain ⟨hvalue, hserves⟩ := remembered_eq hw h hi (Nat.lt_of_lt_of_le hi h8) input
      obtain ⟨hfound, hafter⟩ := ih hrest hserves
      dsimp only
      rw [hvalue]
      cases w.evaluate i input with
      | ok out => exact ⟨congrArg _ hfound, hafter⟩
      | error e => exact ⟨hfound, hafter⟩

/-- More markets than the search takes are refused, with a memo or without. -/
theorem quoteWithMemo_of_crowded (hcrowded : maxEdges < w.edges.length)
    (hinput : ¬(input = 0 ∨ maxQuoteInput < input)) (elapsed : ℕ) :
    w.quoteWithMemo input memo elapsed = (w.plainQuote input, memo.begin w.cacheNamespace) := by
  obtain ⟨hheld, hplain⟩ := refine_of_crowded hcrowded
    (fun i q memo => ((w.remembered i q memo).1.mapError fun _ => Error.capacity, (w.remembered i q memo).2))
    (fun i q => (w.evaluate i q).mapError fun _ => Error.capacity) input 2048
    (memo.begin w.cacheNamespace)
  rw [quoteWithMemo, if_neg hinput, plainQuote, if_neg hinput, hplain]
  dsimp only
  rw [hheld]

/-- Through a faithful memo a quote proposes what direct evaluations would, and leaves a faithful memo. -/
theorem quoteWithMemo_spec (hw : w.Quotes f) (h : memo.Faithful f) (elapsed : ℕ) :
    (w.quoteWithMemo input memo elapsed).1.map WorldProposal.pricing =
        (w.plainQuote input).map WorldProposal.pricing ∧
      (w.quoteWithMemo input memo elapsed).2.Faithful f := by
  by_cases hinput : input = 0 ∨ maxQuoteInput < input
  · rw [quoteWithMemo, if_pos hinput, plainQuote, if_pos hinput]
    exact ⟨rfl, h⟩
  have hserves : w.Serves f (memo.begin w.cacheNamespace) :=
    ⟨h.begin _, QuoteMemo.namespaceKey_begin ..⟩
  by_cases hcrowded : maxEdges < w.edges.length
  · rw [quoteWithMemo_of_crowded hcrowded hinput]
    exact ⟨rfl, hserves.1⟩
  have h8 : w.edges.length ≤ 8 := Nat.le_of_not_lt hcrowded
  have horacle : AnswersAs (w.Serves f) w.edges.length
      (fun i q memo => ((w.remembered i q memo).1.mapError fun _ => Error.capacity, (w.remembered i q memo).2))
      (fun i q => (w.evaluate i q).mapError fun _ => Error.capacity) := by
    intro i hi q memo hmemo
    obtain ⟨hvalue, hafter⟩ := remembered_eq hw hmemo hi (Nat.lt_of_lt_of_le hi h8) q
    exact ⟨congrArg (Except.mapError fun _ => Error.capacity) hvalue, hafter⟩
  obtain ⟨hplan, hsearched⟩ := @refine_follows _ _ 2048 _ _ _ horacle input _ hserves
  rw [quoteWithMemo, if_neg hinput, plainQuote, if_neg hinput, ← hplan]
  dsimp only
  split
  · rename_i e memo' hrun
    rw [hrun]
    exact ⟨rfl, (hrun ▸ hsearched).1⟩
  · rename_i plan memo' hrun
    rw [hrun] at hsearched ⊢
    have htodo : ∀ e ∈ w.edges.zipIdx, e.2 < w.edges.length := by
      intro e he
      simpa using List.snd_lt_of_mem_zipIdx he
    obtain ⟨hfound, hafter⟩ := @alternatives_eq _ _ _ input hw h8 plan _ htodo hsearched
    dsimp only
    rw [hfound]
    exact ⟨rfl, hafter.1⟩

end Recall

end World

/-! ## A worker -/

/-- The memos of a worker, which calls the memo or quotes worlds in any order. The evaluations depend on the
bank, the edge and the input only. -/
inductive Reached (f : Key → ℕ → ℕ → NativeResult ℕ) : QuoteMemo → Prop
  | empty : Reached f {}
  | begin {m : QuoteMemo} (h : Reached f m) (bank : Key) : Reached f (m.begin bank)
  | quote {m : QuoteMemo} (h : Reached f m) (edge input : ℕ) (value : NativeResult ℕ)
      (hvalue : ∀ b ∈ m.namespaceKey, value = f b edge input) : Reached f (m.quote edge input value).2
  | world {m : QuoteMemo} (h : Reached f m) (w : World) (hw : w.Quotes f) (input elapsed : ℕ) :
      Reached f (w.quoteWithMemo input m elapsed).2

/-- Every memo of a worker is faithful. -/
theorem Reached.faithful {f : Key → ℕ → ℕ → NativeResult ℕ} {m : QuoteMemo} (h : Reached f m) :
    m.Faithful f := by
  induction h with
  | empty => exact QuoteMemo.faithful_empty
  | begin h bank ih => exact ih.begin bank
  | quote h edge input value hvalue ih => exact (QuoteMemo.quote_step ih hvalue).2
  | world h w hw input elapsed ih => exact (World.quoteWithMemo_spec hw ih elapsed).2

/-- A memo is not to be seen in the answers: a quote of the bank that was begun last is its evaluation, and
the proposal of a world, or its failure, is the one of a new memo, apart from the planning time and the
counters of the memo. -/
theorem quote_memo_transparent (f : Key → ℕ → ℕ → NativeResult ℕ) :
    (∀ calls, DependsOn f none calls → ({} : QuoteMemo).answers calls = evaluated none calls) ∧
      ∀ m, Reached f m →
        (∀ bank edge input, m.namespaceKey = some bank → edge < 8 →
          (m.quote edge input (f bank edge input)).1 = f bank edge input) ∧
        ∀ w : World, w.Quotes f → ∀ input elapsed elapsed',
          (w.quoteWithMemo input m elapsed).1.map WorldProposal.pricing =
            (w.quote input elapsed').map WorldProposal.pricing := by
  refine ⟨fun calls hcalls => (QuoteMemo.run_spec QuoteMemo.faithful_empty hcalls).1, fun m hm => ⟨?_, ?_⟩⟩
  · intro bank edge input hbank hedge
    exact (QuoteMemo.quote_eq hm.faithful hbank hedge).1
  · intro w hw input elapsed elapsed'
    calc (w.quoteWithMemo input m elapsed).1.map WorldProposal.pricing
        = (w.plainQuote input).map WorldProposal.pricing :=
          (World.quoteWithMemo_spec hw hm.faithful elapsed).1
      _ = (w.quote input elapsed').map WorldProposal.pricing :=
          (World.quoteWithMemo_spec hw QuoteMemo.faithful_empty elapsed').1.symm

/-- A world of one market, which gives back what it takes. -/
def mirrorWorld : World where
  edges := [⟨.raydiumClmm, "mirror", fun q => .ok q⟩]
  cacheNamespace := Key.ofNat 1
  slot := 1
  generation := 1
  snapshotHash := ""

theorem mirrorWorld_quotes : mirrorWorld.Quotes fun _ _ q => .ok q := by
  intro i hi q
  obtain rfl : i = 0 := Nat.lt_one_iff.mp hi
  rfl

/-- The memo of the world's quote answers again, to a call and to a second quote. -/
theorem quote_memo_transparent_mirror :
    ({} : QuoteMemo).answers [.begin (Key.ofNat 1), .quote 0 7 (.ok 7), .quote 0 7 (.ok 7)] =
        [.ok 7, .ok 7] ∧
      ((mirrorWorld.quoteWithMemo 1 {} 0).2.quote 0 1 (.ok 1)).1 = .ok 1 ∧
      (mirrorWorld.quoteWithMemo 1 (mirrorWorld.quoteWithMemo 1 {} 0).2 3).1.map WorldProposal.pricing =
        (mirrorWorld.quote 1 5).map WorldProposal.pricing := by
  obtain ⟨hcalls, hworker⟩ := quote_memo_transparent fun _ _ q => .ok q
  have hreached : Reached (fun _ _ q => .ok q) (mirrorWorld.quoteWithMemo 1 {} 0).2 :=
    .world .empty mirrorWorld mirrorWorld_quotes 1 0
  refine ⟨hcalls _ ⟨fun _ _ => rfl, fun _ _ => rfl, trivial⟩, ?_, ?_⟩
  · exact (hworker _ hreached).1 (Key.ofNat 1) 0 1 (by decide) (by decide)
  · exact (hworker _ hreached).2 mirrorWorld mirrorWorld_quotes 1 3 5

/-- Before a bank is begun there is no quote, and the second proposal of a memo counts a hit where a new memo
counts an evaluation. -/
theorem quote_memo_counts :
    (({} : QuoteMemo).quote 0 7 (.ok 7)).1 ≠ .ok 7 ∧
      (mirrorWorld.quoteWithMemo 1 (mirrorWorld.quoteWithMemo 1 {} 0).2 0).1 ≠ mirrorWorld.quote 1 0 := by
  decide

end Host

end StockMesh

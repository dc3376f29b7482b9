import StockMesh.Optimizer.Certificate
import StockMesh.Reflow.Execute
import StockMesh.Runtime.Fixture

/-! # Safety of the executor against any host

The record of calls tells what an execution did. `Round` is one completed turn as its calls show it,
`Cleared` what must hold of everything before an invocation, `Accepted` what the balances read after
it must show. `execute_safe` says that every invocation in every run is cleared by the calls before
it, and that a run that returns is a sequence of accepted rounds spending the whole amount. -/

namespace StockMesh

open Budgeted Stateful Function

/-- One completed turn: the snapshots read, the invocation and the balances after it. -/
structure Round where
  reads : List Snapshot
  edge : Edge
  request : ℕ
  after : Balances

/-- The calls that read venues `0, 1, …`. -/
def readCalls (reads : List Snapshot) : List Call := reads.mapIdx fun i s => .snapshot i (.ok s)

/-- The calls of a completed turn. -/
def Round.calls (slot : ℕ) (r : Round) : List Call :=
  .slot slot :: readCalls r.reads ++
    [.invoke r.edge.val r.request (.ok ()), .balances (.ok r.after)]

/-- The calls before the first turn. -/
def openingCalls (slot : ℕ) (start : Balances) (first : Snapshot) : List Call :=
  [.slot slot, .balances (.ok start), .snapshot 0 (.ok first)]

/-- The balances after some turns. -/
def balancesAfter (start : Balances) (done : List Round) : Balances :=
  (done.getLast?.map Round.after).getD start

@[simp] theorem balancesAfter_nil (start : Balances) : balancesAfter start [] = start := rfl

@[simp] theorem balancesAfter_snoc (start : Balances) (done : List Round) (r : Round) :
    balancesAfter start (done ++ [r]) = r.after := by
  simp [balancesAfter]

@[simp] theorem readCalls_nil : readCalls [] = [] := rfl

theorem readCalls_snoc (reads : List Snapshot) (s : Snapshot) :
    readCalls (reads ++ [s]) = readCalls reads ++ [.snapshot reads.length (.ok s)] :=
  List.mapIdx_concat

section Spec

variable (pins : List EdgePin) (intent : Intent) (limits : Limits) (slot : ℕ) (start : Balances)

/-- The checks before the first turn. -/
structure Opened : Prop where
  pins_pos : 0 < pins.length
  pins_le : pins.length ≤ maxEdges
  legs_pos : 0 < limits.maxLegs
  legs_le : limits.maxLegs ≤ maxLegs
  reflows_le : limits.maxReflows ≤ maxReflows
  amount_pos : 0 < intent.amountIn
  amount_le : intent.amountIn ≤ maxAtoms
  distinct : intent.inputMint ≠ intent.outputMint
  unaliased : ¬aliasedPins pins
  unexpired : slot ≤ intent.expiresAtSlot
  funded : intent.amountIn ≤ start.input

/-- What holds before an invocation: budgets are left, input is left, every venue read is the pinned
one, and the chosen venue is available and shares nothing with the ones already invoked. -/
structure Cleared (done : List Round) (reads : List Snapshot) (edge : Edge) (request : ℕ) :
    Prop where
  legs_lt : done.length < limits.maxLegs
  reflows_le : done.length ≤ limits.maxReflows
  unspent : start.input < (balancesAfter start done).input + intent.amountIn
  length_eq : reads.length = pins.length
  matched : ∀ i : Edge, i.val < pins.length →
    ¬Mismatched intent (pinAt pins i) (snapshotAt reads i)
  edge_lt : edge.val < pins.length
  available : ¬Unavailable intent slot (pinAt pins edge) (snapshotAt reads edge)
  fresh : ∀ r ∈ done, r.edge ≠ edge ∧
    (pinAt pins r.edge).writableResources &&& (pinAt pins edge).writableResources = 0
  request_pos : 0 < request

/-- What the balances around an invocation must show. -/
structure Settles (before : Balances) (request : ℕ) (after : Balances) : Prop where
  input_le : after.input ≤ before.input
  output_le : before.output ≤ after.output
  spent_le : before.input ≤ after.input + request
  within : start.input ≤ after.input + intent.amountIn
  spent_iff : before.input = after.input ↔ before.output = after.output

/-- Turns that were cleared and settled one after the other. -/
inductive Accepted : List Round → Prop
  | nil : Accepted []
  | snoc {done : List Round} {r : Round} (prev : Accepted done)
      (cleared : Cleared pins intent limits slot start done r.reads r.edge r.request)
      (settles : Settles intent start (balancesAfter start done) r.request r.after) :
      Accepted (done ++ [r])

end Spec

/-- Every call after which something was called succeeded, and every invocation was cleared by the
calls before it. -/
structure Supervised (pins : List EdgePin) (intent : Intent) (limits : Limits) (calls : List Call) :
    Prop where
  failed_last : ∀ before c later, calls = before ++ c :: later → c.Failed → later = []
  cleared : ∀ before i x answer later, calls = before ++ .invoke i x answer :: later →
    ∃ slot start first done reads, ∃ edge : Edge, i = edge.val ∧
      Opened pins intent limits slot start ∧
      Accepted pins intent limits slot start done ∧
      Cleared pins intent limits slot start done reads edge x ∧
      before = openingCalls slot start first ++ done.flatMap (Round.calls slot) ++
        .slot slot :: readCalls reads

/-- What a receipt says about the turns of its run. -/
structure Settled (pins : List EdgePin) (intent : Intent) (limits : Limits) (slot : ℕ)
    (start : Balances) (done : List Round) (receipt : Receipt) : Prop where
  spent : (balancesAfter start done).input + intent.amountIn = start.input
  received : start.output + intent.minOut ≤ (balancesAfter start done).output
  legs_eq : receipt.legs = done.length
  legs_le : receipt.legs ≤ limits.maxLegs ∧ receipt.legs ≤ limits.maxReflows + 1
  once : (done.map Round.edge).Nodup
  disjoint : done.Pairwise fun r r' =>
    (pinAt pins r.edge).writableResources &&& (pinAt pins r'.edge).writableResources = 0
  passed : ∀ r ∈ done, r.edge.val < pins.length ∧
    ¬Mismatched intent (pinAt pins r.edge) (snapshotAt r.reads r.edge) ∧
    ¬Unavailable intent slot (pinAt pins r.edge) (snapshotAt r.reads r.edge)
  inputSpent_eq : receipt.inputSpent = intent.amountIn
  outputReceived_eq : start.output + receipt.outputReceived = (balancesAfter start done).output
  traced : ∀ k : Fin maxLegs, ∀ r, done[k.val]? = some r →
    (receipt.trace k).edge = r.edge.val ∧ (receipt.trace k).requested = r.request ∧
    (receipt.trace k).residual + ∑ j with j ≤ k, (receipt.trace j).spent = intent.amountIn
  spent_sum : ∑ k, (receipt.trace k).spent = intent.amountIn
  received_sum : ∑ k, (receipt.trace k).received = receipt.outputReceived

/-! ## The record of calls -/

section Record

variable {pins : List EdgePin} {intent : Intent} {limits : Limits} {calls : List Call} {c : Call}

/-- A supervised record without failures: the execution may go on. -/
structure Calm (pins : List EdgePin) (intent : Intent) (limits : Limits) (calls : List Call) :
    Prop where
  supervised : Supervised pins intent limits calls
  succeeded : ∀ c ∈ calls, ¬c.Failed

/-- The last call of a longer record is the new one, an earlier one was there before. -/
theorem split_snoc {before later : List Call} {d : Call} (h : calls ++ [c] = before ++ d :: later) :
    (later = [] ∧ before = calls ∧ d = c) ∨ ∃ later', calls = before ++ d :: later' := by
  rcases List.eq_nil_or_concat later with rfl | ⟨later', e, rfl⟩
  · left
    obtain ⟨hcalls, hc⟩ := List.append_inj' h rfl
    cases hc
    exact ⟨rfl, hcalls.symm, rfl⟩
  · right
    rw [List.concat_eq_append, ← List.cons_append, ← List.append_assoc] at h
    exact ⟨later', (List.append_inj' h rfl).1⟩

theorem calm_nil : Calm pins intent limits [] := by
  refine ⟨⟨fun before c later h => ?_, fun before i x answer later h => ?_⟩, fun c hc => by cases hc⟩
  · simp at h
  · simp at h

/-- One more call: an invocation must be cleared, other calls may always be made. -/
theorem Calm.supervised_snoc (h : Calm pins intent limits calls)
    (hc : ∀ i x answer, c = .invoke i x answer →
      ∃ slot start first done reads, ∃ edge : Edge, i = edge.val ∧
        Opened pins intent limits slot start ∧ Accepted pins intent limits slot start done ∧
        Cleared pins intent limits slot start done reads edge x ∧
        calls = openingCalls slot start first ++ done.flatMap (Round.calls slot) ++
          .slot slot :: readCalls reads) :
    Supervised pins intent limits (calls ++ [c]) := by
  constructor
  · intro before d later hsplit hfailed
    rcases split_snoc hsplit with ⟨hlater, -, -⟩ | ⟨later', hcalls⟩
    · exact hlater
    · exact absurd hfailed (h.succeeded d (by rw [hcalls]; simp))
  · intro before i x answer later hsplit
    rcases split_snoc hsplit with ⟨-, rfl, hd⟩ | ⟨later', hcalls⟩
    · exact hc i x answer hd.symm
    · exact h.supervised.cleared before i x answer later' hcalls

/-- A read may always be made. -/
theorem Calm.read (h : Calm pins intent limits calls) (hc : ∀ i x answer, c ≠ .invoke i x answer) :
    Supervised pins intent limits (calls ++ [c]) :=
  h.supervised_snoc fun i x answer heq => absurd heq (hc i x answer)

theorem Calm.snoc (h : Calm pins intent limits calls)
    (hs : Supervised pins intent limits (calls ++ [c])) (hc : ¬c.Failed) :
    Calm pins intent limits (calls ++ [c]) := by
  refine ⟨hs, fun d hd => ?_⟩
  rcases List.mem_append.mp hd with hd | hd
  · exact h.succeeded d hd
  · rw [List.mem_singleton.mp hd]
    exact hc

end Record

/-! ## One turn -/

section Turn

variable {σ : Type} {host : ExecutionHost σ} {pins : List EdgePin} {intent : Intent}
  {limits : Limits} {slot : ℕ} {start : Balances} {first : Snapshot} {done : List Round}

/-- How the variables of the loop reflect the turns done. -/
structure Tracks (pins : List EdgePin) (intent : Intent) (start : Balances) (done : List Round)
    (st : Progress) : Prop where
  before_eq : st.before = balancesAfter start done
  remaining_eq : st.remaining + start.input = st.before.input + intent.amountIn
  used_iff : ∀ i, st.used.has i = true ↔ ∃ r ∈ done, r.edge = i
  resources_iff : ∀ x, st.usedResources &&& x = 0 ↔
    ∀ r ∈ done, (pinAt pins r.edge).writableResources &&& x = 0
  legs_eq : st.receipt.legs = done.length
  tape_spec : ∀ t, st.tape = some t → ∃ curves built L, t.Spec curves built L
  untraced : ∀ k : Fin maxLegs, done.length ≤ k.val → st.receipt.trace k = {}
  traced : ∀ k : Fin maxLegs, ∀ r, done[k.val]? = some r →
    (st.receipt.trace k).edge = r.edge.val ∧ (st.receipt.trace k).requested = r.request ∧
    (st.receipt.trace k).residual + ∑ j with j ≤ k, (st.receipt.trace j).spent = intent.amountIn
  spent_sum : st.before.input + ∑ k, (st.receipt.trace k).spent = start.input
  received_sum : start.output + ∑ k, (st.receipt.trace k).received = st.before.output

/-- The calls of the completed turns. -/
def doneCalls (slot : ℕ) (start : Balances) (first : Snapshot) (done : List Round) : List Call :=
  openingCalls slot start first ++ done.flatMap (Round.calls slot)

/-- The invariant of the loop. -/
structure Inv (pins : List EdgePin) (intent : Intent) (limits : Limits) (slot : ℕ)
    (start : Balances) (first : Snapshot) (done : List Round) (st : Progress) (w : World σ) :
    Prop where
  calls_eq : w.calls = doneCalls slot start first done
  calm : Calm pins intent limits w.calls
  accepted : Accepted pins intent limits slot start done
  tracks : Tracks pins intent start done st
  reflows_eq : st.receipt.reflows = done.length - 1

/-- What the scan knows about the venues it has admitted. -/
structure Scanned (pins : List EdgePin) (intent : Intent) (slot : ℕ) (st : Progress)
    (reads : List Snapshot) (scan : PinScan) : Prop where
  matched : ∀ i : Edge, i.val < reads.length →
    ¬Mismatched intent (pinAt pins i) (snapshotAt reads i)
  admitted : ∀ i : Edge, scan.eligible.has i = true → i.val < reads.length ∧
    scan.snapshots i = snapshotAt reads i ∧
    ¬Unavailable intent slot (pinAt pins i) (snapshotAt reads i) ∧
    st.used.has i = false ∧ st.usedResources &&& (snapshotAt reads i).writableResources = 0

/-- A venue read earlier stays as it was read. -/
theorem snapshotAt_snoc {reads : List Snapshot} {s : Snapshot} {i : Edge}
    (hi : i.val < reads.length) : snapshotAt (reads ++ [s]) i = snapshotAt reads i := by
  simp [snapshotAt, List.getElem?_append_left hi]

theorem snapshotAt_self {reads : List Snapshot} {s : Snapshot} {i : Edge}
    (hi : i.val = reads.length) : snapshotAt (reads ++ [s]) i = s := by
  simp [snapshotAt, hi]

/-- Reading one more venue. -/
theorem Scanned.skip {st : Progress} {reads : List Snapshot} {scan : PinScan} {i : Edge}
    {s : Snapshot} (h : Scanned pins intent slot st reads scan) (hi : i.val = reads.length)
    (hs : ¬Mismatched intent (pinAt pins i) s) :
    Scanned pins intent slot st (reads ++ [s]) scan := by
  constructor
  · intro j hj
    rw [List.length_append, List.length_singleton] at hj
    rcases Nat.lt_succ_iff_lt_or_eq.mp hj with hlt | heq
    · rw [snapshotAt_snoc hlt]
      exact h.matched j hlt
    · obtain rfl : i = j := Fin.ext (hi.trans heq.symm)
      rw [snapshotAt_self hi]
      exact hs
  · intro j hj
    obtain ⟨hlt, heq, hrest⟩ := h.admitted j hj
    rw [snapshotAt_snoc hlt, List.length_append]
    exact ⟨by omega, heq, hrest⟩

theorem Scanned.snoc {st : Progress} {reads : List Snapshot} {scan scan' : PinScan} {i : Edge}
    {s : Snapshot} (h : Scanned pins intent slot st reads scan) (hi : i.val = reads.length)
    (hs : ¬Mismatched intent (pinAt pins i) s) (hused : st.used.has i = false)
    (hres : st.usedResources &&& s.writableResources = 0)
    (havail : ¬Unavailable intent slot (pinAt pins i) s)
    (hsnap : scan'.snapshots = update scan.snapshots i s)
    (helig : scan'.eligible = scan.eligible ||| Mask.bit i) :
    Scanned pins intent slot st (reads ++ [s]) scan' := by
  have hskip := h.skip hi hs
  refine ⟨hskip.matched, fun j hj => ?_⟩
  rw [helig, Mask.has_or, Mask.has_bit, Bool.or_eq_true, decide_eq_true_eq] at hj
  by_cases hij : i = j
  · subst hij
    rw [hsnap, update_self, snapshotAt_self hi, List.length_append, List.length_singleton]
    exact ⟨by omega, rfl, havail, hused, hres⟩
  · have hold := hskip.admitted j (hj.resolve_right hij)
    rw [hsnap, update_of_ne (Ne.symm hij)]
    exact hold

/-- The venues in order of their index. -/
theorem map_venues {n : ℕ} (hn : n ≤ maxEdges) : (venues n).map Fin.val = List.range n := by
  have hall : ∀ n : Fin (maxEdges + 1), (venues n.val).map Fin.val = List.range n.val := by
    decide
  exact hall ⟨n, Nat.lt_succ_of_le hn⟩

theorem venues_drop_eq_cons {n k : ℕ} (hn : n ≤ maxEdges) {i : Edge} {as : List Edge}
    (h : i :: as = (venues n).drop k) : i.val = k ∧ k < n ∧ as = (venues n).drop (k + 1) := by
  have hmap : (i :: as).map Fin.val = (List.range n).drop k := by
    rw [h, List.map_drop, map_venues hn]
  have hk : k < n := by
    by_contra hge
    rw [List.drop_of_length_le (by rw [List.length_range]; omega)] at hmap
    cases hmap
  rw [List.drop_eq_getElem_cons (by rwa [List.length_range]), List.getElem_range] at hmap
  refine ⟨(List.cons.inj hmap).1, hk, ?_⟩
  rw [← List.drop_drop, ← h]
  rfl

/-- The calls of a turn that has read some venues. -/
def During (pins : List EdgePin) (intent : Intent) (limits : Limits) (base : List Call)
    (reads : List Snapshot) (w : World σ) : Prop :=
  w.calls = base ++ readCalls reads ∧ Calm pins intent limits w.calls

/-- Errors leave a supervised record. -/
abbrev Stopped (pins : List EdgePin) (intent : Intent) (limits : Limits) (_ : Error) (w : World σ) :
    Prop := Supervised pins intent limits w.calls

/-- Work leaves the record alone. -/
theorem work_calls {α : Type} (x : Metered α) {P : List Call → Prop}
    (hP : ∀ calls, P calls → Calm pins intent limits calls) :
    Triple (fun w : World σ => P w.calls) (work x)
      (fun a w => (∃ m m', x m = (.ok a, m')) ∧ P w.calls) (Stopped pins intent limits) :=
  work_triple (fun _ _ m hx hw => ⟨⟨_, m, hx⟩, hw⟩) (fun _ _ _ _ hw => (hP _ hw).supervised)

/-- Reading one venue. -/
theorem readPin_triple {st : Progress} {scan : PinScan} {base : List Call} {reads : List Snapshot}
    {i : Edge} (hi : i.val = reads.length) (hscan : Scanned pins intent slot st reads scan) :
    Triple (During pins intent limits base reads)
      (readPin host pins intent slot st.used st.usedResources scan i)
      (fun scan' w => ∃ s, Scanned pins intent slot st (reads ++ [s]) scan' ∧
        During pins intent limits base (reads ++ [s]) w) (Stopped (σ := σ) pins intent limits) := by
  unfold readPin
  refine (work_calls (charge 1) (P := fun calls => calls = base ++ readCalls reads ∧
    Calm pins intent limits calls) fun _ h => h.2).bind fun _ => ?_
  refine Triple.of_fact fun _ => ?_
  refine (readSnapshot_triple (Q := fun s => During pins intent limits base (reads ++ [s]))
    ?_ ?_).bind fun s => ?_
  · rintro w s s' ⟨hcalls, hcalm⟩
    refine ⟨?_, hcalm.snoc (hcalm.read (fun _ _ _ h => by cases h)) (by rintro ⟨_, ⟨⟩⟩)⟩
    rw [readCalls_snoc, ← List.append_assoc, ← hcalls, hi]
  · rintro w e s' ⟨-, hcalm⟩
    exact hcalm.read fun _ _ _ h => by cases h
  refine (Triple.lift (Q := fun _ w => ¬Mismatched intent (pinAt pins i) s ∧
      During pins intent limits base (reads ++ [s]) w) ?_ ?_).bind fun _ => ?_
  · intro _ hok w hw
    exact ⟨rejectIf_eq_ok.mp hok, hw⟩
  · intro e _ w hw
    exact hw.2.supervised
  refine Triple.of_fact fun hmatch => ?_
  split
  · exact Triple.pure fun w hw => ⟨s, hscan.skip hi hmatch, hw⟩
  rename_i hfresh
  rw [not_or, not_not, Bool.not_eq_true] at hfresh
  split
  · exact Triple.pure fun w hw => ⟨s, hscan.skip hi hmatch, hw⟩
  rename_i havail
  have hadmitted : ∀ scan' : PinScan, scan'.snapshots = update scan.snapshots i s →
      scan'.eligible = scan.eligible ||| Mask.bit i →
      Scanned pins intent slot st (reads ++ [s]) scan' := fun scan' =>
    hscan.snoc hi hmatch hfresh.1 hfresh.2 havail
  split
  · refine (work_calls (compile s intent.amountIn) (P := fun calls =>
      calls = base ++ readCalls (reads ++ [s]) ∧ Calm pins intent limits calls)
      fun _ h => h.2).bind fun curve => ?_
    exact Triple.pure fun w hw => ⟨s, hadmitted _ rfl rfl, hw.2⟩
  · exact Triple.pure fun w hw => ⟨s, hadmitted _ rfl rfl, hw⟩

/-- Reading all venues. -/
theorem readPins_triple {st : Progress} (base : List Call) (hpins : pins.length ≤ maxEdges) :
    Triple (During pins intent limits base []) (readPins host pins intent slot st)
      (fun scan w => ∃ reads, reads.length = pins.length ∧
        Scanned pins intent slot st reads scan ∧ During pins intent limits base reads w)
      (Stopped (σ := σ) pins intent limits) := by
  unfold readPins
  refine ((Triple.foldlM (I := fun as scan w => ∃ reads : List Snapshot,
    (as = (venues pins.length).drop reads.length ∧ reads.length ≤ pins.length ∧
      Scanned pins intent slot st reads scan) ∧ During pins intent limits base reads w)
    ?_ _ _).pre ?_).post ?_ fun _ _ h => h
  · intro i as scan
    refine Triple.of_exists fun reads => Triple.of_fact fun ⟨has, hle, hscan⟩ => ?_
    obtain ⟨hi, hlt, hrest⟩ := venues_drop_eq_cons hpins has
    refine (readPin_triple hi hscan).post ?_ fun _ _ h => h
    rintro scan' w ⟨s, hscan', hw⟩
    refine ⟨reads ++ [s], ⟨?_, ?_, hscan'⟩, hw⟩
    · rw [List.length_append, List.length_singleton]
      exact hrest
    · rw [List.length_append, List.length_singleton]
      omega
  · intro w hw
    refine ⟨[], ⟨rfl, Nat.zero_le _, ?_, ?_⟩, hw⟩
    · intro j hj
      cases hj
    · intro j hj
      rw [Mask.has_zero] at hj
      cases hj
  · rintro scan w ⟨reads, ⟨hnil, hle, hscan⟩, hw⟩
    refine ⟨reads, ?_, hscan, hw⟩
    have hlen := congrArg List.length (congrArg (List.map Fin.val) hnil)
    rw [List.map_drop, map_venues hpins, List.length_drop, List.length_range] at hlen
    simp only [List.map_nil, List.length_nil] at hlen
    omega

/-- A sum over the legs after one more is traced. -/
theorem sum_trace {trace : Fin maxLegs → LegTrace} {leg : LegTrace} {n : Fin maxLegs}
    (f : LegTrace → ℕ) (hf : f {} = 0) (hn : trace n = {}) (s : Finset (Fin maxLegs)) :
    ∑ k ∈ s, f (if k.val = n.val then leg else trace k)
      = ∑ k ∈ s, f (trace k) + if n ∈ s then f leg else 0 := by
  have hone : ∀ k, f (if k.val = n.val then leg else trace k)
      = f (trace k) + if n = k then f leg else 0 := by
    intro k
    by_cases hk : k.val = n.val
    · obtain rfl := Fin.ext hk
      rw [if_pos rfl, if_pos rfl, hn, hf, Nat.zero_add]
    · rw [if_neg hk, if_neg (fun h => hk (by rw [h])), Nat.add_zero]
  rw [Finset.sum_congr rfl fun k _ => hone k, Finset.sum_add_distrib, Finset.sum_ite_eq]

/-- The variables after an accepted leg reflect one more turn. -/
theorem Tracks.settled {st : Progress} (h : Tracks pins intent start done st)
    (hlegs : done.length < maxLegs) {scan : PinScan} {plan : Allocation} {r : Round}
    (hsettles : Settles intent start (balancesAfter start done) r.request r.after)
    (hres : (scan.snapshots r.edge).writableResources = (pinAt pins r.edge).writableResources) :
    Tracks pins intent start (done ++ [r])
      { st with
        before := r.after
        remaining := st.remaining - (st.before.input - r.after.input)
        used := st.used ||| Mask.bit r.edge
        usedResources := st.usedResources ||| (scan.snapshots r.edge).writableResources
        receipt := { st.receipt with
          legs := st.receipt.legs + 1
          trace := fun k => if k.val = st.receipt.legs then
            { edge := r.edge.val
              requested := r.request
              spent := st.before.input - r.after.input
              received := r.after.output - st.before.output
              residual := st.remaining - (st.before.input - r.after.input)
              eligibleMask := scan.eligible
              chosenMask := plan.mask } else st.receipt.trace k }
        snapshots := scan.snapshots
        curves := scan.curves } := by
  obtain ⟨hin, hout, -, hwithin, -⟩ := hsettles
  rw [← h.before_eq] at hin hout
  have hremaining := h.remaining_eq
  have hspent := h.spent_sum
  have hreceived := h.received_sum
  have hempty : st.receipt.trace ⟨done.length, hlegs⟩ = {} := h.untraced _ le_rfl
  constructor
  · simp
  · show st.remaining - (st.before.input - r.after.input) + start.input
      = r.after.input + intent.amountIn
    omega
  · intro i
    rw [Mask.has_or, Mask.has_bit, Bool.or_eq_true, h.used_iff, decide_eq_true_eq]
    simp only [List.mem_append, List.mem_singleton]
    constructor
    · rintro (⟨r', hr', hi⟩ | hi)
      · exact ⟨r', Or.inl hr', hi⟩
      · exact ⟨r, Or.inr rfl, hi⟩
    · rintro ⟨r', hr' | rfl, hi⟩
      · exact Or.inl ⟨r', hr', hi⟩
      · exact Or.inr hi
  · intro x
    show (st.usedResources ||| (scan.snapshots r.edge).writableResources) &&& x = 0 ↔ _
    rw [Nat.and_or_distrib_right, Nat.or_eq_zero_iff, h.resources_iff, hres]
    constructor
    · rintro ⟨hold, hnew⟩ r' hr'
      rcases List.mem_append.mp hr' with hr' | hr'
      · exact hold r' hr'
      · rw [List.mem_singleton.mp hr']
        exact hnew
    · intro hall
      exact ⟨fun r' hr' => hall r' (List.mem_append_left _ hr'), hall r (by simp)⟩
  · show st.receipt.legs + 1 = (done ++ [r]).length
    rw [h.legs_eq, List.length_append, List.length_singleton]
  · exact h.tape_spec
  · intro k hk
    rw [List.length_append, List.length_singleton] at hk
    show (if k.val = st.receipt.legs then _ else _) = _
    rw [if_neg (by rw [h.legs_eq]; omega)]
    exact h.untraced k (by omega)
  · intro k r' hr'
    dsimp only
    rw [h.legs_eq, sum_trace (n := ⟨done.length, hlegs⟩) LegTrace.spent rfl hempty]
    rcases Nat.lt_trichotomy k.val done.length with hlt | heq | hgt
    · -- an earlier leg
      rw [List.getElem?_append_left hlt] at hr'
      rw [if_neg hlt.ne, if_neg fun hmem => by
        rw [Finset.mem_filter] at hmem
        exact absurd hmem.2 (by simpa [Fin.le_def] using hlt), Nat.add_zero]
      exact h.traced k r' hr'
    · -- the new leg
      rw [heq, List.getElem?_append_right le_rfl, Nat.sub_self] at hr'
      cases hr'
      have hall : ∑ j with j ≤ k, (st.receipt.trace j).spent
          = ∑ j, (st.receipt.trace j).spent := by
        apply Finset.sum_subset (Finset.filter_subset _ _)
        intro j _ hj
        rw [Finset.mem_filter, not_and] at hj
        have hlater : done.length ≤ j.val := by
          have hgt : k < j := not_le.mp (hj (Finset.mem_univ j))
          rw [Fin.lt_def] at hgt
          omega
        rw [h.untraced j hlater]
      rw [if_pos heq, if_pos (by simp [Fin.le_def, heq]), hall]
      refine ⟨rfl, rfl, ?_⟩
      show st.remaining - (st.before.input - r.after.input)
        + (∑ j, (st.receipt.trace j).spent + (st.before.input - r.after.input)) = intent.amountIn
      omega
    · rw [List.getElem?_eq_none (by rw [List.length_append, List.length_singleton]; omega)] at hr'
      cases hr'
  · dsimp only
    rw [h.legs_eq, sum_trace (n := ⟨done.length, hlegs⟩) LegTrace.spent rfl hempty,
      if_pos (Finset.mem_univ _)]
    dsimp only
    omega
  · dsimp only
    rw [h.legs_eq, sum_trace (n := ⟨done.length, hlegs⟩) LegTrace.received rfl hempty,
      if_pos (Finset.mem_univ _)]
    dsimp only
    omega

/-- The calls of the completed turns and of the current one. -/
theorem doneCalls_snoc (r : Round) : doneCalls slot start first (done ++ [r])
    = doneCalls slot start first done ++ r.calls slot := by
  simp [doneCalls]

/-- A chosen edge is planned and pinned. -/
theorem mem_imminent {n : ℕ} {snapshots : Edge → Snapshot} {inputs : Edge → ℕ} {edge : Edge}
    (h : imminent n snapshots inputs = some edge) : edge.val < n ∧ 0 < inputs edge := by
  have hmem := List.mem_filter.mp (List.argmin_mem h)
  exact ⟨mem_venues.mp hmem.1, of_decide_eq_true hmem.2⟩

/-- Invoking a cleared venue and checking the balances. -/
theorem settle_triple {st : Progress} {scan : PinScan} {plan : Allocation} {edge : Edge}
    {reads : List Snapshot} (hopen : Opened pins intent limits slot start)
    (haccepted : Accepted pins intent limits slot start done)
    (htracks : Tracks pins intent start done st) (hreflows : st.receipt.reflows = done.length)
    (hscan : Scanned pins intent slot st reads scan) (heligible : scan.eligible.has edge = true)
    (hcleared : Cleared pins intent limits slot start done reads edge (plan.inputs edge)) :
    Triple (During pins intent limits (doneCalls slot start first done ++ [.slot slot]) reads)
      (settle host st scan plan edge)
      (fun st' w => ∃ r, Inv pins intent limits slot start first (done ++ [r]) st' w)
      (Stopped (σ := σ) pins intent limits) := by
  let base := doneCalls slot start first done ++ [.slot slot]
  unfold settle
  refine (work_calls (charge 1) (P := fun calls => calls = base ++ readCalls reads ∧
    Calm pins intent limits calls) fun _ h => h.2).bind fun _ => ?_
  refine Triple.of_fact fun _ => ?_
  -- the record so far clears the invocation, whatever the host answers
  have hinvoke : ∀ (w : World σ) answer, w.calls = base ++ readCalls reads →
      Calm pins intent limits w.calls → Supervised pins intent limits
        (w.calls ++ [.invoke edge.val (plan.inputs edge) answer]) := by
    intro w answer hcalls hcalm
    refine hcalm.supervised_snoc fun i x answer' heq => ?_
    cases heq
    exact ⟨slot, start, first, done, reads, edge, rfl, hopen, haccepted, hcleared, by
      rw [hcalls]; simp [base, doneCalls]⟩
  let invoked : List Call := base ++ readCalls reads ++
    [.invoke edge.val (plan.inputs edge) (.ok ())]
  refine (invoke_triple (Q := fun _ w => w.calls = invoked ∧ Calm pins intent limits w.calls)
    ?_ ?_).bind fun _ => ?_
  · rintro w s ⟨hcalls, hcalm⟩
    exact ⟨by rw [hcalls], hcalm.snoc (hinvoke w _ hcalls hcalm) (by rintro ⟨_, ⟨⟩⟩)⟩
  · rintro w e s ⟨hcalls, hcalm⟩
    exact hinvoke w _ hcalls hcalm
  refine (readBalances_triple (Q := fun after w => w.calls = invoked ++ [.balances (.ok after)] ∧
    Calm pins intent limits w.calls) ?_ ?_).bind fun after => ?_
  · rintro w after s ⟨hcalls, hcalm⟩
    exact ⟨by rw [hcalls],
      hcalm.snoc (hcalm.read fun _ _ _ h => by cases h) (by rintro ⟨_, ⟨⟩⟩)⟩
  · rintro w e s ⟨-, hcalm⟩
    exact hcalm.read fun _ _ _ h => by cases h
  refine (Triple.lift (Q := fun spent w => (after.input ≤ st.before.input ∧
      spent = st.before.input - after.input) ∧ w.calls = invoked ++ [.balances (.ok after)] ∧
      Calm pins intent limits w.calls) ?_ fun _ _ _ hw => hw.2.supervised).bind fun spent => ?_
  · intro spent hspent w hw
    split at hspent
    · cases hspent
      exact ⟨⟨by assumption, rfl⟩, hw⟩
    · cases hspent
  refine Triple.of_fact fun ⟨hin, hspent⟩ => ?_
  refine (Triple.lift (Q := fun received w => (st.before.output ≤ after.output ∧
      received = after.output - st.before.output) ∧
      w.calls = invoked ++ [.balances (.ok after)] ∧ Calm pins intent limits w.calls) ?_
      fun _ _ _ hw => hw.2.supervised).bind fun received => ?_
  · intro received hreceived w hw
    split at hreceived
    · cases hreceived
      exact ⟨⟨by assumption, rfl⟩, hw⟩
    · cases hreceived
  refine Triple.of_fact fun ⟨hout, hreceived⟩ => ?_
  refine (Triple.lift (Q := fun _ w => ¬(plan.inputs edge < spent ∨ st.remaining < spent ∨
      (spent = 0 ∧ received ≠ 0) ∨ (0 < spent ∧ received = 0)) ∧
      w.calls = invoked ++ [.balances (.ok after)] ∧ Calm pins intent limits w.calls) ?_
      fun _ _ _ hw => hw.2.supervised).bind fun _ => ?_
  · intro _ hok w hw
    exact ⟨rejectIf_eq_ok.mp hok, hw⟩
  refine Triple.of_fact fun hchecks => Triple.pure fun w hw => ?_
  obtain ⟨hcalls, hcalm⟩ := hw
  subst hspent hreceived
  have hbefore := htracks.before_eq
  have hremaining := htracks.remaining_eq
  let r : Round := { reads := reads, edge := edge, request := plan.inputs edge, after := after }
  have hsettles : Settles intent start (balancesAfter start done) r.request r.after := by
    rw [← hbefore]
    refine ⟨hin, hout, ?_, ?_, ?_⟩
    · show st.before.input ≤ after.input + plan.inputs edge
      omega
    · show start.input ≤ after.input + intent.amountIn
      omega
    · show st.before.input = after.input ↔ st.before.output = after.output
      omega
  have hadmitted := hscan.admitted edge heligible
  have hres : (scan.snapshots r.edge).writableResources = (pinAt pins r.edge).writableResources := by
    show (scan.snapshots edge).writableResources = (pinAt pins edge).writableResources
    rw [hadmitted.2.1]
    have hmatch := hcleared.matched edge hcleared.edge_lt
    unfold Mismatched at hmatch
    simp only [not_or, not_not] at hmatch
    exact hmatch.2.2.2.2.2
  refine ⟨r, ?_, hcalm, haccepted.snoc hcleared hsettles, htracks.settled ?_ hsettles hres, ?_⟩
  · rw [hcalls, doneCalls_snoc]
    simp [invoked, base, Round.calls, r]
  · have := hcleared.legs_lt
    have := hopen.legs_le
    omega
  · show st.receipt.reflows = (done ++ [r]).length - 1
    rw [List.length_append, List.length_singleton, Nat.add_sub_cancel, hreflows]

/-- The counters of a turn that may start. -/
theorem countRound_eq_ok {receipt receipt' : Receipt} (h : countRound limits receipt = .ok receipt')
    {n : ℕ} (hlegs : receipt.legs = n) (hreflows : receipt.reflows = n - 1) :
    n < limits.maxLegs ∧ n ≤ limits.maxReflows ∧ receipt' = { receipt with reflows := n } := by
  unfold countRound at h
  rw [bind_eq_ok] at h
  obtain ⟨_, hbound, h⟩ := h
  rw [rejectIf_eq_ok, hlegs, not_le] at hbound
  split at h
  · rename_i hpos
    rw [bind_eq_ok] at h
    obtain ⟨_, hreflow, h⟩ := h
    rw [rejectIf_eq_ok, hreflows, not_le] at hreflow
    cases h
    rw [hreflows]
    refine ⟨hbound, by omega, ?_⟩
    rw [Nat.sub_add_cancel (by omega)]
  · rename_i hzero
    cases h
    obtain rfl : n = 0 := by omega
    refine ⟨hbound, Nat.zero_le _, ?_⟩
    rw [Nat.zero_sub] at hreflows
    rw [← hreflows]

/-- Rebuilding the tape: the cached one or the tape of a merged book. -/
theorem refreshTape_triple {scan : PinScan} {tape : Option ResidualTape} {builds : ℕ}
    (htape : ∀ t, tape = some t → ∃ curves built L, t.Spec curves built L) {base : List Call}
    {reads : List Snapshot} :
    Triple (During pins intent limits base reads) (refreshTape pins scan tape builds)
      (fun result w => (∀ t, result.1 = some t → ∃ curves built L, t.Spec curves built L) ∧
        During pins intent limits base reads w) (Stopped (σ := σ) pins intent limits) := by
  unfold refreshTape
  split
  · refine (work_calls _ (P := fun calls => calls = base ++ readCalls reads ∧
      Calm pins intent limits calls) fun _ h => h.2).bind fun t => ?_
    refine Triple.of_fact fun ⟨m, m', hbuild⟩ => Triple.pure fun w hw => ⟨?_, hw⟩
    rintro t' ⟨⟩
    obtain ⟨L, hspec⟩ := build_spec hbuild
    exact ⟨_, _, L, hspec⟩
  · exact Triple.pure fun w hw => ⟨htape, hw⟩

/-- A turn that is ready to execute a leg. -/
structure Planned (pins : List EdgePin) (intent : Intent) (limits : Limits) (slot : ℕ)
    (start : Balances) (done : List Round) (reads : List Snapshot) (st : Progress)
    (scan : PinScan) (plan : Allocation) : Prop where
  accepted : Accepted pins intent limits slot start done
  tracks : Tracks pins intent start done st
  reflows_eq : st.receipt.reflows = done.length
  reflows_le : done.length ≤ limits.maxReflows
  legs_lt : done.length < limits.maxLegs
  length_eq : reads.length = pins.length
  scanned : Scanned pins intent slot st reads scan
  eligible : ∀ i, 0 < plan.inputs i → scan.eligible.has i = true

/-- Planning a turn. -/
theorem planTurn_triple {st : Progress} (hopen : Opened pins intent limits slot start) :
    Triple (Inv pins intent limits slot start first done st)
      (planTurn host pins intent limits slot st)
      (fun result w => ∃ reads,
        Planned pins intent limits slot start done reads result.1 result.2.1 result.2.2 ∧
        result.1.remaining = st.remaining ∧
        During pins intent limits (doneCalls slot start first done ++ [.slot slot]) reads w)
      (Stopped (σ := σ) pins intent limits) := by
  refine (Triple.of_fact (p := Accepted pins intent limits slot start done ∧
    Tracks pins intent start done st ∧ st.receipt.reflows = done.length - 1)
    (P := fun w => w.calls = doneCalls slot start first done ∧ Calm pins intent limits w.calls)
    fun ⟨haccepted, htracks, hreflows⟩ => ?_).pre fun w hw =>
      ⟨⟨hw.accepted, hw.tracks, hw.reflows_eq⟩, hw.calls_eq, hw.calm⟩
  unfold planTurn
  -- the counters
  refine (Triple.lift (Q := fun receipt w => countRound limits st.receipt = .ok receipt ∧
      w.calls = doneCalls slot start first done ∧ Calm pins intent limits w.calls)
    (fun receipt hok w hw => ⟨hok, hw⟩) fun _ _ _ hw => hw.2.supervised).bind fun receipt => ?_
  refine Triple.of_fact fun hcount => ?_
  obtain ⟨hlegs, hreflowsLe, rfl⟩ := countRound_eq_ok hcount htracks.legs_eq hreflows
  -- the slot
  refine (ask_triple (Q := fun current w =>
      w.calls = doneCalls slot start first done ++ [.slot current] ∧
      Calm pins intent limits w.calls) ?_).bind fun current => ?_
  · rintro w current s ⟨hcalls, hcalm⟩
    exact ⟨by rw [hcalls], hcalm.snoc (hcalm.read fun _ _ _ h => by cases h) id⟩
  refine (Triple.lift (Q := fun _ w => current = slot ∧
      w.calls = doneCalls slot start first done ++ [.slot current] ∧
      Calm pins intent limits w.calls)
    (fun _ hok w hw => ⟨not_not.mp (rejectIf_eq_ok.mp hok), hw⟩)
    fun _ _ _ hw => hw.2.supervised).bind fun _ => ?_
  refine Triple.of_fact ?_
  rintro rfl
  -- the venues
  refine ((readPins_triple (doneCalls current start first done ++ [.slot current])
    hopen.pins_le).pre fun w hw => ?_).bind fun scan => ?_
  · exact ⟨by rw [readCalls_nil, List.append_nil]; exact hw.1, hw.2⟩
  refine Triple.of_exists fun reads => ?_
  refine (Triple.of_fact (p := reads.length = pins.length ∧
    Scanned pins intent current st reads scan) (P := During pins intent limits
      (doneCalls current start first done ++ [.slot current]) reads)
    fun ⟨hlength, hscan⟩ => ?_).pre fun w hw => ⟨⟨hw.1, hw.2.1⟩, hw.2.2⟩
  refine (Triple.lift (Q := fun _ w => During pins intent limits
      (doneCalls current start first done ++ [.slot current]) reads w)
    (fun _ _ w hw => hw) fun _ _ _ hw => hw.2.supervised).bind fun _ => ?_
  -- the tape and the plan
  refine (refreshTape_triple htracks.tape_spec).bind fun result => ?_
  refine Triple.of_fact fun htape => ?_
  obtain ⟨tape, builds⟩ := result
  dsimp only at htape ⊢
  cases tape with
  | none => exact Triple.fail fun w hw => hw.2.supervised
  | some t =>
    obtain ⟨curves, built, L, hspec⟩ := htape t rfl
    refine (work_calls _ (P := fun calls => calls = doneCalls current start first done ++
      [.slot current] ++ readCalls reads ∧ Calm pins intent limits calls)
      fun _ h => h.2).bind fun report => ?_
    refine Triple.of_fact fun ⟨m, m', hsearch⟩ => ?_
    refine Triple.pure fun w hw => ⟨reads, ?_, rfl, hw⟩
    -- the receipt changes in its counters and its initial report only
    have hkeep : ∀ receipt : Receipt, receipt.legs = done.length →
        receipt.trace = st.receipt.trace →
        Tracks pins intent start done { st with receipt := receipt, tape := some t } := by
      intro receipt hlen htrace
      refine ⟨htracks.before_eq, htracks.remaining_eq, htracks.used_iff, htracks.resources_iff,
        hlen, ?_, ?_, ?_, ?_, ?_⟩
      · rintro t' ⟨⟩
        exact ⟨_, _, _, hspec⟩
      · rw [htrace]
        exact htracks.untraced
      · rw [htrace]
        exact htracks.traced
      · rw [htrace]
        exact htracks.spent_sum
      · rw [htrace]
        exact htracks.received_sum
    refine ⟨haccepted, hkeep _ ?_ ?_, ?_, hreflowsLe, hlegs, hlength,
      ⟨hscan.matched, hscan.admitted⟩, fun i hi => searchTape_supported hspec hsearch hi⟩
    · split
      · exact htracks.legs_eq
      · exact htracks.legs_eq
    · split
      · rfl
      · rfl
    · show (if _ then _ else _ : Receipt).reflows = done.length
      split
      · rfl
      · rfl

/-- Executing a planned leg. -/
theorem executeLeg_triple {st : Progress} {scan : PinScan} {plan : Allocation}
    {reads : List Snapshot} (hopen : Opened pins intent limits slot start)
    (hplanned : Planned pins intent limits slot start done reads st scan plan)
    (hremaining : st.remaining ≠ 0) :
    Triple (During pins intent limits (doneCalls slot start first done ++ [.slot slot]) reads)
      (executeLeg host pins st scan plan)
      (fun st' w => ∃ r, Inv pins intent limits slot start first (done ++ [r]) st' w)
      (Stopped (σ := σ) pins intent limits) := by
  obtain ⟨haccepted, htracks, hreflows, hreflowsLe, hlegs, hlength, hscan, heligible⟩ := hplanned
  unfold executeLeg
  cases himminent : imminent pins.length scan.snapshots plan.inputs with
  | none => exact Triple.fail fun w hw => hw.2.supervised
  | some edge =>
    obtain ⟨hedge, hrequest⟩ := mem_imminent himminent
    obtain ⟨-, -, havailable, hused, hresources⟩ := hscan.admitted edge (heligible edge hrequest)
    have hmatched : ∀ i : Edge, i.val < pins.length →
        ¬Mismatched intent (pinAt pins i) (snapshotAt reads i) := by
      intro i hi
      exact hscan.matched i (by omega)
    have hpinned : (snapshotAt reads edge).writableResources
        = (pinAt pins edge).writableResources := by
      have hmatch := hmatched edge hedge
      unfold Mismatched at hmatch
      simp only [not_or, not_not] at hmatch
      exact hmatch.2.2.2.2.2
    have hcleared : Cleared pins intent limits slot start done reads edge (plan.inputs edge) := by
      refine ⟨hlegs, hreflowsLe, ?_, hlength, hmatched, hedge, havailable, ?_, hrequest⟩
      · have := htracks.remaining_eq
        rw [← htracks.before_eq]
        omega
      · intro r hr
        constructor
        · rintro rfl
          rw [(htracks.used_iff r.edge).mpr ⟨r, hr, rfl⟩] at hused
          cases hused
        · rw [hpinned] at hresources
          exact (htracks.resources_iff _).mp hresources r hr
    exact settle_triple hopen haccepted htracks hreflows hscan (heligible edge hrequest) hcleared

/-- One turn of the loop. -/
theorem round_triple {st : Progress} (hopen : Opened pins intent limits slot start)
    (hremaining : st.remaining ≠ 0) :
    Triple (Inv pins intent limits slot start first done st)
      (round host pins intent limits slot st)
      (fun st' w => ∃ r, Inv pins intent limits slot start first (done ++ [r]) st' w)
      (Stopped (σ := σ) pins intent limits) := by
  unfold round
  refine (planTurn_triple hopen).bind fun result => ?_
  refine Triple.of_exists fun reads => Triple.of_fact fun hplanned => Triple.of_fact fun hkeep => ?_
  exact executeLeg_triple hopen hplanned (by rw [hkeep]; exact hremaining)

variable (first done) in
/-- The loop. -/
theorem rounds_triple (hopen : Opened pins intent limits slot start) (k : ℕ) {st : Progress}
    (hremaining : st.remaining ≠ 0) :
    Triple (Inv pins intent limits slot start first done st)
      (rounds host pins intent limits slot k st)
      (fun st' w => ∃ done', Inv pins intent limits slot start first done' st' w ∧
        st'.remaining = 0 ∧ done' ≠ []) (Stopped (σ := σ) pins intent limits) := by
  induction k generalizing st done with
  | zero => exact Triple.fail fun w hw => hw.calm.supervised
  | succ k ih =>
    refine (round_triple hopen hremaining).bind fun st' => ?_
    refine Triple.of_exists fun r => ?_
    split
    · rename_i hzero
      exact Triple.pure fun w hw => ⟨done ++ [r], hw, hzero, by simp⟩
    · rename_i hmore
      exact ih (done ++ [r]) hmore

end Turn

/-! ## Whole executions -/

section Whole

variable {pins : List EdgePin} {intent : Intent} {limits : Limits} {slot : ℕ} {start : Balances}
  {done : List Round}

/-- Accepted turns invoke different venues with disjoint resources, each checked when chosen. -/
theorem Accepted.summary (h : Accepted pins intent limits slot start done) :
    (done.map Round.edge).Nodup ∧
    (done.Pairwise fun r r' =>
      (pinAt pins r.edge).writableResources &&& (pinAt pins r'.edge).writableResources = 0) ∧
    (∀ r ∈ done, r.edge.val < pins.length ∧
      ¬Mismatched intent (pinAt pins r.edge) (snapshotAt r.reads r.edge) ∧
      ¬Unavailable intent slot (pinAt pins r.edge) (snapshotAt r.reads r.edge)) ∧
    (done ≠ [] → done.length ≤ limits.maxLegs ∧ done.length ≤ limits.maxReflows + 1) := by
  induction h with
  | nil => simp
  | snoc prev cleared settles ih =>
    rename_i done r
    obtain ⟨hnodup, hpair, hpassed, -⟩ := ih
    refine ⟨?_, ?_, ?_, fun _ => ?_⟩
    · rw [List.map_append, List.nodup_append]
      refine ⟨hnodup, by simp, ?_⟩
      intro e he e' he' heq
      obtain ⟨r', hr', rfl⟩ := List.mem_map.mp he
      rw [List.map_singleton, List.mem_singleton] at he'
      exact (cleared.fresh r' hr').1 (heq.trans he')
    · rw [List.pairwise_append]
      refine ⟨hpair, by simp, fun r' hr' r'' hr'' => ?_⟩
      rw [List.mem_singleton.mp hr'']
      exact (cleared.fresh r' hr').2
    · intro r' hr'
      rcases List.mem_append.mp hr' with hr' | hr'
      · exact hpassed r' hr'
      · rw [List.mem_singleton.mp hr']
        exact ⟨cleared.edge_lt, cleared.matched _ cleared.edge_lt, cleared.available⟩
    · rw [List.length_append, List.length_singleton]
      have := cleared.legs_lt
      have := cleared.reflows_le
      omega

/-- The checks after the loop. -/
theorem finish_triple {σ : Type} {first : Snapshot} {st : Progress}
    (hdone : done ≠ []) :
    Triple (Inv pins intent limits slot start first done st) (finish intent start st)
      (fun receipt (w : World σ) => Supervised pins intent limits w.calls ∧
        Accepted pins intent limits slot start done ∧
        w.calls = doneCalls slot start first done ∧
        Settled pins intent limits slot start done receipt) (Stopped pins intent limits) := by
  unfold finish
  refine (Triple.lift (Q := fun spent w => (st.before.input ≤ start.input ∧
      spent = start.input - st.before.input) ∧
      Inv pins intent limits slot start first done st w) ?_
    fun _ _ _ hw => hw.calm.supervised).bind fun spent => ?_
  · intro spent hspent w hw
    split at hspent
    · cases hspent
      exact ⟨⟨by assumption, rfl⟩, hw⟩
    · cases hspent
  refine Triple.of_fact fun ⟨hin, hspent⟩ => ?_
  refine (Triple.lift (Q := fun received w => (start.output ≤ st.before.output ∧
      received = st.before.output - start.output) ∧
      Inv pins intent limits slot start first done st w) ?_
    fun _ _ _ hw => hw.calm.supervised).bind fun received => ?_
  · intro received hreceived w hw
    split at hreceived
    · cases hreceived
      exact ⟨⟨by assumption, rfl⟩, hw⟩
    · cases hreceived
  refine Triple.of_fact fun ⟨hout, hreceived⟩ => ?_
  refine (Triple.lift (Q := fun _ w => spent = intent.amountIn ∧
      Inv pins intent limits slot start first done st w)
    (fun _ hok w hw => ⟨not_not.mp (rejectIf_eq_ok.mp hok), hw⟩)
    fun _ _ _ hw => hw.calm.supervised).bind fun _ => ?_
  refine Triple.of_fact fun hamount => ?_
  refine (Triple.lift (Q := fun _ w => ¬received < intent.minOut ∧
      Inv pins intent limits slot start first done st w)
    (fun _ hok w hw => ⟨rejectIf_eq_ok.mp hok, hw⟩)
    fun _ _ _ hw => hw.calm.supervised).bind fun _ => ?_
  refine Triple.of_fact fun hmin => ?_
  intro w hw
  obtain ⟨hcalls, hcalm, haccepted, htracks, -⟩ := hw
  obtain ⟨hnodup, hpair, hpassed, hle⟩ := haccepted.summary
  have hbefore := htracks.before_eq
  have hspentSum := htracks.spent_sum
  have hreceivedSum := htracks.received_sum
  subst hspent hreceived
  refine ⟨hcalm.supervised, haccepted, hcalls, ?_, ?_, htracks.legs_eq, ?_, hnodup, hpair, hpassed, hamount,
    ?_, htracks.traced, ?_, ?_⟩
  · rw [← hbefore]
    omega
  · rw [← hbefore]
    omega
  · show st.receipt.legs ≤ _ ∧ st.receipt.legs ≤ _
    rw [htracks.legs_eq]
    exact hle hdone
  · rw [← hbefore]
    show start.output + (st.before.output - start.output) = st.before.output
    omega
  · show ∑ k, (st.receipt.trace k).spent = intent.amountIn
    omega
  · show ∑ k, (st.receipt.trace k).received = st.before.output - start.output
    omega

/-- The checks before the loop. -/
theorem opening_triple {σ : Type} (host : ExecutionHost σ) :
    Triple (fun w : World σ => w.calls = []) (opening host pins intent limits)
      (fun result w => ∃ first, Opened pins intent limits result.1 result.2.1 ∧
        result.2.2.remaining ≠ 0 ∧
        Inv pins intent limits result.1 result.2.1 first [] result.2.2 w)
      (Stopped pins intent limits) := by
  let Only (calls : List Call) (w : World σ) : Prop :=
    w.calls = calls ∧ Calm pins intent limits w.calls
  -- a failed check leaves the record as it is
  have hcheck : ∀ (bad : Prop) [Decidable bad] (e : Error) (calls : List Call),
      Triple (Only calls) (lift (rejectIf bad e)) (fun _ w => ¬bad ∧ Only calls w)
        (Stopped pins intent limits) := by
    intro bad _ e calls
    exact Triple.lift (fun _ hok w hw => ⟨rejectIf_eq_ok.mp hok, hw⟩)
      fun _ _ _ hw => hw.2.supervised
  unfold opening
  refine Triple.pre (P := Only []) ?_ fun w hw => ⟨hw, by rw [hw]; exact calm_nil⟩
  refine (hcheck _ _ _).bind fun _ => Triple.of_fact fun hbounds => ?_
  refine (hcheck _ _ _).bind fun _ => Triple.of_fact fun hamount => ?_
  refine (hcheck _ _ _).bind fun _ => Triple.of_fact fun hunaliased => ?_
  refine (ask_triple (Q := fun slot w => Only [.slot slot] w) ?_).bind fun slot => ?_
  · rintro w slot s ⟨hcalls, hcalm⟩
    exact ⟨by rw [hcalls]; rfl, hcalm.snoc (hcalm.read fun _ _ _ h => by cases h) id⟩
  refine (hcheck _ _ _).bind fun _ => Triple.of_fact fun hunexpired => ?_
  refine (readBalances_triple (Q := fun start w => Only [.slot slot, .balances (.ok start)] w)
    ?_ ?_).bind fun start => ?_
  · rintro w start s ⟨hcalls, hcalm⟩
    exact ⟨by rw [hcalls]; rfl,
      hcalm.snoc (hcalm.read fun _ _ _ h => by cases h) (by rintro ⟨_, ⟨⟩⟩)⟩
  · rintro w e s ⟨-, hcalm⟩
    exact hcalm.read fun _ _ _ h => by cases h
  refine (hcheck _ _ _).bind fun _ => Triple.of_fact fun hfunded => ?_
  refine Triple.bind (Q := fun _ w => Only [.slot slot, .balances (.ok start)] w)
    (fun w hw => hw) fun _ => ?_
  refine (readSnapshot_triple (Q := fun first w => Only (openingCalls slot start first) w)
    ?_ ?_).bind fun first => ?_
  · rintro w first s ⟨hcalls, hcalm⟩
    exact ⟨by rw [hcalls]; rfl,
      hcalm.snoc (hcalm.read fun _ _ _ h => by cases h) (by rintro ⟨_, ⟨⟩⟩)⟩
  · rintro w e s ⟨-, hcalm⟩
    exact hcalm.read fun _ _ _ h => by cases h
  have hopen : Opened pins intent limits slot start := by
    simp only [not_or] at hbounds hamount
    exact ⟨by omega, by omega, by omega, by omega, by omega, by omega, by omega, hamount.2.2,
      hunaliased, by omega, by omega⟩
  refine Triple.pure fun w hw => ⟨first, hopen, hopen.amount_pos.ne', ?_⟩
  refine ⟨by rw [hw.1]; simp [doneCalls], hw.2, Accepted.nil, ?_, rfl⟩
  refine ⟨rfl, Nat.add_comm _ _, fun i => ?_, fun x => ?_, rfl, ?_, fun _ _ => rfl, ?_, ?_, ?_⟩
  · simpa using Mask.has_zero i
  · simp
  · rintro t ⟨⟩
  · intro k r hr
    simp at hr
  · simp
  · simp

variable (pins intent limits) in
/-- Executing against any host. -/
theorem execute_triple {σ : Type} (host : ExecutionHost σ) :
    Triple (fun w : World σ => w.calls = []) (execute host pins intent limits)
      (fun receipt w => Supervised pins intent limits w.calls ∧ ∃ slot start first done,
        Opened pins intent limits slot start ∧ Accepted pins intent limits slot start done ∧
        w.calls = doneCalls slot start first done ∧
        Settled pins intent limits slot start done receipt) (Stopped pins intent limits) := by
  unfold execute
  refine (opening_triple host).bind fun result => ?_
  obtain ⟨slot, start, st⟩ := result
  refine Triple.of_exists fun first => Triple.of_fact fun hopen => Triple.of_fact fun hremaining => ?_
  refine (rounds_triple first [] hopen (maxLegs + 1) hremaining).bind fun st => ?_
  refine Triple.of_exists fun done => ?_
  refine (Triple.of_fact (p := done ≠ []) (P := Inv pins intent limits slot start first done st)
    fun hdone => ?_).pre fun w hw => ⟨hw.2.2, hw.1⟩
  refine (finish_triple hdone).post ?_ fun _ _ h => h
  rintro receipt w ⟨hsupervised, haccepted, hcalls, hsettled⟩
  exact ⟨hsupervised, slot, start, first, done, hopen, haccepted, hcalls, hsettled⟩

/-- Safety against any host: every invocation is cleared by the calls before it, nothing is called
after a failure, and an execution that returns is a sequence of accepted turns that spends the
amount and receives the minimum. -/
theorem execute_safe {σ : Type} (host : ExecutionHost σ) (pins : List EdgePin) (intent : Intent)
    (limits : Limits) (s : σ) :
    Supervised pins intent limits (execute host pins intent limits (World.start s)).2.calls ∧
    ∀ receipt w, execute host pins intent limits (World.start s) = (.ok receipt, w) →
      ∃ slot start first done,
        Opened pins intent limits slot start ∧ Accepted pins intent limits slot start done ∧
        w.calls = openingCalls slot start first ++ done.flatMap (Round.calls slot) ∧
        Settled pins intent limits slot start done receipt := by
  have htriple := execute_triple pins intent limits host
  constructor
  · rcases hrun : execute host pins intent limits (World.start s) with ⟨e | receipt, w⟩
    · exact htriple.error rfl hrun
    · exact (htriple.ok rfl hrun).1
  · intro receipt w hrun
    exact (htriple.ok rfl hrun).2

end Whole

/-- A host offering the two sample books to an account of a hundred atoms. -/
def sampleHost : FixtureHost :=
  { venues := fun i => if i = 0 then sampleBook 3 1 scale else sampleBook 4 2 scale
    len := 2
    balances := { input := 100, output := 0 }
    slot := 0
    settlementCaps := fun _ => u64Size - 1
    fatal := 0
    calls := 0 }

/-- The pins of the sample books. -/
def samplePins : List EdgePin := sampleBooks.map Snapshot.pin

/-- Fifteen atoms, more than one sample book holds. -/
def sampleIntent : Intent :=
  { inputMint := .replicate 32 1
    outputMint := .replicate 32 2
    amountIn := 15
    minOut := 15
    expiresAtSlot := 0
    maxSnapshotAge := 0 }

/-- Executing over the sample books settles two turns. -/
theorem execute_safe_sample : ∃ receipt w,
    execute fixtureHost samplePins sampleIntent {} (World.start sampleHost) = (.ok receipt, w) ∧
      ∃ slot start first done,
        Opened samplePins sampleIntent {} slot start ∧
        Accepted samplePins sampleIntent {} slot start done ∧
        w.calls = openingCalls slot start first ++ done.flatMap (Round.calls slot) ∧
        Settled samplePins sampleIntent {} slot start done receipt := by
  obtain ⟨receipt, w, hrun⟩ := Comp.exists_of_isOk (show (execute fixtureHost samplePins sampleIntent
    {} (World.start sampleHost)).1.isOk = true by decide +kernel)
  exact ⟨receipt, w, hrun,
    (execute_safe fixtureHost samplePins sampleIntent {} sampleHost).2 receipt w hrun⟩

end StockMesh

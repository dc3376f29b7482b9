import StockMesh.Native.ClmmHead
import StockMesh.Native.Steps
import StockMesh.Foundation.Alongside

/-! # Cached quotes of a concentrated pool

A quote with cells gives what a quote without them gives (`cached_quotes`). Two things carry this. The
cells of a tick are what the plain loop would compute there: its price, and the full step from the head of
the curve, if the tick was recorded in this generation (`Mirrors`). And the head of the curve is what its
bytes say (`readHead`), after decoding and after every refresh. -/

namespace StockMesh.Native

open Stateful

/-! ## The plain curve of a head -/

/-- The curve of a head and priced ticks. A quote does not read the other fields. -/
def Head.curve (h : Head) (ticks : List Tick) : ClmmCurve Tick where
  sqrt := h.sqrt
  liquidity := h.liquidity
  current := h.current
  fee := h.fee
  feeOn := h.feeOn
  ticks := ticks
  inputFee := h.inputFee
  outputFee := h.outputFee
  byreal := h.byreal
  lower := 0
  upper := 0
  spacing := h.spacing
  dynamic := h.dynamic

@[simp] theorem Head.ticks_curve (h : Head) (ticks : List Tick) : (h.curve ticks).ticks = ticks := rfl

theorem rounds_curve (e : ClmmCurve Tick) (zero : Bool) (fuel : ℕ) (w : Walk) :
    (e.head.curve e.ticks).rounds zero fuel w = e.rounds zero fuel w := by
  induction fuel generalizing w with
  | zero => rfl
  | succ fuel ih =>
    have hround : (e.head.curve e.ticks).round zero w = e.round zero w := rfl
    simp only [ClmmCurve.rounds, hround, ih]

/-- A quote reads the head and the ticks only. -/
theorem quote_curve (e : ClmmCurve Tick) (input : ℕ) (zero : Bool) :
    (e.head.curve e.ticks).quote input zero = e.quote input zero := by
  rw [ClmmCurve.quote, ClmmCurve.quote]
  simp only [rounds_curve]
  rfl

/-- The place of the `j`-th tick of a walk. -/
def placeAt (zero : Bool) (start j : ℕ) : ℕ := if zero = true then start - 1 - j else start + j

/-- The cursor before the `j`-th tick of a walk. -/
def cursorAt (zero : Bool) (start j : ℕ) : ℕ := if zero = true then start - j else start + j

/-- How many ticks a walk has. -/
def span (zero : Bool) (start length : ℕ) : ℕ := if zero = true then start else length - start

theorem nextTick_cursorAt {zero : Bool} {start length j : ℕ} :
    nextTick zero length (cursorAt zero start j) =
      if j < span zero start length then some (placeAt zero start j, cursorAt zero start (j + 1))
      else none := by
  cases zero
  · by_cases h : start + j < length
    · have hj : j < length - start := by omega
      simp [nextTick, cursorAt, span, placeAt, h, hj, Nat.add_assoc]
    · have hj : ¬j < length - start := by omega
      simp [nextTick, cursorAt, span, h, hj]
  · by_cases h : 0 < start - j
    · have hj : j < start := by omega
      simp only [nextTick, cursorAt, span, placeAt, if_true, h, hj]
      rw [Nat.sub_sub, Nat.sub_sub, Nat.add_comm j 1]
    · have hj : ¬j < start := by omega
      simp [nextTick, cursorAt, span, h, hj]

theorem placeAt_lt {zero : Bool} {start length j : ℕ} (hstart : start ≤ length)
    (hj : j < span zero start length) : placeAt zero start j < length := by
  cases zero <;> simp only [span, placeAt, if_true, Bool.false_eq_true, if_false] at * <;> omega

theorem placeAt_inj {zero : Bool} {start length i j : ℕ} (hi : i < span zero start length)
    (hj : j < span zero start length) (h : placeAt zero start i = placeAt zero start j) : i = j := by
  cases zero <;> simp only [span, placeAt, if_true, Bool.false_eq_true, if_false] at * <;> omega

/-- The price and the liquidity before the `j`-th tick when every tick before it was crossed. -/
def ClmmCurve.arrive (e : ClmmCurve Tick) (zero : Bool) : ℕ → NativeResult (ℕ × ℕ)
  | 0 => .ok (e.sqrt, e.liquidity)
  | j + 1 => do
    let (_, liquidity) ← arrive e zero j
    let t := e.ticks.getD (placeAt zero (e.startCursor Tick.index) j) default
    let liquidity ← change liquidity t.net zero
    .ok (t.sqrt, liquidity)

/-- The cells of a tick hold the full step over it. -/
structure Recorded (e : ClmmCurve Tick) (zero : Bool) (j debit out : ℕ) : Prop where
  step : ∃ sqrt liquidity remain s, e.arrive zero j = .ok (sqrt, liquidity) ∧ liquidity ≠ 0 ∧
    remain < u64Size ∧
    segment zero (e.feeInput zero) e.fee
      (e.ticks.getD (placeAt zero (e.startCursor Tick.index) j) default).sqrt sqrt liquidity remain =
        .ok s ∧ s.reached = true ∧ s.debit = debit ∧ s.out = out

/-- The cells of a curve hold what a quote without cells would compute. -/
structure Mirrors (ticks : List Tick) (c : LazyCurve) : Prop where
  keys : c.ticks.map (fun t => (t.index, t.net)) = ticks.map fun t => (t.index, t.net)
  price : ∀ k < ticks.length, (c.ticks.getD k default).sqrt = 0 ∨
    (c.ticks.getD k default).sqrt = (ticks.getD k default).sqrt
  fee_lt : c.fee < feeUnit
  /-- No tick is of a later generation. -/
  generation_le : ∀ k < ticks.length, (c.ticks.getD k default).stepGeneration ≤ c.cacheGeneration
  /-- A tick of this generation holds the step over it. -/
  recorded : ∀ j < span c.cacheDirection (c.startCursor LazyTick.index) ticks.length,
    (c.ticks.getD (placeAt c.cacheDirection (c.startCursor LazyTick.index) j) default).stepGeneration =
        c.cacheGeneration →
      Recorded (c.head.curve ticks) c.cacheDirection j
        (c.ticks.getD (placeAt c.cacheDirection (c.startCursor LazyTick.index) j) default).stepDebit
        (c.ticks.getD (placeAt c.cacheDirection (c.startCursor LazyTick.index) j) default).stepOutput

section Cells

variable {ticks : List Tick} {c : LazyCurve}

theorem Mirrors.length_eq (h : Mirrors ticks c) : c.ticks.length = ticks.length := by
  have hlength := congrArg List.length h.keys
  simpa using hlength

/-- Both curves start at one cursor. -/
theorem startCursor_eq {τ : Type} {c : ClmmCurve τ} {index net : τ → ℤ}
    (hkeys : c.ticks.map (fun t => (index t, net t)) = ticks.map fun t => (t.index, t.net)) (h : Head)
    (hcurrent : h.current = c.current) :
    (h.curve ticks).startCursor Tick.index = c.startCursor index := by
  have hmap : ∀ {α : Type} (f g : α → ℤ) (xs : List α),
      (xs.takeWhile fun x => f x ≤ c.current).length =
        ((xs.map fun x => (f x, g x)).takeWhile fun p => p.1 ≤ c.current).length := fun f g xs => by
    rw [List.takeWhile_map, List.length_map]
    rfl
  show (ticks.takeWhile fun t => t.index ≤ h.current).length = _
  rw [hcurrent, hmap Tick.index Tick.net, ← hkeys, ← hmap index net]
  rfl

theorem startCursor_le {τ : Type} (c : ClmmCurve τ) (index : τ → ℤ) :
    c.startCursor index ≤ c.ticks.length := (List.takeWhile_prefix _).length_le

/-- The tick at a place has the index and the net of the plain one. -/
theorem Mirrors.key (h : Mirrors ticks c) {k : ℕ} (hk : k < ticks.length) :
    (c.ticks.getD k default).index = (ticks.getD k default).index ∧
      (c.ticks.getD k default).net = (ticks.getD k default).net := by
  have hk' : k < c.ticks.length := h.length_eq ▸ hk
  have hget := congrArg (fun xs => xs[k]?) h.keys
  simp only [List.getElem?_map, List.getElem?_eq_getElem hk, List.getElem?_eq_getElem hk',
    Option.map_some, Option.some.injEq, Prod.mk.injEq] at hget
  simpa [List.getD_eq_getElem?_getD, hk, hk'] using hget

/-- The ticks after one was written. -/
theorem getD_modify {α : Type} (xs : List α) (place k : ℕ) (f : α → α) (d : α) (hplace : place < xs.length) :
    (xs.modify place f).getD k d = if k = place then f (xs.getD k d) else xs.getD k d := by
  rw [List.getD_eq_getElem?_getD, List.getElem?_modify, List.getD_eq_getElem?_getD]
  by_cases h : k = place
  · subst h
    simp [hplace]
  · simp [h, Ne.symm h]

/-- Writing the cells of one tick, within what they may hold. -/
theorem Mirrors.write (h : Mirrors ticks c) {place : ℕ} (hplace : place < ticks.length)
    {f : LazyTick → LazyTick} (hindex : ∀ t, (f t).index = t.index) (hnet : ∀ t, (f t).net = t.net)
    (hprice : (f (c.ticks.getD place default)).sqrt = 0 ∨
      (f (c.ticks.getD place default)).sqrt = (ticks.getD place default).sqrt)
    (hgeneration : (f (c.ticks.getD place default)).stepGeneration ≤ c.cacheGeneration)
    (hrecorded : ∀ j < span c.cacheDirection (c.startCursor LazyTick.index) ticks.length,
      placeAt c.cacheDirection (c.startCursor LazyTick.index) j = place →
      (f (c.ticks.getD place default)).stepGeneration = c.cacheGeneration →
        Recorded (c.head.curve ticks) c.cacheDirection j (f (c.ticks.getD place default)).stepDebit
          (f (c.ticks.getD place default)).stepOutput) :
    Mirrors ticks { c with ticks := c.ticks.modify place f } := by
  have hplace' : place < c.ticks.length := h.length_eq ▸ hplace
  have hkeys : (c.ticks.modify place f).map (fun t => (t.index, t.net)) =
      ticks.map fun t => (t.index, t.net) := by
    rw [← h.keys]
    refine List.ext_getElem? fun i => ?_
    rw [List.getElem?_map, List.getElem?_modify, List.getElem?_map]
    rcases c.ticks[i]? with - | t
    · rfl
    · by_cases hi : place = i
      · simp [hi, hindex, hnet]
      · simp [hi]
  have hstart : ({ c with ticks := c.ticks.modify place f } : LazyCurve).startCursor LazyTick.index =
      c.startCursor LazyTick.index := by
    rw [← @startCursor_eq ticks _ c.toClmmCurve LazyTick.index LazyTick.net h.keys c.head rfl]
    exact (@startCursor_eq ticks _ { c.toClmmCurve with ticks := c.ticks.modify place f }
      LazyTick.index LazyTick.net hkeys c.head rfl).symm
  refine ⟨hkeys, fun k hk => ?_, h.fee_lt, fun k hk => ?_, ?_⟩
  · show ((c.ticks.modify place f).getD k default).sqrt = 0 ∨ _
    rw [getD_modify _ _ _ _ _ hplace']
    by_cases hkp : k = place
    · subst hkp
      rw [if_pos rfl]
      exact hprice
    · rw [if_neg hkp]
      exact h.price k hk
  · show ((c.ticks.modify place f).getD k default).stepGeneration ≤ _
    rw [getD_modify _ _ _ _ _ hplace']
    by_cases hkp : k = place
    · subst hkp
      rw [if_pos rfl]
      exact hgeneration
    · rw [if_neg hkp]
      exact h.generation_le k hk
  · rw [hstart]
    intro j hj
    show ((c.ticks.modify place f).getD _ default).stepGeneration = _ → _
    rw [getD_modify _ _ _ _ _ hplace']
    by_cases hkp : placeAt c.cacheDirection (c.startCursor LazyTick.index) j = place
    · rw [if_pos hkp, hkp]
      exact hrecorded j hj hkp
    · rw [if_neg hkp]
      exact h.recorded j hj

/-- What a quote keeps while it writes cells. -/
structure During (ticks : List Tick) (h : Head) (generation : ℕ) (zero : Bool) (c : LazyCurve) : Prop
    extends Mirrors ticks c where
  head : c.head = h
  generation : c.cacheGeneration = generation
  direction : c.cacheDirection = zero

variable {h : Head} {generation : ℕ} {zero : Bool}

/-- What the cells of a tick of this generation hold. -/
theorem During.recorded_at (hc : During ticks h generation zero c) {j : ℕ}
    (hj : j < span zero ((h.curve ticks).startCursor Tick.index) ticks.length)
    (hgeneration : (c.ticks.getD (placeAt zero ((h.curve ticks).startCursor Tick.index) j)
      default).stepGeneration = c.cacheGeneration) :
    Recorded (h.curve ticks) zero j
      (c.ticks.getD (placeAt zero ((h.curve ticks).startCursor Tick.index) j) default).stepDebit
      (c.ticks.getD (placeAt zero ((h.curve ticks).startCursor Tick.index) j) default).stepOutput := by
  obtain rfl := hc.direction
  obtain rfl := hc.head
  have hstart := startCursor_eq hc.toMirrors.keys c.head rfl
  rw [hstart] at hj hgeneration ⊢
  exact hc.toMirrors.recorded j hj hgeneration

/-- The price of a tick is the stored one, whether its cell is set or not. -/
theorem agrees_price (hprice : ∀ t ∈ ticks, sqrtTick t.index = .ok t.sqrt)
    (hc : During ticks h generation zero c) {place : ℕ} (hplace : place < ticks.length) :
    Agrees (During ticks h generation zero) (LazyCurve.price place c)
      (.ok (ticks.getD place default).sqrt) := by
  have hkey := (hc.toMirrors.key hplace).1
  have hmem : ticks.getD place default ∈ ticks := by
    rw [List.getD_eq_getElem?_getD, List.getElem?_eq_getElem hplace]
    exact List.getElem_mem hplace
  by_cases hzero : (c.ticks.getD place default).sqrt = 0
  · have hrun : LazyCurve.price place c = (.ok (ticks.getD place default).sqrt,
        { c with ticks := c.ticks.modify place fun t =>
          { t with sqrt := (ticks.getD place default).sqrt } }) := by
      rw [LazyCurve.price, get_bind]
      simp only [hzero, ne_eq, not_true_eq_false, if_false, hkey, hprice _ hmem, lift_ok, pure_bind]
      rfl
    rw [hrun]
    refine ⟨rfl, ?_, hc.head, hc.generation, hc.direction⟩
    exact hc.toMirrors.write hplace (fun _ => rfl) (fun _ => rfl) (Or.inr rfl)
      (hc.toMirrors.generation_le place hplace) fun j hj hjp => hjp ▸ hc.toMirrors.recorded j hj
  · have hset := (hc.toMirrors.price place hplace).resolve_left hzero
    have hrun : LazyCurve.price place c = (.ok (ticks.getD place default).sqrt, c) := by
      rw [LazyCurve.price, get_bind, ← hset]
      exact congrFun (if_pos hzero) c
    rw [hrun]
    exact ⟨rfl, hc⟩

end Cells

/-! ## The static loop -/

section Static

variable {ticks : List Tick} {h : Head} {generation : ℕ} {zero : Bool} {c : LazyCurve} {w w' : Walk}
  {j : ℕ}

/-- The loop is before the `j`-th tick. -/
structure At (e : ClmmCurve Tick) (zero : Bool) (j : ℕ) (w : Walk) : Prop where
  cursor : w.cursor = cursorAt zero (e.startCursor Tick.index) j
  remain_lt : w.remain < u64Size
  /-- Every tick before was crossed, unless the input is used up. -/
  arrive : w.remain ≠ 0 → e.arrive zero j = .ok (w.sqrt, w.liquidity)

/-- A round moves on by one tick. -/
theorem At.step {e : ClmmCurve Tick} (hw : At e zero j w) (hremain : w.remain ≠ 0)
    (hround : e.round zero w = .ok w') : At e zero (j + 1) w' := by
  have harrive := hw.arrive hremain
  obtain ⟨⟨place, cursor⟩, hnext, hround⟩ := bind_eq_ok.mp hround
  rw [okOr_eq_ok, hw.cursor, nextTick_cursorAt] at hnext
  split at hnext
  · cases hnext
    obtain ⟨-, hround⟩ := ite_error_eq_ok.mp hround
    have hcross : ∀ {liquidity}, change w.liquidity (e.ticks.getD
        (placeAt zero (e.startCursor Tick.index) j) default).net zero = .ok liquidity →
        e.arrive zero (j + 1) = .ok ((e.ticks.getD
          (placeAt zero (e.startCursor Tick.index) j) default).sqrt, liquidity) := fun hchange => by
      rw [ClmmCurve.arrive, harrive, ok_bind]
      dsimp only
      rw [hchange, ok_bind]
    split at hround
    · obtain ⟨liquidity, hchange, hround⟩ := bind_eq_ok.mp hround
      cases hround
      exact ⟨rfl, hw.remain_lt, fun _ => hcross hchange⟩
    · obtain ⟨step, hstep, hround⟩ := bind_eq_ok.mp hround
      obtain ⟨remain, hsub, hround⟩ := bind_eq_ok.mp hround
      obtain ⟨-, rfl⟩ := sub_eq_ok.mp hsub
      obtain ⟨output, -, hround⟩ := bind_eq_ok.mp hround
      have hlt : w.remain - step.debit < u64Size := (Nat.sub_le _ _).trans_lt hw.remain_lt
      split at hround
      · next hreached =>
        obtain ⟨liquidity, hchange, hround⟩ := bind_eq_ok.mp hround
        cases hround
        refine ⟨rfl, hlt, fun _ => ?_⟩
        rw [next_of_reached hstep hreached]
        exact hcross hchange
      · next hreached =>
        cases hround
        have hdebit := debit_of_not_reached hstep hreached
        exact ⟨rfl, hlt, fun hleft => absurd (by rw [hdebit, Nat.sub_self]) hleft⟩
  · cases hnext

/-- A round with cells does what the round without them does. -/
theorem agrees_round (hprice : ∀ t ∈ ticks, sqrtTick t.index = .ok t.sqrt)
    (hc : During ticks h generation zero c) (hw : At (h.curve ticks) zero j w) (hremain : w.remain ≠ 0) :
    Agrees (During ticks h generation zero) (LazyCurve.round zero w c) ((h.curve ticks).round zero w) := by
  have hstart : (h.curve ticks).startCursor Tick.index = c.startCursor LazyTick.index :=
    startCursor_eq hc.toMirrors.keys h (by rw [← hc.head]; rfl)
  have hfee : (h.curve ticks).fee < feeUnit := by
    obtain rfl := hc.head
    exact hc.toMirrors.fee_lt
  rw [LazyCurve.round, get_bind, ClmmCurve.round, hc.toMirrors.length_eq]
  refine Agrees.lift_bind hc fun ⟨place, cursor⟩ hnext => ?_
  rw [okOr_eq_ok, hw.cursor, nextTick_cursorAt] at hnext
  split at hnext
  case isFalse => cases hnext
  case isTrue hj =>
  cases hnext
  have hplace := placeAt_lt (startCursor_le (h.curve ticks) Tick.index) hj
  obtain ⟨place, hplace_eq⟩ : ∃ k, k = placeAt zero ((h.curve ticks).startCursor Tick.index) j :=
    ⟨_, rfl⟩
  obtain ⟨t, ht⟩ : ∃ t, t = ticks.getD place default := ⟨_, rfl⟩
  obtain ⟨t', ht'⟩ : ∃ t', t' = c.ticks.getD place default := ⟨_, rfl⟩
  have hnet : t'.net = t.net := ht' ▸ ht ▸ (hc.toMirrors.key (hplace_eq ▸ hplace)).2
  rw [← hplace_eq] at hplace ⊢
  refine (agrees_price hprice hc hplace).bind_ok fun c' _ hc' => ?_
  simp only [Head.ticks_curve, ← ht, ← ht', hnet]
  by_cases hbehind : Behind zero t.sqrt w.sqrt
  · rw [if_pos hbehind, if_pos hbehind]
    exact Agrees.fail hc'
  rw [if_neg hbehind, if_neg hbehind]
  by_cases hcached : t'.stepGeneration = c.cacheGeneration ∧ t'.stepDebit ≤ w.remain
  · -- the recorded step is the one the plain round takes
    rw [if_pos hcached]
    obtain ⟨sqrt, liquidity, remain, s, harrive, hliquidity, hlt, hsegment, hreached, hdebit, hout⟩ :=
      (hc.recorded_at hj (hplace_eq ▸ ht' ▸ hcached.1)).step
    rw [hw.arrive hremain] at harrive
    cases harrive
    rw [← hplace_eq, Head.ticks_curve, ← ht] at hsegment
    rw [← hplace_eq, ← ht'] at hdebit hout
    have hnext := next_of_reached hsegment hreached
    have hle : s.debit ≤ w.remain := hdebit ▸ hcached.2
    rw [if_neg hliquidity, segment_repeat hfee hlt hsegment hreached hle, ok_bind, sub, if_pos hle,
      ok_bind, ← hdebit, ← hout]
    refine Agrees.lift_bind hc' fun output _ => ?_
    rw [if_pos hreached]
    refine Agrees.lift_bind hc' fun liquidity _ => ?_
    rw [hnext]
    exact Agrees.pure hc'
  rw [if_neg hcached]
  by_cases hliquidity : w.liquidity = 0
  · rw [if_pos hliquidity, if_pos hliquidity]
    refine Agrees.lift_bind hc' fun liquidity _ => ?_
    exact Agrees.pure hc'
  rw [if_neg hliquidity, if_neg hliquidity]
  have hsame : c.feeInput zero = (h.curve ticks).feeInput zero ∧ c.fee = (h.curve ticks).fee := by
    obtain rfl := hc.head
    exact ⟨rfl, rfl⟩
  rw [hsame.1, hsame.2]
  refine Agrees.lift_bind hc' fun s hs => ?_
  refine Agrees.lift_bind hc' fun remain _ => ?_
  refine Agrees.lift_bind hc' fun output _ => ?_
  by_cases hreached : s.reached = true
  · -- the step is recorded
    rw [if_pos hreached, if_pos hreached]
    have hwrite : During ticks h generation zero { c' with ticks := c'.ticks.modify place fun t => { t with
        stepDebit := s.debit
        stepOutput := s.out
        stepGeneration := c.cacheGeneration } } := by
      have hgeneration : c.cacheGeneration = c'.cacheGeneration :=
        hc.generation.trans hc'.generation.symm
      refine ⟨hc'.toMirrors.write hplace (fun _ => rfl) (fun _ => rfl)
        (hc'.toMirrors.price place hplace) hgeneration.le fun i hi hip _ => ?_,
        hc'.head, hc'.generation, hc'.direction⟩
      have hstart' : (h.curve ticks).startCursor Tick.index = c'.startCursor LazyTick.index :=
        startCursor_eq hc'.toMirrors.keys h (by rw [← hc'.head]; rfl)
      rw [hc'.direction, ← hstart'] at hi hip
      rw [hc'.head, hc'.direction]
      obtain rfl := placeAt_inj hi hj (hip.trans hplace_eq)
      refine ⟨w.sqrt, w.liquidity, w.remain, s, hw.arrive hremain, hliquidity, hw.remain_lt, ?_,
        hreached, rfl, rfl⟩
      rw [← hplace_eq, Head.ticks_curve, ← ht]
      exact hs
    refine Agrees.bind_ok (a := ()) ⟨rfl, hwrite⟩ fun c'' _ hc'' => ?_
    refine Agrees.lift_bind hc'' fun liquidity _ => ?_
    exact Agrees.pure hc''
  · rw [if_neg hreached, if_neg hreached]
    exact Agrees.pure hc'

/-- The loop with cells does what the loop without them does. -/
theorem agrees_rounds (hprice : ∀ t ∈ ticks, sqrtTick t.index = .ok t.sqrt) (fuel : ℕ)
    (hc : During ticks h generation zero c) (hw : At (h.curve ticks) zero j w) :
    Agrees (During ticks h generation zero) (LazyCurve.rounds zero fuel w c)
      ((h.curve ticks).rounds zero fuel w) := by
  induction fuel generalizing j w c with
  | zero => exact Agrees.pure hc
  | succ fuel ih =>
    rw [LazyCurve.rounds, ClmmCurve.rounds]
    by_cases hremain : w.remain = 0
    · rw [if_pos hremain, if_pos hremain]
      exact Agrees.pure hc
    · rw [if_neg hremain, if_neg hremain]
      refine (agrees_round hprice hc hw hremain).bind fun w' c' _ hround hc' => ?_
      exact ih hc' (hw.step hremain hround)

end Static

/-! ## The dynamic loop -/

section Dynamic

variable {ticks : List Tick} {h : Head} {generation : ℕ} {zero direction : Bool} {c : LazyCurve}

theorem nextTick_lt {length cursor place next : ℕ} (hcursor : cursor ≤ length)
    (hnext : nextTick zero length cursor = some (place, next)) : place < length ∧ next ≤ length := by
  rw [nextTick] at hnext
  split at hnext <;> split at hnext <;> cases hnext <;> omega

/-- The dynamic loop reads no cell but the prices. -/
theorem agrees_dynamicRounds (hprice : ∀ t ∈ ticks, sqrtTick t.index = .ok t.sqrt)
    (spacing : ℤ) (base : ℕ) (feeInput : Bool) (fuel : ℕ) {cursor : ℕ} (hcursor : cursor ≤ ticks.length)
    (s : Spot) (hc : During ticks h generation direction c) :
    Agrees (During ticks h generation direction)
      (dynamicRounds lift LazyCurve.price (ticks.map fun t => (t.index, t.net)) spacing base zero feeInput
        fuel cursor s c)
      (dynamicRounds id (fun place => .ok (ticks.getD place default).sqrt)
        (ticks.map fun t => (t.index, t.net)) spacing base zero feeInput fuel cursor s) := by
  induction fuel generalizing cursor s c with
  | zero => exact Agrees.fail hc
  | succ fuel ih =>
    rw [dynamicRounds, dynamicRounds]
    by_cases hremain : s.remain = 0
    · rw [if_pos hremain, if_pos hremain]
      exact Agrees.pure hc
    rw [if_neg hremain, if_neg hremain]
    refine Agrees.lift_bind hc fun ⟨place, next⟩ hnext => ?_
    rw [List.length_map, okOr_eq_ok] at hnext
    obtain ⟨hplace, hle⟩ := nextTick_lt hcursor hnext
    refine (agrees_price hprice hc hplace).bind fun target c' _ _ hc' => ?_
    by_cases hbehind : Behind zero target s.sqrt
    · rw [if_pos hbehind, if_pos hbehind]
      exact Agrees.fail hc'
    rw [if_neg hbehind, if_neg hbehind]
    refine Agrees.lift_bind hc' fun s' _ => ?_
    refine Agrees.lift_bind hc' fun liquidity _ => ?_
    exact ih hle _ hc'

end Dynamic

/-! ## A quote -/

section Quote

variable {ticks : List Tick} {c : LazyCurve}

/-- The cache can be turned to a direction: it is there, or the counter has room. -/
def CanTurn (zero : Bool) (c : LazyCurve) : Prop :=
  c.cacheDirection = zero ∨ c.cacheGeneration + 1 < u32Size

instance (zero : Bool) (c : LazyCurve) : Decidable (CanTurn zero c) :=
  inferInstanceAs (Decidable (_ ∨ _))

/-- Turning the cache keeps its cells right. -/
theorem during_turn (hc : Mirrors ticks c) {zero : Bool} (hturn : CanTurn zero c) :
    ∃ c', LazyCurve.turn zero c = (.ok (), c') ∧
      During ticks c.head c'.cacheGeneration zero c' ∧ c'.toClmmCurve = c.toClmmCurve := by
  by_cases hsame : c.cacheDirection = zero
  · refine ⟨c, ?_, ⟨hc, rfl, rfl, hsame⟩, rfl⟩
    subst hsame
    rw [LazyCurve.turn, get_bind]
    show LazyCurve.revokeIf _ _ = _
    rw [LazyCurve.revokeIf, get_bind]
    exact congrFun (if_pos fun hne => hne rfl) c
  · have hroom : c.cacheGeneration + 1 < u32Size := hturn.resolve_left hsame
    refine ⟨{ c with cacheDirection := zero, cacheGeneration := c.cacheGeneration + 1 }, ?_, ?_, rfl⟩
    · rw [LazyCurve.turn, get_bind]
      show LazyCurve.revokeIf _ _ = _
      rw [LazyCurve.revokeIf, get_bind]
      refine (congrFun (if_neg (not_not.mpr hsame)) _).trans ?_
      exact congrFun (if_neg (not_le.mpr hroom)) _
    · refine ⟨⟨hc.keys, hc.price, hc.fee_lt, fun k hk => ?_, fun j hj hrecorded => ?_⟩, rfl, rfl, rfl⟩
      · exact (hc.generation_le k hk).trans (Nat.le_succ _)
      · -- no tick is of the new generation
        have hplace := placeAt_lt (hc.length_eq ▸ startCursor_le c.toClmmCurve LazyTick.index) hj
        have hle := hc.generation_le _ hplace
        have heq : (c.ticks.getD (placeAt zero (c.startCursor LazyTick.index) j)
          default).stepGeneration = c.cacheGeneration + 1 := hrecorded
        have hstart : ({ c with cacheDirection := zero, cacheGeneration := c.cacheGeneration + 1 } :
          LazyCurve).startCursor LazyTick.index = c.startCursor LazyTick.index := rfl
        rw [hstart, heq] at hle
        omega

/-- A quote with cells gives what the quote without them gives, and keeps the cells right. -/
theorem agrees_quote (hprice : ∀ t ∈ ticks, sqrtTick t.index = .ok t.sqrt) (hc : Mirrors ticks c)
    {zero : Bool} (hturn : CanTurn zero c) (input : ℕ) :
    Agrees (fun c' => Mirrors ticks c' ∧ c'.head = c.head) (LazyCurve.quote input zero c)
      ((c.head.curve ticks).quote input zero) := by
  rw [LazyCurve.quote, ClmmCurve.quote]
  by_cases hbad : input = 0 ∨ maxInput < input
  · rw [if_pos hbad, if_pos hbad]
    exact Agrees.fail ⟨hc, rfl⟩
  rw [if_neg hbad, if_neg hbad, get_bind]
  have hstart := startCursor_eq hc.keys c.head rfl
  have hdynamic : (c.head.curve ticks).dynamic = c.dynamic := rfl
  rw [hdynamic]
  rcases c.dynamic with - | dynamic
  · -- the static path
    refine Agrees.lift_bind ⟨hc, rfl⟩ fun remain hremain => ?_
    obtain ⟨c', hrun, hc', hsame⟩ := during_turn hc hturn
    refine Agrees.bind_ok (a := ()) ⟨by rw [hrun], by rw [hrun]; exact ⟨hc'.toMirrors, hc'.head⟩⟩
      fun c'' hrun' _ => ?_
    obtain rfl : c'' = c' := by
      rw [hrun] at hrun'
      exact (Prod.mk.inj hrun').2.symm
    have hlt : remain < u64Size := by
      have hmax : maxInput < u64Size := by decide
      have hle := net_le hremain
      omega
    have hw : At (c.head.curve ticks) zero 0 { remain, output := 0, sqrt := c.sqrt
                                               liquidity := c.liquidity
                                               cursor := c.startCursor LazyTick.index } := by
      refine ⟨?_, hlt, fun _ => rfl⟩
      rw [hstart]
      cases zero <;> rfl
    have hrounds := agrees_rounds hprice (c.ticks.length + 1) hc' hw
    rw [hc.length_eq] at hrounds ⊢
    rw [hstart]
    refine (hrounds.mono fun c₁ h₁ => (⟨h₁.toMirrors, h₁.head⟩ : _ ∧ _)).bind fun w c₁ _ _ h₁ => ?_
    exact Agrees.lift h₁
  · refine Agrees.lift_bind ⟨hc, rfl⟩ fun remain _ => ?_
    have hcursor : c.startCursor LazyTick.index ≤ ticks.length :=
      hc.length_eq ▸ startCursor_le c.toClmmCurve LazyTick.index
    rw [hc.keys, List.length_map, List.length_map, hstart]
    refine ((agrees_dynamicRounds hprice c.spacing c.fee (c.feeInput zero) (ticks.length + 1) hcursor _
      (⟨hc, rfl, rfl, rfl⟩ : During ticks c.head c.cacheGeneration c.cacheDirection c)).mono
      fun c₁ h₁ => (⟨h₁.toMirrors, h₁.head⟩ : _ ∧ _)).bind fun s c₁ _ _ h₁ => ?_
    exact Agrees.lift h₁

end Quote

/-! ## A refresh -/

section Refresh

variable {ticks : List Tick} {c : LazyCurve} {pool config : Buffer} {timestamp : ℕ}

theorem arrive_dynamic (h : Head) (d : Option DynamicFee) (zero : Bool) (j : ℕ) :
    (Head.curve { h with dynamic := d } ticks).arrive zero j = (h.curve ticks).arrive zero j := by
  induction j with
  | zero => rfl
  | succ j ih =>
    rw [ClmmCurve.arrive, ClmmCurve.arrive, ih]
    rfl

/-- A recorded step does not depend on the fee state, which only the dynamic loop reads. -/
theorem Recorded.dynamic {h : Head} {zero : Bool} {j debit out : ℕ}
    (hrecorded : Recorded (h.curve ticks) zero j debit out) (d : Option DynamicFee) :
    Recorded (Head.curve { h with dynamic := d } ticks) zero j debit out := by
  obtain ⟨sqrt, liquidity, remain, s, harrive, hrest⟩ := hrecorded.step
  exact ⟨sqrt, liquidity, remain, s, (arrive_dynamic h d zero j).trans harrive, hrest⟩

/-- Revoking changes the generation only, and only if something changed. -/
theorem revokeIf_triple (c : LazyCurve) (changed : Prop) [Decidable changed] :
    Triple (fun s => s = c) (LazyCurve.revokeIf changed)
      (fun _ s => s = { c with cacheGeneration := s.cacheGeneration } ∧
        (changed → s.cacheGeneration = c.cacheGeneration + 1) ∧
        (¬changed → s.cacheGeneration = c.cacheGeneration))
      (fun _ s => s = c) := by
  refine Triple.get_bind fun c₀ hc₀ => ?_
  subst hc₀
  by_cases hchanged : changed
  · rw [if_neg (not_not.mpr hchanged)]
    refine Triple.check (fun _ s hs => hs) fun _ => ?_
    rintro s rfl
    exact ⟨rfl, fun _ => rfl, fun hnot => absurd hchanged hnot⟩
  · rw [if_pos hchanged]
    exact Triple.pure fun s hs => by
      subst hs
      exact ⟨rfl, fun h => absurd h hchanged, fun _ => rfl⟩

/-- A refresh leaves the head that the new bytes hold, or the curve as it was. -/
theorem refresh_triple (ticks : List Tick) (c : LazyCurve) (pool config : Buffer) (timestamp : ℕ) :
    Triple (fun s => s = c) (LazyCurve.refreshAfterSwap pool config timestamp)
      (fun _ c' => readHead pool config (c.inputFee, c.outputFee) c.byreal timestamp = .ok c'.head ∧
        (Mirrors ticks c → Mirrors ticks c'))
      (fun _ c' => c' = c) := by
  refine Triple.get_bind fun c₀ hc₀ => ?_
  subst hc₀
  refine Triple.check (fun _ s hs => hs) fun _ => ?_
  refine Triple.lift_bind (fun spacing hspacing => ?_) fun _ _ s hs => hs
  refine Triple.check (fun _ s hs => hs) fun hsame => ?_
  refine Triple.lift_bind (fun refused _ => ?_) fun _ _ s hs => hs
  refine Triple.check (fun _ s hs => hs) fun _ => ?_
  refine Triple.lift_bind (fun current hcurrent => ?_) fun _ _ s hs => hs
  refine Triple.lift_bind (fun sqrt hsqrt => ?_) fun _ _ s hs => hs
  refine Triple.check (fun _ s hs => hs) fun _ => ?_
  refine Triple.lift_bind (fun _ _ => ?_) fun _ _ s hs => hs
  refine Triple.lift_bind (fun fee hfee => ?_) fun _ _ s hs => hs
  refine Triple.check (fun _ s hs => hs) fun hbounds => ?_
  refine Triple.lift_bind (fun dynamic hdynamic => ?_) fun _ _ s hs => hs
  refine Triple.lift_bind (fun liquidity hliquidity => ?_) fun _ _ s hs => hs
  refine (revokeIf_triple c₀ _).bind fun _ => ?_
  -- nothing after the revocation fails, so an error leaves the curve as it was
  obtain ⟨g, hg⟩ : ∃ g : LazyCurve → LazyCurve, g = fun c => { c with
      current, sqrt, liquidity, fee
      feeOn := (pool.byte 390).toNat
      dynamic } := ⟨_, rfl⟩
  have hrun : ∀ s, (do
      Stateful.modify fun c : LazyCurve => { c with current, sqrt }
      let liquidity ← lift (uintAt pool 237 16)
      Stateful.modify fun c => { c with
        liquidity, fee
        feeOn := (pool.byte 390).toNat
        dynamic } : Comp NativeError LazyCurve Unit) s = (.ok (), g s) := fun s => by
    rw [hliquidity, hg]
    rfl
  rintro s ⟨hs, hchanged, hkept⟩
  rw [hrun s]
  have hhead : (g s).head = { c₀.head with
      sqrt, liquidity, current, fee
      feeOn := (pool.byte 390).toNat
      dynamic } := by
    rw [hg, hs]
    rfl
  have hspacing' : (spacing : ℤ) = c₀.spacing := not_not.mp hsame
  refine ⟨?_, fun hc => ?_⟩
  · rw [hhead, readHead, hfee, ok_bind, hspacing, ok_bind, hcurrent, ok_bind, hspacing', hdynamic,
      ok_bind, hsqrt, ok_bind, hliquidity, ok_bind]
    rfl
  · simp only [not_or, not_le] at hbounds
    have hticks : (g s).ticks = c₀.ticks := by
      rw [hg, hs]
    have hdirection : (g s).cacheDirection = c₀.cacheDirection := by
      rw [hg, hs]
    have hgeneration : (g s).cacheGeneration = s.cacheGeneration := by rw [hg]
    have hle : c₀.cacheGeneration ≤ s.cacheGeneration := by
      by_cases h : c₀.current ≠ current ∨ c₀.sqrt ≠ sqrt ∨ c₀.liquidity ≠ liquidity ∨ c₀.fee ≠ fee ∨
          c₀.feeOn ≠ (pool.byte 390).toNat
      · have := hchanged h
        omega
      · exact (hkept h).ge
    refine ⟨hticks ▸ hc.keys, hticks ▸ hc.price, ?_, fun k hk => ?_, ?_⟩
    · rw [hg]
      exact hbounds.1
    · rw [hticks, hgeneration]
      exact (hc.generation_le k hk).trans hle
    · rw [hticks, hdirection, hhead, hgeneration]
      intro j hj hgen
      by_cases h : c₀.current ≠ current ∨ c₀.sqrt ≠ sqrt ∨ c₀.liquidity ≠ liquidity ∨ c₀.fee ≠ fee ∨
          c₀.feeOn ≠ (pool.byte 390).toNat
      · -- the head changed, and no tick is of the new generation
        have hplace := placeAt_lt (hc.length_eq ▸ hticks ▸ startCursor_le (g s).toClmmCurve
          LazyTick.index) hj
        have hold := hc.generation_le _ hplace
        rw [hgen, hchanged h] at hold
        omega
      · have hgen' := hgen.trans (hkept h)
        simp only [not_or, not_not] at h
        obtain ⟨hcurrent', rfl, rfl, rfl, hfeeOn⟩ := h
        have hstart : (g s).startCursor LazyTick.index = c₀.startCursor LazyTick.index := by
          show ((g s).ticks.takeWhile fun t => t.index ≤ (g s).current).length = _
          rw [hticks, hg, ← hcurrent']
          rfl
        rw [hstart] at hj hgen' ⊢
        rw [← hcurrent', ← hfeeOn]
        exact (hc.recorded j hj hgen').dynamic dynamic

end Refresh

/-! ## Sessions -/

/-- A cached curve and the bytes it stands for. -/
structure Session where
  curve : LazyCurve
  pool : Buffer
  config : Buffer
  timestamp : ℕ

/-- What a session is asked. -/
inductive Session.Op
  | quote (input : ℕ) (zero : Bool)
  | refresh (pool config : Buffer) (timestamp : ℕ)

namespace Session

/-- One operation. The bytes change with a refresh that succeeds. -/
def step (s : Session) : Op → Session
  | .quote input zero => { s with curve := (LazyCurve.quote input zero s.curve).2 }
  | .refresh pool config timestamp =>
    match LazyCurve.refreshAfterSwap pool config timestamp s.curve with
    | (.ok _, curve) => { curve, pool, config, timestamp }
    | (.error _, curve) => { s with curve }

/-- Operations in order. -/
def run (s : Session) (ops : List Op) : Session := ops.foldl step s

/-- No quote overflows the generation counter. -/
def Counted (s : Session) : List Op → Prop
  | [] => True
  | .quote input zero :: ops => CanTurn zero s.curve ∧ Counted (s.step (.quote input zero)) ops
  | .refresh pool config timestamp :: ops => Counted (s.step (.refresh pool config timestamp)) ops

/-- The curve has the head that its bytes hold, and its cells are right for the ticks. -/
structure Tracks (ticks : List Tick) (fees : TransferFee × TransferFee) (byreal : Bool) (s : Session) :
    Prop where
  mirrors : Mirrors ticks s.curve
  head : readHead s.pool s.config fees byreal s.timestamp = .ok s.curve.head

variable {ticks : List Tick} {fees : TransferFee × TransferFee} {byreal : Bool} {s : Session}

/-- The fees and the kind of pool are the ones that were given. -/
theorem fees_of_readHead {pool config : Buffer} {timestamp : ℕ} {h : Head}
    (hread : readHead pool config fees byreal timestamp = .ok h) :
    (h.inputFee, h.outputFee) = fees ∧ h.byreal = byreal := by
  obtain ⟨_, -, hread⟩ := bind_eq_ok.mp hread
  obtain ⟨_, -, hread⟩ := bind_eq_ok.mp hread
  obtain ⟨_, -, hread⟩ := bind_eq_ok.mp hread
  obtain ⟨_, -, hread⟩ := bind_eq_ok.mp hread
  obtain ⟨_, -, hread⟩ := bind_eq_ok.mp hread
  obtain ⟨_, -, hread⟩ := bind_eq_ok.mp hread
  cases hread
  exact ⟨rfl, rfl⟩

/-- A refused refresh changes nothing. -/
theorem step_refresh_of_error {pool config : Buffer} {timestamp : ℕ} {e : NativeError} {curve : LazyCurve}
    (h : LazyCurve.refreshAfterSwap pool config timestamp s.curve = (.error e, curve)) :
    s.step (.refresh pool config timestamp) = s := by
  obtain rfl := (refresh_triple [] s.curve pool config timestamp).error rfl h
  simp only [step, h]

/-- An operation keeps the curve in step with its bytes. -/
theorem Tracks.step (hprice : ∀ t ∈ ticks, sqrtTick t.index = .ok t.sqrt)
    (h : Tracks ticks fees byreal s) (op : Op)
    (hturn : ∀ input zero, op = .quote input zero → CanTurn zero s.curve) :
    Tracks ticks fees byreal (s.step op) := by
  cases op with
  | quote input zero =>
    obtain ⟨-, hmirrors, hhead⟩ := agrees_quote hprice h.mirrors (hturn input zero rfl) input
    exact ⟨hmirrors, h.head.trans (congrArg Except.ok hhead.symm)⟩
  | refresh pool config timestamp =>
    rcases hrun : LazyCurve.refreshAfterSwap pool config timestamp s.curve with ⟨e | u, curve⟩
    · rw [step_refresh_of_error hrun]
      exact h
    · obtain ⟨hread, hmirrors⟩ := (refresh_triple ticks s.curve pool config timestamp).ok rfl hrun
      obtain ⟨hfees, hbyreal⟩ := fees_of_readHead h.head
      have hfees' : (s.curve.inputFee, s.curve.outputFee) = fees := hfees
      have hbyreal' : s.curve.byreal = byreal := hbyreal
      rw [hfees', hbyreal'] at hread
      simp only [Session.step, hrun]
      exact ⟨hmirrors h.mirrors, hread⟩

/-- A run keeps the curve in step with its bytes. -/
theorem Tracks.run (hprice : ∀ t ∈ ticks, sqrtTick t.index = .ok t.sqrt) {ops : List Op}
    (h : Tracks ticks fees byreal s) (hcounted : s.Counted ops) : Tracks ticks fees byreal (s.run ops) := by
  induction ops generalizing s with
  | nil => exact h
  | cons op ops ih =>
    cases op with
    | quote input zero =>
      refine ih (h.step hprice _ fun i z heq => ?_) hcounted.2
      cases heq
      exact hcounted.1
    | refresh pool config timestamp => exact ih (h.step hprice _ fun i z heq => nomatch heq) hcounted

/-- A decoded curve tracks its bytes. -/
theorem tracks_of_decode {poolKey : Key} {pool config : Buffer} {arrays : List Buffer} {timestamp : ℕ}
    {c : LazyCurve} (h : LazyCurve.decode poolKey pool config arrays fees byreal timestamp = .ok c)
    (hkeys : c.ticks.map (fun t => (t.index, t.net)) = ticks.map fun t => (t.index, t.net)) :
    Tracks ticks fees byreal ⟨c, pool, config, timestamp⟩ := by
  obtain ⟨curve, hcurve, h⟩ := bind_eq_ok.mp h
  cases h
  obtain ⟨-, -, -, -, -, hhead, hfee, -⟩ := decode_eq_ok hcurve
  have hlength : curve.ticks.length = ticks.length := by simpa using congrArg List.length hkeys
  -- no cell is set yet
  have hfresh : ∀ k < ticks.length, (curve.ticks.getD k default).sqrt = 0 ∧
      (curve.ticks.getD k default).stepGeneration = 0 := by
    intro k hk
    have hk' : k < curve.ticks.length := hlength ▸ hk
    have hmem : curve.ticks.getD k default ∈ curve.ticks := by
      rw [List.getD_eq_getElem?_getD, List.getElem?_eq_getElem hk']
      exact List.getElem_mem hk'
    obtain ⟨index, net, hmade⟩ := made_of_decode hcurve _ hmem
    rw [← Except.ok.inj hmade]
    exact ⟨rfl, rfl⟩
  refine ⟨⟨hkeys, fun k hk => .inl (hfresh k hk).1, hfee, fun k hk => ?_, fun j hj hgen => ?_⟩, hhead⟩
  · exact (hfresh k hk).2.le.trans (Nat.zero_le _)
  · have hplace := placeAt_lt (hlength ▸ startCursor_le curve LazyTick.index) hj
    have hgen' : (curve.ticks.getD _ default).stepGeneration = 1 := hgen
    rw [(hfresh _ hplace).2] at hgen'
    cases hgen'

/-- In every run of quotes and refreshes a cached quote is the quote of a curve decoded afresh from the
current bytes, as long as the generation counter does not overflow; and a refused refresh changes
nothing. -/
theorem cached_quotes {poolKey : Key} {pool config : Buffer} {arrays : List Buffer} {timestamp : ℕ}
    {c : LazyCurve} (hdecode : LazyCurve.decode poolKey pool config arrays fees byreal timestamp = .ok c)
    {ops : List Op} (hcounted : Counted ⟨c, pool, config, timestamp⟩ ops)
    (hs : s = run ⟨c, pool, config, timestamp⟩ ops) :
    (∀ arrays' fresh,
      decodeInner plainTicks poolKey s.pool s.config arrays' fees byreal s.timestamp = .ok fresh →
      fresh.ticks.map (fun t => (t.index, t.net)) = c.ticks.map (fun t => (t.index, t.net)) →
      ∀ input zero, CanTurn zero s.curve →
        (LazyCurve.quote input zero s.curve).1 = fresh.quote input zero) ∧
    ∀ pool' config' timestamp' e curve,
      LazyCurve.refreshAfterSwap pool' config' timestamp' s.curve = (.error e, curve) →
      s.step (.refresh pool' config' timestamp') = s := by
  refine ⟨fun arrays' fresh hfresh hkeys input zero hturn => ?_, fun _ _ _ _ _ h =>
    step_refresh_of_error h⟩
  have hprice : ∀ t ∈ fresh.ticks, sqrtTick t.index = .ok t.sqrt := by
    intro t ht
    obtain ⟨index, net, hmade⟩ := made_of_decode hfresh t ht
    obtain ⟨sqrt, hsqrt, hmade⟩ := bind_eq_ok.mp hmade
    cases hmade
    exact hsqrt
  have htracks : Tracks fresh.ticks fees byreal s :=
    hs ▸ (tracks_of_decode hdecode hkeys.symm).run hprice hcounted
  obtain ⟨-, -, -, -, -, hhead, -⟩ := decode_eq_ok hfresh
  have hsame : fresh.head = s.curve.head := Except.ok.inj (hhead.symm.trans htracks.head)
  rw [(agrees_quote hprice htracks.mirrors hturn input).1, ← hsame, quote_curve]

/-- A pool at price one with liquidity `2 ^ 40`. -/
def flatPool : Buffer := sparse 1544
  [(0, [247, 237, 227, 245, 215, 195, 222, 70]), (235, [1]), (242, [1]), (261, [1])]

/-- A configuration with a quarter of a percent. -/
def flatConfig : Buffer := sparse 117 [(0, [218, 244, 33, 104, 203, 203, 43, 111]), (47, [196, 9])]

/-- An array with one initialized tick, of index ten. -/
def flatArray : Buffer := sparse 10240
  [(0, [192, 155, 85, 205, 49, 249, 129, 42]), (1724, [10, 0, 0, 0, 5]), (1744, [5])]

/-- A second quote in one direction gives what a fresh curve gives. -/
theorem cached_quotes_example : ∃ c fresh,
    LazyCurve.decode (.replicate 32 0) flatPool flatConfig [flatArray] ({}, {}) false 0 = .ok c ∧
    decodeInner plainTicks (.replicate 32 0) flatPool flatConfig [flatArray] ({}, {}) false 0 = .ok fresh ∧
    (LazyCurve.quote 1000 false (run ⟨c, flatPool, flatConfig, 0⟩ [.quote 900000000 false]).curve).1 =
      fresh.quote 1000 false := by
  -- one evaluation of the two curves
  have hall : (LazyCurve.decode (.replicate 32 0) flatPool flatConfig [flatArray] ({}, {}) false 0).isOk = true ∧
      (decodeInner plainTicks (.replicate 32 0) flatPool flatConfig [flatArray] ({}, {}) false 0).isOk = true ∧
      (decodeInner plainTicks (.replicate 32 0) flatPool flatConfig [flatArray] ({}, {}) false 0).map
          (fun c => c.ticks.map fun t => (t.index, t.net)) =
        (LazyCurve.decode (.replicate 32 0) flatPool flatConfig [flatArray] ({}, {}) false 0).map
          (fun c => c.ticks.map fun t => (t.index, t.net)) ∧
      (LazyCurve.decode (.replicate 32 0) flatPool flatConfig [flatArray] ({}, {}) false 0).map
          (fun c => decide (CanTurn false c ∧ CanTurn false
            (run ⟨c, flatPool, flatConfig, 0⟩ [.quote 900000000 false]).curve)) = .ok true := by
    decide +kernel
  obtain ⟨hcached, hplain, hkeys, hturns⟩ := hall
  obtain ⟨c, hc⟩ := exists_of_isOk hcached
  obtain ⟨fresh, hfresh⟩ := exists_of_isOk hplain
  rw [hc] at hturns
  rw [hfresh, hc] at hkeys
  obtain ⟨hfirst, hsecond⟩ := of_decide_eq_true (Except.ok.inj hturns)
  exact ⟨c, fresh, hc, hfresh, (cached_quotes hc (show Counted _ [.quote 900000000 false] from
    ⟨hfirst, trivial⟩) rfl).1 [flatArray] fresh hfresh (Except.ok.inj hkeys) 1000 false hsecond⟩

end Session

end StockMesh.Native

import StockMesh.Native.DynamicFee
import StockMesh.Foundation.Stateful
import Mathlib.Data.List.Sort

/-! # Concentrated liquidity pools

The pool curve of the native crate: `decodeInner` reads a pool, its configuration and its tick arrays,
and `quote` walks the initialized ticks. The crate is built in two ways. Without `lazy-ticks` a tick
stores its price and a quote is a function of the curve (`ClmmCurve.quote`); with it a tick computes its
price on first use and keeps the last full step over it in cells that a quote writes, also a failed one
(`LazyCurve.quote`). Both read the same bytes, so `decodeInner` takes the kind of tick to build. -/

namespace StockMesh.Native

open Stateful

/-- The tick factors (`FACTORS`). -/
def factors : List ℕ :=
  [0xfffcb933bd6fb800, 0xfff97272373d4000, 0xfff2e50f5f657000, 0xffe5caca7e10f000,
    0xffcb9843d60f7000, 0xff973b41fa98e800, 0xff2ea16466c9b000, 0xfe5dee046a9a3800,
    0xfcbe86c7900bb000, 0xf987a7253ac65800, 0xf3392b0822bb6000, 0xe7159475a2caf000,
    0xd097f3bdfd2f2000, 0xa9f746462d9f8000, 0x70d869a156f31c00, 0x31be135f97ed3200,
    0x9aa508b5b85a500, 0x5d6af8dedc582c, 0x2216e584f5fa]

/-- `sqrt_tick`. -/
def sqrtTick (tick : ℤ) : NativeResult ℕ := do
  if tick < -443636 ∨ 443636 < tick then .error .layout else
  let n := tick.natAbs
  let x ← (List.range factors.length).foldlM (fun x i =>
      if n.testBit i = true then do
        let y ← small (x * factors.getD i 0)
        .ok (y / q64)
      else .ok x) q64
  if 0 < tick then
    if x = 0 then .error .overflow else .ok ((u128Size - 1) / x)
  else .ok x

/-- A tick that stores its price. -/
structure Tick where
  index : ℤ
  sqrt : ℕ
  net : ℤ
  deriving DecidableEq

instance : Inhabited Tick := ⟨⟨0, 0, 0⟩⟩

/-- A tick with cells: its price, zero until the first use, and the last full step over it. -/
structure LazyTick where
  index : ℤ
  stepGeneration : ℕ := 0
  stepDebit : ℕ := 0
  stepOutput : ℕ := 0
  sqrt : ℕ := 0
  net : ℤ
  deriving DecidableEq

instance : Inhabited LazyTick := ⟨{ index := 0, net := 0 }⟩

/-- How a build of the crate makes its ticks. -/
structure TickBuild (τ : Type) where
  make : ℤ → ℤ → NativeResult τ
  index : τ → ℤ

/-- Ticks without `lazy-ticks`. -/
def plainTicks : TickBuild Tick where
  make index net := do
    let sqrt ← sqrtTick index
    .ok { index, sqrt, net }
  index := Tick.index

/-- Ticks with `lazy-ticks`. -/
def lazyTicks : TickBuild LazyTick where
  make index net := .ok { index, net }
  index := LazyTick.index

/-- A decoded pool, without the cells of the cache (`ClmmCurve`). -/
structure ClmmCurve (τ : Type) where
  sqrt : ℕ
  liquidity : ℕ
  current : ℤ
  fee : ℕ
  feeOn : ℕ
  ticks : List τ
  inputFee : TransferFee
  outputFee : TransferFee
  byreal : Bool
  lower : ℤ
  upper : ℤ
  spacing : ℤ
  dynamic : Option DynamicFee
  deriving DecidableEq

/-- A decoded pool with the cells of the cache. -/
structure LazyCurve extends ClmmCurve LazyTick where
  cacheGeneration : ℕ := 1
  cacheDirection : Bool := false
  deriving DecidableEq

/-! ## Decoding -/

section Decode

variable {τ : Type} (build : TickBuild τ)

/-- One of the sixty places of a tick array. -/
def scanTick (dynamic : Bool) (count : ℕ) (d : Buffer) (start spacing : ℤ) (scan : ℕ × List τ) (i : ℕ) :
    NativeResult (ℕ × List τ) := do
  let (used, ticks) := scan
  let position := (d.byte (48 + i)).toNat
  if dynamic = true ∧ position = 0 then .ok (used, ticks) else
  if dynamic = true ∧ (count < position ∨ used.testBit (position - 1) = true) then .error .layout else
  let used := if dynamic = true then used ||| 1 <<< (position - 1) else used
  let o := if dynamic = true then 216 + (position - 1) * 168 else 44 + i * 168
  let orders ← uintAt d (o + 124) 8
  if orders ≠ 0 then .error .unsupported else
  let filled ← uintAt d (o + 132) 8
  if filled ≠ 0 then .error .unsupported else
  let gross ← uintAt d (o + 20) 16
  if gross = 0 then .ok (used, ticks) else
  let index ← intAt d o 4
  let expected ← i32Op (start + i * spacing)
  if index ≠ expected then .error .layout else
  let net ← intAt d (o + 4) 16
  let tick ← build.make index net
  .ok (used, ticks ++ [tick])

/-- `u64::count_ones`. -/
def countOnes (n : ℕ) : ℕ := (List.range 64).countP n.testBit

/-- Whether a tick array is one of the dynamic arrays of Byreal. -/
def dynamicArray (byreal : Bool) (d : Buffer) : NativeResult Bool :=
  if byreal = true then do
    let tag ← bytesAt d 0 8
    .ok (decide (tag = [106, 139, 152, 36, 117, 153, 184, 56]))
  else .ok false

/-- One tick array: its start and its initialized ticks. -/
def decodeArray (byreal : Bool) (poolKey : Key) (spacing : ℤ) (d : Buffer) :
    NativeResult (ℤ × List τ) := do
  let dynamic ← dynamicArray byreal d
  let count ← (if dynamic = true then uintAt d 108 1 else .ok 60)
  if dynamic = true ∧ (60 < count ∨ d.size ≠ 216 + count * 168) then .error .unsupported else
  if dynamic = false ∧ (d.size ≠ 10240 ∨
      d.slice 0 8 ≠ some [192, 155, 85, 205, 49, 249, 129, 42]) then .error .unsupported else
  let owner ← bytesAt d 8 32
  if Key.ofBytes owner ≠ poolKey then .error .unsupported else
  let start ← intAt d 40 4
  if start % (60 * spacing) ≠ 0 then .error .layout else
  let (used, ticks) ← (List.range 60).foldlM (scanTick build dynamic count d start spacing) (0, [])
  if dynamic = true ∧ countOnes used ≠ count then .error .layout else
  .ok (start, ticks)

/-- Consecutive arrays follow each other without a gap. -/
def checkGaps (width : ℤ) : List ℤ → NativeResult Unit
  | a :: b :: starts => do
    let gap ← i32Op (b - a)
    if gap ≠ width then .error .unsupported else checkGaps width (b :: starts)
  | _ => .ok ()

/-- What a Byreal pool stores that is not supported at a time. -/
def byrealRefused (byreal : Bool) (pool : Buffer) (timestamp : ℕ) : NativeResult Bool := do
  if byreal = false then .ok false else
  if pool.byte 1096 &&& 247 ≠ 0 then .ok true else
  let opens ← uintAt pool 1080 8
  if timestamp < opens then .ok true else
  .ok (decide (pool.byte 390 ≠ 0 ∨ pool.byte 391 ≠ 0 ∨ pool.byte 392 ≠ 0))

/-- The trade fee: the one a Byreal pool overrides, or the one of the configuration. -/
def tradeFee (byreal : Bool) (pool config : Buffer) : NativeResult ℕ := do
  let overrideFee ← (if byreal = true then uintAt pool 393 4 else .ok 0)
  if 0 < overrideFee then .ok overrideFee else uintAt config 47 4

/-- The price is inside its tick. -/
def checkPrice (sqrt : ℕ) (current : ℤ) (e : NativeError) : NativeResult Unit := do
  let lo ← sqrtTick current
  if sqrt < lo then .error e else
  let hi ← sqrtTick (current + 1)
  if hi < sqrt then .error e else .ok ()

/-- The fee state of a pool; a Byreal pool has none. -/
def dynamicFee (byreal : Bool) (pool : Buffer) (spacing current : ℤ) (timestamp : ℕ) :
    NativeResult (Option DynamicFee) :=
  if byreal = true then .ok none else DynamicFee.decode pool spacing current timestamp

/-- `ClmmCurve::decode_inner`. -/
def decodeInner (poolKey : Key) (pool config : Buffer) (arrays : List Buffer)
    (fees : TransferFee × TransferFee) (byreal : Bool) (timestamp : ℕ) : NativeResult (ClmmCurve τ) := do
  if pool.size ≠ 1544 ∨ pool.slice 0 8 ≠ some [247, 237, 227, 245, 215, 195, 222, 70] ∨
      config.size ≠ 117 ∨ config.slice 0 8 ≠ some [218, 244, 33, 104, 203, 203, 43, 111] then
    .error .layout else
  if pool.byte 389 &&& 16 ≠ 0 ∨ 2 < pool.byte 390 then .error .unsupported else
  let refused ← byrealRefused byreal pool timestamp
  if refused = true then .error .unsupported else
  let fee ← tradeFee byreal pool config
  let spacing ← uintAt pool 235 2
  if feeUnit ≤ fee ∨ spacing = 0 ∨ arrays = [] ∨ 8 < arrays.length then .error .layout else
  let decoded ← arrays.mapM (decodeArray build byreal poolKey spacing)
  let starts := (decoded.map Prod.fst).insertionSort (· ≤ ·)
  checkGaps (60 * spacing) starts
  let ticks := (decoded.flatMap Prod.snd).insertionSort fun a b => build.index a ≤ build.index b
  let current ← intAt pool 269 4
  let dynamic ← dynamicFee byreal pool spacing current timestamp
  let lower := starts.headD 0
  let upper ← i32Op (starts.getLastD 0 + 60 * spacing)
  if current < lower ∨ upper ≤ current ∨ lower < -443636 ∨ 443636 < upper then .error .unsupported else
  let sqrt ← uintAt pool 253 16
  let liquidity ← uintAt pool 237 16
  checkPrice sqrt current .layout
  .ok
    { sqrt, liquidity, current, fee
      feeOn := (pool.byte 390).toNat
      ticks
      inputFee := fees.1
      outputFee := fees.2
      byreal, lower, upper
      spacing := spacing
      dynamic }

end Decode

/-- `ClmmCurve::decode_inner`, built with `lazy-ticks`. -/
def LazyCurve.decode (poolKey : Key) (pool config : Buffer) (arrays : List Buffer)
    (fees : TransferFee × TransferFee) (byreal : Bool) (timestamp : ℕ) : NativeResult LazyCurve := do
  let curve ← decodeInner lazyTicks poolKey pool config arrays fees byreal timestamp
  .ok { curve with }

/-! ## Refreshing -/

/-- Revoke the recorded steps if something changed: `cache_generation` plus one. -/
def LazyCurve.revokeIf (changed : Prop) [Decidable changed] : Comp NativeError LazyCurve Unit := do
  let c ← get
  if ¬changed then pure () else
  if u32Size ≤ c.cacheGeneration + 1 then fail .arithmetic else
  modify fun c => { c with cacheGeneration := c.cacheGeneration + 1 }

/-- `refresh_after_swap`. -/
def LazyCurve.refreshAfterSwap (pool config : Buffer) (timestamp : ℕ) :
    Comp NativeError LazyCurve Unit := do
  let c ← get
  if pool.size ≠ 1544 ∨ config.size ≠ 117 ∨ pool.byte 389 &&& 16 ≠ 0 then fail .unsupported else
  let spacing ← lift (uintAt pool 235 2)
  if (spacing : ℤ) ≠ c.spacing then fail .unsupported else
  let refused ← lift (byrealRefused c.byreal pool timestamp)
  if refused = true then fail .unsupported else
  let current ← lift (intAt pool 269 4)
  let sqrt ← lift (uintAt pool 253 16)
  if current < c.lower ∨ c.upper ≤ current then fail .capacity else
  lift (checkPrice sqrt current .capacity)
  let fee ← lift (tradeFee c.byreal pool config)
  if feeUnit ≤ fee ∨ 2 < pool.byte 390 then fail .unsupported else
  let dynamic ← lift (dynamicFee c.byreal pool c.spacing current timestamp)
  let liquidity ← lift (uintAt pool 237 16)
  revokeIf (c.current ≠ current ∨ c.sqrt ≠ sqrt ∨ c.liquidity ≠ liquidity ∨ c.fee ≠ fee ∨
    c.feeOn ≠ (pool.byte 390).toNat)
  modify fun c => { c with current, sqrt }
  let liquidity ← lift (uintAt pool 237 16)
  modify fun c => { c with liquidity, fee, feeOn := (pool.byte 390).toNat, dynamic }

/-! ## Quoting -/

/-- The loop of a quote between two ticks. -/
structure Walk where
  remain : ℕ
  output : ℕ
  sqrt : ℕ
  liquidity : ℕ
  cursor : ℕ
  deriving DecidableEq

/-- The place of the next tick and the cursor after it. -/
def nextTick (zero : Bool) (length cursor : ℕ) : Option (ℕ × ℕ) :=
  if zero = true then if 0 < cursor then some (cursor - 1, cursor - 1) else none
  else if cursor < length then some (cursor, cursor + 1) else none

/-- A tick price on the wrong side. -/
def Behind (zero : Bool) (target sqrt : ℕ) : Prop :=
  zero = true ∧ sqrt < target ∨ zero = false ∧ target < sqrt

instance (zero : Bool) (target sqrt : ℕ) : Decidable (Behind zero target sqrt) :=
  inferInstanceAs (Decidable (_ ∨ _))

/-- One step towards a target price. -/
structure Step where
  reached : Bool
  next : ℕ
  debit : ℕ
  out : ℕ
  deriving DecidableEq

/-- What is left of the remaining input for a step (`available`). -/
def available (feeInput : Bool) (fee remain : ℕ) : ℕ :=
  if feeInput = true then Rounding.net feeUnit fee remain else remain

/-- What a step pays out after its fee (`out`). -/
def outOf (feeInput : Bool) (fee gross : ℕ) : NativeResult ℕ :=
  if feeInput = true then .ok gross else sub gross (gross * fee ⌈/⌉ feeUnit % u64Size)

/-- What a step that reaches its target costs with its fee (`debit`). -/
def debitOf (feeInput : Bool) (fee spent : ℕ) : NativeResult ℕ :=
  if feeInput = true then wordAdd spent (spent * fee ⌈/⌉ (feeUnit - fee) % u64Size) else .ok spent

/-- The branches of a step with `reached`. -/
def fullStep (zero feeInput : Bool) (fee target sqrt liquidity need : ℕ) : NativeResult Step := do
  let spent ← word need
  let paid ← payout zero sqrt target liquidity
  let gross ← word paid
  let out ← outOf feeInput fee gross
  let debit ← debitOf feeInput fee spent
  .ok { reached := true, next := target, debit, out }

/-- The branches of a step without `reached`: it uses up what remains. -/
def partialStep (zero feeInput : Bool) (fee sqrt liquidity remain : ℕ) : NativeResult Step := do
  let next ← partialPrice zero sqrt liquidity (available feeInput fee remain)
  let need ← needed zero sqrt next liquidity
  let _ ← word need
  let paid ← payout zero sqrt next liquidity
  let gross ← word paid
  let out ← outOf feeInput fee gross
  .ok { reached := false, next, debit := remain, out }

/-- The exact arithmetic of one step, which the static and the dynamic loop have in common. -/
def segment (zero feeInput : Bool) (fee target sqrt liquidity remain : ℕ) : NativeResult Step := do
  let need ← needed zero sqrt target liquidity
  if need ≤ available feeInput fee remain then fullStep zero feeInput fee target sqrt liquidity need
  else partialStep zero feeInput fee sqrt liquidity remain

namespace ClmmCurve

variable {τ : Type} (c : ClmmCurve τ)

/-- Whether the fee is taken from what goes in. -/
def feeInput (zero : Bool) : Bool := c.feeOn = 0 ∨ c.feeOn = if zero = true then 1 else 2

/-- `ticks.partition_point(|t| t.index <= current)`, for the index of a tick. -/
def startCursor (index : τ → ℤ) : ℕ := (c.ticks.takeWhile fun t => index t ≤ c.current).length

/-- The end of a quote. -/
def finish (remain output : ℕ) : NativeResult ℕ :=
  if remain ≠ 0 ∨ output = 0 then .error .capacity else c.outputFee.net output

end ClmmCurve

/-! ### The dynamic path -/

/-- The loop of a quote with dynamic fees. -/
structure Spot where
  remain : ℕ
  output : ℕ
  sqrt : ℕ
  liquidity : ℕ
  index : ℤ
  steps : ℕ
  fee : DynamicFee
  deriving DecidableEq

/-- Where a round ends: at the tick when it skips the groups, else at the end of the price group. -/
def groupBound (spacing : ℤ) (zero skipped : Bool) (index : ℤ) (target : ℕ) : NativeResult ℕ := do
  if skipped = true then .ok target else
  let group ← (if zero = true then .ok index else i32Fits (index + 1))
  let boundary ← i32Fits (group * spacing)
  let price ← sqrtTick (max (-443636) (min boundary 443636))
  .ok (if zero = true then max target price else min target price)

/-- The move of a round. -/
def groupMove (zero feeInput : Bool) (fee bound : ℕ) (s : Spot) : NativeResult Spot := do
  if s.sqrt = bound then .ok s else
  let step ← segment zero feeInput fee bound s.sqrt s.liquidity s.remain
  let remain ← sub s.remain step.debit
  let output ← wordAdd s.output step.out
  .ok { s with remain, output, sqrt := step.next }

/-- The group after a round. One that skipped the groups and goes on has come to the tick. -/
def groupAfter (spacing : ℤ) (zero skipped : Bool) (index : ℤ) (s : Spot) : NativeResult ℤ := do
  let here ← (if skipped = true ∧ 0 < s.remain then
      if zero = false ∧ index.tmod spacing = 0 then i32Op (index / spacing - 1) else .ok (index / spacing)
    else .ok s.index)
  i32Fits (here + if zero = true then -1 else 1)

/-- One round of the inner loop: a price group, or all of them up to the tick. -/
def groupStep (spacing : ℤ) (base : ℕ) (zero feeInput : Bool) (index : ℤ) (target : ℕ) (s : Spot) :
    NativeResult Spot := do
  if 16384 < s.steps + 1 then .error .capacity else
  let dynamic ← s.fee.update s.index
  let fee ← dynamic.total base spacing
  let skipped := decide (s.liquidity = 0 ∨ dynamic.capped = true)
  let bound ← groupBound spacing zero skipped s.index target
  if Behind zero bound s.sqrt then .error .layout else
  let moved ← groupMove zero feeInput fee bound s
  let after ← groupAfter spacing zero skipped index moved
  .ok { moved with index := after, steps := s.steps + 1, fee := dynamic }

/-- The inner loop, up to a tick. A round counts a step and more than 16384 steps end it, so as many
rounds are enough. -/
def toTick (spacing : ℤ) (base : ℕ) (zero feeInput : Bool) (index : ℤ) (target : ℕ) :
    ℕ → Spot → NativeResult Spot
  | 0, _ => .error .capacity
  | fuel + 1, s => do
    let s ← groupStep spacing base zero feeInput index target s
    if s.remain = 0 ∨ s.sqrt = target then .ok s else toTick spacing base zero feeInput index target fuel s

section Dynamic

variable {τ : Type} {m : Type → Type} [Monad m] (run : {α : Type} → NativeResult α → m α)
  (price : ℕ → m ℕ) (ticks : List (ℤ × ℤ)) (spacing : ℤ) (base : ℕ) (zero feeInput : Bool)

/-- The outer loop, over the ticks. Every round takes one more tick, so one round more than there are
ticks is enough. The price of a tick is an operation of its own because it may write a cell. -/
def dynamicRounds : ℕ → ℕ → Spot → m Spot
  | 0, _, _ => run (.error .capacity)
  | fuel + 1, cursor, s => do
    if s.remain = 0 then return s
    let (place, cursor) ← run (okOr (nextTick zero ticks.length cursor) .capacity)
    let (index, net) := ticks.getD place default
    let target ← price place
    if Behind zero target s.sqrt then run (.error .layout) else
    let s ← run (toTick spacing base zero feeInput index target 16385 s)
    let liquidity ← run (if s.sqrt = target then change s.liquidity net zero else .ok s.liquidity)
    dynamicRounds fuel cursor { s with liquidity }

/-- `quote_dynamic`. -/
def quoteDynamic (c : ClmmCurve τ) (index : τ → ℤ) (input : ℕ) (dynamic : DynamicFee) : m ℕ := do
  let remain ← run (c.inputFee.net input)
  let s ← dynamicRounds run price ticks c.spacing c.fee zero (c.feeInput zero) (ticks.length + 1)
    (c.startCursor index)
    { remain, output := 0, sqrt := c.sqrt, liquidity := c.liquidity
      index := c.current / c.spacing
      steps := 0
      fee := dynamic }
  run (c.finish 0 s.output)

end Dynamic

/-! ### The quote without cells -/

namespace ClmmCurve

variable (c : ClmmCurve Tick)

/-- One round of the static loop. -/
def round (zero : Bool) (w : Walk) : NativeResult Walk := do
  let (place, cursor) ← okOr (nextTick zero c.ticks.length w.cursor) .capacity
  let t := c.ticks.getD place default
  if Behind zero t.sqrt w.sqrt then .error .layout else
  if w.liquidity = 0 then do
    let liquidity ← change w.liquidity t.net zero
    .ok { w with liquidity, sqrt := t.sqrt, cursor }
  else do
    let step ← segment zero (c.feeInput zero) c.fee t.sqrt w.sqrt w.liquidity w.remain
    let remain ← sub w.remain step.debit
    let output ← wordAdd w.output step.out
    if step.reached = true then do
      let liquidity ← change w.liquidity t.net zero
      .ok { remain, output, sqrt := step.next, liquidity, cursor }
    else .ok { w with remain, output, sqrt := step.next, cursor }

/-- The static loop. -/
def rounds (zero : Bool) : ℕ → Walk → NativeResult Walk
  | 0, w => .ok w
  | fuel + 1, w => if w.remain = 0 then .ok w else do
    let w ← c.round zero w
    rounds zero fuel w

/-- `quote`, built without `lazy-ticks`. -/
def quote (input : ℕ) (zero : Bool) : NativeResult ℕ := do
  if input = 0 ∨ maxInput < input then .error .capacity else
  match c.dynamic with
  | some dynamic =>
    quoteDynamic id (fun place => .ok (c.ticks.getD place default).sqrt)
      (c.ticks.map fun t => (t.index, t.net)) zero c Tick.index input dynamic
  | none => do
    let remain ← c.inputFee.net input
    let w ← c.rounds zero (c.ticks.length + 1)
      { remain, output := 0, sqrt := c.sqrt, liquidity := c.liquidity
        cursor := c.startCursor Tick.index }
    c.finish w.remain w.output

end ClmmCurve

/-! ### The quote with cells -/

namespace LazyCurve

/-- Write the cells of the tick at a place. -/
def setTick (place : ℕ) (f : LazyTick → LazyTick) : Comp NativeError LazyCurve Unit :=
  modify fun c => { c with ticks := c.ticks.modify place f }

/-- `Tick::price`. -/
def price (place : ℕ) : Comp NativeError LazyCurve ℕ := do
  let c ← get
  let t := c.ticks.getD place default
  if t.sqrt ≠ 0 then return t.sqrt
  let p ← lift (sqrtTick t.index)
  setTick place fun t => { t with sqrt := p }
  return p

/-- One round of the static loop. -/
def round (zero : Bool) (w : Walk) : Comp NativeError LazyCurve Walk := do
  let c ← get
  let (place, cursor) ← lift (okOr (nextTick zero c.ticks.length w.cursor) .capacity)
  let target ← price place
  if Behind zero target w.sqrt then fail .layout else
  let t := c.ticks.getD place default
  if t.stepGeneration = c.cacheGeneration ∧ t.stepDebit ≤ w.remain then do
    let output ← lift (wordAdd w.output t.stepOutput)
    let liquidity ← lift (change w.liquidity t.net zero)
    return { remain := w.remain - t.stepDebit, output, sqrt := target, liquidity, cursor }
  else if w.liquidity = 0 then do
    let liquidity ← lift (change w.liquidity t.net zero)
    return { w with liquidity, sqrt := target, cursor }
  else do
    let step ← lift (segment zero (c.feeInput zero) c.fee target w.sqrt w.liquidity w.remain)
    let remain ← lift (sub w.remain step.debit)
    let output ← lift (wordAdd w.output step.out)
    if step.reached = true then do
      setTick place fun t => { t with
        stepDebit := step.debit
        stepOutput := step.out
        stepGeneration := c.cacheGeneration }
      let liquidity ← lift (change w.liquidity t.net zero)
      return { remain, output, sqrt := step.next, liquidity, cursor }
    else return { w with remain, output, sqrt := step.next, cursor }

/-- The static loop. -/
def rounds (zero : Bool) : ℕ → Walk → Comp NativeError LazyCurve Walk
  | 0, w => pure w
  | fuel + 1, w => if w.remain = 0 then pure w else do
    let w ← round zero w
    rounds zero fuel w

/-- Turn the cache to a direction: the steps of the other one are revoked. -/
def turn (zero : Bool) : Comp NativeError LazyCurve Unit := do
  let c ← get
  modify fun c => { c with cacheDirection := zero }
  revokeIf (c.cacheDirection ≠ zero)

/-- `quote`, built with `lazy-ticks`. -/
def quote (input : ℕ) (zero : Bool) : Comp NativeError LazyCurve ℕ := do
  if input = 0 ∨ maxInput < input then fail .capacity else
  let c ← get
  match c.dynamic with
  | some dynamic =>
    quoteDynamic lift price (c.ticks.map fun t => (t.index, t.net)) zero c.toClmmCurve LazyTick.index
      input dynamic
  | none => do
    let remain ← lift (c.inputFee.net input)
    turn zero
    let w ← rounds zero (c.ticks.length + 1)
      { remain, output := 0, sqrt := c.sqrt, liquidity := c.liquidity
        cursor := c.startCursor LazyTick.index }
    lift (c.finish w.remain w.output)

end LazyCurve

end StockMesh.Native

import StockMesh.Native.DynamicFee
import Mathlib.Data.List.Sort

/-! # Whirlpool pools

`decode` compiles one direction of a pool into a table of segments: every segment stores where it begins,
and what has gone in and come out before it and after it, with the fee and the rounding of each step. A
quote looks its segment up and takes one exact step in it (`Table.quote`). -/

namespace StockMesh.Native.Orca

/-- The tick factors above price one (`POS`). -/
def pos : List ℕ :=
  [79232123823359799118286999567, 79236085330515764027303304731, 79244008939048815603706035061,
    79259858533276714757314932305, 79291567232598584799939703904, 79355022692464371645785046466,
    79482085999252804386437311141, 79736823300114093921829183326, 80248749790819932309965073892,
    81282483887344747381513967011, 83390072131320151908154831281, 87770609709833776024991924138,
    97234110755111693312479820773, 119332217159966728226237229890, 179736315981702064433883588727,
    407748233172238350107850275304, 2098478828474011932436660412517, 55581415166113811149459800483533,
    38992368544603139932233054999993551]

/-- The tick factors below price one (`NEG`). -/
def neg : List ℕ :=
  [18445821805675392311, 18444899583751176498, 18443055278223354162, 18439367220385604838,
    18431993317065449817, 18417254355718160513, 18387811781193591352, 18329067761203520168,
    18212142134806087854, 17980523815641551639, 17526086738831147013, 16651378430235024244,
    15030750278693429944, 12247334978882834399, 8131365268884726200, 3584323654723342297,
    696457651847595233, 26294789957452057, 37481735321082]

/-- `sqrt_tick`. -/
def sqrtTick (tick : ℤ) : NativeResult ℕ := do
  if tick < -443636 ∨ 443636 < tick then .error .layout else
  let n := tick.natAbs
  let shift := if 0 ≤ tick then 96 else 64
  let factors := if 0 ≤ tick then pos else neg
  let p ← (List.range factors.length).foldlM (fun p i =>
      if n.testBit i = true then do
        let y ← mul p (factors.getD i 0)
        .ok (y / 2 ^ shift)
      else .ok p) (2 ^ shift)
  small (if 0 ≤ tick then p / 2 ^ 32 else p)

/-- An initialized tick. -/
structure Tick where
  index : ℤ
  net : ℤ
  deriving DecidableEq

instance : Inhabited Tick := ⟨⟨0, 0⟩⟩

/-- The adaptive fee of a pool. -/
structure Adaptive where
  group : ℤ
  reference : ℤ
  volatility : ℕ
  maximum : ℕ
  control : ℕ
  deriving DecidableEq

/-- `d[lo..hi].iter().any(|b| *b != 0)`. -/
def anyByte (d : Buffer) (lo hi : ℕ) : Bool := (List.range (hi - lo)).any fun i => d.byte (lo + i) ≠ 0

/-- `Adaptive::decode`. -/
def Adaptive.decode (key : Key) (d : Buffer) (now : ℕ) (current : ℤ) : NativeResult Adaptive := do
  if d.size ≠ 254 ∨ d.slice 0 8 ≠ some [139, 194, 131, 179, 140, 179, 229, 244] ∨
      (d.slice 8 32).map Key.ofBytes ≠ some key then .error .unsupported else
  let opens ← uintAt d 40 8
  if now < opens ∨ anyByte d 66 82 = true ∨ anyByte d 110 254 = true then .error .unsupported else
  let filter ← uintAt d 48 2
  let decay ← uintAt d 50 2
  let reduction ← uintAt d 52 2
  let control ← uintAt d 54 4
  let maximum ← uintAt d 58 4
  let group ← uintAt d 62 2
  let last ← uintAt d 82 8
  let major ← uintAt d 90 8
  let volatility ← uintAt d 98 4
  let reference ← intAt d 102 4
  let accumulator ← uintAt d 106 4
  if group = 0 ∨ decay < filter ∨ 10000 < reduction ∨ now < last ∨ now < major ∨
      maximum < volatility ∨ maximum < accumulator then .error .layout else
  let elapsed := now - max last major
  if 3600 ≤ now - last ∨ decay ≤ elapsed then
    .ok { group, reference := current / group, volatility := 0, maximum, control }
  else if filter ≤ elapsed then
    .ok
      { group
        reference := current / group
        volatility := accumulator * reduction / 10000
        maximum, control }
  else .ok { group, reference, volatility, maximum, control }

/-- `Adaptive::rate`: the rate of a group, and whether its volatility is at the maximum. -/
def Adaptive.rate (a : Adaptive) (index : ℤ) (base : ℕ) : NativeResult (ℕ × Bool) := do
  let distance := (index - a.reference).natAbs
  let scaled ← word (distance * 10000)
  let reached ← wordAdd a.volatility scaled
  let v := min reached a.maximum
  let crossed := v * a.group.toNat
  let squared ← small (crossed * crossed)
  let numerator ← small (squared * a.control)
  .ok (min (base + numerator ⌈/⌉ 10000000000000) 100000, decide (v = a.maximum))

/-! ## Reading the arrays -/

/-- One of the 88 places of a tick array: the cursor and the ticks so far. -/
def scanTick (dynamic : Bool) (bitmap : ℕ) (d : Buffer) (start spacing : ℤ) (scan : ℕ × List Tick)
    (i : ℕ) : NativeResult (ℕ × List Tick) := do
  let (cursor, ticks) := scan
  let tag ← uintAt d cursor 1
  if 1 < tag ∨ (dynamic = true ∧ (bitmap.testBit i).toNat ≠ tag) then .error .layout else
  if tag = 0 then .ok (cursor + if dynamic = true then 1 else 113, ticks) else
  let net ← intAt d (cursor + 1) 16
  let gross ← uintAt d (cursor + 17) 16
  if gross = 0 ∨ gross < net.natAbs then .error .layout else
  .ok (cursor + 113, ticks ++ [{ index := start + i * spacing, net }])

/-- Where the ticks of an array begin, and the bitmap of a dynamic one. -/
def arrayHead (key : Key) (dynamic : Bool) (d : Buffer) : NativeResult (ℕ × ℕ) := do
  if dynamic = true then do
    if d.size < 148 ∨ 10004 < d.size ∨ (d.slice 12 32).map Key.ofBytes ≠ some key then
      .error .layout else
    let bitmap ← uintAt d 44 16
    if bitmap / 2 ^ 88 ≠ 0 then .error .layout else .ok (60, bitmap)
  else if d.size ≠ 9988 ∨ d.slice 0 8 ≠ some [69, 97, 189, 190, 110, 7, 66, 187] ∨
      (d.slice 9956 32).map Key.ofBytes ≠ some key then .error .unsupported
  else .ok (12, 0)

/-- One tick array: its start and its initialized ticks. -/
def decodeArray (key : Key) (spacing : ℤ) (d : Buffer) : NativeResult (ℤ × List Tick) := do
  let tag ← bytesAt d 0 8
  let dynamic := decide (tag = [17, 216, 246, 142, 225, 199, 218, 56])
  let start ← intAt d 8 4
  if start % (88 * spacing) ≠ 0 ∨ start < -443636 - 88 * spacing ∨ 443636 < start then .error .layout else
  let (first, bitmap) ← arrayHead key dynamic d
  let (cursor, ticks) ← (List.range 88).foldlM (scanTick dynamic bitmap d start spacing) (first, [])
  if dynamic = true ∧ cursor ≠ d.size then .error .layout else
  .ok (start, ticks)

/-- Consecutive arrays follow each other without a gap. -/
def checkGaps (width : ℤ) : List ℤ → NativeResult Unit
  | a :: b :: starts =>
    if b - a ≠ width then .error .unsupported else checkGaps width (b :: starts)
  | _ => .ok ()

/-! ## The steps of a pool -/

/-- Where a swap stands. -/
structure Spot where
  current : ℤ
  sqrt : ℕ
  liquidity : ℕ
  deriving DecidableEq

/-- One step: its tick, its end, the rate of its group, what it needs, costs and pays out. -/
structure Plan where
  tick : Tick
  target : ℤ
  rate : ℕ
  price : ℕ
  need : ℕ
  debit : ℕ
  out : ℕ

/-- What all steps of a compiled direction have in common. -/
structure Course where
  ticks : List Tick
  adaptive : Option Adaptive
  fee : ℕ
  zero : Bool
  boundary : ℤ

namespace Course

variable (c : Course)

/-- The next initialized tick. -/
def nextTick (current : ℤ) : Option Tick :=
  if c.zero = true then c.ticks.reverse.find? fun t => t.index ≤ current
  else c.ticks.find? fun t => current < t.index

/-- Whether a group lies so far from the reference that its rate stays at the maximum. -/
def movingAway (a : Adaptive) (group : ℤ) : Bool :=
  decide (if c.zero = true then group < a.reference else a.reference < group) &&
    decide ((a.maximum - a.volatility) ⌈/⌉ 10000 < (group - a.reference).natAbs)

/-- The rate and the end of a step towards a tick. With an adaptive fee the step ends with its group. -/
def pace (s : Spot) (index : ℤ) : NativeResult (ℕ × ℤ) :=
  match c.adaptive with
  | none => .ok (c.fee, index)
  | some a => do
    let group := s.current / a.group
    let (rate, maxed) ← a.rate group c.fee
    if 0 < s.liquidity ∧ 0 < a.control ∧ ¬(maxed = true ∧ c.movingAway a group = true) then
      .ok (rate, if c.zero = true then max index (group * a.group) else min index ((group + 1) * a.group))
    else .ok (rate, index)

/-- The next step, if there is a tick. -/
def plan (s : Spot) : NativeResult (Option Plan) :=
  match c.nextTick s.current with
  | none => .ok none
  | some tick => do
    let (rate, target) ← c.pace s tick.index
    let price ← sqrtTick target
    if c.zero = true ∧ s.sqrt < price ∨ c.zero = false ∧ price < s.sqrt then .error .layout else
    let need ← needed c.zero s.sqrt price s.liquidity
    let charged ← mul need rate
    let fee ← div charged (feeUnit - rate) true
    let debit ← wideAdd need fee
    let out ← payout c.zero s.sqrt price s.liquidity
    .ok (some { tick, target, rate, price, need, debit, out })

/-- The spot after a step. -/
def after (s : Spot) (p : Plan) : NativeResult Spot := do
  let liquidity ← (if p.target = p.tick.index then change s.liquidity p.tick.net c.zero
    else .ok s.liquidity)
  .ok { current := if c.zero = true then p.target - 1 else p.target, sqrt := p.price, liquidity }

end Course

/-! ## The table -/

/-- A segment of the table. -/
structure Segment where
  sqrt : ℕ
  liquidity : ℕ
  fee : ℕ
  beforeInput : ℕ
  beforeOutput : ℕ
  endInput : ℕ
  endOutput : ℕ
  deriving DecidableEq

/-- The segments from a spot on, after `spent` has gone in and `output` has come out. -/
def Course.compile (c : Course) : ℕ → Spot → (spent output : ℕ) → NativeResult (List Segment)
  | 0, _, _, _ => .ok []
  | fuel + 1, s, spent, output => do
    match ← c.plan s with
    | none => .ok []
    | some p =>
      let segment : Segment :=
        { sqrt := s.sqrt, liquidity := s.liquidity, fee := p.rate
          beforeInput := spent, beforeOutput := output
          endInput := spent + p.debit, endOutput := output + p.out }
      if u64Size - 1 - spent < p.debit ∨ u64Size - 1 - output < p.out then
        -- no bounded input reaches the end of this segment
        .ok [{ segment with endInput := u64Size - 1, endOutput := output }]
      else do
        let next ← c.after s p
        let rest ← (if p.target = c.boundary ∨ maxInput < spent + p.debit then .ok []
          else compile c fuel next (spent + p.debit) (output + p.out))
        -- a step that costs nothing is not stored
        .ok (if 0 < p.debit then segment :: rest else rest)

/-- A compiled direction of a pool (`OrcaCurve`). -/
structure Table where
  segments : List Segment
  zero : Bool
  fees : TransferFee × TransferFee
  deriving DecidableEq

/-- What `decode` reads before it compiles: the steps of the direction and where they begin. -/
def course (key : Key) (pool : Buffer) (arrays : List Buffer) (oracle : Option Buffer) (time : ℕ)
    (zero : Bool) : NativeResult (Course × Spot) := do
  if pool.size ≠ 653 ∨ pool.slice 0 8 ≠ some [63, 149, 209, 12, 225, 128, 99, 9] ∨ arrays = [] ∨
      6 < arrays.length then .error .layout else
  let spacing ← uintAt pool 41 2
  let fee ← uintAt pool 45 2
  let current ← intAt pool 81 4
  let sqrt ← uintAt pool 65 16
  let liquidity ← uintAt pool 49 16
  if spacing = 0 ∨ current < -443636 ∨ 443636 ≤ current then .error .layout else
  let lo ← sqrtTick current
  if sqrt < lo then .error .layout else
  let hi ← sqrtTick (current + 1)
  if hi < sqrt then .error .layout else
  let tier ← uintAt pool 43 2
  let adaptive ← (if tier = spacing then .ok none else do
    let oracle ← okOr oracle .unsupported
    let a ← Adaptive.decode key oracle time current
    .ok (some a))
  let decoded ← arrays.mapM (decodeArray key spacing)
  let starts := (decoded.map Prod.fst).insertionSort (· ≤ ·)
  checkGaps (88 * spacing) starts
  let lower := max (starts.headD 0) (-443636)
  let upper := min (starts.getLastD 0 + 88 * spacing - 1) 443636
  if current < lower ∨ upper < current then .error .capacity else
  let ticks := (decoded.flatMap Prod.snd).insertionSort fun a b => a.index ≤ b.index
  let boundary := if zero = true then lower else upper
  let ticks := if ticks.any (fun t => t.index = boundary) = true then ticks
    else (ticks ++ [(⟨boundary, 0⟩ : Tick)]).insertionSort fun a b => a.index ≤ b.index
  .ok ({ ticks, adaptive, fee, zero, boundary }, { current, sqrt, liquidity })

/-- `OrcaCurve::decode`. -/
def Table.decode (key : Key) (pool : Buffer) (arrays : List Buffer) (oracle : Option Buffer)
    (fees : TransferFee × TransferFee) (time : ℕ) (zero : Bool) : NativeResult Table := do
  let (c, s) ← course key pool arrays oracle time zero
  let segments ← c.compile 2048 s 0 0
  if segments = [] ∨ 2048 ≤ segments.length then .error .capacity else
  .ok { segments, zero, fees }

/-- The last step of a swap, which ends inside its segment. One that has bought nothing is refused. -/
def lastStep (zero : Bool) (sqrt liquidity fee remaining output : ℕ) : NativeResult ℕ := do
  let net := Rounding.net feeUnit fee remaining
  let next ← partialPrice zero sqrt liquidity net
  let out ← payout zero sqrt next liquidity
  let out ← word out
  let result ← wordAdd output out
  if result = 0 then .error .capacity else .ok result

/-- The output of the table for what is left of an input. -/
def Table.lookup (t : Table) (available : ℕ) : NativeResult ℕ := do
  let place := (t.segments.takeWhile fun s => s.endInput < available).length
  let s ← okOr t.segments[place]? .capacity
  if s.endInput = available then .ok s.endOutput else
  if available < s.beforeInput ∨ s.liquidity = 0 then .error .capacity else
  lastStep t.zero s.sqrt s.liquidity s.fee (available - s.beforeInput) s.beforeOutput

/-- `OrcaCurve::quote`. -/
def Table.quote (t : Table) (input : ℕ) : NativeResult ℕ := do
  if input = 0 ∨ maxInput < input then .error .capacity else
  let available ← t.fees.1.net input
  let result ← t.lookup available
  t.fees.2.net result

end StockMesh.Native.Orca

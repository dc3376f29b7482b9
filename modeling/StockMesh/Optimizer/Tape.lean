import StockMesh.Optimizer.Waterfill

/-! # The residual tape

`ResidualTape.build` merges the selected curves once and keeps a prefix row for every band: how many
complete bands each venue owns so far. `allocate` then answers an amount over any sub-mask by rank
and select over these rows. Two builders emit the rows, a pair of heads for at most two venues and an
eight-leaf tournament repaired along one path for more. -/

namespace StockMesh

open Budgeted Stateful Function

/-- Most rows of a tape after the empty one (`MAX_BANDS`). -/
def maxBands : ℕ := maxEdges * maxSegments

/-- Prefix sums of a curve: entry `j` is for `j` complete bands. -/
structure IndexedCurve where
  capacity : ℕ → ℕ := fun _ => 0
  integral : ℕ → ℕ := fun _ => 0
  rates : ℕ → ℕ := fun _ => 0
  len : ℕ := 0

/-- The tape: `prefixRows k i` counts the complete bands of venue `i` among the first `k`, and
`owner k` owns band `k`. -/
structure ResidualTape where
  prefixRows : ℕ → Edge → ℕ
  owner : ℕ → Edge
  curves : Edge → IndexedCurve
  bands : ℕ
  edges : ℕ
  compiledMask : Mask

/-- `winner`: the left head unless it is exhausted or strictly worse; `none` is `NO_EDGE`. -/
def winner (left right : Option Edge) (rates : Edge → ℕ) : Option Edge :=
  match left, right with
  | none, _ => right
  | some _, none => left
  | some l, some r => if rates r ≤ rates l then left else right

namespace ResidualTape

/-! ## Building -/

/-- One band of the prefix sums, with the running capacity and integral. -/
def indexStep (c : Curve) (acc : IndexedCurve × ℕ × ℕ) (j : ℕ) :
    Metered (IndexedCurve × ℕ × ℕ) := do
  charge 1
  let s := bandAt c j
  let cap := acc.2.1 + s.inputCapacity
  let integral := acc.2.2 + s.inputCapacity * s.marginalQ32
  pure
    ({ acc.1 with
       capacity := update acc.1.capacity (j + 1) cap
       integral := update acc.1.integral (j + 1) integral
       rates := update acc.1.rates j s.marginalQ32 }, cap, integral)

/-- The heads under construction: the leaf of each selected venue and its current rate. -/
structure Heads where
  curves : Edge → IndexedCurve
  winners : ℕ → Option Edge
  rates : Edge → ℕ

/-- Index one selected venue and set its leaf. -/
def indexVenue (curves : List Curve) (mask : Mask) (h : Heads) (i : Edge) : Metered Heads := do
  if mask.has i = false then
    pure h
  else
    let c := curveAt curves i
    lift c.validate
    let indexed ← (List.range c.len).foldlM (indexStep c) ({ len := c.len }, 0, 0)
    pure
      { curves := update h.curves i indexed.1
        winners := update h.winners (maxEdges + i.val) (some i)
        rates := update h.rates i (bandAt c 0).marginalQ32 }

/-- Append a row for a band of venue `i`. -/
def push (t : ResidualTape) (i : Edge) : ResidualTape :=
  let k := t.bands + 1
  let row := t.prefixRows (k - 1)
  { t with
    prefixRows := update t.prefixRows k (update row i (row i + 1))
    owner := update t.owner k i
    bands := k }

/-- The loop over two heads. The first argument bounds its turns by the number of bands. -/
def twoHeads (curves : List Curve) :
    ℕ → ResidualTape → (Edge → ℕ) → (Edge → ℕ) → Option Edge → Option Edge → Metered ResidualTape
  | 0, _, _, _, _, _ => fail .overflow
  | n + 1, t, cursor, rates, left, right => do
    charge 1
    match winner left right rates with
    | none => pure t
    | some i =>
      let t := t.push i
      let cursor := update cursor i (cursor i + 1)
      if cursor i < (curveAt curves i).len then
        let rates := update rates i (bandAt (curveAt curves i) (cursor i)).marginalQ32
        twoHeads curves n t cursor rates left right
      else if left = some i then
        twoHeads curves n t cursor rates none right
      else
        twoHeads curves n t cursor rates left none

/-- Recompute the winner of one inner node. -/
def replay (rates : Edge → ℕ) (winners : ℕ → Option Edge) (node : ℕ) :
    Metered (ℕ → Option Edge) := do
  charge 1
  pure (update winners node (winner (winners (node * 2)) (winners (node * 2 + 1)) rates))

/-- The ancestors of a leaf, from the parent up to the root: `node /= 2` until zero. -/
def ancestors (i : Edge) : List ℕ := [(maxEdges + i.val) / 2, (maxEdges + i.val) / 4, 1]

/-- The inner nodes from the last to the root, `(1..MAX_EDGES).rev()`. -/
def innerNodes : List ℕ := [7, 6, 5, 4, 3, 2, 1]

/-- The tournament loop. The first argument bounds its turns by the number of bands. -/
def tournament (curves : List Curve) :
    ℕ → ResidualTape → (Edge → ℕ) → (Edge → ℕ) → (ℕ → Option Edge) → Metered ResidualTape
  | 0, _, _, _, _ => fail .overflow
  | n + 1, t, cursor, rates, winners => do
    match winners 1 with
    | none => pure t
    | some i =>
      let t := t.push i
      let cursor := update cursor i (cursor i + 1)
      -- either the next band of the venue competes, or its leaf is exhausted
      let open_ := cursor i < (curveAt curves i).len
      let rates :=
        if open_ then update rates i (bandAt (curveAt curves i) (cursor i)).marginalQ32 else rates
      let winners := if open_ then winners else update winners (maxEdges + i.val) none
      let winners ← (ancestors i).foldlM (replay rates) winners
      tournament curves n t cursor rates winners

/-- `ResidualTape::build`. -/
def build (curves : List Curve) (mask : Mask) : Metered ResidualTape := do
  lift (rejectIf (curves.length = 0 ∨ maxEdges < curves.length ∨ mask = 0 ∨
    2 ^ curves.length ≤ mask.toNat) .bounds)
  let heads ← (venues curves.length).foldlM (indexVenue curves mask)
    { curves := fun _ => {}, winners := fun _ => none, rates := fun _ => 0 }
  let t : ResidualTape :=
    { prefixRows := fun _ _ => 0
      owner := fun _ => 0
      curves := heads.curves
      bands := 0
      edges := curves.length
      compiledMask := mask }
  if mask.countOnes ≤ 2 then
    let left := mask.trailingZeros
    let rest := mask.clearLowest
    let right := if rest = 0 then none else some rest.trailingZeros
    twoHeads curves (maxBands + 1) t (fun _ => 0) heads.rates (some left) right
  else
    let winners ← innerNodes.foldlM (replay heads.rates) heads.winners
    tournament curves (maxBands + 1) t (fun _ => 0) heads.rates winners

/-! ## Matching curves against a tape -/

/-- Compare the bands of a curve with an indexed one, from band `j` and running `capacity`; the
final capacity if all agree. -/
def matchBands (ix : IndexedCurve) : List Segment → ℕ → ℕ → Option ℕ
  | [], _, capacity => some capacity
  | s :: rest, j, capacity =>
    let sum := capacity + s.inputCapacity
    if u64Size ≤ sum then none
    else if sum ≠ ix.capacity (j + 1) ∨ s.marginalQ32 ≠ ix.rates j then none
    else matchBands ix rest (j + 1) sum

/-- The test of `matches` for one selected venue. -/
def matchesVenue (t : ResidualTape) (c : Curve) (i : Edge) : Bool :=
  c.len = (t.curves i).len ∧ c.len ≤ maxSegments ∧
    matchBands (t.curves i) c.bands 0 0 = some c.capacity

/-- `ResidualTape::matches`. -/
def matchesCurves (t : ResidualTape) (curves : List Curve) (mask : Mask) : Bool :=
  curves.length = t.edges ∧ mask.Within t.compiledMask ∧
    ∀ i ∈ venues curves.length, mask.has i = true → t.matchesVenue (curveAt curves i) i = true

/-! ## Rank and select -/

/-- `rank`: atoms of the complete bands of the selected venues up to a row. -/
def rank (t : ResidualTape) (row : ℕ) (mask : Mask) : Metered ℕ :=
  mask.edges.foldlM (fun sum i => do
    charge 1
    pure (sum + (t.curves i).capacity (t.prefixRows row i))) 0

/-- The bisection `while lo < hi` for the first index that reaches the amount. The first argument
bounds its turns. -/
def bisect (reaches : ℕ → Metered Bool) : ℕ → ℕ → ℕ → Metered ℕ
  | 0, lo, _ => pure lo
  | n + 1, lo, hi => do
    if lo < hi then
      let mid := lo + (hi - lo) / 2
      if ← reaches mid then bisect reaches n lo mid else bisect reaches n (mid + 1) hi
    else
      pure lo

/-- The branch for a single selected venue: search its own bands. -/
def allocateOne (t : ResidualTape) (lower : Bool) (amount : ℕ) (mask : Mask)
    (curves : List Curve) : Metered Allocation := do
  charge 1
  let i := mask.trailingZeros
  let curve := t.curves i
  if curve.capacity curve.len < amount then
    fail .capacity
  else
    let row ← bisect (fun mid => do
      charge 1
      pure (decide (amount ≤ curve.capacity mid))) maxSegments 1 curve.len
    let before := row - 1
    let beyond ← lift (subUint amount (curve.capacity before))
    let integral := curve.integral before + beyond * curve.rates before
    let output ← lift (asU64 (integral / scale))
    pure
      { inputs := update (fun _ => 0) i amount
        output := if lower then output - (curveAt curves i).lowerErrorAtoms else output
        mask := mask }

/-- Collect the complete bands of one venue before the marginal one. -/
def takeComplete (t : ResidualTape) (before : ℕ) (acc : (Edge → ℕ) × ℕ) (i : Edge) :
    Metered ((Edge → ℕ) × ℕ) := do
  charge 1
  let taken := (t.curves i).capacity (t.prefixRows before i)
  pure (update acc.1 i taken, acc.2 + taken)

/-- What the last loop of `allocate_inner` accumulates: the mask, the integral and the sum of
conservative outputs. -/
structure Outputs where
  mask : Mask := 0
  integral : ℕ := 0
  lower : ℕ := 0

/-- One venue of the last loop. -/
def addOutput (t : ResidualTape) (lower : Bool) (curves : List Curve) (before : ℕ) (last : Edge)
    (marginal : ℕ) (inputs : Edge → ℕ) (acc : Outputs) (i : Edge) : Result Outputs := do
  if 0 < inputs i then
    let completed := t.prefixRows before i
    let venue := (t.curves i).integral completed
      + (if i = last then marginal * (t.curves i).rates completed else 0)
    let sum ← if lower then do
        let output ← asU64 (venue / scale)
        checkedAdd acc.lower (output - (curveAt curves i).lowerErrorAtoms)
      else .ok acc.lower
    .ok { mask := acc.mask ||| Mask.bit i, integral := acc.integral + venue, lower := sum }
  else
    .ok acc

/-- `allocate_inner`; the flag is its constant parameter `LOWER`. -/
def allocateInner (t : ResidualTape) (lower : Bool) (amount : ℕ) (mask : Mask)
    (curves : List Curve) : Metered Allocation := do
  lift (rejectIf (amount = 0 ∨ maxAtoms < amount) .invalidAmount)
  lift (rejectIf (mask = 0 ∨ ¬mask.Within t.compiledMask) .bounds)
  if mask.countOnes = 1 then
    t.allocateOne lower amount mask curves
  else
    let total ← t.rank t.bands mask
    if total < amount then
      fail .capacity
    else
      let row ← bisect (fun mid => do
        let sum ← t.rank mid mask
        pure (decide (amount ≤ sum))) maxBands 1 t.bands
      let before := row - 1
      let taken ← mask.edges.foldlM (t.takeComplete before) (fun _ => 0, 0)
      let last := t.owner row
      let marginal ← lift (subUint amount taken.2)
      let inputs := update taken.1 last (taken.1 last + marginal)
      let outputs ← lift
        (mask.edges.foldlM (t.addOutput lower curves before last marginal inputs) {})
      let output ← lift (asU64 (outputs.integral / scale))
      pure
        { inputs := inputs
          output := if lower then outputs.lower else output
          mask := outputs.mask }

/-- `allocate`. -/
def allocate (t : ResidualTape) (amount : ℕ) (mask : Mask) : Metered Allocation :=
  t.allocateInner false amount mask []

/-- `allocate_lower`. -/
def allocateLower (t : ResidualTape) (amount : ℕ) (mask : Mask) (curves : List Curve) :
    Metered Allocation :=
  t.allocateInner true amount mask curves

end ResidualTape

end StockMesh

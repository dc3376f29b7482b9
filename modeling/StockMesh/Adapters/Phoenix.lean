import StockMesh.Adapters.Layout

/-! # The Phoenix order book

A read-only walk of a Phoenix market account: its header, the tree of traders and the two order
trees. A quote visits at most `matches` orders in book order. It rejects a wallet whose own orders
would match and a wallet with free deposits on the input side, since the venue would spend those
first. -/

namespace StockMesh

/-- What the header of a market fixes (`PhoenixHeader`). -/
structure PhoenixHeader where
  baseMint : Key
  quoteMint : Key
  baseVault : Key
  quoteVault : Key
  baseLot : ℕ
  quoteLot : ℕ
  sequence : ℕ

/-- The discriminant of a market account. -/
def phoenixDiscriminant : List UInt8 := [119, 223, 113, 115, 183, 32, 88, 113]

/-- `PhoenixHeader::decode`. -/
def PhoenixHeader.decode (data : Buffer) : AdapterResult PhoenixHeader := do
  accept (576 ≤ data.size ∧ data.slice 0 8 = some phoenixDiscriminant) .layout
  let status ← u64At data 8
  accept (status = 1) .status
  let baseMint ← keyAt data 48
  let quoteMint ← keyAt data 128
  let baseVault ← keyAt data 80
  let quoteVault ← keyAt data 160
  let baseLot ← u64At data 112
  let quoteLot ← u64At data 192
  let sequence ← u64At data 272
  accept (baseLot ≠ 0 ∧ quoteLot ≠ 0) .layout
  .ok { baseMint, quoteMint, baseVault, quoteVault, baseLot, quoteLot, sequence }

/-- Length of the serialized order (`PHOENIX_IOC_LEN`). -/
def phoenixIocLen : ℕ := 73

/-- Overwrite the bytes of a list from an offset on. -/
def overwrite (dst : List UInt8) (offset : ℕ) (bytes : List UInt8) : List UInt8 :=
  dst.take offset ++ bytes ++ dst.drop (offset + bytes.length)

/-- `phoenix_ioc`: an immediate-or-cancel order from wallet funds. -/
def phoenixIoc (header : PhoenixHeader) (sellBase : Bool) (amount limit lastSlot : ℕ) :
    AdapterResult (List UInt8) := do
  accept (amount ≠ 0 ∧ amount ≤ maxInput ∧ limit ≠ 0 ∧ limit ≤ maxMatches) .amount
  let lots := amount / (if sellBase then header.baseLot else header.quoteLot)
  accept (lots ≠ 0) .amount
  -- Swap=0, IOC=2, Bid=0/Ask=1, then the lot budgets and the match limit
  let data := (List.replicate 80 0).set 1 2
  let data := data.set 2 (if sellBase then 1 else 0)
  let data := overwrite data (if sellBase then 4 else 12) (Buffer.toBytes 8 lots)
  let data := overwrite (data.set 37 1) 38 (Buffer.toBytes 8 limit)
  .ok (overwrite (data.set 63 1) 64 (Buffer.toBytes 8 lastSlot))

/-- A decoded market account (`PhoenixBook`). -/
structure PhoenixBook where
  data : Buffer
  header : PhoenixHeader
  bids : ℕ
  asks : ℕ
  seats : ℕ
  traders : ℕ

/-- What a quote would execute (`Fill`). -/
structure PhoenixFill where
  input : ℕ
  output : ℕ
  encountered : ℕ

/-- `PhoenixBook::decode`. -/
def PhoenixBook.decode (data : Buffer) : AdapterResult PhoenixBook := do
  let header ← PhoenixHeader.decode data
  let bids ← u64At data 16
  let asks ← u64At data 24
  let seats ← u64At data 32
  accept ((bids = 512 ∨ bids = 1024 ∨ bids = 2048 ∨ bids = 4096) ∧ asks = bids ∧
    (seats = 128 ∨ seats = 2 * bids + 1 ∨ seats = 2 * bids + 129)) .unsupported
  let traders := 880 + 32 + bids * 64 + 32 + asks * 64
  let units ← u64At data 832
  let tick ← u64At data 840
  let fee ← u64At data 856
  accept (data.size = traders + 32 + seats * 144 ∧ units ≠ 0 ∧ tick ≠ 0 ∧ fee < 10000) .layout
  .ok { data, header, bids, asks, seats, traders }

namespace PhoenixBook

variable (book : PhoenixBook)

/-- `PhoenixBook::node`: the offset of a tree node. -/
def node (tree index capacity stride : ℕ) : AdapterResult ℕ := do
  accept (index ≠ 0 ∧ index ≤ capacity) .layout
  .ok (tree + 32 + (index - 1) * stride)

/-- The lexicographic order of byte strings of one length. -/
def lexOrder : List UInt8 → List UInt8 → Ordering
  | x :: xs, y :: ys => (compare x.toNat y.toNat).then (lexOrder xs ys)
  | _, _ => .eq

/-- The search of `check_wallet` in the tree of traders, at most `fuel` levels deep. -/
def seekWallet (wallet : Key) (sell : Bool) : ℕ → ℕ → AdapterResult Unit
  | 0, _ => .error .layout
  | fuel + 1, index => do
    if index = 0 then .ok () else
    let node ← node book.traders index book.seats 144
    let maker ← keyAt book.data (node + 16)
    match lexOrder wallet.toList maker.toList with
    | .eq =>
      let free ← u64At book.data (node + if sell then 72 else 56)
      accept (free = 0) .unsupported
    | .lt =>
      let next ← u32At book.data node
      seekWallet wallet sell fuel next
    | .gt =>
      let next ← u32At book.data (node + 4)
      seekWallet wallet sell fuel next

/-- `PhoenixBook::check_wallet`. -/
def checkWallet (wallet : Key) (sell : Bool) : AdapterResult Unit := do
  let index ← u32At book.data book.traders
  seekWallet book wallet sell 32 index

/-- Walk to the leftmost open node: `stack` has room for `room` more. -/
def descend (tree capacity : ℕ) : ℕ → List ℕ → ℕ → AdapterResult (List ℕ)
  | room, stack, index => do
    if index = 0 then .ok stack else
    match room with
    | 0 => .error .layout
    | room + 1 =>
      let node ← node tree index capacity 64
      let next ← u32At book.data node
      descend tree capacity room (index :: stack) next

/-- The accumulators of a quote. -/
structure Walk where
  baseBudget : ℕ
  quoteBudget : ℕ
  matchedBase : ℕ := 0
  matchedQuote : ℕ := 0
  encountered : ℕ := 0

/-- Match one order; `true` when the walk goes on. -/
def matchOrder (wallet : Key) (tick slot time node : ℕ) (walk : Walk) :
    AdapterResult (Walk × Bool) := do
  let walk := { walk with encountered := walk.encountered + 1 }
  let price ← u64At book.data (node + 16)
  let lots ← u64At book.data (node + 40)
  let expiry ← u64At book.data (node + 48)
  let expiryTime ← u64At book.data (node + 56)
  if lots = 0 ∨ (expiry ≠ 0 ∧ expiry < slot) ∨ (expiryTime ≠ 0 ∧ expiryTime < time) then
    -- an expired order uses up the match budget and nothing else
    .ok (walk, true)
  else
  let maker ← u64At book.data (node + 32)
  accept (maker < u32Size) .layout
  let makerNode ← PhoenixBook.node book.traders maker book.seats 144
  let makerKey ← keyAt book.data (makerNode + 16)
  accept (makerKey ≠ wallet) .unsupported
  let rate ← mulChecked price tick
  accept (rate ≠ 0) .layout
  let take := min (min lots walk.baseBudget) (walk.quoteBudget / rate)
  let cost ← mulChecked take rate
  let matchedBase ← addChecked walk.matchedBase take
  let matchedQuote ← addChecked walk.matchedQuote cost
  .ok ({ walk with
      baseBudget := walk.baseBudget - take
      quoteBudget := walk.quoteBudget - cost
      matchedBase, matchedQuote }, decide (take = lots))

/-- The matching loop: at most `fuel` more orders, the open nodes on `stack`, the next subtree at
`index`. -/
def matchOrders (wallet : Key) (tree capacity tick slot time : ℕ) :
    ℕ → List ℕ → ℕ → Walk → AdapterResult Walk
  | 0, _, _, walk => .ok walk
  | fuel + 1, stack, index, walk => do
    if walk.baseBudget = 0 ∨ walk.quoteBudget = 0 then .ok walk else
    let open' ← descend book tree capacity (32 - stack.length) stack index
    match open' with
    | [] => .ok walk
    | top :: rest =>
      let node ← node tree top capacity 64
      let next ← u32At book.data (node + 4)
      let (walk, more) ← matchOrder book wallet tick slot time node walk
      if more then matchOrders wallet tree capacity tick slot time fuel rest next walk
      else .ok walk

/-- `PhoenixBook::quote`. -/
def quote (wallet : Key) (sell : Bool) (input limit slot time : ℕ) : AdapterResult PhoenixFill := do
  accept (input ≠ 0 ∧ input ≤ maxInput ∧ limit ≠ 0 ∧ limit ≤ maxMatches) .amount
  checkWallet book wallet sell
  let units ← u64At book.data 832
  let tick ← u64At book.data 840
  let fee ← u64At book.data 856
  let max := u64Size - 1
  let baseBudget := if sell then input / book.header.baseLot else max
  let quoteBudget ← if sell then .ok max else do
    let adjusted ← mulChecked (input / book.header.quoteLot) units
    let premium ← divCeil (max * fee) 10000
    narrow (adjusted * max / (max + premium))
  let tree := if sell then 880 else 880 + 32 + book.bids * 64
  let capacity := if sell then book.bids else book.asks
  let root ← u32At book.data tree
  let walk ← matchOrders book wallet tree capacity tick slot time limit [] root
    { baseBudget, quoteBudget }
  let gross ← divCeil (walk.matchedQuote * fee) 10000
  let gross ← narrow gross
  let fees ← divCeil gross units
  let base ← mulChecked walk.matchedBase book.header.baseLot
  let rounded ← divCeil walk.matchedQuote units
  let net ← if sell then subChecked (walk.matchedQuote / units) fees else addChecked rounded fees
  let quote ← mulChecked net book.header.quoteLot
  let (spent, output) := if sell then (base, quote) else (quote, base)
  accept (spent ≤ input) .arithmetic
  .ok { input := spent, output, encountered := walk.encountered }

end PhoenixBook

end StockMesh

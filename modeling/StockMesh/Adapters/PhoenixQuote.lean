import StockMesh.Adapters.Phoenix
import StockMesh.Foundation.Rounding

/-! # Totality and budget of a Phoenix quote

The tree links of a market account are any bytes. A decoded account is long enough for every node that
`node` admits, so that a quote reads nothing past its end (`quote_over`); the walk keeps at most 32 open
nodes, visits at most `matches` orders, and no operation panics.

A sell never spends more than its input. A buy reserves the taker's fee in its budget, but what it spends is
rounded up twice, for the match and for the fee, so that it may exceed the input by one quote lot. -/

namespace StockMesh

namespace PhoenixBook

/-! ## Decoded accounts -/

/-- What `decode` checks of an account. -/
structure Decoded (book : PhoenixBook) : Prop where
  traders_eq : book.traders = 880 + 32 + book.bids * 64 + 32 + book.asks * 64
  asks_eq : book.asks = book.bids
  size_eq : book.data.size = book.traders + 32 + book.seats * 144
  baseLot_pos : 0 < book.header.baseLot
  quoteLot_pos : 0 < book.header.quoteLot
  units_pos : ∀ units, u64At book.data 832 = .ok units → 0 < units
  fee_lt : ∀ fee, u64At book.data 856 = .ok fee → fee < 10000

theorem decoded_of_decode {data : Buffer} {book : PhoenixBook} (h : decode data = .ok book) :
    Decoded book := by
  simp only [decode, PhoenixHeader.decode, bind_eq_ok, accept_eq_ok] at h
  obtain ⟨header, ⟨_, -, _, -, _, -, _, -, _, -, _, -, _, -, _, -, _, -, _, -, _, hlots, hheader⟩, bids, -,
    asks, -, seats, -, _, hcounts, units, hunits, tick, -, fee, hfee, _, hlayout, hbook⟩ := h
  cases hheader
  cases hbook
  refine ⟨rfl, hcounts.2.1, hlayout.1, Nat.pos_of_ne_zero hlots.1, Nat.pos_of_ne_zero hlots.2, ?_, ?_⟩
  · intro other hother
    cases hunits.symm.trans hother
    exact Nat.pos_of_ne_zero hlayout.2.1
  · intro other hother
    cases hfee.symm.trans hother
    exact hlayout.2.2.2

/-! ## The stages of a quote -/

/-- The lots that a quote may match: of the base on a sell, and on a buy of the quote, less the taker's
fee. -/
def budgets (book : PhoenixBook) (sell : Bool) (input units fee : ℕ) : AdapterResult Walk :=
  if sell then .ok { baseBudget := input / book.header.baseLot, quoteBudget := u64Size - 1 } else do
  let adjusted ← mulChecked (input / book.header.quoteLot) units
  let premium ← divCeil ((u64Size - 1) * fee) 10000
  let quoteBudget ← narrow (adjusted * (u64Size - 1) / (u64Size - 1 + premium))
  .ok { baseBudget := u64Size - 1, quoteBudget }

/-- The tree of the orders that a quote matches, and how many nodes it has. -/
def side (book : PhoenixBook) (sell : Bool) : ℕ × ℕ :=
  if sell then (880, book.bids) else (880 + 32 + book.bids * 64, book.asks)

/-- What a walk spends and buys. -/
def charge (book : PhoenixBook) (sell : Bool) (units fee : ℕ) (walk : Walk) : AdapterResult (ℕ × ℕ) := do
  let gross ← divCeil (walk.matchedQuote * fee) 10000
  let gross ← narrow gross
  let fees ← divCeil gross units
  let base ← mulChecked walk.matchedBase book.header.baseLot
  let rounded ← divCeil walk.matchedQuote units
  let net ← (if sell then subChecked (walk.matchedQuote / units) fees else addChecked rounded fees)
  let quote ← mulChecked net book.header.quoteLot
  .ok (if sell then (base, quote) else (quote, base))

/-- A quote up to its last test, whether it spends more than the input. -/
def unchecked (book : PhoenixBook) (wallet : Key) (sell : Bool) (input limit slot time : ℕ) :
    AdapterResult PhoenixFill := do
  accept (input ≠ 0 ∧ input ≤ maxInput ∧ limit ≠ 0 ∧ limit ≤ maxMatches) .amount
  checkWallet book wallet sell
  let units ← u64At book.data 832
  let tick ← u64At book.data 840
  let fee ← u64At book.data 856
  let start ← budgets book sell input units fee
  let root ← u32At book.data (book.side sell).1
  let walk ← matchOrders book wallet (book.side sell).1 (book.side sell).2 tick slot time limit [] root start
  let paid ← charge book sell units fee walk
  .ok { input := paid.1, output := paid.2, encountered := walk.encountered }

/-- The last test is all that `quote` adds. -/
theorem quote_eq (book : PhoenixBook) (wallet : Key) (sell : Bool) (input limit slot time : ℕ) :
    quote book wallet sell input limit slot time =
      (unchecked book wallet sell input limit slot time >>= fun fill =>
        accept (fill.input ≤ input) .arithmetic >>= fun _ => .ok fill) := by
  cases sell <;>
    simp only [quote, unchecked, budgets, side, charge, bind_assoc, ok_bind, if_true, if_false,
      Bool.false_eq_true]

/-! ## Reads -/

variable {book : PhoenixBook} {longer : Buffer}

/-- The account with something behind its bytes. -/
def extended (book : PhoenixBook) (longer : Buffer) : PhoenixBook := { book with data := longer }

section
variable (hext : longer.Extends book.data)
include hext

theorem u64At_over {offset : ℕ} (hin : offset + 8 ≤ book.data.size) :
    u64At longer offset = u64At book.data offset := by
  rw [u64At, u64At, hext.number_eq hin]

theorem u32At_over {offset : ℕ} (hin : offset + 4 ≤ book.data.size) :
    u32At longer offset = u32At book.data offset := by
  rw [u32At, u32At, hext.number_eq hin]

theorem keyAt_over {offset : ℕ} (hin : offset + 32 ≤ book.data.size) :
    keyAt longer offset = keyAt book.data offset := by
  rw [keyAt, keyAt, hext.slice_eq hin]

end

/-- A node that is admitted lies below the end of its tree. -/
theorem node_eq_ok {tree index capacity stride offset : ℕ}
    (h : node tree index capacity stride = .ok offset) :
    tree + 32 ≤ offset ∧ offset + stride ≤ tree + 32 + capacity * stride := by
  obtain ⟨_, hin, h⟩ := bind_eq_ok.mp h
  rw [accept_eq_ok] at hin
  cases h
  have hstride : (index - 1 + 1) * stride ≤ capacity * stride := Nat.mul_le_mul_right _ (by omega)
  rw [Nat.add_mul, Nat.one_mul] at hstride
  omega

section
variable (hbook : Decoded book)
include hbook

/-- A seat lies in the account. -/
theorem seat_le {index offset : ℕ} (h : node book.traders index book.seats 144 = .ok offset) :
    offset + 144 ≤ book.data.size := by
  have := (node_eq_ok h).2
  have := hbook.size_eq
  omega

/-- An order lies in the account, on either side. -/
theorem order_le (sell : Bool) {index offset : ℕ}
    (h : node (book.side sell).1 index (book.side sell).2 64 = .ok offset) :
    offset + 64 ≤ book.data.size := by
  have hsize := hbook.size_eq
  have htraders := hbook.traders_eq
  have hend := (node_eq_ok h).2
  cases sell
  · change offset + 64 ≤ 880 + 32 + book.bids * 64 + 32 + book.asks * 64 at hend
    omega
  · change offset + 64 ≤ 880 + 32 + book.bids * 64 at hend
    omega

end

section
variable (hbook : Decoded book) (hext : longer.Extends book.data)
include hbook hext

theorem seekWallet_over (wallet : Key) (sell : Bool) (fuel index : ℕ) :
    seekWallet (book.extended longer) wallet sell fuel index = seekWallet book wallet sell fuel index := by
  induction fuel generalizing index with
  | zero => rfl
  | succ fuel ih =>
    rw [seekWallet, seekWallet]
    by_cases hzero : index = 0
    · rw [if_pos hzero, if_pos hzero]
    rw [if_neg hzero, if_neg hzero]
    change (node book.traders index book.seats 144 >>= _) = _
    cases hnode : node book.traders index book.seats 144 with
    | error e => rfl
    | ok offset =>
      have hin := seat_le hbook hnode
      rw [ok_bind, ok_bind]
      change (keyAt longer _ >>= _) = _
      rw [keyAt_over hext (by omega)]
      refine bind_congr fun maker => ?_
      cases lexOrder wallet.toList maker.toList with
      | eq =>
        have hfree : (if sell then 72 else 56) + 8 ≤ 144 := by cases sell <;> decide
        change (u64At longer _ >>= _) = _
        rw [u64At_over hext (by omega)]
      | lt =>
        change (u32At longer _ >>= _) = _
        rw [u32At_over hext (by omega)]
        exact bind_congr ih
      | gt =>
        change (u32At longer _ >>= _) = _
        rw [u32At_over hext (by omega)]
        exact bind_congr ih

theorem checkWallet_over (wallet : Key) (sell : Bool) :
    checkWallet (book.extended longer) wallet sell = checkWallet book wallet sell := by
  have hsize := hbook.size_eq
  change (u32At longer book.traders >>= _) = _
  rw [u32At_over hext (by omega)]
  exact bind_congr fun index => seekWallet_over hbook hext wallet sell 32 index

theorem matchOrder_over (wallet : Key) (tick slot time : ℕ) {offset : ℕ}
    (hoff : offset + 64 ≤ book.data.size) (walk : Walk) :
    matchOrder (book.extended longer) wallet tick slot time offset walk =
      matchOrder book wallet tick slot time offset walk := by
  change (u64At longer _ >>= _) = _
  rw [matchOrder, u64At_over hext (by omega)]
  refine bind_congr fun price => ?_
  change (u64At longer _ >>= _) = _
  rw [u64At_over hext (by omega)]
  refine bind_congr fun lots => ?_
  change (u64At longer _ >>= _) = _
  rw [u64At_over hext (by omega)]
  refine bind_congr fun expiry => ?_
  change (u64At longer _ >>= _) = _
  rw [u64At_over hext (by omega)]
  refine bind_congr fun expiryTime => ?_
  split
  · rfl
  · change (u64At longer _ >>= _) = _
    rw [u64At_over hext (by omega)]
    refine bind_congr fun maker => bind_congr fun _ => bind_congr_ok fun makerNode hmaker => ?_
    have := seat_le hbook hmaker
    change (keyAt longer _ >>= _) = _
    rw [keyAt_over hext (by omega)]

variable {tree capacity : ℕ}
  (hin : ∀ index offset, node tree index capacity 64 = .ok offset → offset + 64 ≤ book.data.size)
include hin

omit hbook in
theorem descend_over (room : ℕ) (stack : List ℕ) (index : ℕ) :
    descend (book.extended longer) tree capacity room stack index =
      descend book tree capacity room stack index := by
  induction room generalizing stack index with
  | zero => rw [descend, descend]
  | succ room ih =>
    rw [descend, descend]
    by_cases hzero : index = 0
    · rw [if_pos hzero, if_pos hzero]
    rw [if_neg hzero, if_neg hzero]
    refine bind_congr_ok fun offset hnode => ?_
    have := hin index offset hnode
    change (u32At longer _ >>= _) = _
    rw [u32At_over hext (by omega)]
    exact bind_congr fun next => ih _ next

theorem matchOrders_over (wallet : Key) (tick slot time fuel : ℕ) (stack : List ℕ) (index : ℕ)
    (walk : Walk) :
    matchOrders (book.extended longer) wallet tree capacity tick slot time fuel stack index walk =
      matchOrders book wallet tree capacity tick slot time fuel stack index walk := by
  induction fuel generalizing stack index walk with
  | zero => rfl
  | succ fuel ih =>
    rw [matchOrders, matchOrders]
    split
    · rfl
    rw [descend_over hext hin]
    refine bind_congr fun stack' => ?_
    cases stack' with
    | nil => rfl
    | cons top rest =>
      refine bind_congr_ok fun offset hnode => ?_
      have hoff := hin top offset hnode
      change (u32At longer _ >>= _) = _
      rw [u32At_over hext (by omega)]
      refine bind_congr fun next => ?_
      rw [matchOrder_over hbook hext wallet tick slot time hoff]
      refine bind_congr fun result => ?_
      obtain ⟨walk', more⟩ := result
      dsimp only
      rw [ih rest next walk']

end

section
variable (hbook : Decoded book) (hext : longer.Extends book.data)
include hbook hext

/-- What follows the account does not change a quote: no read goes past the end. -/
theorem quote_over (wallet : Key) (sell : Bool) (input limit slot time : ℕ) :
    quote (book.extended longer) wallet sell input limit slot time =
      quote book wallet sell input limit slot time := by
  have hsize := hbook.size_eq
  have htraders := hbook.traders_eq
  have hroot : (book.side sell).1 + 4 ≤ book.data.size := by
    cases sell
    · change 880 + 32 + book.bids * 64 + 4 ≤ _
      omega
    · change 880 + 4 ≤ _
      omega
  rw [quote_eq, quote_eq]
  congr 1
  rw [unchecked, unchecked]
  refine bind_congr fun _ => ?_
  rw [checkWallet_over hbook hext]
  refine bind_congr fun _ => ?_
  change (u64At longer _ >>= _) = _
  rw [u64At_over hext (by omega)]
  refine bind_congr fun units => ?_
  change (u64At longer _ >>= _) = _
  rw [u64At_over hext (by omega)]
  refine bind_congr fun tick => ?_
  change (u64At longer _ >>= _) = _
  rw [u64At_over hext (by omega)]
  refine bind_congr fun fee => bind_congr fun start => ?_
  change (u32At longer (book.side sell).1 >>= _) = _
  rw [u32At_over hext hroot]
  refine bind_congr fun root => ?_
  change (matchOrders (book.extended longer) wallet (book.side sell).1 (book.side sell).2 _ _ _ _ _ _ _ >>= _) = _
  rw [matchOrders_over hbook hext fun _ _ => order_le hbook sell]
  rfl

end

/-! ## Panics -/

/-- A computation that does not panic. -/
abbrev Total {α : Type} (x : AdapterResult α) : Prop := x ≠ .error .overflow

/-- A sequence does not panic if its parts do not, on the values that they receive. -/
theorem total_bind {α β : Type} {x : AdapterResult α} {f : α → AdapterResult β} (hx : Total x)
    (hf : ∀ a, x = .ok a → Total (f a)) : Total (x >>= f) := by
  cases x with
  | error e => exact fun h => hx (by cases h; rfl)
  | ok a => exact hf a rfl

theorem total_accept {ok : Prop} [Decidable ok] {e : AdapterError} (he : e ≠ .overflow) :
    Total (accept ok e) := by
  unfold accept
  split
  · exact fun h => by cases h
  · exact fun h => he (by cases h; rfl)

theorem total_okOr {α : Type} {x : Option α} {e : AdapterError} (he : e ≠ .overflow) :
    Total (okOr x e) := by
  cases x with
  | none => exact fun h => he (by cases h; rfl)
  | some a => exact fun h => by cases h

theorem total_ite {α : Type} {c : Prop} [Decidable c] {x y : AdapterResult α} (hx : Total x)
    (hy : Total y) : Total (if c then x else y) := by
  split
  · exact hx
  · exact hy

theorem total_ok {α : Type} (a : α) : Total (.ok a) := fun h => by cases h

theorem total_layout {α : Type} : Total (.error .layout : AdapterResult α) := fun h => by cases h

theorem total_u64At (data : Buffer) (offset : ℕ) : Total (u64At data offset) :=
  total_okOr (by decide)

theorem total_u32At (data : Buffer) (offset : ℕ) : Total (u32At data offset) :=
  total_okOr (by decide)

theorem total_arithmetic {α : Type} {c : Prop} [Decidable c] (a : α) :
    Total (if c then .ok a else .error .arithmetic : AdapterResult α) :=
  total_ite (total_ok a) fun h => by cases h

theorem total_divCeil {n d : ℕ} (hd : 0 < d) : Total (divCeil n d) := by
  rw [divCeil, if_neg (by omega)]
  exact total_ok _

theorem total_node (tree index capacity stride : ℕ) : Total (node tree index capacity stride) :=
  bind_ne_error (total_accept (by decide)) fun _ => total_ok _

section
variable (book : PhoenixBook) (wallet : Key)

theorem total_seekWallet (sell : Bool) (fuel index : ℕ) : Total (seekWallet book wallet sell fuel index) := by
  induction fuel generalizing index with
  | zero => exact total_layout
  | succ fuel ih =>
    rw [seekWallet]
    refine total_ite (total_ok _) (bind_ne_error (total_node _ _ _ _) fun offset =>
      bind_ne_error (total_okOr (by decide)) fun maker => ?_)
    cases lexOrder wallet.toList maker.toList with
    | eq => exact bind_ne_error (total_u64At _ _) fun _ => total_accept (by decide)
    | lt => exact bind_ne_error (total_u32At _ _) ih
    | gt => exact bind_ne_error (total_u32At _ _) ih

theorem total_descend (tree capacity room : ℕ) (stack : List ℕ) (index : ℕ) :
    Total (descend book tree capacity room stack index) := by
  induction room generalizing stack index with
  | zero =>
    rw [descend]
    exact total_ite (total_ok _) total_layout
  | succ room ih =>
    rw [descend]
    exact total_ite (total_ok _) (bind_ne_error (total_node _ _ _ _) fun _ =>
      bind_ne_error (total_u32At _ _) fun next => ih _ next)

theorem total_matchOrder (tick slot time offset : ℕ) (walk : Walk) :
    Total (matchOrder book wallet tick slot time offset walk) := by
  rw [matchOrder]
  refine bind_ne_error (total_u64At _ _) fun price => bind_ne_error (total_u64At _ _) fun lots =>
    bind_ne_error (total_u64At _ _) fun expiry => bind_ne_error (total_u64At _ _) fun expiryTime => ?_
  refine total_ite (total_ok _) (bind_ne_error (total_u64At _ _) fun maker => ?_)
  refine bind_ne_error (total_accept (by decide)) fun _ => bind_ne_error (total_node _ _ _ _) fun seat =>
    bind_ne_error (total_okOr (by decide)) fun makerKey => ?_
  refine bind_ne_error (total_accept (by decide)) fun _ => bind_ne_error (total_arithmetic _) fun rate => ?_
  exact bind_ne_error (total_accept (by decide)) fun _ => bind_ne_error (total_arithmetic _) fun cost =>
    bind_ne_error (total_arithmetic _) fun base => bind_ne_error (total_arithmetic _) fun quote => total_ok _

theorem total_matchOrders (tree capacity tick slot time fuel : ℕ) (stack : List ℕ) (index : ℕ)
    (walk : Walk) : Total (matchOrders book wallet tree capacity tick slot time fuel stack index walk) := by
  induction fuel generalizing stack index walk with
  | zero => exact total_ok _
  | succ fuel ih =>
    rw [matchOrders]
    refine total_ite (total_ok _) (bind_ne_error (total_descend _ _ _ _ _ _) fun stack' => ?_)
    cases stack' with
    | nil => exact total_ok _
    | cons top rest =>
      refine bind_ne_error (total_node _ _ _ _) fun offset => bind_ne_error (total_u32At _ _) fun next =>
        bind_ne_error (total_matchOrder _ _ _ _ _ _ _) fun result => ?_
      exact total_ite (ih _ _ _) (total_ok _)

end

/-- A quote of a decoded account does not panic. -/
theorem total_quote {book : PhoenixBook} (hbook : Decoded book) (wallet : Key) (sell : Bool)
    (input limit slot time : ℕ) : Total (quote book wallet sell input limit slot time) := by
  rw [quote_eq]
  refine bind_ne_error ?_ fun fill => bind_ne_error (total_accept (by decide)) fun _ => total_ok _
  refine bind_ne_error (total_accept (by decide)) fun _ => bind_ne_error ?_ fun _ => ?_
  · exact bind_ne_error (total_u32At _ _) fun index => total_seekWallet book wallet sell 32 index
  refine total_bind (total_u64At _ _) fun units hunits => ?_
  have hpos := hbook.units_pos units hunits
  refine bind_ne_error (total_u64At _ _) fun tick => bind_ne_error (total_u64At _ _) fun fee =>
    bind_ne_error ?_ fun start => bind_ne_error (total_u32At _ _) fun root =>
      bind_ne_error (total_matchOrders _ _ _ _ _ _ _ _ _ _ _) fun walk => bind_ne_error ?_ fun _ => total_ok _
  · exact total_ite (total_ok _) (bind_ne_error (total_arithmetic _) fun _ =>
      bind_ne_error (total_divCeil (by decide)) fun _ => bind_ne_error (total_arithmetic _) fun _ => total_ok _)
  · refine bind_ne_error (total_divCeil (by decide)) fun _ => bind_ne_error (total_arithmetic _) fun _ =>
      bind_ne_error (total_divCeil hpos) fun _ => bind_ne_error (total_arithmetic _) fun _ =>
        bind_ne_error (total_divCeil hpos) fun _ => bind_ne_error ?_ fun _ =>
          bind_ne_error (total_arithmetic _) fun _ => total_ok _
    exact total_ite (total_arithmetic _) (total_arithmetic _)

/-! ## The walk -/

section
variable {book : PhoenixBook} {wallet : Key}

/-- A descent keeps within the room that it was given. -/
theorem length_of_descend {tree capacity room index : ℕ} {stack stack' : List ℕ}
    (h : descend book tree capacity room stack index = .ok stack') :
    stack'.length ≤ stack.length + room := by
  induction room generalizing stack index with
  | zero =>
    rw [descend] at h
    split at h
    · cases h
      exact Nat.le_refl _
    · cases h
  | succ room ih =>
    rw [descend] at h
    split at h
    · cases h
      exact Nat.le_add_right _ _
    · obtain ⟨offset, -, h⟩ := bind_eq_ok.mp h
      obtain ⟨next, -, h⟩ := bind_eq_ok.mp h
      have := ih h
      rw [List.length_cons] at this
      omega

/-- What a walk takes it takes from its budgets. -/
structure Moves (walk walk' : Walk) : Prop where
  base : walk'.matchedBase + walk'.baseBudget = walk.matchedBase + walk.baseBudget
  quote : walk'.matchedQuote + walk'.quoteBudget = walk.matchedQuote + walk.quoteBudget

theorem matchOrder_eq_ok {tick slot time offset : ℕ} {walk : Walk} {result : Walk × Bool}
    (h : matchOrder book wallet tick slot time offset walk = .ok result) :
    Moves walk result.1 ∧ result.1.encountered = walk.encountered + 1 := by
  obtain ⟨price, -, h⟩ := bind_eq_ok.mp h
  obtain ⟨lots, -, h⟩ := bind_eq_ok.mp h
  obtain ⟨expiry, -, h⟩ := bind_eq_ok.mp h
  obtain ⟨expiryTime, -, h⟩ := bind_eq_ok.mp h
  split at h
  · cases h
    exact ⟨⟨rfl, rfl⟩, rfl⟩
  · obtain ⟨maker, -, h⟩ := bind_eq_ok.mp h
    obtain ⟨-, -, h⟩ := bind_eq_ok.mp h
    obtain ⟨seat, -, h⟩ := bind_eq_ok.mp h
    obtain ⟨makerKey, -, h⟩ := bind_eq_ok.mp h
    obtain ⟨-, -, h⟩ := bind_eq_ok.mp h
    obtain ⟨rate, -, h⟩ := bind_eq_ok.mp h
    obtain ⟨-, -, h⟩ := bind_eq_ok.mp h
    obtain ⟨cost, hcost, h⟩ := bind_eq_ok.mp h
    obtain ⟨base, hbase, h⟩ := bind_eq_ok.mp h
    obtain ⟨quote, hquote, h⟩ := bind_eq_ok.mp h
    cases h
    obtain ⟨-, rfl⟩ := mulChecked_eq_ok.mp hcost
    obtain ⟨-, rfl⟩ := addChecked_eq_ok.mp hbase
    obtain ⟨-, rfl⟩ := addChecked_eq_ok.mp hquote
    -- the subtractions of the source do not underflow
    have htake : min (min lots walk.baseBudget) (walk.quoteBudget / rate) ≤ walk.baseBudget :=
      (Nat.min_le_left _ _).trans (Nat.min_le_right _ _)
    have hpaid : min (min lots walk.baseBudget) (walk.quoteBudget / rate) * rate ≤ walk.quoteBudget :=
      (Nat.mul_le_mul_right rate (Nat.min_le_right _ _)).trans (Nat.div_mul_le_self _ _)
    dsimp only
    generalize min (min lots walk.baseBudget) (walk.quoteBudget / rate) = take at htake hpaid ⊢
    generalize take * rate = cost at hpaid ⊢
    exact ⟨⟨by dsimp only; omega, by dsimp only; omega⟩, rfl⟩

theorem matchOrders_eq_ok {tree capacity tick slot time fuel index : ℕ} {stack : List ℕ}
    {walk walk' : Walk}
    (h : matchOrders book wallet tree capacity tick slot time fuel stack index walk = .ok walk') :
    Moves walk walk' ∧ walk'.encountered ≤ walk.encountered + fuel := by
  induction fuel generalizing stack index walk with
  | zero =>
    cases h
    exact ⟨⟨rfl, rfl⟩, Nat.le_refl _⟩
  | succ fuel ih =>
    rw [matchOrders] at h
    split at h
    · cases h
      exact ⟨⟨rfl, rfl⟩, Nat.le_add_right _ _⟩
    obtain ⟨stack', -, h⟩ := bind_eq_ok.mp h
    cases stack' with
    | nil =>
      cases h
      exact ⟨⟨rfl, rfl⟩, Nat.le_add_right _ _⟩
    | cons top rest =>
      obtain ⟨offset, -, h⟩ := bind_eq_ok.mp h
      obtain ⟨next, -, h⟩ := bind_eq_ok.mp h
      obtain ⟨⟨mid, more⟩, hmid, h⟩ := bind_eq_ok.mp h
      obtain ⟨hmoves, hcount⟩ := matchOrder_eq_ok hmid
      cases more with
      | false =>
        cases h
        exact ⟨hmoves, hcount.trans_le (by omega)⟩
      | true =>
        obtain ⟨hrest, hcount'⟩ := ih h
        exact ⟨⟨hrest.base.trans hmoves.base, hrest.quote.trans hmoves.quote⟩, by
          change mid.encountered = _ at hcount
          omega⟩

end

/-! ## The budget -/

section
variable {book : PhoenixBook} {input units fee : ℕ} {walk : Walk}

/-- What a sell spends. -/
theorem charge_sell {paid : ℕ × ℕ} (h : charge book true units fee walk = .ok paid) :
    paid.1 = walk.matchedBase * book.header.baseLot := by
  obtain ⟨_, -, h⟩ := bind_eq_ok.mp h
  obtain ⟨_, -, h⟩ := bind_eq_ok.mp h
  obtain ⟨_, -, h⟩ := bind_eq_ok.mp h
  obtain ⟨base, hbase, h⟩ := bind_eq_ok.mp h
  obtain ⟨_, -, h⟩ := bind_eq_ok.mp h
  obtain ⟨_, -, h⟩ := bind_eq_ok.mp h
  obtain ⟨_, -, h⟩ := bind_eq_ok.mp h
  cases h
  exact (mulChecked_eq_ok.mp hbase).2.symm

/-- What a buy spends: the match and the fee, each rounded up to quote lots. -/
theorem charge_buy {paid : ℕ × ℕ} (hunits : 0 < units) (h : charge book false units fee walk = .ok paid) :
    paid.1 = (walk.matchedQuote ⌈/⌉ units + (walk.matchedQuote * fee) ⌈/⌉ (10000 * units)) *
      book.header.quoteLot := by
  obtain ⟨gross, hgross, h⟩ := bind_eq_ok.mp h
  obtain ⟨gross', hgross', h⟩ := bind_eq_ok.mp h
  obtain ⟨fees, hfees, h⟩ := bind_eq_ok.mp h
  obtain ⟨base, -, h⟩ := bind_eq_ok.mp h
  obtain ⟨rounded, hrounded, h⟩ := bind_eq_ok.mp h
  obtain ⟨net, hnet, h⟩ := bind_eq_ok.mp h
  obtain ⟨quote, hquote, h⟩ := bind_eq_ok.mp h
  cases h
  have hgross := divCeil_eq_ok.mp hgross
  have hnarrow := narrow_eq_ok.mp hgross'
  have hfees := divCeil_eq_ok.mp hfees
  have hrounded := divCeil_eq_ok.mp hrounded
  have hnet : addChecked rounded fees = .ok net := hnet
  have hnet := addChecked_eq_ok.mp hnet
  have hquote := mulChecked_eq_ok.mp hquote
  change quote = _
  rw [← Rounding.ceilDiv_ceilDiv _ (by decide) hunits, ← hquote.2, ← hnet.2, ← hrounded.2, ← hfees.2,
    ← hnarrow.2, ← hgross.2]

/-- The quote budget of a buy covers its fee. -/
theorem budgets_buy {start : Walk} (h : budgets book false input units fee = .ok start) :
    start.matchedBase = 0 ∧ start.matchedQuote = 0 ∧ start.encountered = 0 ∧
      ∀ matched ≤ start.quoteBudget,
        matched * (10000 + fee) ≤ 10000 * (input / book.header.quoteLot * units) := by
  obtain ⟨adjusted, hadjusted, h⟩ := bind_eq_ok.mp h
  obtain ⟨premium, hpremium, h⟩ := bind_eq_ok.mp h
  obtain ⟨budget, hbudget, h⟩ := bind_eq_ok.mp h
  cases h
  obtain ⟨-, rfl⟩ := mulChecked_eq_ok.mp hadjusted
  obtain ⟨-, rfl⟩ := divCeil_eq_ok.mp hpremium
  obtain ⟨-, rfl⟩ := narrow_eq_ok.mp hbudget
  refine ⟨rfl, rfl, rfl, fun matched hle => ?_⟩
  have hwhole : 0 < u64Size - 1 := by decide
  exact Rounding.mul_le_of_le_cut hwhole (Rounding.le_ceilDiv_mul _ (by decide)) hle

end

/-! ## Quotes -/

/-- A quote lot has several units, and takers pay a fee. -/
def Uneven (book : PhoenixBook) : Prop :=
  ∃ units fee, u64At book.data 832 = .ok units ∧ u64At book.data 856 = .ok fee ∧ 1 < units ∧ 0 < fee

/-- The stages that an unchecked quote has passed. -/
theorem unchecked_eq_ok {book : PhoenixBook} {wallet : Key} {sell : Bool} {input limit slot time : ℕ}
    {fill : PhoenixFill} (h : unchecked book wallet sell input limit slot time = .ok fill) :
    ∃ units fee start walk paid, u64At book.data 832 = .ok units ∧ u64At book.data 856 = .ok fee ∧
      budgets book sell input units fee = .ok start ∧ Moves start walk ∧
      walk.encountered ≤ start.encountered + limit ∧ charge book sell units fee walk = .ok paid ∧
      fill = { input := paid.1, output := paid.2, encountered := walk.encountered } := by
  obtain ⟨-, -, h⟩ := bind_eq_ok.mp h
  obtain ⟨-, -, h⟩ := bind_eq_ok.mp h
  obtain ⟨units, hunits, h⟩ := bind_eq_ok.mp h
  obtain ⟨tick, -, h⟩ := bind_eq_ok.mp h
  obtain ⟨fee, hfee, h⟩ := bind_eq_ok.mp h
  obtain ⟨start, hstart, h⟩ := bind_eq_ok.mp h
  obtain ⟨root, -, h⟩ := bind_eq_ok.mp h
  obtain ⟨walk, hwalk, h⟩ := bind_eq_ok.mp h
  obtain ⟨paid, hpaid, h⟩ := bind_eq_ok.mp h
  obtain ⟨hmoves, hcount⟩ := matchOrders_eq_ok hwalk
  exact ⟨units, fee, start, walk, paid, hunits, hfee, hstart, hmoves, hcount, hpaid, (Except.ok.inj h).symm⟩

section
variable {book : PhoenixBook} (hbook : Decoded book) {wallet : Key} {input limit slot time : ℕ}
  {fill : PhoenixFill}
include hbook

omit hbook in
/-- A sell spends whole lots of its input. -/
theorem input_le_of_sell (h : unchecked book wallet true input limit slot time = .ok fill) :
    fill.input ≤ input ∧ fill.encountered ≤ limit := by
  obtain ⟨units, fee, start, walk, paid, -, -, hstart, hmoves, hcount, hpaid, rfl⟩ := unchecked_eq_ok h
  cases hstart
  have hbase := hmoves.base
  refine ⟨?_, by simpa using hcount⟩
  calc paid.1 = walk.matchedBase * book.header.baseLot := charge_sell hpaid
    _ ≤ input / book.header.baseLot * book.header.baseLot := by
        refine Nat.mul_le_mul_right _ ?_
        change walk.matchedBase + walk.baseBudget = 0 + input / book.header.baseLot at hbase
        omega
    _ ≤ input := Nat.div_mul_le_self _ _

/-- A buy spends at most one lot more than its input, and only where a lot has several units and takers
pay a fee. -/
theorem input_le_of_buy (h : unchecked book wallet false input limit slot time = .ok fill) :
    fill.input ≤ input + book.header.quoteLot ∧ (¬Uneven book → fill.input ≤ input) ∧
      fill.encountered ≤ limit := by
  obtain ⟨units, fee, start, walk, paid, hunits, hfee, hstart, hmoves, hcount, hpaid, rfl⟩ :=
    unchecked_eq_ok h
  have hpos := hbook.units_pos units hunits
  obtain ⟨-, hzero, hnone, hcover⟩ := budgets_buy hstart
  have hquote := hmoves.quote
  have hbudget := hcover walk.matchedQuote (by omega)
  have hspent : paid.1 = _ := charge_buy hpos hpaid
  have hwhole := Nat.div_mul_le_self input book.header.quoteLot
  obtain ⟨hover, heven⟩ := Rounding.ceilDiv_add_ceilDiv_le (by decide) hpos hbudget
  refine ⟨?_, fun hnot => ?_, hcount.trans (by omega)⟩
  · have := Nat.mul_le_mul_right book.header.quoteLot hover
    rw [← hspent, Nat.add_mul, Nat.one_mul] at this
    exact this.trans (Nat.add_le_add_right hwhole _)
  · have hlots : walk.matchedQuote ⌈/⌉ units + (walk.matchedQuote * fee) ⌈/⌉ (10000 * units) ≤
        input / book.header.quoteLot := by
      by_cases hone : units = 1
      · exact heven (hone ▸ Nat.one_dvd _)
      · -- there is no fee, so that only the match is rounded
        have hfree : fee = 0 := by
          by_contra hne
          exact hnot ⟨units, fee, hunits, hfee, by omega, by omega⟩
        subst hfree
        rw [Nat.mul_zero, zero_ceilDiv, Nat.add_zero, ceilDiv_le_iff_le_mul hpos, Nat.mul_comm units]
        omega
    exact hspent.trans_le ((Nat.mul_le_mul_right _ hlots).trans hwhole)

end

/-- A market with lots of one atom, two units to a quote lot and a fee of one percent. It offers one base lot
for one unit. -/
def unevenMarket : Buffer where
  size := 84944
  byte i := ([(0, 119), (1, 223), (2, 113), (3, 115), (4, 183), (5, 32), (6, 88), (7, 113), (8, 1),
    -- 512 bids, 512 asks and 128 seats
    (17, 2), (25, 2), (32, 128), (112, 1), (192, 1), (832, 2), (840, 1), (856, 100),
    -- the root of the asks, and its price, seat and lots
    (33680, 1), (33728, 1), (33744, 1), (33752, 1)].lookup i).getD 0

/-- The buyer of `unevenMarket`. -/
def unevenBuyer : Key := Vector.replicate 32 1

end PhoenixBook

end StockMesh

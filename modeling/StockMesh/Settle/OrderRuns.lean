import StockMesh.Settle.ProgramRuns

/-! # The life of an order

An order is placed once, filled in parts by cells, and ended by its owner. `OrderState` is what it stands for:
the stock left, the cash received, and whether it is open. The account of an order follows it
(`Change.Applies.order`), so over any run of the program what was placed is filled at most once in total, and
a cancelled order stays cancelled. -/

namespace StockMesh.Settle

open Stateful

/-! ## The order that an account stands for -/

/-- An order. -/
@[ext]
structure OrderState where
  remaining : ℕ
  revision : ℕ
  filledCash : ℕ
  isOpen : Bool
  deriving DecidableEq

namespace Change

/-- The stock that a change takes from an order. -/
def stock : Change → ℕ
  | fill _ stock _ => stock
  | _ => 0

/-- The cash that a change brings to an order. -/
def cash : Change → ℕ
  | fill _ _ cash => cash
  | _ => 0

end Change

namespace OrderState

/-- What a change does to an order, if it may be made. -/
def apply (o : OrderState) : Change → Option OrderState
  | .fill revision stock cash =>
    if o.isOpen = true ∧ revision = o.revision ∧ stock ≤ o.remaining then
      some { o with
        remaining := o.remaining - stock
        revision := o.revision + 1
        filledCash := o.filledCash + cash }
    else none
  | .cancel revision =>
    if o.isOpen = true ∧ revision = o.revision then
      some { o with
        remaining := 0
        revision := o.revision + 1
        isOpen := false }
    else none
  | .advance _ => none

variable {o o' : OrderState}

/-- One change: a fill takes from what is left, and nothing happens after the end. -/
structure Moves (o : OrderState) (c : Change) (o' : OrderState) : Prop where
  wasOpen : o.isOpen = true
  revision : o'.revision = o.revision + 1
  filledCash : o'.filledCash = o.filledCash + c.cash
  remaining : o'.isOpen = true → o'.remaining + c.stock = o.remaining
  ended : o'.isOpen = false → o'.remaining = 0 ∧ ∃ revision, c = .cancel revision

theorem apply_eq_some {c : Change} (h : o.apply c = some o') : Moves o c o' := by
  unfold apply at h
  split at h
  · split at h
    · next hfill =>
      cases h
      obtain ⟨hopen, -, hle⟩ := hfill
      refine ⟨hopen, rfl, rfl, fun _ => Nat.sub_add_cancel hle, fun hended => ?_⟩
      rw [hopen] at hended
      cases hended
    · cases h
  · split at h
    · next hcancel =>
      cases h
      exact {
        wasOpen := hcancel.1
        revision := rfl
        filledCash := rfl
        remaining := fun hopen => by cases hopen
        ended := fun _ => ⟨rfl, _, rfl⟩ }
    · cases h
  · cases h

/-- The life of an order over some changes: the revision counts them, the cash adds up, and what was filled
and what is left add up to what there was, unless the owner ended it, which is the last change. -/
structure Lives (o : OrderState) (events : List Change) (o' : OrderState) : Prop where
  revision : o'.revision = o.revision + events.length
  filledCash : o'.filledCash = o.filledCash + (events.map Change.cash).sum
  filled_le : (events.map Change.stock).sum ≤ o.remaining
  remaining : o'.isOpen = true → o'.remaining + (events.map Change.stock).sum = o.remaining
  ended : o.isOpen = true → o'.isOpen = false → o'.remaining = 0 ∧
    ∃ fills revision, events = fills ++ [.cancel revision]
  closed : o.isOpen = false → events = []

theorem Lives.refl (o : OrderState) : Lives o [] o where
  revision := rfl
  filledCash := rfl
  filled_le := Nat.zero_le _
  remaining := fun _ => rfl
  ended := fun hopen hended => by
    rw [hopen] at hended
    cases hended
  closed := fun _ => rfl

/-- A run of changes. -/
theorem lives_of_foldlM {events : List Change} (h : events.foldlM apply o = some o') : Lives o events o' := by
  induction events generalizing o with
  | nil =>
    cases h
    exact .refl _
  | cons c events ih =>
    rw [List.foldlM_cons] at h
    obtain ⟨o₁, hstep, hrest⟩ := Option.bind_eq_some_iff.mp h
    have hmove := apply_eq_some hstep
    have hlife := ih hrest
    have hrevision := hlife.revision
    have hcash := hlife.filledCash
    have hfilled := hlife.filled_le
    constructor
    · -- every change raises the revision by one
      rw [hrevision, hmove.revision, List.length_cons]
      omega
    · rw [hcash, hmove.filledCash, List.map_cons, List.sum_cons]
      omega
    · rw [List.map_cons, List.sum_cons]
      rcases hopen₁ : o₁.isOpen with _ | _
      · obtain ⟨-, revision, rfl⟩ := hmove.ended hopen₁
        rw [hlife.closed hopen₁]
        exact Nat.zero_le _
      · have hleft := hmove.remaining hopen₁
        omega
    · intro hopen
      rw [List.map_cons, List.sum_cons]
      rcases hopen₁ : o₁.isOpen with _ | _
      · -- an ended order has no change
        rw [hlife.closed hopen₁] at hrest
        cases hrest
        rw [hopen₁] at hopen
        cases hopen
      · have hleft := hmove.remaining hopen₁
        have hlast := hlife.remaining hopen
        omega
    · intro hopen hended
      rcases hopen₁ : o₁.isOpen with _ | _
      · -- the first change was the end, so it was the only one
        rw [hlife.closed hopen₁] at hrest ⊢
        cases hrest
        obtain ⟨hzero, revision, rfl⟩ := hmove.ended hopen₁
        exact ⟨hzero, [], revision, rfl⟩
      · obtain ⟨hzero, fills, revision, hevents⟩ := hlife.ended hopen₁ hended
        exact ⟨hzero, c :: fills, revision, by rw [hevents]; rfl⟩
    · intro hclosed
      rw [hmove.wasOpen] at hclosed
      cases hclosed

end OrderState

section Account

variable {d d' : Buffer}

/-- The order in the data of an account. -/
def orderState (d : Buffer) : Option OrderState :=
  if d.size = orderLen then do
    let remaining ← d.number 248 8
    let revision ← d.number 272 8
    let filledCash ← d.number 280 8
    some { remaining, revision, filledCash, isOpen := d.byte 328 = openStatus }
  else none

theorem orderState_eq_some {o : OrderState} : orderState d = some o ↔ d.size = orderLen ∧
    d.number 248 8 = some o.remaining ∧ d.number 272 8 = some o.revision ∧
    d.number 280 8 = some o.filledCash ∧ decide (d.byte 328 = openStatus) = o.isOpen := by
  obtain ⟨remaining, revision, filledCash, isOpen⟩ := o
  unfold orderState
  split
  · next hsize =>
    simp only [Option.bind_eq_bind, Option.bind_eq_some_iff, Option.some.injEq, OrderState.mk.injEq, hsize,
      true_and]
    constructor
    · rintro ⟨_, hremaining, _, hrevision, _, hfilled, rfl, rfl, rfl, rfl⟩
      exact ⟨hremaining, hrevision, hfilled, rfl⟩
    · rintro ⟨hremaining, hrevision, hfilled, rfl⟩
      exact ⟨_, hremaining, _, hrevision, _, hfilled, rfl, rfl, rfl, rfl⟩
  · next hsize => simp [hsize]

/-- Windows that agree agree in their parts. -/
theorem slice_congr {offset length i k : ℕ} (h : d'.slice offset length = d.slice offset length)
    (hsize : offset + length ≤ d.size) (hle : i + k ≤ length) :
    d'.slice (offset + i) k = d.slice (offset + i) k := by
  rw [Buffer.slice, Buffer.slice, if_pos hsize] at h
  split at h
  · next hsize' =>
    have hbytes := Option.some.inj h
    rw [Buffer.slice, Buffer.slice, if_pos (by omega), if_pos (by omega)]
    refine congrArg some (List.map_congr_left fun j hj => ?_)
    rw [List.mem_range] at hj
    have hbyte := (List.map_inj_left.mp hbytes) (i + j) (List.mem_range.mpr (by omega))
    rw [Nat.add_assoc]
    exact hbyte
  · cases h

/-- What an order was placed for: everything in its account but what the changes write. -/
structure SameTerms (d d' : Buffer) : Prop where
  placed : d'.slice 0 248 = d.slice 0 248
  limit : d'.slice 256 16 = d.slice 256 16
  terms : d'.slice 288 40 = d.slice 288 40

theorem SameTerms.refl (d : Buffer) : SameTerms d d := ⟨rfl, rfl, rfl⟩

theorem SameTerms.trans {d'' : Buffer} (h : SameTerms d d') (h' : SameTerms d' d'') : SameTerms d d'' :=
  ⟨h'.placed.trans h.placed, h'.limit.trans h.limit, h'.terms.trans h.terms⟩

/-- A byte is a window of length one. -/
theorem slice_byte {offset : ℕ} (h : offset + 1 ≤ d.size) : d.slice offset 1 = some [d.byte offset] := by
  rw [Buffer.slice, if_pos h]
  rfl

theorem byte_of_slice {offset : ℕ} {b : UInt8} (h : d.slice offset 1 = some [b]) : d.byte offset = b := by
  obtain ⟨hle, -⟩ := Buffer.slice_eq_some h
  rw [slice_byte hle] at h
  cases h
  rfl

theorem SameTerms.of_fields {fields : List (ℕ × List UInt8)} (h : Buffer.spliceAll fields d = some d')
    (hfields : ∀ f ∈ fields, (248 ≤ f.1 ∧ f.1 + f.2.length ≤ 256) ∨ (272 ≤ f.1 ∧ f.1 + f.2.length ≤ 288) ∨
      328 ≤ f.1) : SameTerms d d' := by
  constructor
  · refine Buffer.slice_spliceAll_of_disjoint h fun f hf => ?_
    have hplace := hfields f hf
    omega
  · refine Buffer.slice_spliceAll_of_disjoint h fun f hf => ?_
    have hplace := hfields f hf
    omega
  · refine Buffer.slice_spliceAll_of_disjoint h fun f hf => ?_
    have hplace := hfields f hf
    omega

/-- What an order is placed at: who owns it, where its stock is, where its cash goes, and for how much. -/
structure OrderTerms where
  owner : Key
  escrow : Key
  account : Key
  limit : ℕ

/-- The account of an order names its terms. -/
structure HasTerms (d : Buffer) (t : OrderTerms) : Prop where
  owner : d.slice 8 32 = some t.owner.toList
  escrow : d.slice 168 32 = some t.escrow.toList
  account : d.slice 200 32 = some t.account.toList
  limit : u64At d 256 = .ok t.limit

/-- The keys that an order was placed with are among its terms. -/
theorem SameTerms.key_eq (h : SameTerms d d') (hsize : d.size = orderLen) {offset : ℕ}
    (hle : offset + 32 ≤ 248) : d'.slice offset 32 = d.slice offset 32 := by
  have hkey := slice_congr (i := offset) (k := 32) h.placed (by rw [hsize]; decide) hle
  rwa [Nat.zero_add] at hkey

/-- The limit of an order is one of its terms. -/
theorem SameTerms.limit_eq (h : SameTerms d d') (hsize : d.size = orderLen) : u64At d' 256 = u64At d 256 := by
  have hlimit : d'.slice 256 8 = d.slice 256 8 :=
    slice_congr (i := 0) h.limit (by rw [hsize]; decide) (by decide)
  rw [u64At, u64At, Buffer.number, Buffer.number, hlimit]

theorem SameTerms.hasTerms {t : OrderTerms} (h : SameTerms d d') (hsize : d.size = orderLen) (hnames : HasTerms d t) :
    HasTerms d' t where
  owner := (h.key_eq hsize (by decide)).trans hnames.owner
  escrow := (h.key_eq hsize (by decide)).trans hnames.escrow
  account := (h.key_eq hsize (by decide)).trans hnames.account
  limit := (h.limit_eq hsize).trans hnames.limit

/-- The account of an order follows it. -/
theorem Change.Applies.order {c : Change} (h : c.Applies d d') {o : OrderState} (ho : orderState d = some o) :
    (∃ o', o.apply c = some o' ∧ orderState d' = some o') ∧ SameTerms d d' := by
  obtain ⟨hsize, hremaining, hrevision, hfilled, hopen⟩ := orderState_eq_some.mp ho
  have hsize' := h.tick.size_eq.trans hsize
  cases c with
  | advance count => exact absurd hsize h.1
  | fill revision stock cash =>
    obtain ⟨⟨remaining, filledCash, hfill, hdata⟩, -⟩ := h
    obtain ⟨⟨-, hstatus, hstored⟩, -, hlt, ⟨left, hleft, hle, rfl⟩, before, hbefore, hcash, rfl⟩ :=
      filledOrder_eq_ok hfill
    -- what the fill has read is what the order stands for
    rw [okOr_eq_ok.mp hstored] at hrevision
    rw [okOr_eq_ok.mp hleft] at hremaining
    rw [okOr_eq_ok.mp hbefore] at hfilled
    cases hrevision
    cases hremaining
    cases hfilled
    have hapart := fillFields_apart (o.remaining - stock) (o.revision + 1) (o.filledCash + cash)
    have hlt' : o.remaining - stock < u64Size := (Nat.sub_le _ _).trans_lt (u64At_lt hleft)
    refine ⟨⟨_, if_pos ⟨by rw [← hopen, hstatus]; rfl, rfl, hle⟩, orderState_eq_some.mpr
      ⟨hsize', ?_, ?_, ?_, ?_⟩⟩, SameTerms.of_fields hdata ?_⟩
    · exact Buffer.number_spliceAll hdata hapart (by simp [fillFields]) hlt'
    · exact Buffer.number_spliceAll hdata hapart (by simp [fillFields]) hlt
    · exact Buffer.number_spliceAll hdata hapart (by simp [fillFields]) hcash
    · -- a fill leaves the status
      have hkept : d'.slice 328 1 = d.slice 328 1 :=
        Buffer.slice_spliceAll_of_disjoint hdata (by simp [fillFields])
      rw [slice_byte (d := d) (by rw [hsize]; decide), hstatus] at hkept
      rw [byte_of_slice hkept, ← hopen, hstatus]
    · simp [fillFields]
  | cancel revision =>
    obtain ⟨-, hstatus, hstored, hlt, hdata⟩ := h
    rw [okOr_eq_ok.mp hstored] at hrevision
    cases hrevision
    have hapart := cancelFields_apart (o.revision + 1)
    refine ⟨⟨_, if_pos ⟨by rw [← hopen, hstatus]; rfl, rfl⟩, orderState_eq_some.mpr
      ⟨hsize', ?_, ?_, ?_, ?_⟩⟩, SameTerms.of_fields hdata ?_⟩
    · exact Buffer.number_spliceAll hdata hapart (by simp [cancelFields]) (show 0 < 256 ^ 8 by omega)
    · exact Buffer.number_spliceAll hdata hapart (by simp [cancelFields]) hlt
    · rw [Buffer.number_spliceAll_of_disjoint hdata (by simp [cancelFields])]
      exact hfilled
    · -- the end writes it
      have hwritten := Buffer.slice_spliceAll hdata hapart
        (show (328, [cancelledStatus]) ∈ cancelFields (o.revision + 1) by simp [cancelFields])
      rw [byte_of_slice hwritten]
      rfl
    · simp [cancelFields]

end Account

/-! ## Placing -/

section Place

variable {rt : Runtime} {n : ℕ} {a : Accounts n} {clock : Clock} {program : ProgramId}
  {venues : Venues program} {d : Buffer} {s s' : Chain}

theorem newOrder_apart (o : NewOrder) : o.fields.Pairwise Buffer.Apart := by
  have hspans : o.fields.map (fun f => (f.1, f.2.length)) = [(0, 8), (8, 32), (40, 32), (72, 32), (104, 32),
      (136, 32), (168, 32), (200, 32), (232, 8), (240, 8), (248, 8), (256, 8), (264, 8), (272, 8), (280, 8),
      (288, 8), (296, 8), (312, 8), (320, 8), (304, 1), (305, 2), (328, 1)] := by
    simp [NewOrder.fields, orderTag]
  exact apart_of_spans hspans (by decide)

/-- What an account holds that `place` has made an order of. -/
structure Placed (program : ProgramId) (account : Account) (t : OrderTerms) (stock : ℕ) : Prop where
  owner : account.owner = program
  state : orderState account.data = some ⟨stock, 0, 0, true⟩
  names : HasTerms account.data t

/-- The windows of a new order on an account of its length. -/
theorem NewOrder.placed {o : NewOrder} {account : Account} {base : Buffer} (howner : account.owner = program)
    (hsize : base.size = orderLen) (hdata : Buffer.spliceAll o.fields base = some account.data)
    (hstock : o.stock < u64Size) (hlimit : o.minimumCashPerShare < u64Size) :
    Placed program account ⟨o.owner, o.escrow, o.cashDestination, o.minimumCashPerShare⟩ o.stock := by
  have hapart := newOrder_apart o
  have hzero : 0 < 256 ^ 8 := by omega
  have hread : ∀ {offset m : ℕ}, (offset, Buffer.toBytes 8 m) ∈ o.fields → m < 256 ^ 8 →
      account.data.number offset 8 = some m := Buffer.number_spliceAll hdata hapart
  have hkey : ∀ {offset : ℕ} {k : Key}, (offset, k.toList) ∈ o.fields →
      account.data.slice offset 32 = some k.toList := by
    intro offset k hmem
    have hwritten := Buffer.slice_spliceAll hdata hapart hmem
    dsimp only at hwritten
    rwa [Vector.length_toList] at hwritten
  constructor
  · exact howner
  · refine orderState_eq_some.mpr ⟨(Buffer.size_spliceAll hdata).trans hsize, ?_, ?_, ?_, ?_⟩
    · exact hread (by simp [NewOrder.fields]) hstock
    · exact hread (by simp [NewOrder.fields]) hzero
    · exact hread (by simp [NewOrder.fields]) hzero
    · have hwritten := Buffer.slice_spliceAll hdata hapart
        (show (328, [openStatus]) ∈ o.fields by simp [NewOrder.fields])
      rw [byte_of_slice hwritten]
      rfl
  · constructor
    · exact hkey (by simp [NewOrder.fields])
    · exact hkey (by simp [NewOrder.fields])
    · exact hkey (by simp [NewOrder.fields])
    · exact okOr_eq_ok.mpr (hread (by simp [NewOrder.fields]) hlimit)

/-- The terms of an order that is placed at a limit. -/
def PlaceAccounts.terms (p : PlaceAccounts n) (a : Accounts n) (limit : ℕ) : OrderTerms :=
  ⟨a.key p.owner, a.key p.escrow, a.key p.cash, limit⟩

/-- The order that an instruction has placed: it is over the signed stock at the signed limit, and the stock is
in its escrow. -/
structure PlacedBy (program : ProgramId) (a : Accounts n) (d : Buffer) (p : PlaceAccounts n)
    (stock limit : ℕ) (after : Ledger) : Prop where
  accounts_eq : placeAccounts n = .ok p
  stock_eq : u64At d 16 = .ok stock
  limit_eq : u64At d 24 = .ok limit
  placed : Placed program (after (a.key p.order)) (p.terms a limit) stock
  funded : tokenAmount after (a.key p.escrow) = stock

/-- `place` makes an order. -/
theorem place_placed (h : place rt a clock venues d s = (.ok (), s')) :
    ∃ p stock limit, PlacedBy program a d p stock limit s'.ledger := by
  rw [place, lift_bind_eq_ok] at h
  obtain ⟨_, -, h⟩ := h
  obtain ⟨p, hp, h⟩ := lift_bind_eq_ok.mp h
  rw [get_bind] at h
  obtain ⟨o, ho, h⟩ := lift_bind_eq_ok.mp h
  obtain ⟨_, s₁, hcreate, h⟩ := Comp.bind_eq_ok.mp h
  obtain ⟨_, s₂, htransfer, h⟩ := Comp.bind_eq_ok.mp h
  rw [get_bind] at h
  obtain ⟨sourceAfter, -, h⟩ := lift_bind_eq_ok.mp h
  obtain ⟨escrowAfter, hescrow, h⟩ := lift_bind_eq_ok.mp h
  obtain ⟨_, hfunded, h⟩ := lift_bind_eq_ok.mp h
  obtain ⟨_, s₃, hzero, h⟩ := Comp.bind_eq_ok.mp h
  obtain ⟨_, s₄, hwrite, h⟩ := Comp.bind_eq_ok.mp h
  rw [get_bind] at h
  cases h
  obtain ⟨-, hstock, hlimit, hterms⟩ := placeOrder_eq_ok ho
  obtain ⟨howner, hsize⟩ := createAccount_eq_ok hcreate
  obtain ⟨howner₂, hdata₂⟩ := spares_transferChecked _ _ _ _ _ _ _ _ _ htransfer _ List.not_mem_nil howner
  obtain ⟨hamount, hforeign⟩ : escrowAfter = tokenAmount s₂.ledger (a.key p.escrow) ∧
    (s₂.ledger (a.key p.escrow)).owner ≠ program := checkedAsset_foreign hescrow
  have hfull := (need_eq_ok.mp hfunded).2.2
  -- the order is the program's and the escrow is not, so that the record does not overwrite the stock
  have hne : a.key p.escrow ≠ a.key p.order := fun heq => hforeign (heq ▸ howner₂)
  obtain rfl := zeroData_eq_ok hzero
  obtain ⟨data, hdata, rfl⟩ := writeFields_eq_ok hwrite
  refine ⟨p, o.stock, o.minimumCashPerShare, hp, hstock, hlimit, ?_, ?_⟩
  · rw [PlaceAccounts.terms, ← hterms.1, ← hterms.2.1, ← hterms.2.2]
    simp only [Function.update_self] at hdata ⊢
    have hbase : (⟨(s₂.ledger (a.key p.order)).data.size, fun _ => 0⟩ : Buffer).size = orderLen :=
      congrArg Buffer.size (hdata₂.trans hsize)
    exact NewOrder.placed howner₂ hbase hdata (u64At_lt hstock) (u64At_lt hlimit)
  · rw [← hfull, hamount, tokenAmount, tokenAmount]
    dsimp only
    rw [Function.update_of_ne hne, Function.update_of_ne hne]

end Place

/-! ## Runs -/

section Runs

variable {program : ProgramId} {ledger ledger' : Ledger} {changes log : List (Key × Change)} {key : Key}

/-- A fill pays a limit. -/
def Change.Pays (limit : ℕ) : Change → Prop
  | fill _ stock cash => Priced limit stock cash
  | _ => True

/-- The changes of one record. -/
def changesAt (log : List (Key × Change)) (key : Key) : List Change :=
  (log.filter fun e => e.1 = key).map Prod.snd

theorem changesAt_append (log more : List (Key × Change)) (key : Key) :
    changesAt (log ++ more) key = changesAt log key ++ changesAt more key := by
  simp [changesAt]

/-- What a run has done to an order: it has gone through its changes, it is the order it was, and every fill
pays its limit. -/
structure OrderRun (program : ProgramId) (events : List Change) (o : OrderState) (before after : Account) :
    Prop where
  owner : after.owner = program
  terms : SameTerms before.data after.data
  reached : ∃ o', events.foldlM OrderState.apply o = some o' ∧ orderState after.data = some o'
  priced : ∀ limit, u64At before.data 256 = .ok limit → ∀ c ∈ events, c.Pays limit

/-- A step changes an order at most once. -/
theorem Commits.order (h : Commits program changes ledger ledger') {o : OrderState}
    (howner : (ledger key).owner = program) (ho : orderState (ledger key).data = some o) :
    OrderRun program (changesAt changes key) o (ledger key) (ledger' key) := by
  rcases filter_of_nodup_keys h.nodup key with ⟨hnil, hnot⟩ | ⟨c, hc, hmem⟩
  · obtain ⟨howner', hdata⟩ := h.kept key hnot howner
    have hnone : changesAt changes key = [] := congrArg (List.map Prod.snd) hnil
    rw [hnone]
    refine ⟨howner', hdata ▸ SameTerms.refl _, ⟨o, rfl, hdata ▸ ho⟩, fun _ _ c hc => ?_⟩
    exact absurd hc List.not_mem_nil
  · obtain ⟨-, howner', happly⟩ := h.changed _ hmem
    have hone : changesAt changes key = [c] := congrArg (List.map Prod.snd) hc
    obtain ⟨⟨o', hmove, ho'⟩, hterms⟩ := happly.order ho
    rw [hone]
    refine ⟨howner', hterms, ⟨o', ?_, ho'⟩, fun limit hlimit c' hc' => ?_⟩
    · rw [List.foldlM_cons, hmove]
      rfl
    · obtain rfl := List.mem_singleton.mp hc'
      cases c' with
      | fill revision stock cash =>
        obtain ⟨-, limit', hlimit', hpriced⟩ := happly
        rw [show u64At (ledger key).data 256 = .ok limit' from hlimit'] at hlimit
        cases hlimit
        exact hpriced
      | advance count => trivial
      | cancel revision => trivial

theorem OrderRun.trans {events more : List Change} {o o₁ : OrderState} {before between after : Account}
    (hbefore : orderState before.data = some o) (h : OrderRun program events o before between)
    (ho : orderState between.data = some o₁)
    (h' : OrderRun program more o₁ between after) : OrderRun program (events ++ more) o before after := by
  obtain ⟨o₂, hfold, ho₂⟩ := h.reached
  obtain ⟨o', hfold', ho'⟩ := h'.reached
  rw [ho] at ho₂
  cases ho₂
  refine ⟨h'.owner, h.terms.trans h'.terms, ⟨o', ?_, ho'⟩, fun limit hlimit => ?_⟩
  · rw [List.foldlM_append, hfold]
    exact hfold'
  · refine List.forall_mem_append.mpr ⟨h.priced limit hlimit, h'.priced limit ?_⟩
    rw [h.terms.limit_eq (orderState_eq_some.mp hbefore).1]
    exact hlimit

/-- Over any run an order goes through its changes. -/
theorem order_runs (hsystem : (program : Key) ≠ systemId)
    (h : Tells (ProgramStep program) ledger log ledger') {o : OrderState}
    (howner : (ledger key).owner = program) (ho : orderState (ledger key).data = some o) :
    OrderRun program (changesAt log key) o (ledger key) (ledger' key) := by
  refine h.invariant (I := fun log l => OrderRun program (changesAt log key) o (ledger key) (l key)) ?_ ?_
  · exact ⟨howner, .refl _, ⟨o, rfl, ho⟩, fun _ _ c hc => absurd hc List.not_mem_nil⟩
  · intro log l events l' hrun hstep
    obtain ⟨o₁, -, ho₁⟩ := hrun.reached
    rw [changesAt_append]
    exact hrun.trans ho ho₁ ((hstep.commits hsystem).order hrun.owner ho₁)

/-- An order placed by an instruction of the program. -/
theorem processInstruction_placed {c : Call program} {s s' : Chain} (hplace : (c.data.byte 0).toNat = 15)
    (h : c.processInstruction s = (.ok (), s')) : ∃ p stock limit,
    PlacedBy program c.accounts c.data p stock limit s'.ledger := by
  unfold Call.processInstruction at h
  split at h
  · cases (lift_eq_ok.mp h).1
  · rw [hplace] at h
    exact place_placed h

/-- The whole life of an order, from its placing over any run: however instructions of anyone come, it is
filled for at most the stock that it was placed with, its remainder, cash and revision account for all fills,
every fill pays the limit that it was placed with, and once its owner has ended it nothing happens to it. -/
theorem order_life (hsystem : (program : Key) ≠ systemId) {c : Call program} {s : Chain}
    (hplace : (c.data.byte 0).toNat = 15) (hrun : c.processInstruction { ledger } = (.ok (), s))
    (h : Tells (ProgramStep program) s.ledger log ledger') :
    ∃ (p : PlaceAccounts c.n) (stock limit : ℕ) (o : OrderState),
    placeAccounts c.n = .ok p ∧ u64At c.data 16 = .ok stock ∧ u64At c.data 24 = .ok limit ∧
    orderState (ledger' (c.accounts.key p.order)).data = some o ∧
    OrderState.Lives ⟨stock, 0, 0, true⟩ (changesAt log (c.accounts.key p.order)) o ∧
    ∀ e ∈ changesAt log (c.accounts.key p.order), e.Pays limit := by
  obtain ⟨p, stock, limit, haccounts, hstock, hlimit, hplaced, -⟩ := processInstruction_placed hplace hrun
  obtain ⟨-, -, ⟨o, hfold, ho⟩, hpriced⟩ := order_runs hsystem h hplaced.owner hplaced.state
  exact ⟨p, stock, limit, o, haccounts, hstock, hlimit, ho, OrderState.lives_of_foldlM hfold,
    hpriced limit hplaced.names.limit⟩

/-- The life of the sample order up to its first fill. -/
theorem order_life_sample : ∃ s s', placeCall.processInstruction { ledger := marketLedger } = (.ok (), s) ∧
    takeCall.processInstruction { ledger := s.ledger } = (.ok (), s') ∧
    ∃ (p : PlaceAccounts 12) (stock limit : ℕ) (o : OrderState),
    placeAccounts 12 = .ok p ∧ u64At placeCall.data 16 = .ok stock ∧ u64At placeCall.data 24 = .ok limit ∧
    orderState (s'.ledger (placeCall.accounts.key p.order)).data = some o ∧
    OrderState.Lives ⟨stock, 0, 0, true⟩ (changesAt (instructionChanges sampleProgram takeCall.accounts s.ledger
      takeCall.data) (placeCall.accounts.key p.order)) o ∧
    ∀ e ∈ changesAt (instructionChanges sampleProgram takeCall.accounts s.ledger takeCall.data)
      (placeCall.accounts.key p.order), e.Pays limit := by
  obtain ⟨s, s', -, hplace, hfill, -⟩ := market_run
  exact ⟨s, s', hplace, hfill, order_life (by decide) placeCall_places hplace (.single (.call takeCall hfill))⟩

/-- A fill takes stock that is left, at the limit or above; exactly its stock leaves the escrow and exactly its
cash arrives. -/
structure FillHonored (order : Key) (t : OrderTerms) (stock cash : ℕ) (before after : Ledger) : Prop where
  left : ∃ o, orderState (before order).data = some o ∧ o.isOpen = true ∧ stock ≤ o.remaining
  priced : Change.Priced t.limit stock cash
  given : tokenAmount after t.escrow + stock = tokenAmount before t.escrow
  got : tokenAmount after t.account = tokenAmount before t.account + cash

/-- The end of an order: exactly what is left goes from the escrow to a token account of the owner. -/
structure EndHonored (order : Key) (t : OrderTerms) (before after : Ledger) (o : OrderState) (destination : Key) :
    Prop where
  left : orderState (before order).data = some o
  wasOpen : o.isOpen = true
  authority : keyAt (before destination).data 32 = .ok t.owner
  given : tokenAmount after t.escrow + o.remaining = tokenAmount before t.escrow
  got : tokenAmount after destination = tokenAmount before destination + o.remaining

/-- What an instruction that changes an order does for its owner. -/
def Change.Honors (order : Key) (t : OrderTerms) (before after : Ledger) : Change → Prop
  | fill _ stock cash => FillHonored order t stock cash before after
  | cancel _ => ∃ o destination, EndHonored order t before after o destination
  | advance _ => False

/-- An instruction honors the terms of the orders that it changes. -/
theorem processInstruction_honors (hsystem : (program : Key) ≠ systemId) {c : Call program} {s s' : Chain}
    (h : c.processInstruction s = (.ok (), s')) {e : Change} {t : OrderTerms} {o : OrderState}
    (hmem : (key, e) ∈ instructionChanges program c.accounts s.ledger c.data)
    (ho : orderState (s.ledger key).data = some o) (hnames : HasTerms (s.ledger key).data t) :
    e.Honors key t s.ledger s'.ledger := by
  have happly := ((processInstruction_performs hsystem h).commits.changed _ hmem).2.2
  obtain ⟨⟨o', hmove, -⟩, -⟩ := Change.Applies.order happly ho
  cases e with
  | advance count => cases hmove
  | fill revision stock cash =>
    -- the escrow and the account that the record names are those of the terms
    obtain ⟨⟨hopen, -, hle⟩, -⟩ := Option.ite_none_right_eq_some.mp hmove
    obtain ⟨-, limit, hlimit, hpriced⟩ := happly
    obtain ⟨⟨escrow, hescrow, hgiven⟩, ⟨account, haccount, hgot⟩⟩ := processInstruction_fill h hmem
    rw [hnames.escrow, Option.some.injEq, Vector.toList_inj] at hescrow
    rw [hnames.account, Option.some.injEq, Vector.toList_inj] at haccount
    subst hescrow haccount
    refine ⟨⟨o, ho, hopen, hle⟩, ?_, hgiven, hgot⟩
    have hsame := hnames.limit
    rw [show u64At (s.ledger key).data 256 = .ok limit from hlimit] at hsame
    cases hsame
    exact hpriced
  | cancel revision =>
    obtain ⟨⟨hopen, -⟩, -⟩ := Option.ite_none_right_eq_some.mp hmove
    obtain ⟨owner, escrow, destination, remaining, hmoves⟩ := processInstruction_cancel h hmem
    have howner := hmoves.owner_eq
    have hescrow := hmoves.escrow_eq
    rw [hnames.owner, Option.some.injEq, Vector.toList_inj] at howner
    rw [hnames.escrow, Option.some.injEq, Vector.toList_inj] at hescrow
    subst howner hescrow
    have hleft := okOr_eq_ok.mp hmoves.left_eq
    rw [(orderState_eq_some.mp ho).2.1] at hleft
    cases hleft
    exact ⟨o, destination, ho, hopen, hmoves.authority, hmoves.taken, hmoves.returned⟩

end Runs

end StockMesh.Settle

import StockMesh.Settle.Graph
import StockMesh.Foundation.Transfers

/-! # Runs of a fixed graph

A fixed graph executes its legs in order. When every venue that is invoked spends exactly its budget and
returns something, the balances of the run are a `Flow` of the legs' transfers (`runGraph_obliging`), and a
run that does not end so was stopped at a leg whose data could not be built. -/

namespace StockMesh.Settle

open Stateful

/-! ## Token accounts whose amounts change -/

/-- Everything of a token account but its amount stays. -/
structure Kept (before after : Account) : Prop where
  owner : after.owner = before.owner
  size : after.data.size = before.data.size
  byte : ∀ i, i < 64 ∨ 72 ≤ i → after.data.byte i = before.data.byte i

namespace Kept

variable {before after : Account}

theorem slice_eq (h : Kept before after) {offset length : ℕ}
    (hapart : offset + length ≤ 64 ∨ 72 ≤ offset) :
    after.data.slice offset length = before.data.slice offset length := by
  unfold Buffer.slice
  rw [h.size]
  congr 2
  apply List.map_congr_left
  intro i hi
  have hlt := List.mem_range.mp hi
  exact h.byte _ (by omega)

theorem number_eq (h : Kept before after) {offset length : ℕ}
    (hapart : offset + length ≤ 64 ∨ 72 ≤ offset) :
    after.data.number offset length = before.data.number offset length := by
  rw [Buffer.number, Buffer.number, h.slice_eq hapart]

theorem zeroFrom_eq (h : Kept before after) {p : ℕ} (hp : 72 ≤ p) :
    zeroFrom after.data p = zeroFrom before.data p := by
  unfold zeroFrom
  rw [h.size, Bool.eq_iff_iff, List.all_eq_true, List.all_eq_true]
  have hbyte : ∀ i, after.data.byte (p + i) = before.data.byte (p + i) :=
    fun i => h.byte _ (.inr (by omega))
  simp only [hbyte]

theorem scanExtensions_eq (h : Kept before after) (mint : Bool) (fuel : ℕ) {p : ℕ} (hp : 72 ≤ p)
    (seen : ℕ) :
    scanExtensions after.data mint fuel p seen = scanExtensions before.data mint fuel p seen := by
  induction fuel generalizing p seen with
  | zero => rfl
  | succ fuel ih =>
    rw [scanExtensions, scanExtensions, h.size, h.zeroFrom_eq hp, h.number_eq (.inr hp),
      h.number_eq (.inr (Nat.le_add_right_of_le hp))]
    have hslice : ∀ length, after.data.slice (p + 4) length = before.data.slice (p + 4) length :=
      fun length => h.slice_eq (.inr (Nat.le_add_right_of_le hp))
    have hrest : ∀ length seen, scanExtensions after.data mint fuel (p + 4 + length) seen =
        scanExtensions before.data mint fuel (p + 4 + length) seen :=
      fun length seen => ih (by omega) seen
    simp only [hslice, hrest]

theorem extensions_eq (h : Kept before after) :
    extensions after.data false = extensions before.data false := by
  unfold extensions
  rw [h.size, h.byte 165 (.inr (by omega)), h.scanExtensions_eq false _ (by omega)]
  rfl

theorem trans {account : Account} (h : Kept before after) (h' : Kept after account) :
    Kept before account :=
  ⟨h'.owner.trans h.owner, h'.size.trans h.size, fun i hi => (h'.byte i hi).trans (h.byte i hi)⟩

end Kept

section Admission

variable {n : ℕ} {a : Accounts n} {ledger ledger' : Ledger} {wallet t m p : Key} {inspectMint : Bool}
  {v : ℕ}

/-- An initialized token account has a balance. -/
theorem balance_of_size {key : Key}
    (h : 165 ≤ (ledger key).data.size ∧ (ledger key).data.byte 108 = 1) :
    balance ledger key = .ok (tokenAmount ledger key) := by
  have hsome : ((ledger key).data.number 64 8).isSome := Buffer.number_isSome.mpr (by omega)
  obtain ⟨amount, hamount⟩ := Option.isSome_iff_exists.mp hsome
  rw [balance, need_of h, tokenAmount, hamount]
  exact ad_eq_ok.mpr (okOr_eq_ok.mpr hamount)

/-- An admitted account whose amount alone changes stays admitted. -/
theorem checkedAsset_of_kept (h : checkedAsset ledger a wallet t m p inspectMint = .ok v)
    (ht : Kept (ledger t) (ledger' t)) (hm : (ledger' m).owner = (ledger m).owner)
    (hp : (ledger' p).executable = (ledger p).executable) :
    checkedAsset ledger' a wallet t m p false = .ok (tokenAmount ledger' t) := by
  rw [checkedAsset, bind_eq_ok] at h
  obtain ⟨_, howner, h⟩ := h
  dsimp only at h
  obtain ⟨_, hform, h⟩ := bind_eq_ok.mp h
  obtain ⟨mint, hmint, h⟩ := bind_eq_ok.mp h
  obtain ⟨authority, hauthority, h⟩ := bind_eq_ok.mp h
  obtain ⟨_, hidentity, h⟩ := bind_eq_ok.mp h
  have hextensions : (if p = tokenId then need ((ledger t).data.size = 165) .identity
      else extensions (ledger t).data false) = .ok () := by
    by_cases htoken : p = tokenId
    · rw [if_pos htoken] at h ⊢
      obtain ⟨_, hsize, -⟩ := bind_eq_ok.mp h
      exact hsize
    · rw [if_neg htoken] at h ⊢
      obtain ⟨_, hsize, -⟩ := bind_eq_ok.mp h
      exact hsize
  have hkey : ∀ offset, offset + 32 ≤ 64 →
      keyAt (ledger' t).data offset = keyAt (ledger t).data offset := by
    intro offset hoffset
    rw [keyAt, keyAt, ht.slice_eq (.inl hoffset)]
  have hwindow : ∀ offset length, 72 ≤ offset →
      (zeroWindow (ledger' t).data offset length ↔ zeroWindow (ledger t).data offset length) := by
    intro offset length hoffset
    rw [zeroWindow, zeroWindow, ht.slice_eq (.inr hoffset)]
  have hform' := need_eq_ok.mp hform
  rw [← hwindow 72 4 (by omega), ← hwindow 121 8 (by omega), ← hwindow 129 4 (by omega),
    ← ht.size, ← ht.byte 108 (by omega)] at hform'
  have howner' := need_eq_ok.mp howner
  rw [← ht.owner, ← hm, ← hp] at howner'
  rw [← hkey 0 (by omega)] at hmint
  rw [← hkey 32 (by omega)] at hauthority
  rw [← ht.size, ← ht.extensions_eq] at hextensions
  have hsome : ((ledger' t).data.number 64 8).isSome :=
    Buffer.number_isSome.mpr (by have := hform'.1; omega)
  obtain ⟨amount, hamount⟩ := Option.isSome_iff_exists.mp hsome
  rw [checkedAsset, need_of howner']
  dsimp only
  refine bind_eq_ok.mpr ⟨(), rfl, ?_⟩
  refine bind_eq_ok.mpr ⟨(), need_of hform', ?_⟩
  refine bind_eq_ok.mpr ⟨mint, hmint, ?_⟩
  refine bind_eq_ok.mpr ⟨authority, hauthority, ?_⟩
  refine bind_eq_ok.mpr ⟨(), hidentity, ?_⟩
  have hread : ad (u64At (ledger' t).data 64) = .ok (tokenAmount ledger' t) := by
    rw [tokenAmount, hamount]
    exact ad_eq_ok.mpr (okOr_eq_ok.mpr hamount)
  by_cases htoken : p = tokenId
  · rw [if_pos htoken] at hextensions ⊢
    rw [hextensions]
    exact hread
  · rw [if_neg htoken] at hextensions ⊢
    rw [hextensions]
    exact hread

end Admission

/-! ## Runs -/

section Runs

variable {natives : Natives} {n : ℕ} (a : Accounts n) (g : Graph n) (clock : Clock)
  {program : ProgramId} (venues : Venues program) (wallet : Fin n)

/-- A venue spends exactly its budget, returns something, and changes nothing else of the wallet's
assets. -/
structure Trades (leg : Leg n g.assetCount) (budget : ℕ) (before after : Ledger) : Prop where
  spends : tokenAmount after (tokenKey a g leg.source) + budget =
    tokenAmount before (tokenKey a g leg.source)
  returns : tokenAmount before (tokenKey a g leg.destination) <
    tokenAmount after (tokenKey a g leg.destination)
  others : ∀ i, i ≠ leg.source → i ≠ leg.destination →
    tokenAmount after (tokenKey a g i) = tokenAmount before (tokenKey a g i)
  kept : ∀ i, Kept (before (tokenKey a g i)) (after (tokenKey a g i))
  mints : ∀ i, (after (mintKey a g i)).owner = (before (mintKey a g i)).owner
  programs : ∀ i, (after (a.key (g.assets i).program)).executable =
    (before (a.key (g.assets i).program)).executable
  lamports : (after (a.key wallet)).lamports = (before (a.key wallet)).lamports

/-- The balances of the wallet's assets. -/
def balances (ledger : Ledger) (i : Fin g.assetCount) : ℕ := tokenAmount ledger (tokenKey a g i)

/-- The states between the iterations of a run of a fixed graph. -/
inductive Reached (natives : Natives) (start : Chain) : ℕ → Run natives g.assetCount → Chain → Prop
  | start : Reached natives start 0 { oracle := none, current := balances a g start.ledger } start
  | step {k : ℕ} {run next : Run natives g.assetCount} {s s' : Chain}
      (h : Reached natives start k run s)
      (iterated : Iterated a g clock (balances a g start.ledger) venues wallet
        (start.ledger (a.key wallet)).lamports k run s next s') : Reached natives start (k + 1) next s'

/-- Every venue that a run invokes trades, and no Phoenix book leaves a whole budget as residue. -/
structure Obliging (natives : Natives) (start : Chain) : Prop where
  trades : ∀ (k : ℕ) (run : Run natives g.assetCount) (s : Chain),
    Reached a g clock venues wallet natives start k run s →
    ∀ (sel : Selected a g clock (balances a g start.ledger) s.ledger k run) (data : List UInt8),
      sel.budget ≠ 0 → legData a g clock s.ledger (a.key wallet) sel.leg sel.budget = .ok (some data) →
      ∃ ledger, venues.invoke s.cpis.length (legInstruction a g s.ledger sel.leg data) s.ledger =
        .ok ledger ∧ Trades a g wallet sel.leg sel.budget s.ledger ledger
  fills : ∀ (k : ℕ) (run : Run natives g.assetCount) (s : Chain),
    Reached a g clock venues wallet natives start k run s →
    ∀ sel : Selected a g clock (balances a g start.ledger) s.ledger k run,
      sel.budget ≠ 0 → legData a g clock s.ledger (a.key wallet) sel.leg sel.budget ≠ .ok none

/-- A run stopped at a leg whose data cannot be built. -/
def Blocked (natives : Natives) (start : Chain) (s : Chain) : Prop :=
  ∃ (k : ℕ) (run : Run natives g.assetCount),
    Reached a g clock venues wallet natives start k run s ∧
    ∃ sel : Selected a g clock (balances a g start.ledger) s.ledger k run,
      sel.budget ≠ 0 ∧ legData a g clock s.ledger (a.key wallet) sel.leg sel.budget = .error .adapter

/-- What is left to spend: the rest of the input and what the legs have produced. -/
def pots (start current : Fin g.assetCount → ℕ) (i : Fin g.assetCount) : ℕ :=
  if i = g.first then g.input - (start i - current i) else current i - start i

/-- A leg as a transfer; without a bound it takes all. -/
def transfer {n k : ℕ} (leg : Leg n k) : Transfer (Fin k) where
  source := leg.source
  destination := leg.destination
  cap := if leg.budget = u64Size - 1 then none else some leg.budget

/-- A run of a fixed graph after `k` legs. -/
structure Running (start : Chain) (k : ℕ) (run : Run natives g.assetCount) (s : Chain) : Prop where
  oracle : run.oracle = none
  current : run.current = balances a g s.ledger
  admitted : ∀ i, asset s.ledger a g (a.key wallet) i false = .ok (run.current i)
  lamports : (s.ledger (a.key wallet)).lamports = (start.ledger (a.key wallet)).lamports
  fresh : ∀ i, k ≤ i → run.used i = 0
  held : ∀ i, i ≠ g.first → balances a g start.ledger i ≤ run.current i
  spent_le : run.current g.first ≤ balances a g start.ledger g.first
  within : balances a g start.ledger g.first - run.current g.first ≤ g.input
  flow : Flow ((g.legs.take k).map transfer) (pots g (balances a g start.ledger)
    (balances a g start.ledger)) (pots g (balances a g start.ledger) run.current)

end Runs

section Step

variable {natives : Natives} {n : ℕ} {a : Accounts n} {g : Graph n} {clock : Clock}
  {program : ProgramId} {venues : Venues program} {wallet : Fin n} {start s : Chain} {k : ℕ}
  {run : Run natives g.assetCount}

/-- What a leg may spend is what its pot holds. -/
theorem Running.available (h : Running a g wallet start k run s) {leg : Leg n g.assetCount} :
    availableFor g (balances a g start.ledger)
      (g.input - (balances a g start.ledger g.first - run.current g.first)) run.current leg =
      .ok (pots g (balances a g start.ledger) run.current leg.source) := by
  unfold availableFor pots
  by_cases hfirst : leg.source = g.first
  · rw [if_pos hfirst, if_pos hfirst, hfirst]
  · rw [if_neg hfirst, if_neg hfirst]
    exact checkedSub_eq_ok.mpr ⟨h.held _ hfirst, rfl⟩

variable (clock) in
/-- The selection of the next leg. -/
def Running.select (h : Running a g wallet start k run s) {leg : Leg n g.assetCount}
    (hleg : g.legs[k]? = some leg) :
    Selected a g clock (balances a g start.ledger) s.ledger k run where
  remaining := g.input - (balances a g start.ledger g.first - run.current g.first)
  selection := ⟨k, u64Size - 1, 0⟩
  oracle := none
  leg
  available := pots g (balances a g start.ledger) run.current leg.source
  remaining_eq := by
    refine bind_eq_ok.mpr ⟨_, checkedSub_eq_ok.mpr ⟨h.spent_le, rfl⟩, ?_⟩
    exact checkedSub_eq_ok.mpr ⟨h.within, rfl⟩
  unfinished := by
    rw [h.oracle]
    rintro ⟨hsome, -⟩
    cases hsome
  select_eq := by rw [selectLeg, h.oracle]
  leg_eq := hleg
  available_eq := h.available

/-- A pot is a machine word. -/
theorem Running.pots_lt (h : Running a g wallet start k run s) (i : Fin g.assetCount) :
    pots g (balances a g start.ledger) run.current i < u64Size := by
  unfold pots
  split
  · have hinput : g.input ≤ maxInput := g.input_le
    have hmax : maxInput < u64Size := by decide
    omega
  · rw [h.current]
    exact (Nat.sub_le _ _).trans_lt (tokenAmount_lt _ _)

/-- The budget of the next leg is what its transfer takes. -/
theorem Running.budget_eq (h : Running a g wallet start k run s) {leg : Leg n g.assetCount}
    (hleg : g.legs[k]? = some leg) :
    (h.select clock hleg).budget =
      (transfer leg).spend (pots g (balances a g start.ledger) run.current) := by
  have hlt := h.pots_lt leg.source
  show min (min (pots g (balances a g start.ledger) run.current leg.source) leg.budget) (u64Size - 1) = _
  unfold Transfer.spend transfer
  by_cases hall : leg.budget = u64Size - 1
  · simp only [if_pos hall]
    omega
  · simp only [if_neg hall]
    omega

variable (clock) in
theorem Running.budget_le (h : Running a g wallet start k run s) {leg : Leg n g.assetCount}
    (hleg : g.legs[k]? = some leg) :
    (h.select clock hleg).budget ≤ pots g (balances a g start.ledger) run.current leg.source :=
  (Nat.min_le_left _ _).trans (Nat.min_le_left _ _)

/-- The transfers of one more leg. -/
theorem take_transfer {leg : Leg n g.assetCount} (hleg : g.legs[k]? = some leg) :
    (g.legs.take (k + 1)).map transfer = (g.legs.take k).map transfer ++ [transfer leg] := by
  rw [List.take_add_one, hleg, List.map_append]
  rfl

/-- A leg that is skipped leaves the pots. -/
theorem Running.skip (h : Running a g wallet start k run s) {leg : Leg n g.assetCount}
    (hleg : g.legs[k]? = some leg) (hzero : (h.select clock hleg).budget = 0) :
    Running a g wallet start (k + 1) (h.select clock hleg).run' s where
  oracle := rfl
  current := h.current
  admitted := h.admitted
  lamports := h.lamports
  fresh := fun i hi => h.fresh i (by omega)
  held := h.held
  spent_le := h.spent_le
  within := h.within
  flow := by
    rw [take_transfer hleg]
    have hpots : (transfer leg).apply (pots g (balances a g start.ledger) run.current) 0 =
        pots g (balances a g start.ledger) run.current := by
      rw [h.budget_eq hleg] at hzero
      funext i
      unfold Transfer.apply
      split
      · rw [hzero, Nat.sub_zero]
      · split <;> rfl
    exact hpots ▸ h.flow.snoc (transfer leg) 0

/-- No leg fills the input. -/
theorem first_ne_destination (leg : Leg n g.assetCount) : g.first ≠ leg.destination := by
  intro heq
  have hlt : (leg.source : ℕ) < leg.destination := leg.ordered
  rw [← heq] at hlt
  exact absurd hlt (Nat.not_lt_zero _)

/-- The pots after a trade. -/
theorem Running.pots_trade (h : Running a g wallet start k run s) {leg : Leg n g.assetCount}
    (hleg : g.legs[k]? = some leg) {ledger : Ledger}
    (htrade : Trades a g wallet leg (h.select clock hleg).budget s.ledger ledger) :
    pots g (balances a g start.ledger) (balances a g ledger) =
      (transfer leg).apply (pots g (balances a g start.ledger) run.current)
        (balances a g ledger leg.destination - run.current leg.destination) := by
  have hspends : balances a g ledger leg.source + (h.select clock hleg).budget =
      run.current leg.source := h.current ▸ htrade.spends
  have hreturns : run.current leg.destination < balances a g ledger leg.destination :=
    h.current ▸ htrade.returns
  have hothers : ∀ i, i ≠ leg.source → i ≠ leg.destination → balances a g ledger i = run.current i :=
    fun i hs hd => h.current ▸ htrade.others i hs hd
  have hdestination : leg.destination ≠ g.first := (first_ne_destination leg).symm
  have hne : leg.destination ≠ leg.source := (show leg.source < leg.destination from leg.ordered).ne'
  rw [h.budget_eq hleg] at hspends
  funext i
  by_cases hsource : i = leg.source
  · subst hsource
    refine Eq.trans ?_ ((transfer leg).apply_source _ _).symm
    show pots g _ _ leg.source = pots g _ _ leg.source - _
    generalize (transfer leg).spend _ = budget at hspends ⊢
    unfold pots
    split
    · next hfirst =>
      have hspent := h.spent_le
      rw [hfirst] at hspends ⊢
      omega
    · omega
  · by_cases hd : i = leg.destination
    · subst hd
      have hheld := h.held _ hdestination
      refine Eq.trans ?_ ((transfer leg).apply_destination _ _ hne).symm
      show pots g _ _ leg.destination = pots g _ _ leg.destination + _
      unfold pots
      rw [if_neg hdestination, if_neg hdestination]
      omega
    · rw [Transfer.apply_of_ne _ _ _ hsource hd]
      unfold pots
      rw [hothers i hsource hd]

/-- An asset stays admitted by a trade. -/
theorem Running.admitted_trade (h : Running a g wallet start k run s) {leg : Leg n g.assetCount}
    {budget : ℕ} {ledger : Ledger} (htrade : Trades a g wallet leg budget s.ledger ledger)
    (i : Fin g.assetCount) :
    asset ledger a g (a.key wallet) i false = .ok (balances a g ledger i) :=
  checkedAsset_of_kept (h.admitted i) (htrade.kept i) (htrade.mints i) (htrade.programs i)

/-- What is admitted has a balance. -/
theorem balance_of_asset {ledger : Ledger} {i : Fin g.assetCount} {wallet : Key} {v : ℕ}
    (h : asset ledger a g wallet i false = .ok v) :
    balance ledger (tokenKey a g i) = .ok (balances a g ledger i) := by
  rw [asset, checkedAsset, bind_eq_ok] at h
  obtain ⟨_, -, h⟩ := h
  obtain ⟨_, hform, -⟩ := bind_eq_ok.mp h
  have hform := need_eq_ok.mp hform
  exact balance_of_size ⟨hform.1, hform.2.1⟩

/-- The checks after a CPI pass when it trades. -/
theorem exists_recordLeg {ledger : Ledger} {wallet : Key} {lamports budget : ℕ} {selection : Selection}
    {leg : Leg n g.assetCount} (hlamports : (ledger wallet).lamports = lamports)
    (hread : ∀ i, balance ledger (tokenKey a g i) = .ok (balances a g ledger i)) (hpos : 0 < budget)
    (hspends : balances a g ledger leg.source + budget = run.current leg.source)
    (hreturns : run.current leg.destination < balances a g ledger leg.destination)
    (hused : run.used selection.index + budget < u64Size)
    (hothers : ∀ i, i ≠ leg.source → i ≠ leg.destination → balances a g ledger i = run.current i) :
    ∃ next, recordLeg a g ledger wallet lamports k budget selection leg run = .ok next := by
  have hspent : checkedSub (run.current leg.source) (balances a g ledger leg.source) .conservation =
      .ok budget := checkedSub_eq_ok.mpr ⟨by omega, by omega⟩
  have hreceived : checkedSub (balances a g ledger leg.destination) (run.current leg.destination)
      .conservation = .ok (balances a g ledger leg.destination - run.current leg.destination) :=
    checkedSub_eq_ok.mpr ⟨by omega, rfl⟩
  apply Exists.intro
  rw [recordLeg, bind_eq_ok]
  refine ⟨(), need_of hlamports, ?_⟩
  rw [bind_eq_ok]
  refine ⟨_, readEach_eq_ok.mpr hread, ?_⟩
  rw [bind_eq_ok]
  refine ⟨_, hspent, ?_⟩
  rw [bind_eq_ok]
  refine ⟨_, hreceived, ?_⟩
  rw [bind_eq_ok]
  refine ⟨(), need_of ⟨hpos, le_rfl, by omega⟩, ?_⟩
  rw [bind_eq_ok]
  refine ⟨_, checkedSum_eq_ok.mpr ⟨hused, rfl⟩, ?_⟩
  rw [bind_eq_ok]
  exact ⟨(), need_of hothers, rfl⟩

/-- A trade goes on to the next leg. -/
theorem Running.trade (h : Running a g wallet start k run s) {leg : Leg n g.assetCount}
    (hleg : g.legs[k]? = some leg) (s' : Chain) (hpos : (h.select clock hleg).budget ≠ 0)
    (htrade : Trades a g wallet leg (h.select clock hleg).budget s.ledger s'.ledger) :
    ∃ next, recordLeg a g s'.ledger (a.key wallet) (start.ledger (a.key wallet)).lamports k
        (h.select clock hleg).budget (h.select clock hleg).selection leg (h.select clock hleg).run' =
        .ok next ∧ Running a g wallet start (k + 1) next s' := by
  have hspends : balances a g s'.ledger leg.source + (h.select clock hleg).budget =
      run.current leg.source := h.current ▸ htrade.spends
  have hreturns : run.current leg.destination < balances a g s'.ledger leg.destination :=
    h.current ▸ htrade.returns
  have hothers : ∀ i, i ≠ leg.source → i ≠ leg.destination →
      balances a g s'.ledger i = run.current i := fun i hs hd => h.current ▸ htrade.others i hs hd
  have hlt : run.current leg.source < u64Size := h.current ▸ tokenAmount_lt _ _
  have hunused : run.used k = 0 := h.fresh k le_rfl
  have hadmitted := h.admitted_trade htrade
  have hlamports := htrade.lamports.trans h.lamports
  have hrecord : ∃ next, recordLeg a g s'.ledger (a.key wallet)
      (start.ledger (a.key wallet)).lamports k (h.select clock hleg).budget
      (h.select clock hleg).selection leg (h.select clock hleg).run' = .ok next :=
    exists_recordLeg hlamports (fun i => balance_of_asset (hadmitted i)) (Nat.pos_of_ne_zero hpos)
      hspends hreturns (by show run.used k + _ < u64Size; omega) hothers
  obtain ⟨next, hnext⟩ := hrecord
  have hrecorded := recordLeg_eq_ok hnext
  have hcurrent : next.current = balances a g s'.ledger := funext hrecorded.current_eq
  -- the input falls by the budget of a leg that spends it, and no leg fills it
  have hfirst : balances a g s'.ledger g.first ≤ run.current g.first ∧
      run.current g.first - balances a g s'.ledger g.first ≤
        g.input - (balances a g start.ledger g.first - run.current g.first) := by
    by_cases hsource : g.first = leg.source
    · have hwithin := h.budget_le clock hleg
      unfold pots at hwithin
      rw [if_pos hsource.symm, ← hsource] at hwithin
      rw [← hsource] at hspends
      omega
    · rw [hothers _ hsource (first_ne_destination leg)]
      omega
  refine ⟨next, hnext, {
    oracle := hrecorded.oracle_eq
    current := hcurrent
    admitted := fun i => hcurrent ▸ hadmitted i
    lamports := hlamports
    fresh := ?_
    held := ?_
    spent_le := ?_
    within := ?_
    flow := ?_ }⟩
  · intro i hi
    rw [hrecorded.used_eq, Function.update_of_ne (by show i ≠ k; omega)]
    exact h.fresh i (by omega)
  · -- only the source of the leg gives anything away, and it gives what it holds beyond the start
    intro i hi
    rw [hcurrent]
    by_cases hsource : i = leg.source
    · subst hsource
      have hheld := h.held _ hi
      have hwithin := h.budget_le clock hleg
      unfold pots at hwithin
      rw [if_neg hi] at hwithin
      omega
    · by_cases hdestination : i = leg.destination
      · subst hdestination
        exact (h.held _ hi).trans hreturns.le
      · rw [hothers i hsource hdestination]
        exact h.held i hi
  · rw [hcurrent]
    exact hfirst.1.trans h.spent_le
  · rw [hcurrent]
    have hspent := h.spent_le
    have hwithin := h.within
    omega
  · rw [take_transfer hleg, hcurrent, h.pots_trade hleg htrade]
    exact h.flow.snoc (transfer leg) _

/-- Data fails to be built with the code of the adapters alone. -/
theorem legData_error {ledger : Ledger} {key : Key} {leg : Leg n g.assetCount} {budget : ℕ} {e : Fault}
    (h : legData a g clock ledger key leg budget = .error e) : e = .adapter := by
  unfold legData at h
  split at h
  · cases hbook : PhoenixBook.decode (ledger (a.key leg.pool)).data with
    | error _ =>
      rw [hbook] at h
      cases h
      rfl
    | ok book =>
      rw [hbook] at h
      replace h : (ad (book.quote key leg.direction budget maxMatches clock.slot clock.time) >>= _) =
        Except.error e := h
      cases hquote : book.quote key leg.direction budget maxMatches clock.slot clock.time with
      | error _ =>
        rw [hquote] at h
        cases h
        rfl
      | ok expected =>
        rw [hquote] at h
        replace h : (if _ then _ else (ad (phoenixIoc book.header leg.direction budget maxMatches
          g.deadline) >>= _)) = Except.error e := h
        split at h
        · cases h
        · cases hioc : phoenixIoc book.header leg.direction budget maxMatches g.deadline with
          | error _ =>
            rw [hioc] at h
            cases h
            rfl
          | ok bytes =>
            rw [hioc] at h
            cases h
  · cases hdata : leg.venue.swapData budget leg.direction with
    | error _ =>
      rw [hdata] at h
      cases h
      rfl
    | ok bytes =>
      rw [hdata] at h
      cases h

/-- One leg: the run goes on to the next one or is stopped. -/
theorem Running.next (h : Running a g wallet start k run s)
    (hreached : Reached a g clock venues wallet natives start k run s)
    (hobliging : Obliging a g clock venues wallet natives start) (hk : k < g.legs.length) :
    (∃ next s', iterate a g clock (balances a g start.ledger) venues wallet
        (start.ledger (a.key wallet)).lamports k run s = (.ok (some next), s') ∧
      Running a g wallet start (k + 1) next s' ∧
      Reached a g clock venues wallet natives start (k + 1) next s') ∨
    iterate a g clock (balances a g start.ledger) venues wallet
        (start.ledger (a.key wallet)).lamports k run s = (.error .adapter, s) ∧
      Blocked a g clock venues wallet natives start s := by
  have hleg : g.legs[k]? = some g.legs[k] := List.getElem?_eq_getElem hk
  have hiterate : iterate a g clock (balances a g start.ledger) venues wallet
      (start.ledger (a.key wallet)).lamports k run s = _ := (h.select clock hleg).iterate_eq
  by_cases hzero : (h.select clock hleg).budget = 0
  · rw [if_pos hzero] at hiterate
    exact .inl ⟨_, s, hiterate, h.skip hleg hzero, hreached.step (iterate_some hiterate)⟩
  · rw [if_neg hzero] at hiterate
    cases hdata : legData a g clock s.ledger (a.key wallet) g.legs[k] (h.select clock hleg).budget with
    | error e =>
      obtain rfl := legData_error hdata
      refine .inr ⟨hiterate.trans ?_, k, run, hreached, h.select clock hleg, hzero, hdata⟩
      have hexecute : executeLeg a g clock venues wallet (start.ledger (a.key wallet)).lamports k
          (h.select clock hleg).budget (h.select clock hleg).selection g.legs[k]
          (h.select clock hleg).run' s = (.error .adapter, s) := by
        rw [executeLeg, get_bind, hdata]
        rfl
      exact Comp.bind_apply_error hexecute
    | ok data =>
      cases data with
      | none => exact absurd hdata (hobliging.fills k run s hreached (h.select clock hleg) hzero)
      | some data =>
        obtain ⟨ledger, hinvoke, htrade⟩ :=
          hobliging.trades k run s hreached (h.select clock hleg) data hzero hdata
        let ix := legInstruction a g s.ledger g.legs[k] data
        let s' : Chain := { s with ledger, cpis := s.cpis ++ [⟨k, ix, s.ledger, ledger⟩] }
        have hcall : invokeLeg venues k ix s = (.ok (), s') := by
          unfold invokeLeg
          have hcall : venues.invoke s.cpis.length ix s.ledger = .ok ledger := hinvoke
          rw [hcall]
        obtain ⟨next, hnext, hrunning⟩ := h.trade hleg s' hzero htrade
        have hexecute : executeLeg a g clock venues wallet (start.ledger (a.key wallet)).lamports k
            (h.select clock hleg).budget (h.select clock hleg).selection g.legs[k]
            (h.select clock hleg).run' s = (.ok next, s') := by
          rw [executeLeg, get_bind, hdata]
          refine (Comp.bind_apply_ok hcall).trans ?_
          rw [get_bind, hnext]
          rfl
        have hdone := hiterate.trans (Comp.bind_apply_ok hexecute)
        exact .inl ⟨next, s', hdone, hrunning, hreached.step (iterate_some hdone)⟩

/-- The loop runs all legs or is stopped at one. -/
theorem runGraph_obliging {m : ℕ} (h : Running a g wallet start k run s)
    (hreached : Reached a g clock venues wallet natives start k run s)
    (hobliging : Obliging a g clock venues wallet natives start) (hm : k + m = g.legs.length) :
    (∃ run' s', runGraph a g clock (balances a g start.ledger) venues wallet
        (start.ledger (a.key wallet)).lamports (List.range' k m) run s = (.ok run', s') ∧
      Running a g wallet start g.legs.length run' s') ∨
    ∃ s', runGraph a g clock (balances a g start.ledger) venues wallet
        (start.ledger (a.key wallet)).lamports (List.range' k m) run s = (.error .adapter, s') ∧
      Blocked a g clock venues wallet natives start s' := by
  induction m generalizing k run s with
  | zero =>
    obtain rfl : k = g.legs.length := hm
    exact .inl ⟨run, s, rfl, h⟩
  | succ m ih =>
    rw [List.range'_succ, runGraph]
    rcases h.next hreached hobliging (by omega) with ⟨next, s', hnext, hrunning, hreached'⟩ | ⟨hstop, hblocked⟩
    · rw [Comp.bind_apply_ok hnext]
      exact ih hrunning hreached' (by omega)
    · exact .inr ⟨s, Comp.bind_apply_error hstop, hblocked⟩

/-- Before the first leg. -/
theorem running_start (natives : Natives)
    (hadmitted : ∀ i, asset start.ledger a g (a.key wallet) i false = .ok (balances a g start.ledger i)) :
    Running a g wallet start 0
      { oracle := (none : Option (Oracle natives)), current := balances a g start.ledger } start where
  oracle := rfl
  current := rfl
  admitted := hadmitted
  lamports := rfl
  fresh := fun _ _ => rfl
  held := fun _ _ => le_rfl
  spent_le := le_rfl
  within := by
    show balances a g start.ledger g.first - balances a g start.ledger g.first ≤ g.input
    rw [Nat.sub_self]
    exact Nat.zero_le _
  flow := .nil _

/-- A fixed graph runs to its last checks, or is stopped at a leg. -/
theorem executeGraph_obliging (hfixed : g.reflowCalls = 0)
    (hadmitted : ∀ i, asset start.ledger a g (a.key wallet) i false = .ok (balances a g start.ledger i))
    (hinput : g.input ≤ balances a g start.ledger g.first)
    (hobliging : Obliging a g clock venues wallet natives start) :
    (∃ (run : Run natives g.assetCount) (s' : Chain), Running a g wallet start g.legs.length run s' ∧
      executeGraph natives a g clock venues wallet start =
        (finishGraph a g (balances a g start.ledger) wallet s'.ledger run, s')) ∨
    ∃ s', executeGraph natives a g clock venues wallet start = (.error .adapter, s') ∧
      Blocked a g clock venues wallet natives start s' := by
  have hread := readEach_eq_ok.mpr hadmitted
  have hexecute : executeGraph natives a g clock venues wallet start =
      (do
        let run ← runGraph a g clock (balances a g start.ledger) venues wallet
          (start.ledger (a.key wallet)).lamports (List.range' 0 g.legs.length)
          { oracle := (none : Option (Oracle natives)), current := balances a g start.ledger }
        let s ← get
        lift (finishGraph a g (balances a g start.ledger) wallet s.ledger run) : Step GraphOutcome)
        start := by
    rw [executeGraph, get_bind, hread]
    refine (Comp.bind_apply_ok (lift_eq_ok.mpr ⟨rfl, rfl⟩)).trans ?_
    rw [need_of hinput]
    refine (Comp.bind_apply_ok (lift_eq_ok.mpr ⟨rfl, rfl⟩)).trans ?_
    rw [if_neg (by omega)]
    refine (Comp.bind_apply_ok (lift_eq_ok.mpr ⟨rfl, rfl⟩)).trans ?_
    rw [List.range_eq_range']
    rfl
  rcases runGraph_obliging (running_start natives hadmitted) .start hobliging (Nat.zero_add _) with
    ⟨run, s', hrun, hrunning⟩ | ⟨s', hrun, hblocked⟩
  · refine .inl ⟨run, s', hrunning, hexecute.trans ?_⟩
    rw [Comp.bind_apply_ok hrun, get_bind]
    rfl
  · exact .inr ⟨s', hexecute.trans (Comp.bind_apply_error hrun), hblocked⟩

/-! ## Obliging venues -/

/-- An iteration has one selection. -/
theorem Selected.eq {before : Fin g.assetCount → ℕ} {ledger : Ledger}
    (sel sel' : Selected a g clock before ledger k run) : sel = sel' := by
  obtain ⟨remaining, selection, oracle, leg, available, hremaining, _, hselect, hleg, havailable⟩ := sel
  obtain ⟨remaining', selection', oracle', leg', available', hremaining', _, hselect', hleg',
    havailable'⟩ := sel'
  obtain rfl := Except.ok.inj (hremaining.symm.trans hremaining')
  obtain ⟨rfl, rfl⟩ := Prod.mk.inj (Except.ok.inj (hselect.symm.trans hselect'))
  obtain rfl := Option.some.inj (hleg.symm.trans hleg')
  obtain rfl := Except.ok.inj (havailable.symm.trans havailable')
  rfl

/-- The selection of an iteration is the one of the next leg. -/
theorem Running.select_eq (h : Running a g wallet start k run s)
    (sel : Selected a g clock (balances a g start.ledger) s.ledger k run) :
    ∃ leg, ∃ hleg : g.legs[k]? = some leg, sel = h.select clock hleg := by
  have hindex : sel.selection.index = k := by
    rcases selectLeg_eq_ok sel.select_eq with ⟨-, -, hsel⟩ | ⟨o, ho, -⟩ | ⟨o, o', ho, -⟩
    · rw [hsel]
    · exact absurd (ho.symm.trans h.oracle) (Option.some_ne_none o)
    · exact absurd (ho.symm.trans h.oracle) (Option.some_ne_none o)
  have hleg : g.legs[k]? = some sel.leg := by
    have hget := sel.leg_eq
    rwa [hindex] at hget
  exact ⟨sel.leg, hleg, sel.eq _⟩

/-- What has to be shown of one leg: with a budget, it has data, and its CPI trades. -/
structure LegObliges (clock : Clock) (venues : Venues program) (P : ℕ → Chain → Prop)
    (h : Running a g wallet start k run s) {leg : Leg n g.assetCount}
    (hleg : g.legs[k]? = some leg) : Prop where
  skips : (h.select clock hleg).budget = 0 → P (k + 1) s
  fills : (h.select clock hleg).budget ≠ 0 →
    legData a g clock s.ledger (a.key wallet) leg (h.select clock hleg).budget ≠ .ok none
  trades : ∀ data, (h.select clock hleg).budget ≠ 0 →
    legData a g clock s.ledger (a.key wallet) leg (h.select clock hleg).budget = .ok (some data) →
    ∃ ledger, venues.invoke s.cpis.length (legInstruction a g s.ledger leg data) s.ledger = .ok ledger ∧
      Trades a g wallet leg (h.select clock hleg).budget s.ledger ledger ∧
      ∀ s' : Chain, s'.ledger = ledger → P (k + 1) s'

/-- Every state of a run is one of a run of the fixed graph, in an invariant of its legs. -/
theorem reached_running {P : ℕ → Chain → Prop} (hP : P 0 start)
    (hadmitted : ∀ i, asset start.ledger a g (a.key wallet) i false = .ok (balances a g start.ledger i))
    (hobliges : ∀ (k : ℕ) (run : Run natives g.assetCount) (s : Chain)
      (h : Running a g wallet start k run s) (leg : Leg n g.assetCount) (hleg : g.legs[k]? = some leg),
      P k s → LegObliges clock venues P h hleg)
    (hreached : Reached a g clock venues wallet natives start k run s) :
    Running a g wallet start k run s ∧ P k s := by
  induction hreached with
  | start => exact ⟨running_start natives hadmitted, hP⟩
  | @step k run next s s' _ iterated ih =>
    obtain ⟨h, hPs⟩ := ih
    cases iterated with
    | skip sel idle =>
      obtain ⟨leg, hleg, rfl⟩ := h.select_eq sel
      have hleg' := hobliges k run s h leg hleg hPs
      by_cases hzero : (h.select clock hleg).budget = 0
      · exact ⟨h.skip hleg hzero, hleg'.skips hzero⟩
      · exact absurd (idle.resolve_left hzero) (hleg'.fills hzero)
    | execute sel pos data_eq invoke_eq return_eq cpis_eq record_eq =>
      obtain ⟨leg, hleg, rfl⟩ := h.select_eq sel
      obtain ⟨ledger, hinvoke, htrade, hPnext⟩ :=
        (hobliges k run s h leg hleg hPs).trades _ pos data_eq
      have hledger : s'.ledger = ledger := Except.ok.inj (invoke_eq.symm.trans hinvoke)
      obtain ⟨next', hnext', hrunning⟩ := h.trade hleg s' pos (by rw [hledger]; exact htrade)
      obtain rfl := Except.ok.inj (record_eq.symm.trans hnext')
      exact ⟨hrunning, hPnext s' hledger⟩

/-- Venues oblige when, under an invariant, every leg does. -/
theorem obliging_of_legs {P : ℕ → Chain → Prop} (hP : P 0 start)
    (hadmitted : ∀ i, asset start.ledger a g (a.key wallet) i false = .ok (balances a g start.ledger i))
    (hobliges : ∀ (k : ℕ) (run : Run natives g.assetCount) (s : Chain)
      (h : Running a g wallet start k run s) (leg : Leg n g.assetCount) (hleg : g.legs[k]? = some leg),
      P k s → LegObliges clock venues P h hleg) : Obliging a g clock venues wallet natives start where
  trades k run s hreached sel data hpos hdata := by
    obtain ⟨h, hPs⟩ := reached_running hP hadmitted hobliges hreached
    obtain ⟨leg, hleg, rfl⟩ := h.select_eq sel
    obtain ⟨ledger, hinvoke, htrade, -⟩ := (hobliges k run s h leg hleg hPs).trades data hpos hdata
    exact ⟨ledger, hinvoke, htrade⟩
  fills k run s hreached sel hpos := by
    obtain ⟨h, hPs⟩ := reached_running hP hadmitted hobliges hreached
    obtain ⟨leg, hleg, rfl⟩ := h.select_eq sel
    exact (hobliges k run s h leg hleg hPs).fills hpos

/-! ## Returned balances -/

/-- The input is spent, and every asset between input and output is back at its balance. -/
structure Returned (a : Accounts n) (g : Graph n) (start final : Ledger) : Prop where
  input : balances a g final g.first + g.input = balances a g start g.first
  transit : ∀ i, i ≠ g.first → i ≠ g.sink → balances a g final i = balances a g start i

/-- Empty pots are returned balances. -/
theorem Running.returned (h : Running a g wallet start k run s)
    (hempty : ∀ i, i ≠ g.sink → pots g (balances a g start.ledger) run.current i = 0) :
    Returned a g start.ledger s.ledger := by
  have hcurrent : ∀ i, balances a g s.ledger i = run.current i := fun i => congrFun h.current.symm i
  constructor
  · have hzero := hempty g.first g.first_ne_sink
    unfold pots at hzero
    rw [if_pos rfl] at hzero
    have hspent := h.spent_le
    have hwithin := h.within
    rw [hcurrent]
    omega
  · intro i hfirst hsink
    have hzero := hempty i hsink
    unfold pots at hzero
    rw [if_neg hfirst] at hzero
    have hheld := h.held i hfirst
    rw [hcurrent]
    omega

/-- With returned balances, only the least output can fail. -/
theorem Running.finish (h : Running a g wallet start k run s)
    (hreturned : Returned a g start.ledger s.ledger) :
    (∃ outcome, finishGraph a g (balances a g start.ledger) wallet s.ledger run = .ok outcome ∧
      outcome.actualIn = g.input) ∨
    finishGraph a g (balances a g start.ledger) wallet s.ledger run = .error .minOut := by
  have hcurrent : ∀ i, balances a g s.ledger i = run.current i := fun i => congrFun h.current.symm i
  have hinput := hreturned.input
  rw [hcurrent] at hinput
  have hin : checkedSub (balances a g start.ledger g.first) (run.current g.first) .conservation =
      .ok g.input := checkedSub_eq_ok.mpr ⟨by omega, by omega⟩
  have hout : checkedSub (run.current g.sink) (balances a g start.ledger g.sink) .conservation =
      .ok (run.current g.sink - balances a g start.ledger g.sink) :=
    checkedSub_eq_ok.mpr ⟨h.held _ g.first_ne_sink.symm, rfl⟩
  by_cases hmin : g.minOut ≤ run.current g.sink - balances a g start.ledger g.sink
  · left
    have htransit : ∀ i, i ≠ g.first → i ≠ g.sink → run.current i = balances a g start.ledger i :=
      fun i hfirst hsink => (hcurrent i).symm.trans (hreturned.transit i hfirst hsink)
    apply Exists.intro
    rw [finishGraph, bind_eq_ok]
    refine ⟨⟨_, hin, ?_⟩, ?_⟩
    · rw [bind_eq_ok]
      refine ⟨_, hout, ?_⟩
      rw [bind_eq_ok]
      refine ⟨(), need_of rfl, ?_⟩
      rw [bind_eq_ok]
      refine ⟨(), need_of hmin, ?_⟩
      rw [bind_eq_ok]
      refine ⟨(), need_of htransit, ?_⟩
      rw [bind_eq_ok]
      refine ⟨run.current, readEach_eq_ok.mpr h.admitted, ?_⟩
      rw [bind_eq_ok]
      exact ⟨(), need_of rfl, rfl⟩
    · rfl
  · right
    rw [finishGraph, hin]
    show (checkedSub (run.current g.sink) (balances a g start.ledger g.sink) .conservation >>= _) = _
    rw [hout]
    show (need (g.input = g.input) .conservation >>= _) = _
    rw [need_of rfl]
    show (need (g.minOut ≤ _) .minOut >>= _) = _
    rw [need_of_not hmin]
    rfl

/-- The data of a swap is built for every amount in range. -/
theorem legData_of_le {ledger : Ledger} {key : Key} {leg : Leg n g.assetCount} {budget : ℕ}
    (hvenue : leg.venue ≠ .phoenix) (hpos : budget ≠ 0) (hle : budget ≤ maxInput) :
    ∃ data, legData a g clock ledger key leg budget = .ok (some data) := by
  have hlayout : ∃ layout, leg.venue.swapLayout = .ok layout := by
    cases hv : leg.venue <;> first | exact absurd hv hvenue | exact ⟨_, rfl⟩
  obtain ⟨⟨disc, len⟩, hlayout⟩ := hlayout
  have hdata : ∃ bytes, leg.venue.swapData budget leg.direction = .ok bytes := by
    apply Exists.intro
    rw [Venue.swapData, bind_eq_ok]
    refine ⟨(), accept_eq_ok.mpr ⟨hpos, hle⟩, ?_⟩
    rw [bind_eq_ok]
    exact ⟨_, hlayout, rfl⟩
  obtain ⟨bytes, hbytes⟩ := hdata
  rw [legData, if_neg hvenue, hbytes]
  exact ⟨bytes, rfl⟩

/-- Only a Phoenix leg, or one of more than the largest input, is stopped. -/
theorem legData_blocked {ledger : Ledger} {key : Key} {leg : Leg n g.assetCount} {budget : ℕ} {e : Fault}
    (hpos : budget ≠ 0) (h : legData a g clock ledger key leg budget = .error e) :
    leg.venue = .phoenix ∨ maxInput < budget := by
  by_contra hnot
  rw [not_or, not_lt] at hnot
  obtain ⟨data, hdata⟩ := @legData_of_le _ a g clock ledger key leg budget hnot.1 hpos hnot.2
  rw [h] at hdata
  cases hdata

end Step

end StockMesh.Settle

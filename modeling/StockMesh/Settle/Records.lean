import StockMesh.Settle.Capsule
import StockMesh.Settle.Order
import StockMesh.Settle.Conservation
import StockMesh.Foundation.Frame

/-! # Records of the program

Nonces, policies, claims, orders and capsule plans are accounts of the program. Each has its kind and the
identity it belongs to in its first forty bytes, and a counter: a sequence, a version or a revision. A
`Change` of a record raises its counter by one. `Commits program changes` is what an instruction does to the
records: the named changes, and nothing to any other account of the program. -/

namespace StockMesh.Settle

open Stateful

/-- A key of zeros. -/
def zeroKey : Key := .ofFn fun _ => 0

/-- Where a record of the given length has its counter. -/
def counterOffset (size : ℕ) : Option ℕ :=
  if size = nonceLen then some 40
  else if size = policyLen then some 200
  else if size = claimLen then some 240
  else if size = orderLen then some 272
  else if size = capsuleLen then some 208
  else none

/-- The counter of a record. -/
def counter (d : Buffer) : Option ℕ := (counterOffset d.size).bind fun offset => d.number offset 8

/-- The counter of a record rises from `q`; its kind and identity stay. -/
structure Tick (q : ℕ) (d d' : Buffer) : Prop where
  size_eq : d'.size = d.size
  head_eq : d'.slice 0 40 = d.slice 0 40
  before : counter d = some q
  after : counter d' = some (q + 1)

/-- A change of a record. -/
inductive Change
  /-- The next sequence of a nonce or a plan, or the next version of a policy or a claim. -/
  | advance (count : ℕ)
  /-- A fill of an order. -/
  | fill (revision stock cash : ℕ)
  /-- The end of an order. -/
  | cancel (revision : ℕ)
  deriving DecidableEq

namespace Change

/-- The counter that a change names. -/
def count : Change → ℕ
  | advance count => count
  | fill revision _ _ => revision
  | cancel revision => revision

/-- Cash for stock at no less than a limit for each share, which has 32 bits behind the point. -/
def Priced (limit stock cash : ℕ) : Prop := ∃ mint terms timestamp exposure,
  convert mint terms stock timestamp = .ok exposure ∧ 0 < exposure ∧ exposure * limit ≤ cash * 2 ^ 32

/-- What a change does to the data of a record. Only a nonce, a plan, a policy or a claim advances. -/
def Applies : Change → Buffer → Buffer → Prop
  | advance count, d, d' => d.size ≠ orderLen ∧ Tick count d d'
  | fill revision stock cash, d, d' =>
      (∃ remaining filledCash,
        filledOrder d revision stock cash = .ok (remaining, revision + 1, filledCash) ∧
        Buffer.spliceAll (fillFields remaining (revision + 1) filledCash) d = some d') ∧
      ∃ limit, u64At d 256 = .ok limit ∧ Priced limit stock cash
  | cancel revision, d, d' => d.size = orderLen ∧ d.byte 328 = openStatus ∧
      u64At d 272 = .ok revision ∧ revision + 1 < u64Size ∧
      Buffer.spliceAll (cancelFields (revision + 1)) d = some d'

/-- A change of a record is signed by the owner that the record names behind its kind. A fill is not: the
owner has signed its limit when placing the order. -/
def SignedBy {n : ℕ} (a : Accounts n) (d : Buffer) : Change → Prop
  | fill _ _ _ => True
  | _ => ∃ owner : Key, a.isSigner owner = true ∧ d.slice 8 32 = some owner.toList

end Change

/-- The owners of the changed records have signed. -/
def Authorized {n : ℕ} (a : Accounts n) (changes : List (Key × Change)) (ledger : Ledger) : Prop :=
  ∀ e ∈ changes, e.2.SignedBy a (ledger e.1).data

theorem Authorized.nil {n : ℕ} {a : Accounts n} {ledger : Ledger} : Authorized a [] ledger :=
  fun _ he => absurd he List.not_mem_nil

theorem Authorized.single {n : ℕ} {a : Accounts n} {ledger : Ledger} {key : Key} {c : Change}
    (h : c.SignedBy a (ledger key).data) : Authorized a [(key, c)] ledger := by
  intro e he
  obtain rfl := List.mem_singleton.mp he
  exact h

/-! ## Ticks -/

section Ticks

variable {d d' : Buffer} {q : ℕ}

theorem counter_of_number {offset n : ℕ} (hoffset : counterOffset d.size = some offset)
    (h : d.number offset 8 = some n) : counter d = some n := by
  rw [counter, hoffset, Option.bind_some, h]

/-- Writes behind the first forty bytes that raise the counter. -/
theorem Tick.of_fields {fields : List (ℕ × List UInt8)} {offset : ℕ}
    (hdata : Buffer.spliceAll fields d = some d') (hoffset : counterOffset d.size = some offset)
    (hbefore : u64At d offset = .ok q) (hlt : q + 1 < u64Size) (hapart : fields.Pairwise Buffer.Apart)
    (hmem : (offset, Buffer.toBytes 8 (q + 1)) ∈ fields) (hfields : ∀ f ∈ fields, 40 ≤ f.1) :
    Tick q d d' := by
  have hsize := Buffer.size_spliceAll hdata
  constructor
  · exact hsize
  · exact Buffer.slice_spliceAll_of_disjoint hdata fun f hf => .inl (hfields f hf)
  · exact counter_of_number hoffset (okOr_eq_ok.mp hbefore)
  · exact counter_of_number (hsize.symm ▸ hoffset) (Buffer.number_spliceAll hdata hapart hmem hlt)

/-- A nonce whose sequence is written, perhaps after other writes behind its identity. -/
theorem Tick.of_sequence {d₁ : Buffer} {rest : List UInt8} (hsize : d.size = nonceLen)
    (hbefore : u64At d 40 = .ok q) (hlt : q + 1 < u64Size) (hsize₁ : d₁.size = d.size)
    (hhead : d₁.slice 0 40 = d.slice 0 40)
    (hdata : d₁.splice 40 (Buffer.toBytes 8 (q + 1) ++ rest) = some d') : Tick q d d' := by
  have hoffset : counterOffset d.size = some 40 := by rw [hsize]; rfl
  have hsize' : d'.size = d.size := (Buffer.size_splice hdata).trans hsize₁
  constructor
  · exact hsize'
  · rw [Buffer.slice_splice_of_disjoint hdata (.inl le_rfl), hhead]
  · exact counter_of_number hoffset (okOr_eq_ok.mp hbefore)
  · exact counter_of_number (hsize'.symm ▸ hoffset) (Buffer.number_splice hdata hlt)

/-- The nonce of a settlement. -/
theorem Tick.of_nonce {rest : List UInt8} (hsize : d.size = nonceLen) (hbefore : u64At d 40 = .ok q)
    (hlt : q + 1 < u64Size) (hdata : d.splice 40 (Buffer.toBytes 8 (q + 1) ++ rest) = some d') :
    Tick q d d' := Tick.of_sequence hsize hbefore hlt rfl rfl hdata

/-- A write behind the counter keeps a tick. -/
theorem Tick.splice {offset : ℕ} {bytes : List UInt8} {d'' : Buffer} (h : Tick q d d')
    (hsize : d.size = nonceLen) (hoffset : 48 ≤ offset) (hdata : d'.splice offset bytes = some d'') :
    Tick q d d'' := by
  have hsize' := Buffer.size_splice hdata
  have hcounter : counterOffset d'.size = some 40 := by rw [h.size_eq, hsize]; rfl
  constructor
  · exact hsize'.trans h.size_eq
  · rw [Buffer.slice_splice_of_disjoint hdata (.inl (by omega)), h.head_eq]
  · exact h.before
  · have hafter := h.after
    rw [counter, hcounter, Option.bind_some] at hafter
    refine counter_of_number (hsize'.symm ▸ hcounter) ?_
    rw [Buffer.number_splice_of_disjoint hdata (.inl (by omega)), hafter]

/-- A limit rounded up is no less than the limit. -/
theorem le_of_ceilQ32 {value price cash paid : ℕ} (h : ceilQ32 value price = .ok cash) (hle : cash ≤ paid) :
    value * price ≤ paid * 2 ^ 32 := by
  have hcash := ceilQ32_eq_ok h
  omega

/-- A fill of an order at its limit, between its escrow and its cash account. -/
structure FillOf {n : ℕ} (a : Accounts n) (d : Buffer) (f : Fill n) : Prop where
  priced : ∃ limit, u64At d 256 = .ok limit ∧ Change.Priced limit f.stock f.cash
  escrow : d.slice 168 32 = some (a.key f.escrow).toList
  cash : d.slice 200 32 = some (a.key f.cashDestination).toList

/-- A fill that passed its checks is one of the order. -/
theorem validateFill_eq_ok {rt : Runtime} {program : ProgramId} {n : ℕ} {ledger : Ledger} {a : Accounts n}
    {clock : Clock} {f : Fill n} {nonce : ℕ} (h : validateFill rt program ledger a clock f = .ok nonce) :
    FillOf a (ledger (a.key f.order)).data f := by
  rw [validateFill] at h
  obtain ⟨_, -, h⟩ := bind_eq_ok.mp h
  obtain ⟨_, hform, h⟩ := bind_eq_ok.mp h
  obtain ⟨_, -, h⟩ := bind_eq_ok.mp h
  obtain ⟨revision, -, h⟩ := bind_eq_ok.mp h
  obtain ⟨_, -, h⟩ := bind_eq_ok.mp h
  obtain ⟨expires, -, h⟩ := bind_eq_ok.mp h
  obtain ⟨_, -, h⟩ := bind_eq_ok.mp h
  obtain ⟨nonce', -, h⟩ := bind_eq_ok.mp h
  obtain ⟨_, -, h⟩ := bind_eq_ok.mp h
  obtain ⟨remaining, -, h⟩ := bind_eq_ok.mp h
  obtain ⟨limit, hlimit, h⟩ := bind_eq_ok.mp h
  obtain ⟨_, -, h⟩ := bind_eq_ok.mp h
  obtain ⟨escrow, -, h⟩ := bind_eq_ok.mp h
  obtain ⟨_, -, h⟩ := bind_eq_ok.mp h
  obtain ⟨exposure, hexposure, h⟩ := bind_eq_ok.mp h
  obtain ⟨_, hpositive, h⟩ := bind_eq_ok.mp h
  obtain ⟨cash, hcash, h⟩ := bind_eq_ok.mp h
  obtain ⟨_, hle, -⟩ := bind_eq_ok.mp h
  obtain ⟨-, -, -, -, -, -, hescrow, hdestination⟩ := need_eq_ok.mp hform
  refine ⟨⟨limit, ad_eq_ok.mp hlimit, ?_⟩, hescrow, hdestination⟩
  exact ⟨_, _, _, exposure, hexposure, need_eq_ok.mp hpositive, le_of_ceilQ32 hcash (need_eq_ok.mp hle)⟩

/-- What may be filled. -/
theorem filledOrder_eq_ok {revision stock cash remaining next filledCash : ℕ}
    (h : filledOrder d revision stock cash = .ok (remaining, next, filledCash)) :
    (d.size = orderLen ∧ d.byte 328 = openStatus ∧ u64At d 272 = .ok revision) ∧
    next = revision + 1 ∧ revision + 1 < u64Size ∧
    (∃ left, u64At d 248 = .ok left ∧ stock ≤ left ∧ remaining = left - stock) ∧
    ∃ before, u64At d 280 = .ok before ∧ before + cash < u64Size ∧ filledCash = before + cash := by
  rw [filledOrder, bind_eq_ok] at h
  obtain ⟨_, hform, h⟩ := h
  obtain ⟨stored, hstored, h⟩ := bind_eq_ok.mp h
  obtain ⟨_, hrevision, h⟩ := bind_eq_ok.mp h
  obtain ⟨left, hleft, h⟩ := bind_eq_ok.mp h
  obtain ⟨_, hremaining, h⟩ := bind_eq_ok.mp h
  obtain ⟨before, hbefore, h⟩ := bind_eq_ok.mp h
  obtain ⟨_, hfilled, h⟩ := bind_eq_ok.mp h
  obtain ⟨_, hnext, h⟩ := bind_eq_ok.mp h
  cases h
  obtain ⟨hsize, -, hopen⟩ := need_eq_ok.mp hform
  obtain rfl := need_eq_ok.mp hrevision
  obtain ⟨hle, rfl⟩ := checkedSub_eq_ok.mp hremaining
  obtain ⟨hcash, rfl⟩ := checkedSum_eq_ok.mp hfilled
  obtain ⟨hlt, rfl⟩ := checkedSum_eq_ok.mp hnext
  exact ⟨⟨hsize, hopen, ad_eq_ok.mp hstored⟩, rfl, hlt, ⟨left, ad_eq_ok.mp hleft, hle, rfl⟩,
    before, ad_eq_ok.mp hbefore, hcash, rfl⟩

theorem fillFields_apart (remaining revision filledCash : ℕ) :
    (fillFields remaining revision filledCash).Pairwise Buffer.Apart := by
  simp [fillFields, Buffer.Apart]

theorem cancelFields_apart (revision : ℕ) : (cancelFields revision).Pairwise Buffer.Apart := by
  simp [cancelFields, Buffer.Apart]

/-- A change raises the counter that it names. -/
theorem Change.Applies.tick {c : Change} (h : c.Applies d d') : Tick c.count d d' := by
  have horder : counterOffset orderLen = some 272 := rfl
  cases c with
  | advance count => exact h.2
  | fill revision stock cash =>
    obtain ⟨⟨remaining, filledCash, hfill, hdata⟩, -⟩ := h
    obtain ⟨⟨hsize, -, hrevision⟩, -, hlt, -⟩ := filledOrder_eq_ok hfill
    refine Tick.of_fields hdata (hsize ▸ horder) hrevision hlt (fillFields_apart _ _ _) ?_ ?_
    · simp [fillFields, Change.count]
    · simp [fillFields]
  | cancel revision =>
    obtain ⟨hsize, -, hrevision, hlt, hdata⟩ := h
    refine Tick.of_fields hdata (hsize ▸ horder) hrevision hlt (cancelFields_apart _) ?_ ?_
    · simp [cancelFields, Change.count]
    · simp [cancelFields]

end Ticks

/-- Windows whose spans are apart. -/
theorem apart_of_spans {fields : List (ℕ × List UInt8)} {spans : List (ℕ × ℕ)}
    (h : fields.map (fun f => (f.1, f.2.length)) = spans)
    (hapart : spans.Pairwise fun x y => x.1 + x.2 ≤ y.1 ∨ y.1 + y.2 ≤ x.1) :
    fields.Pairwise Buffer.Apart := by
  rw [← h, List.pairwise_map] at hapart
  exact hapart

/-! ## Commits -/

/-- The named changes are made, and the other accounts of the program are left alone. -/
structure Commits (program : ProgramId) (changes : List (Key × Change)) (before after : Ledger) :
    Prop where
  nodup : (changes.map Prod.fst).Nodup
  kept : ∀ key ∉ changes.map Prod.fst, (before key).owner = program →
    (after key).owner = program ∧ (after key).data = (before key).data
  changed : ∀ e ∈ changes, (before e.1).owner = program ∧ (after e.1).owner = program ∧
    e.2.Applies (before e.1).data (after e.1).data

namespace Commits

variable {program : ProgramId} {changes more : List (Key × Change)} {before between after : Ledger}

/-- Only one record changes. -/
theorem single {key : Key} {c : Change} {account : Account} (hbefore : (before key).owner = program)
    (hafter : account.owner = program) (happly : c.Applies (before key).data account.data) :
    Commits program [(key, c)] before (Function.update before key account) := by
  constructor
  · exact List.nodup_singleton _
  · intro other hother howner
    have hne : other ≠ key := fun heq => hother (heq.symm ▸ List.mem_singleton_self key)
    rw [Function.update_of_ne hne]
    exact ⟨howner, rfl⟩
  · intro e he
    obtain rfl := List.mem_singleton.mp he
    rw [Function.update_self]
    exact ⟨hbefore, hafter, happly⟩

/-- Changes of different records compose. The later ones are not created between. -/
theorem append (h : Commits program changes before between) (h' : Commits program more between after)
    (hdisjoint : (changes.map Prod.fst).Disjoint (more.map Prod.fst))
    (howned : ∀ e ∈ more, (before e.1).owner = program) :
    Commits program (changes ++ more) before after := by
  constructor
  · rw [List.map_append]
    exact List.nodup_append'.mpr ⟨h.nodup, h'.nodup, hdisjoint⟩
  · intro key hkey howner
    rw [List.map_append, List.mem_append, not_or] at hkey
    obtain ⟨howner₁, hdata⟩ := h.kept key hkey.1 howner
    obtain ⟨howner₂, hdata'⟩ := h'.kept key hkey.2 howner₁
    exact ⟨howner₂, hdata'.trans hdata⟩
  · intro e he
    rcases List.mem_append.mp he with he | he
    · obtain ⟨howner, howner₁, happly⟩ := h.changed e he
      obtain ⟨howner₂, hdata⟩ := h'.kept e.1 (hdisjoint (List.mem_map_of_mem he)) howner₁
      exact ⟨howner, howner₂, hdata ▸ happly⟩
    · have hkey : e.1 ∉ changes.map Prod.fst := fun hmem => hdisjoint hmem (List.mem_map_of_mem he)
      obtain ⟨-, hdata⟩ := h.kept e.1 hkey (howned e he)
      obtain ⟨-, howner₂, happly⟩ := h'.changed e he
      exact ⟨howned e he, howner₂, hdata ▸ happly⟩

/-- Nothing happens to the records between. -/
theorem after_nil (h : Commits program [] before between) (h' : Commits program changes between after)
    (howned : ∀ e ∈ changes, (before e.1).owner = program) : Commits program changes before after := by
  have happend := h.append h' (List.disjoint_nil_left _) howned
  rwa [List.nil_append] at happend

theorem then_nil (h : Commits program changes before between) (h' : Commits program [] between after) :
    Commits program changes before after := by
  have happend := h.append h' (List.disjoint_nil_right _) fun e he => absurd he List.not_mem_nil
  rwa [List.append_nil] at happend

/-- A record that no change names. -/
theorem data_eq (h : Commits program changes before after) {key : Key}
    (hkey : key ∉ changes.map Prod.fst) (howner : (before key).owner = program) :
    (after key).data = (before key).data := (h.kept key hkey howner).2

end Commits

/-! ## Frames -/

section Frame

variable {program : ProgramId}

/-- Accounts of the program outside `keys` are left alone. -/
def Spares (program : ProgramId) (keys : List Key) (s s' : Chain) : Prop :=
  ∀ key ∉ keys, (s.ledger key).owner = program →
    (s'.ledger key).owner = program ∧ (s'.ledger key).data = (s.ledger key).data

instance preorderSpares (keys : List Key) : IsPreorder Chain (Spares program keys) where
  refl _ _ _ howner := ⟨howner, rfl⟩
  trans _ _ _ h h' key hkey howner := by
    obtain ⟨howner₁, hdata₁⟩ := h key hkey howner
    obtain ⟨howner₂, hdata₂⟩ := h' key hkey howner₁
    exact ⟨howner₂, hdata₂.trans hdata₁⟩

theorem Spares.mono {keys keys' : List Key} {s s' : Chain} (h : Spares program keys s s')
    (hsub : keys ⊆ keys') : Spares program keys' s s' := fun key hkey => h key fun hmem => hkey (hsub hmem)

theorem Spares.trans {keys : List Key} {s s₁ s₂ : Chain} (h : Spares program keys s s₁)
    (h' : Spares program keys s₁ s₂) : Spares program keys s s₂ :=
  IsTrans.trans (r := Spares program keys) _ _ _ h h'

/-- To spare every account is to commit nothing. -/
theorem commits_nil {s s' : Chain} : Commits program [] s.ledger s'.ledger ↔ Spares program [] s s' :=
  ⟨fun h => h.kept, fun h => ⟨List.nodup_nil, h, fun _ he => absurd he List.not_mem_nil⟩⟩

/-- Accounts that are not the program's yet may change. -/
theorem Spares.commits {keys : List Key} {s s' : Chain} (h : Spares program keys s s')
    (hnew : ∀ key ∈ keys, (s.ledger key).owner ≠ program) : Commits program [] s.ledger s'.ledger :=
  commits_nil.mpr fun key _ howner => h key (fun hkey => hnew key hkey howner) howner

/-- Changing one account spares the others. -/
theorem spares_update {s : Chain} {key : Key} {account : Account} {cpis : List Cpi} {bytes : List UInt8} :
    Spares program [key] s ⟨Function.update s.ledger key account, cpis, bytes⟩ := by
  intro other hother howner
  have hne : other ≠ key := fun heq => hother (heq ▸ List.mem_singleton_self _)
  have hsame : Function.update s.ledger key account other = s.ledger other := Function.update_of_ne hne _ _
  exact ⟨(congrArg Account.owner hsame).trans howner, congrArg Account.data hsame⟩

variable {venues : Venues program} {n : ℕ} {a : Accounts n}

/-- A CPI spares every account of the program. -/
theorem spares_invokeLeg (leg : ℕ) (ix : Instruction) :
    Keeps (Spares program []) (invokeLeg venues leg ix) := fun _ _ _ h key _ howner =>
  venues.owned (invokeLeg_eq_ok h).1 key howner

theorem spares_transferChecked (source mint destination authority tokenProgram : Fin n) (amount : ℕ) :
    Keeps (Spares program [])
      (transferChecked a venues source mint destination authority tokenProgram amount) :=
  .get_bind fun _ => .lift_bind fun _ _ => spares_invokeLeg 0 _

theorem spares_transferCheckedSigned (rt : Runtime)
    (source mint destination order tokenProgram owner : Fin n) (nonce amount : ℕ) :
    Keeps (Spares program []) (transferCheckedSigned a venues rt source mint destination order
      tokenProgram owner nonce amount) :=
  .get_bind fun _ => .lift_bind fun _ _ => .lift_bind fun _ _ => spares_invokeLeg 0 _

/-- The execution of a graph writes no account of the program. -/
theorem spares_executePreflighted {natives : Natives} {clock : Clock} (d : Buffer) (wallet : Fin n) :
    Keeps (Spares program []) (executePreflightedGraphFor natives a clock venues d wallet) :=
  .lift_bind fun _ _ _ _ _ h _ _ howner => executeGraph_owned h howner

theorem spares_setReturnData {keys : List Key} (bytes : List UInt8) :
    Keeps (Spares program keys) (setReturnData bytes) := .modify fun _ _ _ howner => ⟨howner, rfl⟩

/-- A write spares every account but the written one. -/
theorem spares_writeFields (key : Key) (fields : List (ℕ × List UInt8)) :
    Keeps (Spares program [key]) (writeFields key fields) := by
  intro s _ s' h
  obtain ⟨data, -, rfl⟩ := writeFields_eq_ok h
  exact spares_update

theorem spares_zeroData (key : Key) : Keeps (Spares program [key]) (zeroData key) :=
  .modify fun _ => spares_update

theorem spares_setAccount (key : Key) (account : Account) :
    Keeps (Spares program [key]) (setAccount key account) := .modify fun _ => spares_update

/-- A transfer of lamports keeps the owner and the data of every account. -/
theorem systemTransfer_eq_ok {source destination : Key} {lamports : ℕ} {s s' : Chain}
    (h : systemTransfer source destination lamports s = (.ok (), s')) (key : Key) :
    (s'.ledger key).owner = (s.ledger key).owner ∧ (s'.ledger key).data = (s.ledger key).data := by
  have hupdate : ∀ (ledger : Ledger) (other : Key) (lamports : ℕ),
      (Function.update ledger other { ledger other with lamports } key).owner = (ledger key).owner ∧
      (Function.update ledger other { ledger other with lamports } key).data = (ledger key).data := by
    intro ledger other lamports
    by_cases hkey : key = other
    · subst hkey
      rw [Function.update_self]
      exact ⟨rfl, rfl⟩
    · rw [Function.update_of_ne hkey]
      exact ⟨rfl, rfl⟩
  rw [systemTransfer, get_bind, lift_bind_eq_ok] at h
  obtain ⟨_, -, h⟩ := h
  obtain ⟨_, s₁, hset, h⟩ := Comp.bind_eq_ok.mp h
  cases hset
  rw [get_bind, lift_bind_eq_ok] at h
  obtain ⟨sum, -, h⟩ := h
  cases h
  obtain ⟨howner, hdata⟩ := hupdate s.ledger source ((s.ledger source).lamports - lamports)
  obtain ⟨howner', hdata'⟩ := hupdate (Function.update s.ledger source
    { s.ledger source with lamports := (s.ledger source).lamports - lamports }) destination sum
  exact ⟨howner'.trans howner, hdata'.trans hdata⟩

/-- Creating an account spares the others; the payer only pays. -/
theorem spares_createAccount (rt : Runtime) (payer key : Key) (length : ℕ) :
    Keeps (Spares program [key]) (createAccount rt program payer key length) := by
  have htransfer : ∀ lamports, Keeps (Spares program [key]) (systemTransfer payer key lamports) := by
    intro lamports s _ s' h other _ howner
    obtain ⟨howner', hdata⟩ := systemTransfer_eq_ok h other
    exact ⟨howner'.trans howner, hdata⟩
  have hallocate : Keeps (Spares program [key]) (systemAllocate key length) :=
    .get_bind fun _ => .lift_bind fun _ _ => spares_setAccount key _
  have hassign : Keeps (Spares program [key]) (systemAssign key program) :=
    .get_bind fun _ => .lift_bind fun _ _ => spares_setAccount key _
  have hrest : Keeps (Spares program [key])
      (systemAllocate key length >>= fun _ => systemAssign key program) := hallocate.bind fun _ => hassign
  refine .get_bind fun s => ?_
  dsimp only
  exact .ite (fun _ => (htransfer _).bind fun _ => hrest) fun _ => hrest

end Frame

/-! ## Settled graphs -/

section Graphs

variable {natives : Natives} {n : ℕ} {a : Accounts n} {clock : Clock} {program : ProgramId}
  {venues : Venues program}

/-- The change that a graph asks for. -/
def graphChanges (a : Accounts n) (d : Buffer) (nonce : Fin n) : List (Key × Change) :=
  match Graph.decode d n with
  | .ok g => [(a.key nonce, .advance g.sequence)]
  | .error _ => []

theorem graphChanges_of_ok {d : Buffer} {g : Graph n} (h : Graph.decode d n = .ok g) (nonce : Fin n) :
    graphChanges a d nonce = [(a.key nonce, .advance g.sequence)] := by
  rw [graphChanges, h]

theorem nonceLen_ne : nonceLen ≠ orderLen := by decide

/-- A settlement advances its nonce. -/
theorem SettlesAs.commits {d : Buffer} {g : Graph n} {wallet nonce : Fin n} {outcome : GraphOutcome}
    {s s₁ s' : Chain} (h : SettlesAs natives a clock venues d g wallet nonce outcome s s₁ s') :
    Commits program (graphChanges a d nonce) s.ledger s'.ledger := by
  obtain ⟨hsequence, howner, -⟩ := preflightDecoded_eq_ok h.preflight_eq
  have hsize := preflightDecoded_nonce h.preflight_eq
  obtain ⟨-, -, hseq, -⟩ := executeGraph_conserved h.execute_eq
  obtain ⟨howner₁, hdata₁⟩ := executeGraph_owned h.execute_eq howner
  have hlt := h.sequence_lt
  obtain ⟨data, hdata, rfl⟩ := h.finish_eq
  rw [graphChanges_of_ok h.decode_eq]
  have hnil : Commits program [] s.ledger s₁.ledger :=
    commits_nil.mpr fun key _ hkey => executeGraph_owned h.execute_eq hkey
  refine hnil.after_nil ?_ ?_
  · refine Commits.single howner₁ howner₁ ⟨?_, ?_⟩
    · rw [hdata₁, hsize]
      exact nonceLen_ne
    · rw [hseq] at hdata hlt
      exact Tick.of_nonce (hdata₁ ▸ hsize) (hdata₁ ▸ hsequence) hlt hdata
  · intro e he
    obtain rfl := List.mem_singleton.mp he
    exact howner

end Graphs

end StockMesh.Settle

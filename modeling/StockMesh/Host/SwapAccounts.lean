import StockMesh.Host.SwapWire
import StockMesh.Adapters.GraphEncode
import StockMesh.Journal.Progress
import Mathlib.Data.List.Perm.Subperm
import Mathlib.Data.List.Nodup

/-! # The account list of a swap graph

The account list of a compiled graph is `Listed` by the keys that were asked for: no key twice, the owner
as the only signer, writable exactly where some place asked for it. What is written behind it is the text
of a `Wire` whose indices resolve to the keys of the specification (`write_eq_ok`). -/

namespace StockMesh.Host

open Journal (refuse_eq_ok)
open Settle (AccountMeta Instruction tokenId token2022Id venueProgram nonceTag)

namespace SwapGraph

variable {spec : SwapGraph} {nonce : Key} {readonly : List Key}

/-! ## The account list -/

/-- The keys of an account list. -/
def keys (metas : List AccountMeta) : List Key := metas.map AccountMeta.key

/-- The index stands for the key. -/
def At (keys : List Key) (i : UInt8) (key : Key) : Prop := keys[i.toNat]? = some key

theorem At.mono {keys keys' : List Key} {i : UInt8} {key : Key} (h : At keys i key)
    (hgrow : keys <+: keys') : At keys' i key := by
  obtain ⟨more, rfl⟩ := hgrow
  obtain ⟨hlt, hget⟩ := List.getElem?_eq_some_iff.mp h
  rw [At, List.getElem?_append_left hlt]
  exact h

/-- Flags do not change the keys. -/
theorem keys_modify {metas : List AccountMeta} (j : ℕ) {f : AccountMeta → AccountMeta}
    (hf : ∀ m, (f m).key = m.key) : keys (metas.modify j f) = keys metas := by
  apply List.ext_getElem? fun k => ?_
  simp only [keys, List.getElem?_map, List.getElem?_modify]
  split <;> simp [Function.comp_def, hf]

/-- A changed account, or one with another key. -/
theorem mem_modify {metas : List AccountMeta} (hnodup : (keys metas).Nodup) {j : ℕ} (hj : j < metas.length)
    {f : AccountMeta → AccountMeta} {m : AccountMeta} (hm : m ∈ metas.modify j f) :
    m = f metas[j] ∨ m ∈ metas ∧ m.key ≠ metas[j].key := by
  obtain ⟨k, hk⟩ := List.mem_iff_getElem?.mp hm
  by_cases hjk : j = k
  · subst hjk
    rw [List.getElem?_modify_eq, List.getElem?_eq_getElem hj] at hk
    exact .inl (Option.some.inj hk).symm
  · rw [List.getElem?_modify_ne _ _ hjk] at hk
    obtain ⟨hlt, rfl⟩ := List.getElem?_eq_some_iff.mp hk
    refine .inr ⟨List.getElem_mem hlt, fun hsame => hjk ?_⟩
    have hget : (keys metas)[j]? = (keys metas)[k]? := by
      simp [keys, List.getElem?_map, List.getElem?_eq_getElem hj, List.getElem?_eq_getElem hlt, hsame]
    exact (List.getElem?_inj (by simpa [keys] using hj) hnodup).mp hget

/-- An account list after some requests for keys, each with the flag it asks for. -/
structure Listed (spec : SwapGraph) (nonce : Key) (readonly : List Key)
    (requests : List (Key × Bool)) (metas : List AccountMeta) : Prop where
  front : [spec.owner, nonce] <+: keys metas
  nodup : (keys metas).Nodup
  listed : ∀ r ∈ requests, r.1 ∈ keys metas
  signer : ∀ m ∈ metas, m.isSigner = true ↔ m.key = spec.owner
  writable : ∀ m ∈ metas, m.isWritable = true ↔ m.key = nonce ∨ (m.key, true) ∈ requests
  guarded : ∀ r ∈ requests, r.2 = true → r.1 ∉ readonly
  size : metas.length ≤ maxAccounts

/-- The first two accounts. -/
theorem listed_start (h : spec.owner ≠ nonce) :
    Listed spec nonce readonly [] [⟨spec.owner, true, false⟩, ⟨nonce, false, true⟩] where
  front := List.prefix_rfl
  nodup := by simp [keys, h]
  listed r hr := absurd hr List.not_mem_nil
  signer m hm := by
    rcases List.mem_cons.mp hm with rfl | hm
    · simp
    · obtain rfl := List.mem_singleton.mp hm
      simp [Ne.symm h]
  writable m hm := by
    rcases List.mem_cons.mp hm with rfl | hm
    · simp [h]
    · obtain rfl := List.mem_singleton.mp hm
      simp
  guarded r hr := absurd hr List.not_mem_nil
  size := by
    show 2 ≤ 64
    decide

/-- One request. -/
theorem Listed.index {requests : List (Key × Bool)} {metas metas' : List AccountMeta}
    (h : Listed spec nonce readonly requests metas) {key : Key} {writable : Bool} {i : UInt8}
    (hindex : spec.index readonly metas key writable = .ok (metas', i)) :
    Listed spec nonce readonly (requests ++ [(key, writable)]) metas' ∧
      keys metas <+: keys metas' ∧ At (keys metas') i key := by
  obtain ⟨_, hguard, hindex⟩ := bind_eq_ok.mp hindex
  rw [refuse_eq_ok, not_and] at hguard
  have hguarded : ∀ r ∈ requests ++ [(key, writable)], r.2 = true → r.1 ∉ readonly := by
    intro r hr
    rcases List.mem_append.mp hr with hr | hr
    · exact h.guarded r hr
    · obtain rfl := List.mem_singleton.mp hr
      exact hguard
  cases hfind : metas.findIdx? fun m => decide (m.key = key) with
  | some j =>
    rw [hfind] at hindex
    cases hindex
    obtain ⟨hj, hkey, -⟩ := List.findIdx?_eq_some_iff_getElem.mp hfind
    have hkey : (metas[j]).key = key := of_decide_eq_true hkey
    have hkeys : keys (metas.modify j fun m => { m with isWritable := m.isWritable || writable }) =
        keys metas := keys_modify j fun _ => rfl
    -- an account is the one of the key, with its flag, or it has another key
    have hmem : ∀ m ∈ metas.modify j fun m => { m with isWritable := m.isWritable || writable },
        m = { metas[j] with isWritable := metas[j].isWritable || writable } ∨
          m ∈ metas ∧ m.key ≠ key := fun m hm => hkey ▸ mem_modify h.nodup hj hm
    have hlt : j < 256 := by
      have hsize := h.size
      have hmax : maxAccounts = 64 := rfl
      omega
    refine ⟨?_, hkeys ▸ List.prefix_rfl, ?_⟩
    · exact {
        front := hkeys ▸ h.front
        nodup := hkeys ▸ h.nodup
        listed := by
          intro r hr
          rw [hkeys]
          rcases List.mem_append.mp hr with hr | hr
          · exact h.listed r hr
          · obtain rfl := List.mem_singleton.mp hr
            exact List.mem_map.mpr ⟨_, List.getElem_mem hj, hkey⟩
        signer := by
          intro m hm
          rcases hmem m hm with rfl | ⟨hold, -⟩
          · exact h.signer metas[j] (List.getElem_mem hj)
          · exact h.signer m hold
        writable := by
          intro m hm
          rcases hmem m hm with rfl | ⟨hold, hne⟩
          · show (metas[j].isWritable || writable) = true ↔
              metas[j].key = nonce ∨ (metas[j].key, true) ∈ requests ++ [(key, writable)]
            rw [Bool.or_eq_true, h.writable metas[j] (List.getElem_mem hj), hkey]
            simp [or_assoc, eq_comm]
          · rw [h.writable m hold]
            simp [hne]
        guarded := hguarded
        size := by simpa using h.size }
    · rw [At, UInt8.toNat_ofNat_of_lt' hlt, hkeys, keys, List.getElem?_map,
        List.getElem?_eq_getElem hj, Option.map_some, hkey]
  | none =>
    rw [hfind] at hindex
    obtain ⟨_, hsize, hindex⟩ := bind_eq_ok.mp hindex
    cases hindex
    rw [refuse_eq_ok, not_le] at hsize
    have hnew : key ∉ keys metas := by
      intro hmem
      obtain ⟨m, hm, rfl⟩ := List.mem_map.mp hmem
      simpa using List.findIdx?_eq_none_iff.mp hfind m hm
    have hkeys : keys (metas ++ [⟨key, decide (key = spec.owner), writable⟩]) = keys metas ++ [key] := by
      simp [keys]
    have howner : key ≠ spec.owner ∧ key ≠ nonce := by
      have hfront := h.front.subset
      constructor
      · rintro rfl
        exact hnew (hfront (by simp))
      · rintro rfl
        exact hnew (hfront (by simp))
    refine ⟨?_, hkeys ▸ List.prefix_append _ _, ?_⟩
    · exact {
        front := hkeys ▸ h.front.trans (List.prefix_append _ _)
        nodup := by
          rw [hkeys]
          exact h.nodup.append (List.nodup_singleton _) (by simpa using hnew)
        listed := by
          intro r hr
          rw [hkeys]
          rcases List.mem_append.mp hr with hr | hr
          · exact List.mem_append_left _ (h.listed r hr)
          · obtain rfl := List.mem_singleton.mp hr
            exact List.mem_append_right _ (List.mem_singleton_self _)
        signer := by
          intro m hm
          rcases List.mem_append.mp hm with hm | hm
          · exact h.signer m hm
          · obtain rfl := List.mem_singleton.mp hm
            simp
        writable := by
          intro m hm
          rcases List.mem_append.mp hm with hm | hm
          · have hne : m.key ≠ key := fun heq => hnew (heq ▸ List.mem_map_of_mem hm)
            rw [h.writable m hm]
            simp [hne]
          · obtain rfl := List.mem_singleton.mp hm
            have hno : (key, true) ∉ requests := fun hmem => hnew (h.listed _ hmem)
            simp [howner.2, hno]
        guarded := hguarded
        size := by
          rw [List.length_append]
          exact hsize }
    · have hlt : metas.length < 256 := hsize.trans (by decide)
      rw [At, UInt8.toNat_ofNat_of_lt' hlt, hkeys]
      simp [keys]

/-! ## What is written -/

/-- The partners of a list are members of the other. -/
theorem forall₂_and_mem {α β : Type} {R : α → β → Prop} {as : List α} {bs : List β}
    (h : List.Forall₂ R as bs) : List.Forall₂ (fun a b => b ∈ bs ∧ R a b) as bs := by
  induction h with
  | nil => exact .nil
  | cons hr _ ih =>
    refine .cons ⟨List.mem_cons_self, hr⟩ (ih.imp fun _ _ hb => ?_)
    exact ⟨List.mem_cons_of_mem _ hb.1, hb.2⟩

/-- A step that makes requests and writes bytes. -/
structure Wrote (spec : SwapGraph) (nonce : Key) (readonly : List Key)
    (requests more : List (Key × Bool)) (out out' : Output) (bytes : List UInt8) : Prop where
  listed : Listed spec nonce readonly (requests ++ more) out'.1
  grows : keys out.1 <+: keys out'.1
  data : out'.2 = out.2 ++ bytes

/-- A loop of such steps, each of which writes a value whose indices resolve. -/
theorem Wrote.foldlM {α β : Type} {step : Output → α → Answer Output} {asks : α → List (Key × Bool)}
    {code : β → List UInt8} {Told : List Key → β → α → Prop}
    (hmono : ∀ k k' b a, k <+: k' → Told k b a → Told k' b a)
    (hstep : ∀ requests out out' a, Listed spec nonce readonly requests out.1 →
      step out a = .ok out' → ∃ b, Told (keys out'.1) b a ∧
        Wrote spec nonce readonly requests (asks a) out out' (code b))
    {requests : List (Key × Bool)} {out out' : Output} {as : List α}
    (h : Listed spec nonce readonly requests out.1) (hfold : as.foldlM step out = .ok out') :
    ∃ bs, List.Forall₂ (Told (keys out'.1)) bs as ∧
      Wrote spec nonce readonly requests (as.flatMap asks) out out' (bs.flatMap code) := by
  induction as generalizing requests out with
  | nil =>
    cases hfold
    exact ⟨[], .nil, by simpa using h, List.prefix_rfl, by simp⟩
  | cons a as ih =>
    rw [List.foldlM_cons] at hfold
    obtain ⟨middle, hfirst, hrest⟩ := bind_eq_ok.mp hfold
    obtain ⟨b, htold, hwrote⟩ := hstep requests out middle a h hfirst
    obtain ⟨bs, hbs, hmore⟩ := ih hwrote.listed hrest
    refine ⟨b :: bs, .cons (hmono _ _ _ _ hmore.grows htold) hbs, ?_, hwrote.grows.trans hmore.grows, ?_⟩
    · rw [List.flatMap_cons, ← List.append_assoc]
      exact hmore.listed
    · rw [hmore.data, hwrote.data, List.flatMap_cons, List.append_assoc]

/-- The requests of an asset. -/
def assetRequests (a : TokenAsset) : List (Key × Bool) :=
  [(a.token, true), (a.mint, false), (a.tokenProgram, false)]

/-- The indices of an asset. -/
structure AssetAt (keys : List Key) (w : WireAsset) (a : TokenAsset) : Prop where
  token : At keys w.token a.token
  mint : At keys w.mint a.mint
  program : At keys w.program a.tokenProgram

theorem AssetAt.mono {keys keys' : List Key} {w : WireAsset} {a : TokenAsset} (h : AssetAt keys w a)
    (hgrow : keys <+: keys') : AssetAt keys' w a :=
  ⟨h.token.mono hgrow, h.mint.mono hgrow, h.program.mono hgrow⟩

theorem Listed.writeAsset {requests : List (Key × Bool)} {out out' : Output} {asset : TokenAsset}
    (h : Listed spec nonce readonly requests out.1)
    (hwrite : spec.writeAsset readonly out asset = .ok out') :
    ∃ w, AssetAt (keys out'.1) w asset ∧
      Wrote spec nonce readonly requests (assetRequests asset) out out' (WireAsset.encode w) := by
  obtain ⟨⟨metas₁, token⟩, htoken, hwrite⟩ := bind_eq_ok.mp hwrite
  obtain ⟨⟨metas₂, mint⟩, hmint, hwrite⟩ := bind_eq_ok.mp hwrite
  obtain ⟨⟨metas₃, program⟩, hprogram, hwrite⟩ := bind_eq_ok.mp hwrite
  cases hwrite
  obtain ⟨h₁, hgrows₁, hat₁⟩ := h.index htoken
  obtain ⟨h₂, hgrows₂, hat₂⟩ := h₁.index hmint
  obtain ⟨h₃, hgrows₃, hat₃⟩ := h₂.index hprogram
  refine ⟨⟨token, mint, program⟩, ⟨(hat₁.mono hgrows₂).mono hgrows₃, hat₂.mono hgrows₃, hat₃⟩, ?_,
    (hgrows₁.trans hgrows₂).trans hgrows₃, rfl⟩
  simpa [assetRequests] using h₃

/-- The request of an account of a leg. -/
def accountRequest (read : Key → Answer AccountView) (leg : SwapLeg) (p : Key × ℕ) : Key × Bool :=
  (p.1, match read p.1 with
    | .ok info => cpiWritable leg p.1 p.2 info
    | .error _ => false)

theorem Listed.writeAccount {read : Key → Answer AccountView} {ids : Identities} {leg : SwapLeg}
    {requests : List (Key × Bool)} {out out' : Output} {p : Key × ℕ}
    (h : Listed spec nonce ids.readonly requests out.1)
    (hwrite : spec.writeAccount read nonce ids leg out p = .ok out') :
    ∃ i, At (keys out'.1) i p.1 ∧
      Wrote spec nonce ids.readonly requests [accountRequest read leg p] out out' [i] := by
  obtain ⟨_, -, hwrite⟩ := bind_eq_ok.mp hwrite
  obtain ⟨info, hinfo, hwrite⟩ := bind_eq_ok.mp hwrite
  obtain ⟨_, -, hwrite⟩ := bind_eq_ok.mp hwrite
  obtain ⟨_, -, hwrite⟩ := bind_eq_ok.mp hwrite
  obtain ⟨⟨metas, i⟩, hindex, hwrite⟩ := bind_eq_ok.mp hwrite
  cases hwrite
  obtain ⟨h', hgrows, hat⟩ := h.index hindex
  have hrequest : accountRequest read leg p = (p.1, cpiWritable leg p.1 p.2 info) := by
    simp [accountRequest, hinfo]
  exact ⟨i, hat, by rw [hrequest]; exact h', hgrows, rfl⟩

/-- The requests of a leg. -/
def legRequests (read : Key → Answer AccountView) (leg : SwapLeg) : List (Key × Bool) :=
  (venueProgram leg.venue, false) :: leg.accounts.zipIdx.map (accountRequest read leg)

/-- The indices of a leg. -/
structure LegAt (ordered : List TokenAsset) (keys : List Key) (w : WireLeg) (leg : SwapLeg) : Prop where
  venue : w.venue = leg.venue
  direction : w.direction = leg.direction
  budget : w.budget = budgetAtoms leg.budget
  source : ∃ i, position ordered leg.source = some i ∧ w.source = .ofNat i
  destination : ∃ i, position ordered leg.destination = some i ∧ w.destination = .ofNat i
  program : At keys w.program (venueProgram leg.venue)
  accounts : List.Forall₂ (At keys) w.accounts leg.accounts
  count : leg.accounts.length ≤ leg.venue.accountBounds.2

theorem LegAt.mono {ordered : List TokenAsset} {keys keys' : List Key} {w : WireLeg} {leg : SwapLeg}
    (h : LegAt ordered keys w leg) (hgrow : keys <+: keys') : LegAt ordered keys' w leg :=
  { h with
    program := h.program.mono hgrow
    accounts := h.accounts.imp fun _ _ hat => hat.mono hgrow }

theorem Listed.writeLeg {read : Key → Answer AccountView} {program : Key} {ids : Identities}
    {ordered : List TokenAsset} {requests : List (Key × Bool)} {out out' : Output} {leg : SwapLeg}
    (h : Listed spec nonce ids.readonly requests out.1)
    (hwrite : spec.writeLeg read program nonce ids ordered out leg = .ok out') :
    ∃ w, LegAt ordered (keys out'.1) w leg ∧
      Wrote spec nonce ids.readonly requests (legRequests read leg) out out' (WireLeg.encode w) := by
  obtain ⟨_, hbind, hwrite⟩ := bind_eq_ok.mp hwrite
  obtain ⟨si, hsi, hwrite⟩ := bind_eq_ok.mp hwrite
  obtain ⟨di, hdi, hwrite⟩ := bind_eq_ok.mp hwrite
  obtain ⟨⟨metas, i⟩, hindex, hwrite⟩ := bind_eq_ok.mp hwrite
  obtain ⟨_, -, hbind⟩ := bind_eq_ok.mp hbind
  obtain ⟨_, -, hbind⟩ := bind_eq_ok.mp hbind
  obtain ⟨_, -, hbind⟩ := bind_eq_ok.mp hbind
  obtain ⟨_, hcount, -⟩ := bind_eq_ok.mp hbind
  rw [refuse_eq_ok, not_not] at hcount
  obtain ⟨h₁, hgrows₁, hat₁⟩ := h.index hindex
  have hmono : ∀ k k' i (p : Key × ℕ), k <+: k' → At k i p.1 → At k' i p.1 :=
    fun _ _ _ _ hgrow hat => hat.mono hgrow
  obtain ⟨is, his, hwrote⟩ := Wrote.foldlM hmono
    (fun _ _ _ _ h hwrite => h.writeAccount hwrite) h₁ hwrite
  have haccounts : List.Forall₂ (At (keys out'.1)) is leg.accounts := by
    rw [← List.zipIdx_map_fst 0 leg.accounts, List.forall₂_map_right_iff]
    exact his
  refine ⟨⟨leg.venue, .ofNat si, .ofNat di, leg.direction, budgetAtoms leg.budget, i, is⟩, {
    venue := rfl
    direction := rfl
    budget := rfl
    source := ⟨si, present_eq_ok.mp hsi, rfl⟩
    destination := ⟨di, present_eq_ok.mp hdi, rfl⟩
    program := hat₁.mono hwrote.grows
    accounts := haccounts
    count := hcount.2 }, ?_, hgrows₁.trans hwrote.grows, ?_⟩
  · simpa [legRequests, List.map_eq_flatMap] using hwrote.listed
  · rw [hwrote.data, WireLeg.encode, haccounts.length_eq]
    simp [List.append_assoc]

/-- All requests of a graph. -/
def requests (read : Key → Answer AccountView) (spec : SwapGraph) (ordered : List TokenAsset) :
    List (Key × Bool) :=
  ordered.flatMap assetRequests ++ spec.legs.flatMap (legRequests read)

theorem mem_assetRequests {a : TokenAsset} {key : Key} : (key, true) ∈ assetRequests a ↔ key = a.token := by
  simp [assetRequests]

/-- A key that a leg writes to. -/
def Written (read : Key → Answer AccountView) (leg : SwapLeg) (key : Key) : Prop :=
  ∃ place info, leg.accounts[place]? = some key ∧ read key = .ok info ∧
    key ≠ venueProgram leg.venue ∧
    leg.venue.writableWithOwner place (info.owner = venueProgram leg.venue) = true

theorem mem_legRequests {read : Key → Answer AccountView} {leg : SwapLeg} {key : Key} :
    (key, true) ∈ legRequests read leg ↔ Written read leg key := by
  have hprogram : (key, true) ≠ (venueProgram leg.venue, false) := by simp
  rw [legRequests, List.mem_cons, or_iff_right hprogram, List.mem_map]
  constructor
  · rintro ⟨⟨k, place⟩, hplace, hrequest⟩
    obtain ⟨rfl, hflag⟩ := Prod.mk.inj hrequest
    simp only at hflag
    cases hinfo : read k with
    | error e => simp [hinfo] at hflag
    | ok info =>
      simp only [hinfo, cpiWritable, Bool.and_eq_true, decide_eq_true_eq] at hflag
      exact ⟨place, info, List.mk_mem_zipIdx_iff_getElem?.mp hplace, hinfo, hflag⟩
  · rintro ⟨place, info, hplace, hinfo, hflag⟩
    refine ⟨(key, place), List.mk_mem_zipIdx_iff_getElem?.mpr hplace, ?_⟩
    simp [accountRequest, hinfo, cpiWritable, hflag.1, hflag.2]

theorem mem_requests {read : Key → Answer AccountView} {ordered : List TokenAsset} {key : Key} :
    (key, true) ∈ requests read spec ordered ↔
      (∃ a ∈ ordered, key = a.token) ∨ ∃ leg ∈ spec.legs, Written read leg key := by
  simp only [requests, List.mem_append, List.mem_flatMap, mem_assetRequests, mem_legRequests]

/-- The content of the payload. -/
def content (spec : SwapGraph) (routing : Routing) (assets : List WireAsset) (legs : List WireLeg) :
    Wire where
  opcode := routing.opcode
  calls := routing.calls
  sequence := spec.sequence
  input := spec.inputAtoms
  minOut := spec.minimumOutputAtoms
  deadline := spec.deadlineSlot
  assets
  seed := routing.seed
  legs

/-- What is written is the content with its account list. -/
theorem write_eq_ok {read : Key → Answer AccountView} {program : Key} {routing : Routing}
    {ids : Identities} {ordered : List TokenAsset} {out : Output} (howner : spec.owner ≠ nonce)
    (h : spec.write read program nonce routing ids ordered = .ok out) :
    ∃ assets legs, List.Forall₂ (AssetAt (keys out.1)) assets ordered ∧
      List.Forall₂ (LegAt ordered (keys out.1)) legs spec.legs ∧
      Listed spec nonce ids.readonly (spec.requests read ordered) out.1 ∧
      out.2 = (spec.content routing assets legs).encode := by
  obtain ⟨middle, hassets, hlegs⟩ := bind_eq_ok.mp h
  have hstart := @listed_start spec nonce ids.readonly howner
  obtain ⟨was, hwas, hwrote⟩ := Wrote.foldlM (fun _ _ _ _ hgrow hat => hat.mono hgrow)
    (fun _ _ _ _ h hwrite => h.writeAsset hwrite) hstart hassets
  have hseeded : Listed spec nonce ids.readonly (ordered.flatMap assetRequests)
      (middle.1, middle.2 ++ (routing.seed.map (Buffer.toBytes 8)).getD []).1 := hwrote.listed
  have hmono : ∀ k k' w leg, k <+: k' → LegAt ordered k w leg → LegAt ordered k' w leg :=
    fun _ _ _ _ hgrow hat => hat.mono hgrow
  obtain ⟨wls, hwls, hmore⟩ := Wrote.foldlM hmono
    (fun _ _ _ _ h hwrite => h.writeLeg hwrite) hseeded hlegs
  refine ⟨was, wls, hwas.imp fun _ _ hat => hat.mono hmore.grows, hwls, hmore.listed, ?_⟩
  rw [hmore.data, hwrote.data, header, Wire.encode]
  simp only [content, hwas.length_eq, hwls.length_eq, List.append_assoc]

/-! ## What the checks establish -/

/-- The keys that assets take, beyond those taken before. -/
structure Taken (ids ids' : Identities) (as : List TokenAsset) : Prop where
  tokens : ∀ k, k ∈ ids'.tokens ↔ k ∈ ids.tokens ∨ ∃ a ∈ as, a.token = k
  readonly : ∀ k, k ∈ ids'.readonly ↔ k ∈ ids.readonly ∨ ∃ a ∈ as, a.mint = k ∨ a.tokenProgram = k
  fresh : ∀ a ∈ as, a.token ∉ ids.tokens
  distinct : (as.map TokenAsset.token).Nodup

theorem foldlM_checkAsset {read : Key → Answer AccountView} {ids ids' : Identities}
    {as : List TokenAsset} (h : as.foldlM (spec.checkAsset read) ids = .ok ids') :
    Taken ids ids' as := by
  induction as generalizing ids with
  | nil =>
    cases h
    exact ⟨by simp, by simp, fun a ha => absurd ha List.not_mem_nil, .nil⟩
  | cons a as ih =>
    rw [List.foldlM_cons] at h
    obtain ⟨middle, hcheck, hrest⟩ := bind_eq_ok.mp h
    obtain ⟨_, hidentity, hcheck⟩ := bind_eq_ok.mp hcheck
    obtain ⟨t, -, hcheck⟩ := bind_eq_ok.mp hcheck
    obtain ⟨m, -, hcheck⟩ := bind_eq_ok.mp hcheck
    obtain ⟨p, -, hcheck⟩ := bind_eq_ok.mp hcheck
    obtain ⟨_, -, hcheck⟩ := bind_eq_ok.mp hcheck
    cases hcheck
    rw [refuse_eq_ok, not_not] at hidentity
    obtain ⟨htokens, hreadonly, hfresh, hdistinct⟩ := ih hrest
    refine ⟨fun k => ?_, fun k => ?_, ?_, ?_⟩
    · rw [htokens]
      simp [or_assoc, or_left_comm, eq_comm]
    · rw [hreadonly, List.mem_cons, List.mem_cons, List.exists_mem_cons_iff]
      constructor
      · rintro ((rfl | rfl | h) | h)
        · exact .inr (.inl (.inr rfl))
        · exact .inr (.inl (.inl rfl))
        · exact .inl h
        · exact .inr (.inr h)
      · rintro (h | (rfl | rfl) | h)
        · exact .inl (.inr (.inr h))
        · exact .inl (.inr (.inl rfl))
        · exact .inl (.inl rfl)
        · exact .inr h
    · refine List.forall_mem_cons.mpr ⟨hidentity.1, fun b hb hmem => ?_⟩
      exact hfresh b hb (List.mem_cons_of_mem _ hmem)
    · rw [List.map_cons, List.nodup_cons]
      refine ⟨fun hmem => ?_, hdistinct⟩
      obtain ⟨b, hb, hsame⟩ := List.mem_map.mp hmem
      exact hfresh b hb (hsame ▸ List.mem_cons_self)

/-- The accounts of an asset in the bank. -/
theorem assetBound_of_check {read : Key → Answer AccountView} {ids ids' : Identities}
    {as : List TokenAsset} (h : as.foldlM (spec.checkAsset read) ids = .ok ids') {a : TokenAsset}
    (ha : a ∈ as) : ∃ t m p, read a.token = .ok t ∧ spec.AssetBound a t m p := by
  obtain ⟨_, _, hcheck⟩ := foldlM_step_ok h ha
  obtain ⟨_, -, hcheck⟩ := bind_eq_ok.mp hcheck
  obtain ⟨t, ht, hcheck⟩ := bind_eq_ok.mp hcheck
  obtain ⟨m, -, hcheck⟩ := bind_eq_ok.mp hcheck
  obtain ⟨p, -, hcheck⟩ := bind_eq_ok.mp hcheck
  obtain ⟨_, hbound, -⟩ := bind_eq_ok.mp hcheck
  rw [refuse_eq_ok, not_not] at hbound
  exact ⟨t, m, p, ht, hbound⟩

/-- The loop orders some of the intermediate assets behind those before it. -/
theorem topological_eq_ok {k : ℕ} {ordered out : List TokenAsset}
    (h : spec.topological k ordered = .ok out) :
    ∃ more, out = ordered ++ more ∧ more.length = k ∧ more.Nodup ∧
      ∀ a ∈ more, a ∈ spec.assets ∧ a.token ≠ spec.output.token ∧ a ∉ ordered := by
  induction k generalizing ordered with
  | zero =>
    cases h
    exact ⟨[], by simp⟩
  | succ k ih =>
    obtain ⟨next, hnext, h⟩ := bind_eq_ok.mp h
    rw [present_eq_ok] at hnext
    have hmem := List.mem_of_find?_eq_some hnext
    have hready : spec.Ready ordered next := by simpa using List.find?_some hnext
    obtain ⟨more, rfl, hlength, hnodup, hmore⟩ := ih h
    refine ⟨next :: more, by simp, by simp [hlength], ?_, ?_⟩
    · exact List.nodup_cons.mpr ⟨fun hin => (hmore next hin).2.2 (by simp), hnodup⟩
    · refine List.forall_mem_cons.mpr ⟨⟨hmem, hready.1, hready.2.1⟩, fun a ha => ?_⟩
      obtain ⟨hassets, houtput, hnot⟩ := hmore a ha
      exact ⟨hassets, houtput, fun hin => hnot (List.mem_append_left _ hin)⟩

/-- The order is one of all assets, from the input to the output. -/
theorem perm_of_topological {middle : List TokenAsset}
    (h : spec.topological spec.intermediates.length [spec.input] = .ok middle) :
    ∃ inner, middle = spec.input :: inner ∧ inner.Perm spec.intermediates := by
  obtain ⟨more, rfl, hlength, hnodup, hmore⟩ := topological_eq_ok h
  refine ⟨more, rfl, ?_⟩
  have hsub : more ⊆ spec.intermediates := by
    intro a ha
    obtain ⟨hassets, houtput, hinput⟩ := hmore a ha
    rcases List.mem_cons.mp hassets with rfl | hassets
    · exact absurd (List.mem_singleton_self _) hinput
    rcases List.mem_append.mp hassets with hassets | hassets
    · exact hassets
    · exact absurd (List.mem_singleton.mp hassets ▸ rfl) houtput
  exact (hnodup.subperm hsub).perm_of_length_le hlength.ge

end SwapGraph

end StockMesh.Host

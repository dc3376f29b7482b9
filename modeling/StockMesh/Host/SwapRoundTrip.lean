import StockMesh.Host.SwapAccounts

/-! # The round trip of a swap graph

`Graph.decode` accepts the payload of a compiled graph with its account list and gives the specification
back (`swap_round_trip`): each index resolves to the key that the specification names, and the flags of
the account list are the ones that its places ask for. -/

namespace StockMesh.Host

open Journal (refuse_eq_ok)
open Settle (AccountMeta Instruction tokenId token2022Id venueProgram nonceTag)

namespace SwapGraph

variable {spec : SwapGraph} {nonce program : Key} {routing : Routing}
  {read : Key → Answer AccountView}

/-! ## The checks -/

/-- What `compileGraph` establishes before it answers. -/
structure Compiled (read : Key → Answer AccountView) (program nonce : Key) (spec : SwapGraph)
    (routing : Routing) (ids : Identities) (inner : List TokenAsset) (spending : Spending)
    (out : Output) (g : Graph out.1.length) : Prop where
  bounds : spec.InBounds program routing
  bank : ∃ n, read nonce = .ok n ∧ spec.NonceBound program n
  identities : spec.assets.foldlM (spec.checkAsset read) ⟨[], [], [program, instructionsId]⟩ = .ok ids
  apart : spec.Apart nonce ids
  order : spec.topological spec.intermediates.length [spec.input] = .ok (spec.input :: inner)
  reordered : inner.Perm spec.intermediates
  legs : spec.legs.zipIdx.foldlM
    (spec.checkLeg routing (spec.input :: inner ++ [spec.output])) ⟨0, false⟩ = .ok spending
  conserves : spec.Conserves routing spending
  used : ∀ a ∈ inner ++ [spec.output], spec.checkUse routing a = .ok ()
  written : spec.write read program nonce routing ids (spec.input :: inner ++ [spec.output]) = .ok out
  decoded : Graph.decode (.ofList out.2) out.1.length = .ok g

end SwapGraph

open SwapGraph

theorem decodeOutput_eq_ok {out : SwapGraph.Output} {g : Graph out.1.length}
    (h : decodeOutput out = .ok g) : Graph.decode (.ofList out.2) out.1.length = .ok g := by
  unfold decodeOutput at h
  cases hdecode : Graph.decode (.ofList out.2) out.1.length with
  | ok g' =>
    rw [hdecode] at h
    rw [Except.ok.inj h]
  | error e =>
    rw [hdecode] at h
    cases h

/-- The nonce account of the owner. -/
def nonceOf (find : List (List UInt8) → Key → Key) (program owner : Key) : Key :=
  find [("stocklana".toUTF8).toList, owner.toList] program

theorem compileGraph_eq_ok {find : List (List UInt8) → Key → Key} {program : Key} {spec : SwapGraph}
    {routing : Routing} {readBank : Key → Answer AccountView} {ix : Instruction}
    (h : compileGraph find program spec routing readBank = .ok ix) :
    ∃ ids inner spending out g, SwapGraph.Compiled (withInstructions readBank) program
      (nonceOf find program spec.owner) spec routing ids inner spending out g ∧
      ix = { programId := program, accounts := out.1, data := out.2 } := by
  obtain ⟨_, hbounds, h⟩ := bind_eq_ok.mp h
  obtain ⟨n, hread, h⟩ := bind_eq_ok.mp h
  obtain ⟨_, hnonce, h⟩ := bind_eq_ok.mp h
  obtain ⟨ids, hids, h⟩ := bind_eq_ok.mp h
  obtain ⟨_, hapart, h⟩ := bind_eq_ok.mp h
  obtain ⟨middle, horder, h⟩ := bind_eq_ok.mp h
  obtain ⟨spending, hlegs, h⟩ := bind_eq_ok.mp h
  obtain ⟨_, hconserves, h⟩ := bind_eq_ok.mp h
  obtain ⟨_, hused, h⟩ := bind_eq_ok.mp h
  obtain ⟨out, hwrite, h⟩ := bind_eq_ok.mp h
  obtain ⟨g, hdecode, h⟩ := bind_eq_ok.mp h
  obtain ⟨_, -, h⟩ := bind_eq_ok.mp h
  cases h
  rw [refuse_eq_ok, not_not] at hbounds hnonce hapart hconserves
  obtain ⟨inner, rfl, hinner⟩ := perm_of_topological horder
  exact ⟨ids, inner, spending, out, g, {
    bounds := hbounds
    bank := ⟨n, hread, hnonce⟩
    identities := hids
    apart := hapart
    order := horder
    reordered := hinner
    legs := hlegs
    conserves := hconserves
    used := forM_eq_ok.mp hused
    written := hwrite
    decoded := decodeOutput_eq_ok hdecode }, rfl⟩

namespace SwapGraph.Compiled

variable {spec : SwapGraph} {nonce program : Key} {routing : Routing}
  {read : Key → Answer AccountView} {ids : Identities} {inner : List TokenAsset}
  {spending : Spending} {out : Output} {g : Graph out.1.length}

/-- The owner signs at a place of some leg, where the nonce is refused. -/
theorem owner_ne_nonce (h : Compiled read program nonce spec routing ids inner spending out g) :
    spec.owner ≠ nonce := by
  obtain ⟨leg, hleg⟩ := List.exists_mem_of_length_pos (Nat.lt_of_succ_le h.bounds.2.2.2.2.2.2.2.1.1)
  obtain ⟨middle, -, hwrite⟩ := bind_eq_ok.mp h.written
  obtain ⟨_, _, hwrite⟩ := foldlM_step_ok hwrite hleg
  obtain ⟨_, hbind, hwrite⟩ := bind_eq_ok.mp hwrite
  obtain ⟨_, -, hwrite⟩ := bind_eq_ok.mp hwrite
  obtain ⟨_, -, hwrite⟩ := bind_eq_ok.mp hwrite
  obtain ⟨_, -, hwrite⟩ := bind_eq_ok.mp hwrite
  obtain ⟨_, -, hbind⟩ := bind_eq_ok.mp hbind
  obtain ⟨_, -, hbind⟩ := bind_eq_ok.mp hbind
  obtain ⟨_, -, hbind⟩ := bind_eq_ok.mp hbind
  obtain ⟨_, -, hbind⟩ := bind_eq_ok.mp hbind
  obtain ⟨_, hbound, -⟩ := bind_eq_ok.mp hbind
  rw [refuse_eq_ok, not_not] at hbound
  have hplace : (spec.owner, (leg.venue.bindings leg.direction).signer) ∈ leg.accounts.zipIdx :=
    List.mk_mem_zipIdx_iff_getElem?.mpr hbound.1
  obtain ⟨_, _, haccount⟩ := foldlM_step_ok hwrite hplace
  obtain ⟨_, halias, -⟩ := bind_eq_ok.mp haccount
  rw [refuse_eq_ok, not_not] at halias
  exact halias.1

/-- A budget fits, and an amount is no `u64::MAX`. -/
theorem exact_le (h : Compiled read program nonce spec routing ids inner spending out g) {leg : SwapLeg}
    (hleg : leg ∈ spec.legs) {amount : ℕ} (hamount : leg.budget = .exact amount) :
    amount ≤ maxInput := by
  obtain ⟨i, hi⟩ := List.mem_iff_getElem?.mp hleg
  obtain ⟨_, _, hcheck⟩ := foldlM_step_ok h.legs (List.mk_mem_zipIdx_iff_getElem?.mpr hi)
  obtain ⟨source, -, hcheck⟩ := bind_eq_ok.mp hcheck
  obtain ⟨_, -, hcheck⟩ := bind_eq_ok.mp hcheck
  obtain ⟨_, -, hcheck⟩ := bind_eq_ok.mp hcheck
  split at hcheck
  · obtain ⟨_, hcandidate, -⟩ := bind_eq_ok.mp hcheck
    rw [checkCandidate, hamount] at hcandidate
    simp only [refuse_eq_ok, not_not] at hcandidate
    exact hcandidate.2
  · obtain ⟨_, -, hcheck⟩ := bind_eq_ok.mp hcheck
    obtain ⟨_, -, hcheck⟩ := bind_eq_ok.mp hcheck
    rw [spendBudget, hamount] at hcheck
    obtain ⟨_, hexact, -⟩ := bind_eq_ok.mp hcheck
    rw [refuse_eq_ok, not_not] at hexact
    exact hexact.2

theorem budget_lt (h : Compiled read program nonce spec routing ids inner spending out g) {leg : SwapLeg}
    (hleg : leg ∈ spec.legs) : budgetAtoms leg.budget < u64Size := by
  cases hbudget : leg.budget with
  | exact amount => exact (h.exact_le hleg hbudget).trans_lt (by decide)
  | remaining =>
    show u64Size - 1 < u64Size
    decide

/-- Legs are few. -/
theorem legs_le (h : Compiled read program nonce spec routing ids inner spending out g) :
    spec.legs.length ≤ maxCandidates := by
  refine h.bounds.2.2.2.2.2.2.2.1.2.trans ?_
  split <;> decide

/-- The content of the payload fits its places. -/
theorem content_fits (h : Compiled read program nonce spec routing ids inner spending out g)
    {keys : List Key} {was : List WireAsset} {wls : List WireLeg}
    (hwas : List.Forall₂ (AssetAt keys) was (spec.input :: inner ++ [spec.output]))
    (hwls : List.Forall₂ (LegAt (spec.input :: inner ++ [spec.output]) keys) wls spec.legs) :
    (spec.content routing was wls).Fits where
  sequence := by
    obtain ⟨n, -, hnonce⟩ := h.bank
    exact Buffer.number_lt hnonce.2.2.2.2.2
  input := h.bounds.2.2.2.2.2.2.1.2.trans_lt (by decide)
  minOut := spec.minimum_lt
  deadline := spec.deadline_lt
  assets := by
    have hassets : spec.intermediates.length + 2 ≤ 5 := h.bounds.2.2.2.2.2.2.2.2
    have hinner := h.reordered.length_eq
    show was.length < 256
    rw [hwas.length_eq]
    simp only [List.length_append, List.length_cons, List.length_nil]
    omega
  seed := by
    intro s hs
    cases routing with
    | fixed => cases hs
    | economic calls => cases hs
    | reflow calls seed =>
      obtain ⟨n, -, rfl⟩ := Option.map_eq_some_iff.mp hs
      exact n.toNat_lt
  seeded := by
    cases routing with
    | fixed => simp [content, Routing.seed, Routing.opcode]
    | economic calls => simp [content, Routing.seed, Routing.opcode]
    | reflow calls seed => cases seed <;> simp [content, Routing.seed, Routing.opcode]
  legs := by
    have hlegs : spec.legs.length ≤ 8 := h.legs_le
    show wls.length < 256
    rw [hwls.length_eq]
    omega
  leg := by
    intro w hw
    obtain ⟨leg, hleg, hat⟩ := exists_of_forall₂ hwls hw
    refine ⟨hat.budget ▸ h.budget_lt hleg, ?_⟩
    rw [hat.accounts.length_eq]
    refine hat.count.trans_lt ?_
    cases leg.venue <;> decide

/-- The decoded graph is the content that was written. -/
theorem wire_eq (h : Compiled read program nonce spec routing ids inner spending out g) :
    ∃ was wls,
      List.Forall₂ (AssetAt (keys out.1)) was (spec.input :: inner ++ [spec.output]) ∧
      List.Forall₂ (LegAt (spec.input :: inner ++ [spec.output]) (keys out.1)) wls spec.legs ∧
      g.wire = spec.content routing was wls := by
  obtain ⟨was, wls, hwas, hwls, -, hdata⟩ := write_eq_ok h.owner_ne_nonce h.written
  refine ⟨was, wls, hwas, hwls, ?_⟩
  apply Graph.wire_of_decode (h.content_fits hwas hwls)
  rw [← hdata]
  exact h.decoded

end SwapGraph.Compiled

/-! ## What is recovered -/

/-- The asset that indices stand for. -/
def resolveAsset (metas : List AccountMeta) (a : Asset metas.length) : TokenAsset where
  token := metas[a.token].key
  mint := metas[a.mint].key
  tokenProgram := metas[a.program].key

/-- The leg that indices stand for. -/
def resolveLeg (metas : List AccountMeta) (g : Graph metas.length) (l : Leg metas.length g.assetCount) :
    SwapLeg where
  venue := l.venue
  direction := l.direction
  source := metas[(g.assets l.source).token].key
  destination := metas[(g.assets l.destination).token].key
  budget := if l.budget = u64Size - 1 then .remaining else .exact l.budget
  accounts := l.accounts.map fun i => metas[i].key

/-- The key of an account of a list. -/
def keyOf (metas : List AccountMeta) (i : Fin metas.length) : Key := metas[i].key

/-- The index of an account is its place. -/
theorem key_of_at {metas : List AccountMeta} (hsize : metas.length ≤ maxAccounts)
    {i : Fin metas.length} {key : Key} (h : At (keys metas) (.ofNat i) key) : metas[i].key = key := by
  have hmax : maxAccounts = 64 := rfl
  have hi := i.isLt
  rw [At, UInt8.toNat_ofNat_of_lt' (by show (i : ℕ) < 256; omega), keys, List.getElem?_map,
    List.getElem?_eq_getElem hi, Option.map_some, Option.some.injEq] at h
  exact h

theorem resolveAsset_of_at {metas : List AccountMeta} (hsize : metas.length ≤ maxAccounts)
    {a : Asset metas.length} {asset : TokenAsset} (h : AssetAt (keys metas) a.wire asset) :
    resolveAsset metas a = asset := by
  cases asset
  simp only [resolveAsset, TokenAsset.mk.injEq]
  exact ⟨key_of_at hsize h.token, key_of_at hsize h.mint, key_of_at hsize h.program⟩

/-- The place of a token is the place of an asset with it. -/
theorem token_of_position {ordered : List TokenAsset} {token : Key} {i : ℕ}
    (h : position ordered token = some i) : ∃ a, ordered[i]? = some a ∧ a.token = token := by
  obtain ⟨hi, htoken, -⟩ := List.findIdx?_eq_some_iff_getElem.mp h
  exact ⟨ordered[i], List.getElem?_eq_getElem hi, of_decide_eq_true htoken⟩

/-- A place that is written as a byte resolves to the token at it. -/
theorem token_of_place {metas : List AccountMeta} {g : Graph metas.length} {ordered : List TokenAsset}
    (hassets : (List.ofFn g.assets).map (resolveAsset metas) = ordered) (hfew : ordered.length < 256)
    {place : Fin g.assetCount} {token : Key}
    (h : ∃ i, position ordered token = some i ∧ UInt8.ofNat place = .ofNat i) :
    metas[(g.assets place).token].key = token := by
  obtain ⟨i, hposition, hsame⟩ := h
  obtain ⟨a, ha, rfl⟩ := token_of_position hposition
  have hcount : g.assetCount = ordered.length := by
    rw [← hassets, List.length_map, List.length_ofFn]
  have hi := (List.getElem?_eq_some_iff.mp ha).1
  have hplace : (place : ℕ) = i := ofNat_inj (by have := place.isLt; omega) (by omega) hsame
  subst hplace
  rw [← hassets, List.getElem?_map, List.getElem?_ofFn, dif_pos place.isLt, Option.map_some,
    Option.some.injEq] at ha
  rw [← ha]
  rfl

/-- What the instruction of a graph and its decoded payload say. -/
structure Recovers (read : Key → Answer AccountView) (program nonce : Key) (spec : SwapGraph)
    (routing : Routing) (ordered : List TokenAsset) (metas : List AccountMeta)
    (g : Graph metas.length) : Prop where
  sequence : g.sequence = spec.sequence
  input : g.input = spec.inputAtoms
  minOut : g.minOut = spec.minimumOutputAtoms
  deadline : g.deadline = spec.deadlineSlot
  fixed : g.reflowCalls = 0 ↔ routing = .fixed
  calls : g.reflowCalls = routing.calls.toNat
  seed : (if g.seedInput = 0 then none else some g.seedInput) = routing.seed
  assets : (List.ofFn g.assets).map (resolveAsset metas) = ordered
  legs : g.legs.map (resolveLeg metas g) = spec.legs
  budgets : g.legs.map Leg.budget = spec.legs.map fun leg => budgetAtoms leg.budget
  programs : ∀ l ∈ g.legs, metas[l.program].key = venueProgram l.venue
  nodup : (keys metas).Nodup
  signer : ∀ m ∈ metas, m.isSigner = true ↔ m.key = spec.owner
  writable : ∀ m ∈ metas, m.isWritable = true ↔ m.key = nonce ∨ (∃ a ∈ ordered, m.key = a.token) ∨
    ∃ leg ∈ spec.legs, Written read leg m.key
  readonly : ∀ m ∈ metas, (m.key = program ∨ m.key = instructionsId ∨
    ∃ a ∈ ordered, m.key = a.mint ∨ m.key = a.tokenProgram) → m.isWritable = false
  executable : ∀ m ∈ metas, m.isWritable = true → ∃ info, read m.key = .ok info ∧
    info.executable = false

namespace SwapGraph.Compiled

variable {spec : SwapGraph} {nonce program : Key} {routing : Routing}
  {read : Key → Answer AccountView} {ids : Identities} {inner : List TokenAsset}
  {spending : Spending} {out : Output} {g : Graph out.1.length}

/-- A leg that is written at its places resolves to itself. -/
theorem resolveLeg_of_at (h : Compiled read program nonce spec routing ids inner spending out g)
    (hassets : (List.ofFn g.assets).map (resolveAsset out.1) = spec.input :: inner ++ [spec.output])
    (hfew : (spec.input :: inner ++ [spec.output]).length < 256) {l : Leg out.1.length g.assetCount}
    {leg : SwapLeg} (hleg : leg ∈ spec.legs)
    (hat : LegAt (spec.input :: inner ++ [spec.output]) (keys out.1) l.wire leg) :
    resolveLeg out.1 g l = leg := by
  have hbudget : (if l.budget = u64Size - 1 then Budget.remaining else .exact l.budget) = leg.budget := by
    have hsame : l.budget = budgetAtoms leg.budget := hat.budget
    cases hspec : leg.budget with
    | remaining =>
      rw [hspec] at hsame
      exact if_pos hsame
    | exact amount =>
      rw [hspec] at hsame
      have hle := h.exact_le hleg hspec
      have hne : amount ≠ u64Size - 1 := (hle.trans_lt (by decide)).ne
      rw [hsame]
      exact if_neg hne
  have haccounts : (l.accounts.map fun i => out.1[i].key) = leg.accounts := by
    have hresolved := (List.forall₂_map_left_iff.mp hat.accounts).imp
      fun i key => @key_of_at _ g.accounts_le i key
    rw [← List.forall₂_eq_eq_eq, List.forall₂_map_left_iff]
    exact hresolved
  have hsource := token_of_place hassets hfew hat.source
  have hdestination := token_of_place hassets hfew hat.destination
  have hvenue : l.venue = leg.venue := hat.venue
  have hdirection : l.direction = leg.direction := hat.direction
  cases leg
  simp only [resolveLeg, SwapLeg.mk.injEq]
  exact ⟨hvenue, hdirection, hsource, hdestination, hbudget, haccounts⟩

/-! ## The flags -/

/-- The order is of all assets. -/
theorem mem_ordered (h : Compiled read program nonce spec routing ids inner spending out g)
    {a : TokenAsset} : a ∈ spec.input :: inner ++ [spec.output] ↔ a ∈ spec.assets := by
  simp [assets, h.reordered.mem_iff]

theorem listed (h : Compiled read program nonce spec routing ids inner spending out g) :
    Listed spec nonce ids.readonly (requests read spec (spec.input :: inner ++ [spec.output])) out.1 := by
  obtain ⟨_, _, -, -, hlisted, -⟩ := write_eq_ok h.owner_ne_nonce h.written
  exact hlisted

theorem writable_iff (h : Compiled read program nonce spec routing ids inner spending out g)
    {m : AccountMeta} (hm : m ∈ out.1) :
    m.isWritable = true ↔ m.key = nonce ∨ (∃ a ∈ spec.input :: inner ++ [spec.output], m.key = a.token) ∨
      ∃ leg ∈ spec.legs, Written read leg m.key := by
  rw [h.listed.writable m hm, mem_requests]

theorem mem_readonly (h : Compiled read program nonce spec routing ids inner spending out g) {key : Key}
    (hkey : key = program ∨ key = instructionsId ∨
      ∃ a ∈ spec.input :: inner ++ [spec.output], key = a.mint ∨ key = a.tokenProgram) :
    key ∈ ids.readonly := by
  rw [(foldlM_checkAsset h.identities).readonly]
  rcases hkey with rfl | rfl | ⟨a, ha, hkey⟩
  · simp
  · simp
  · exact .inr ⟨a, h.mem_ordered.mp ha, hkey.imp Eq.symm Eq.symm⟩

/-- A read-only identity is not writable. -/
theorem not_writable (h : Compiled read program nonce spec routing ids inner spending out g)
    {m : AccountMeta} (hm : m ∈ out.1) (hkey : m.key ∈ ids.readonly) : m.isWritable = false := by
  rw [Bool.eq_false_iff]
  intro hwritable
  rcases (h.listed.writable m hm).mp hwritable with hnonce | hrequest
  · exact h.apart.2.2.2.2 (hnonce ▸ hkey)
  · exact h.listed.guarded _ hrequest rfl hkey

/-- The account that a leg writes to is not executable. -/
theorem not_executable_of_written
    (h : Compiled read program nonce spec routing ids inner spending out g) {leg : SwapLeg}
    (hleg : leg ∈ spec.legs) {key : Key} (hkey : Written read leg key) :
    ∃ info, read key = .ok info ∧ info.executable = false := by
  obtain ⟨place, info, hplace, hinfo, hne, hflag⟩ := hkey
  obtain ⟨middle, -, hwrite⟩ := bind_eq_ok.mp h.written
  obtain ⟨_, _, hwrite⟩ := foldlM_step_ok hwrite hleg
  obtain ⟨_, -, hwrite⟩ := bind_eq_ok.mp hwrite
  obtain ⟨_, -, hwrite⟩ := bind_eq_ok.mp hwrite
  obtain ⟨_, -, hwrite⟩ := bind_eq_ok.mp hwrite
  obtain ⟨_, -, hwrite⟩ := bind_eq_ok.mp hwrite
  obtain ⟨_, _, haccount⟩ := foldlM_step_ok hwrite (List.mk_mem_zipIdx_iff_getElem?.mpr hplace)
  obtain ⟨_, -, haccount⟩ := bind_eq_ok.mp haccount
  obtain ⟨info', hinfo', haccount⟩ := bind_eq_ok.mp haccount
  obtain ⟨_, hexecutable, -⟩ := bind_eq_ok.mp haccount
  obtain rfl := Except.ok.inj (hinfo.symm.trans hinfo')
  rw [refuse_eq_ok, not_and] at hexecutable
  have hwritable : cpiWritable leg key place info = true := by
    simp only [cpiWritable, Bool.and_eq_true, decide_eq_true_eq]
    exact ⟨hne, hflag⟩
  exact ⟨info, hinfo, Bool.eq_false_iff.mpr (hexecutable hwritable)⟩

theorem not_executable (h : Compiled read program nonce spec routing ids inner spending out g)
    {m : AccountMeta} (hm : m ∈ out.1) (hwritable : m.isWritable = true) :
    ∃ info, read m.key = .ok info ∧ info.executable = false := by
  rcases (h.writable_iff hm).mp hwritable with hnonce | ⟨a, ha, htoken⟩ | ⟨leg, hleg, hwritten⟩
  · obtain ⟨n, hread, hbound⟩ := h.bank
    exact ⟨n, hnonce ▸ hread, hbound.2.1⟩
  · obtain ⟨t, _, _, hread, hbound⟩ := assetBound_of_check h.identities (h.mem_ordered.mp ha)
    exact ⟨t, htoken ▸ hread, hbound.2.2.1⟩
  · exact h.not_executable_of_written hleg hwritten

/-! ## The round trip -/

/-- The decoded payload says what the specification says. -/
theorem recovers (h : Compiled read program nonce spec routing ids inner spending out g) :
    Recovers read program nonce spec routing (spec.input :: inner ++ [spec.output]) out.1 g := by
  obtain ⟨was, wls, hwas, hwls, hwire⟩ := h.wire_eq
  have hgraph := Graph.decode_eq_ok h.decoded
  have hcalls : UInt8.ofNat g.reflowCalls = routing.calls := congrArg Wire.calls hwire
  have hcallsLt : g.reflowCalls < 256 := hgraph.reflowCalls ▸ UInt8.toNat_lt _
  have hreflowCalls : g.reflowCalls = routing.calls.toNat := by
    rw [← hcalls, UInt8.toNat_ofNat_of_lt' hcallsLt]
  have hwireAssets : List.ofFn (fun i => (g.assets i).wire) = was := congrArg Wire.assets hwire
  have hassetsAt : List.Forall₂ (fun a asset => AssetAt (keys out.1) (Asset.wire a) asset)
      (List.ofFn g.assets) (spec.input :: inner ++ [spec.output]) := by
    rw [← List.forall₂_map_left_iff, List.map_ofFn]
    exact hwireAssets ▸ hwas
  have hassets : (List.ofFn g.assets).map (resolveAsset out.1) = spec.input :: inner ++ [spec.output] := by
    rw [← List.forall₂_eq_eq_eq, List.forall₂_map_left_iff]
    exact hassetsAt.imp fun _ _ hat => resolveAsset_of_at g.accounts_le hat
  have hfew : (spec.input :: inner ++ [spec.output]).length < 256 := by
    rw [← hwas.length_eq]
    exact (h.content_fits hwas hwls).assets
  have hwireLegs : g.legs.map Leg.wire = wls := congrArg Wire.legs hwire
  have hlegsAt : List.Forall₂ (fun l leg => LegAt (spec.input :: inner ++ [spec.output]) (keys out.1)
      (Leg.wire l) leg) g.legs spec.legs := by
    rw [← List.forall₂_map_left_iff]
    exact hwireLegs ▸ hwls
  exact {
    sequence := congrArg Wire.sequence hwire
    input := congrArg Wire.input hwire
    minOut := congrArg Wire.minOut hwire
    deadline := congrArg Wire.deadline hwire
    fixed := by
      have hspec : g.wire.opcode = routing.opcode := congrArg Wire.opcode hwire
      constructor
      · intro hzero
        have hfixed : routing.opcode = 2 := by
          rw [← hspec]
          exact if_pos hzero
        cases routing with
        | fixed => rfl
        | economic calls => simp [Routing.opcode] at hfixed
        | reflow calls seed => cases seed <;> simp [Routing.opcode] at hfixed
      · rintro rfl
        exact hreflowCalls
    calls := hreflowCalls
    seed := congrArg Wire.seed hwire
    assets := hassets
    legs := by
      rw [← List.forall₂_eq_eq_eq, List.forall₂_map_left_iff]
      exact (forall₂_and_mem hlegsAt).imp fun _ _ hat => h.resolveLeg_of_at hassets hfew hat.1 hat.2
    budgets := by
      rw [← List.forall₂_eq_eq_eq, List.forall₂_map_left_iff, List.forall₂_map_right_iff]
      exact hlegsAt.imp fun _ _ hat => hat.budget
    programs := by
      intro l hl
      obtain ⟨leg, -, hat⟩ := exists_of_forall₂ hlegsAt hl
      have hvenue : l.venue = leg.venue := hat.venue
      rw [hvenue]
      exact key_of_at g.accounts_le hat.program
    nodup := h.listed.nodup
    signer := h.listed.signer
    writable := fun m hm => h.writable_iff hm
    readonly := fun m hm hkey => h.not_writable hm (h.mem_readonly hkey)
    executable := fun m hm hwritable => h.not_executable hm hwritable }

end SwapGraph.Compiled

/-- What is compiled is decoded as the specification says, and only the text of a graph is decoded. -/
theorem swap_round_trip :
    (∀ find program spec routing readBank ix,
      compileGraph find program spec routing readBank = .ok ix →
      ∃ inner g, inner.Perm spec.intermediates ∧
        spec.topological spec.intermediates.length [spec.input] = .ok (spec.input :: inner) ∧
        ix.programId = program ∧ Graph.decode (.ofList ix.data) ix.accounts.length = .ok g ∧
        Recovers (withInstructions readBank) program (nonceOf find program spec.owner) spec routing
          (spec.input :: inner ++ [spec.output]) ix.accounts g) ∧
    ∀ (bytes : List UInt8) n (g : Graph n), Graph.decode (.ofList bytes) n = .ok g →
      g.wire.encode = bytes := by
  refine ⟨fun find program spec routing readBank ix h => ?_, fun bytes n g h => Graph.encode_of_decode h⟩
  obtain ⟨ids, inner, spending, out, g, hcompiled, rfl⟩ := compileGraph_eq_ok h
  exact ⟨inner, g, hcompiled.reordered, hcompiled.order, rfl, hcompiled.decoded, hcompiled.recovers⟩

/-! ## A swap over two pools -/

namespace TwoPools

/-- A token account of the owner. -/
def tokenAccount (mint owner : Key) : AccountView where
  owner := tokenId
  executable := false
  data := ⟨165, fun i =>
    if i < 32 then mint.toList.getD i 0
    else if i < 64 then owner.toList.getD (i - 32) 0
    else if i = 108 then 1 else 0⟩

/-- A mint. -/
def mintAccount : AccountView := ⟨tokenId, false, ⟨82, fun i => if i = 45 then 1 else 0⟩⟩

/-- An executable program. -/
def programAccount : AccountView := ⟨.ofNat 0, true, .ofList []⟩

/-- The nonce account of an owner at a sequence. -/
def nonceAccount (program owner : Key) (sequence : ℕ) : AccountView where
  owner := program
  executable := false
  data := .ofList (nonceTag ++ owner.toList ++ Buffer.toBytes 8 sequence ++ .replicate 16 0)

def owner : Key := .ofNat 1

def nonce : Key := .ofNat 2

def program : Key := .ofNat 3

/-- The asset of a number. -/
def asset (n : ℕ) : TokenAsset := ⟨.ofNat (10 + n), .ofNat (20 + n), tokenId⟩

/-- The accounts of a pool of a number between two assets. -/
def poolAccounts (n : ℕ) (source destination : TokenAsset) : List Key :=
  [tokenId, .ofNat (30 + n), .ofNat (40 + n), .ofNat (50 + n), .ofNat (60 + n), source.token,
    destination.token, owner]

/-- The bank. -/
def bank (key : Key) : Answer AccountView :=
  if key = nonce then .ok (nonceAccount program owner 7)
  else if key = tokenId ∨ key = venueProgram .raydiumAmmV4 then .ok programAccount
  else if key ∈ [0, 1, 2].map fun n => Key.ofNat (20 + n) then .ok mintAccount
  else match [0, 1, 2].find? fun n => key = Key.ofNat (10 + n) with
    | some n => .ok (tokenAccount (.ofNat (20 + n)) owner)
    | none => .ok ⟨venueProgram .raydiumAmmV4, false, .ofList []⟩

/-- A swap over two pools, which sells all that it buys of the asset between them. -/
def spec : SwapGraph where
  owner := owner
  sequence := 7
  inputAtoms := 1000
  minimumOutputAtoms := 1
  deadlineSlot := 5
  input := asset 0
  output := asset 2
  intermediates := [asset 1]
  legs := [
    ⟨.raydiumAmmV4, true, (asset 0).token, (asset 1).token, .exact 1000,
      poolAccounts 0 (asset 0) (asset 1)⟩,
    ⟨.raydiumAmmV4, true, (asset 1).token, (asset 2).token, .remaining,
      poolAccounts 1 (asset 1) (asset 2)⟩]
  minimum_lt := by decide
  deadline_lt := by decide

/-- The instruction of the swap. -/
def instruction : Instruction where
  programId := program
  accounts := [
    ⟨owner, true, false⟩, ⟨nonce, false, true⟩,
    ⟨.ofNat 10, false, true⟩, ⟨.ofNat 20, false, false⟩, ⟨tokenId, false, false⟩,
    ⟨.ofNat 11, false, true⟩, ⟨.ofNat 21, false, false⟩,
    ⟨.ofNat 12, false, true⟩, ⟨.ofNat 22, false, false⟩,
    ⟨venueProgram .raydiumAmmV4, false, false⟩,
    ⟨.ofNat 30, false, true⟩, ⟨.ofNat 40, false, false⟩, ⟨.ofNat 50, false, true⟩,
    ⟨.ofNat 60, false, true⟩,
    ⟨.ofNat 31, false, true⟩, ⟨.ofNat 41, false, false⟩, ⟨.ofNat 51, false, true⟩,
    ⟨.ofNat 61, false, true⟩]
  data := [2, 3, 2, 0] ++ Buffer.toBytes 8 7 ++ Buffer.toBytes 8 1000 ++ Buffer.toBytes 8 1 ++
    Buffer.toBytes 8 5 ++ [2, 3, 4, 5, 6, 4, 7, 8, 4] ++
    ([6, 0, 1, 1] ++ Buffer.toBytes 8 1000 ++ [9, 8, 4, 10, 11, 12, 13, 2, 5, 0]) ++
    ([6, 1, 2, 1] ++ Buffer.toBytes 8 (u64Size - 1) ++ [9, 8, 4, 14, 15, 16, 17, 5, 7, 0])

theorem compile_ok : compileSwapGraph (fun _ _ => nonce) program spec bank = .ok instruction := by
  decide +kernel

end TwoPools

open TwoPools in
theorem swap_round_trip_example : ∃ inner g, inner.Perm [asset 1] ∧
    Graph.decode (.ofList instruction.data) instruction.accounts.length = .ok g ∧
    Recovers (withInstructions bank) program nonce spec .fixed (asset 0 :: inner ++ [asset 2])
      instruction.accounts g ∧ g.wire.encode = instruction.data := by
  obtain ⟨inner, g, hinner, -, -, hdecode, hrecovers⟩ :=
    swap_round_trip.1 (fun _ _ => nonce) program spec .fixed bank instruction compile_ok
  exact ⟨inner, g, hinner, hdecode, hrecovers, swap_round_trip.2 _ _ g hdecode⟩

end StockMesh.Host

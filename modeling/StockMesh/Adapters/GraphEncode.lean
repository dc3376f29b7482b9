import StockMesh.Adapters.Wire

/-! # Graphs are decoded from their payloads

`Graph.decode` reads every graph back from its payload (`Graph.decode_encode`), so far as the graph keeps
what decoding promises beyond the types (`Graph.Encodable`): asset accounts are neither the wallet nor its
nonce, legs do not use the nonce, and counts and amounts are in range. Decoded graphs keep that
(`Graph.encodable_of_decode`). -/

namespace StockMesh

variable {n k : ℕ}

/-- The accounts of an asset are neither the wallet nor its nonce. -/
structure Asset.Free (a : Asset n) : Prop where
  token : 2 ≤ (a.token : ℕ)
  mint : 2 ≤ (a.mint : ℕ)
  program : 2 ≤ (a.program : ℕ)

/-- What decoding promises of a leg beyond its type. -/
structure Leg.Encodable (l : Leg n k) : Prop where
  budget : l.budget ≤ maxInput ∨ l.budget = u64Size - 1
  accounts_le : l.accounts.length ≤ l.venue.accountBounds.2
  accounts_ne : ∀ i ∈ l.accounts, (i : ℕ) ≠ 1

/-- What decoding promises of a graph beyond its type. -/
structure Graph.Encodable (g : Graph n) : Prop where
  assets_le : g.assetCount ≤ maxGraphAssets
  sequence : g.sequence < u64Size
  minOut : g.minOut < u64Size
  deadline : g.deadline < u64Size
  calls : g.reflowCalls ≠ 0 → 8 ≤ g.reflowCalls ∧ g.reflowCalls ≤ 64
  seeded : g.seedInput ≠ 0 → g.assetCount = 2
  assets : ∀ i, (g.assets i).Free
  legs : ∀ l ∈ g.legs, l.Encodable

/-! ## Decoding what was read -/

variable {d : Buffer} {g : Graph n}

/-- Nothing else decides whether a payload is accepted. -/
theorem Graph.decode_of_read (h : GraphRead d g) (he : g.Encodable) : Graph.decode d n = .ok g := by
  obtain ⟨sequence, input, minOut, deadline, assetCount, assets, legs, reflowCalls, seedInput, haccounts_ge,
    haccounts_le, htwo, hinput, hinput_le, hminOut, hlegs_pos, hlegs_le, hfixed_le, hseed_lt, hseed_reflow,
    hseed_le⟩ := g
  obtain ⟨hsize, hopcode, hcalls, hfixed, hassetCount, hlegCount, hreflow, hsequence, hinputs, hmin, hdead, hassets,
    hseeded, hunseeded, hlength, hlegs⟩ := h
  obtain ⟨hassets_le, -, -, -, hcalls_le, hseed_two, -, -⟩ := he
  simp only at *
  subst hassetCount
  subst hreflow
  refine bind_eq_ok.mpr ⟨(), accept_eq_ok.mpr hsize, ?_⟩
  refine bind_eq_ok.mpr ⟨(), accept_eq_ok.mpr hopcode, ?_⟩
  refine bind_eq_ok.mpr ⟨(), accept_eq_ok.mpr hfixed, ?_⟩
  have hcalls : (d.byte 0).toNat ≠ 2 → 8 ≤ (d.byte 3).toNat ∧ (d.byte 3).toNat ≤ 64 := fun hop =>
    hcalls_le (by have := hcalls hop; omega)
  have htwo_le : (d.byte 0).toNat = 9 → (d.byte 1).toNat = 2 := fun hop => hseed_two (hseeded hop).2
  have hlegs_bound : 1 ≤ (d.byte 2).toNat ∧
      (d.byte 2).toNat ≤ if (d.byte 0).toNat ≠ 2 then maxCandidates else maxGraphLegs := by
    split
    · exact ⟨by omega, by omega⟩
    · next hop => exact ⟨by omega, hlegCount ▸ hfixed_le (hfixed (not_not.mp hop))⟩
  have hseed : seedInput < input ∧ (seedInput ≠ 0 → (d.byte 0).toNat = 9) := by
    refine ⟨hseed_lt, fun hne => ?_⟩
    by_contra hop
    exact hne (hunseeded hop)
  refine bind_eq_ok.mpr ⟨⟨hcalls⟩, evidence_eq_ok.mpr hcalls, ?_⟩
  refine bind_eq_ok.mpr ⟨(), accept_eq_ok.mpr htwo_le, ?_⟩
  refine bind_eq_ok.mpr ⟨⟨⟨htwo, hassets_le⟩⟩, evidence_eq_ok.mpr ⟨htwo, hassets_le⟩, ?_⟩
  refine bind_eq_ok.mpr ⟨⟨hlegs_bound⟩, evidence_eq_ok.mpr hlegs_bound, ?_⟩
  refine bind_eq_ok.mpr ⟨⟨⟨haccounts_ge, haccounts_le⟩⟩, evidence_eq_ok.mpr ⟨haccounts_ge, haccounts_le⟩, ?_⟩
  refine bind_eq_ok.mpr ⟨_, hsequence, bind_eq_ok.mpr ⟨_, hinputs, bind_eq_ok.mpr ⟨_, hmin,
    bind_eq_ok.mpr ⟨_, hdead, ?_⟩⟩⟩⟩
  refine bind_eq_ok.mpr ⟨⟨⟨hinput, hinput_le, hminOut⟩⟩, evidence_eq_ok.mpr ⟨hinput, hinput_le, hminOut⟩, ?_⟩
  refine bind_eq_ok.mpr ⟨_, hassets, ?_⟩
  -- the seed is read for opcode 9 only
  rw [bind_ite]
  refine bind_eq_ok.mpr ⟨seedInput, ?_, ?_⟩
  · split
    · next hop => exact (hseeded hop).1
    · next hop => exact congrArg Except.ok (hunseeded hop).symm
  refine bind_eq_ok.mpr ⟨(), accept_eq_ok.mpr fun hop => (hseeded hop).2, ?_⟩
  refine bind_eq_ok.mpr ⟨⟨hseed⟩, evidence_eq_ok.mpr hseed, ?_⟩
  refine bind_eq_ok.mpr ⟨_, hlegs, ?_⟩
  refine bind_eq_ok.mpr ⟨⟨hseed_le⟩, evidence_eq_ok.mpr hseed_le, ?_⟩
  refine bind_eq_ok.mpr ⟨(), accept_eq_ok.mpr rfl, ?_⟩
  have hreflow : (if (d.byte 0).toNat ≠ 2 then (d.byte 3).toNat else 0) = (d.byte 3).toNat := by
    split
    · rfl
    · next hop => exact (hfixed (not_not.mp hop)).symm
  simp only [hreflow]

/-! ## What decoded graphs keep -/

theorem getD_mem {α : Type} {l : List α} {i : ℕ} {a : α} (h : i < l.length) : l.getD i a ∈ l := by
  rw [List.getD_eq_getElem?_getD, List.getElem?_eq_getElem h]
  exact List.getElem_mem h

theorem free_of_readAsset {cursor : ℕ} {a : Asset n} (h : readAsset d n cursor = .ok a) : a.Free := by
  obtain ⟨s, hs, h⟩ := bind_eq_ok.mp h
  obtain ⟨_, hfree, h⟩ := bind_eq_ok.mp h
  obtain ⟨token, htoken, h⟩ := bind_eq_ok.mp h
  obtain ⟨mint, hmint, h⟩ := bind_eq_ok.mp h
  obtain ⟨program, hprogram, h⟩ := bind_eq_ok.mp h
  cases h
  have hfree := accept_eq_ok.mp hfree
  have hlength : s.length = 3 := by
    rw [(Buffer.slice_eq_some (okOr_eq_ok.mp hs)).2, List.length_map, List.length_range]
  exact ⟨indexAt_eq_ok.mp htoken ▸ hfree _ (getD_mem (by omega)),
    indexAt_eq_ok.mp hmint ▸ hfree _ (getD_mem (by omega)),
    indexAt_eq_ok.mp hprogram ▸ hfree _ (getD_mem (by omega))⟩

theorem free_of_readAssets {cursor : ℕ} {assets : Fin k → Asset n} (h : readAssets d n k cursor = .ok assets) :
    ∀ i, (assets i).Free := by
  induction k generalizing cursor with
  | zero => exact fun i => i.elim0
  | succ k ih =>
    obtain ⟨asset, hasset, h⟩ := bind_eq_ok.mp h
    obtain ⟨rest, hrest, h⟩ := bind_eq_ok.mp h
    cases h
    intro i
    cases i using Fin.cases with
    | zero => exact free_of_readAsset hasset
    | succ i => exact ih hrest i

theorem encodable_of_readLeg {cursor next : ℕ} {leg : Leg n k} (h : readLeg d n k cursor = .ok (leg, next)) :
    leg.Encodable := by
  obtain ⟨s, hs, h⟩ := bind_eq_ok.mp h
  obtain ⟨venue, hvenue, h⟩ := bind_eq_ok.mp h
  obtain ⟨source, hsource, h⟩ := bind_eq_ok.mp h
  obtain ⟨destination, hdestination, h⟩ := bind_eq_ok.mp h
  obtain ⟨_, -, h⟩ := bind_eq_ok.mp h
  obtain ⟨_, -, h⟩ := bind_eq_ok.mp h
  obtain ⟨program, hprogram, h⟩ := bind_eq_ok.mp h
  obtain ⟨_, hcount, h⟩ := bind_eq_ok.mp h
  obtain ⟨budget, hbudget, h⟩ := bind_eq_ok.mp h
  obtain ⟨_, -, h⟩ := bind_eq_ok.mp h
  obtain ⟨_, hrange, h⟩ := bind_eq_ok.mp h
  obtain ⟨indices, hindices, h⟩ := bind_eq_ok.mp h
  obtain ⟨_, hfree, h⟩ := bind_eq_ok.mp h
  obtain ⟨accounts, haccounts, h⟩ := bind_eq_ok.mp h
  obtain ⟨_, -, h⟩ := bind_eq_ok.mp h
  cases h
  have hread := mapM_eq_ok.mp haccounts
  have hlength : indices.length = (s.getD 13 0).toNat := by
    rw [(Buffer.slice_eq_some (okOr_eq_ok.mp hindices)).2, List.length_map, List.length_range]
  refine ⟨accept_eq_ok.mp hrange, ?_, fun i hi => ?_⟩
  · exact (hread.length_eq.symm.trans hlength).trans_le (accept_eq_ok.mp hcount).2
  · obtain ⟨b, hb, hindex⟩ := exists_of_forall₂ hread.flip hi
    exact indexAt_eq_ok.mp hindex ▸ accept_eq_ok.mp hfree b hb

theorem encodable_of_readLegs {count cursor next : ℕ} {legs : {legs : List (Leg n k) // legs.length = count}}
    (h : readLegs d n k count cursor = .ok (legs, next)) : ∀ l ∈ legs.1, l.Encodable := by
  induction count generalizing cursor next with
  | zero =>
    cases h
    exact fun l hl => absurd hl List.not_mem_nil
  | succ count ih =>
    obtain ⟨⟨leg, middle⟩, hleg, h⟩ := bind_eq_ok.mp h
    obtain ⟨⟨rest, last⟩, hrest, h⟩ := bind_eq_ok.mp h
    cases h
    exact List.forall_mem_cons.mpr ⟨encodable_of_readLeg hleg, ih hrest⟩

theorem Graph.encodable_of_decode (h : Graph.decode d n = .ok g) : g.Encodable := by
  have hread := Graph.decode_eq_ok h
  obtain ⟨hlength, hlegs⟩ := hread.legs
  obtain ⟨_, -, h⟩ := bind_eq_ok.mp h
  obtain ⟨_, -, h⟩ := bind_eq_ok.mp h
  obtain ⟨_, hfixed, h⟩ := bind_eq_ok.mp h
  obtain ⟨hcalls, -, h⟩ := bind_eq_ok.mp h
  obtain ⟨_, htwo, h⟩ := bind_eq_ok.mp h
  obtain ⟨hassets, -, h⟩ := bind_eq_ok.mp h
  refine ⟨?_, u64At_lt hread.sequence, u64At_lt hread.minOut, u64At_lt hread.deadline, fun hne => ?_, fun hne => ?_,
    free_of_readAssets hread.assets, encodable_of_readLegs hlegs⟩
  · exact hread.assetCount ▸ hassets.down.2
  · rw [hread.reflowCalls] at hne ⊢
    refine hcalls.down fun hop => hne ?_
    exact accept_eq_ok.mp hfixed hop
  · rw [hread.assetCount]
    refine accept_eq_ok.mp htwo ?_
    by_contra hop
    exact hne (hread.unseeded hop)

/-! ## Payloads -/

/-- A window is told by its parts. -/
theorem slice_of_append {offset length : ℕ} {x y : List UInt8} (h : d.slice offset length = some (x ++ y)) :
    d.slice offset x.length = some x ∧ d.slice (offset + x.length) y.length = some y := by
  obtain ⟨hle, hbytes⟩ := Buffer.slice_eq_some h
  have hlength : length = x.length + y.length := by
    rw [← List.length_append, hbytes, List.length_map, List.length_range]
  rw [hlength, List.range_add, List.map_append, List.map_map] at hbytes
  obtain ⟨hx, hy⟩ := List.append_inj hbytes (by simp)
  rw [Buffer.slice, Buffer.slice, if_pos (by omega), if_pos (by omega), Option.some.injEq, Option.some.injEq]
  refine ⟨hx.symm, ?_⟩
  simpa only [Function.comp_def, Nat.add_assoc] using hy.symm

/-- A word is read where it was written. -/
theorem u64At_of_slice {offset m : ℕ} (h : d.slice offset 8 = some (Buffer.toBytes 8 m)) (hm : m < u64Size) :
    u64At d offset = .ok m := by
  refine okOr_eq_ok.mpr ?_
  rw [Buffer.number, h, Option.map_some, Buffer.ofBytes_toBytes, Option.some.injEq]
  exact Nat.mod_eq_of_lt hm

/-- An index is read where it was written. -/
theorem indexAt_ofNat (hn : n ≤ maxAccounts) (i : Fin n) : indexAt n (UInt8.ofNat i).toNat = .ok i := by
  have hmax : maxAccounts = 64 := rfl
  have hi := i.isLt
  rw [indexAt_eq_ok, UInt8.toNat_ofNat_of_lt' (by show (i : ℕ) < 256; omega)]

theorem readAsset_of_slice (hn : n ≤ maxAccounts) {cursor : ℕ} {a : Asset n} (ha : a.Free)
    (h : d.slice cursor 3 = some a.wire.encode) : readAsset d n cursor = .ok a := by
  have htoken := indexAt_ofNat hn a.token
  have hmint := indexAt_ofNat hn a.mint
  have hprogram := indexAt_ofNat hn a.program
  refine bind_eq_ok.mpr ⟨_, okOr_eq_ok.mpr h, bind_eq_ok.mpr ⟨(), accept_eq_ok.mpr ?_, ?_⟩⟩
  · simp only [WireAsset.encode, Asset.wire, List.forall_mem_cons, List.not_mem_nil, false_implies, implies_true,
      and_true]
    rw [← indexAt_eq_ok.mp htoken, ← indexAt_eq_ok.mp hmint, ← indexAt_eq_ok.mp hprogram]
    exact ⟨ha.token, ha.mint, ha.program⟩
  · exact bind_eq_ok.mpr ⟨_, htoken, bind_eq_ok.mpr ⟨_, hmint, bind_eq_ok.mpr ⟨_, hprogram, rfl⟩⟩⟩

theorem length_flatMap_assets (assets : List WireAsset) :
    (assets.flatMap WireAsset.encode).length = 3 * assets.length := by
  induction assets with
  | nil => rfl
  | cons a assets ih =>
    rw [List.flatMap_cons, List.length_append, ih, List.length_cons, WireAsset.encode]
    simp only [List.length_cons, List.length_nil]
    omega

theorem readAssets_of_slice (hn : n ≤ maxAccounts) {cursor : ℕ} {assets : Fin k → Asset n}
    (hassets : ∀ i, (assets i).Free)
    (h : d.slice cursor (3 * k) = some ((List.ofFn fun i => (assets i).wire).flatMap WireAsset.encode)) :
    readAssets d n k cursor = .ok assets := by
  induction k generalizing cursor with
  | zero => exact congrArg Except.ok (funext fun i => i.elim0)
  | succ k ih =>
    rw [List.ofFn_succ, List.flatMap_cons] at h
    have htail : ((List.ofFn fun i : Fin k => (assets i.succ).wire).flatMap WireAsset.encode).length = 3 * k := by
      rw [length_flatMap_assets, List.length_ofFn]
    obtain ⟨hfirst, hrest⟩ := slice_of_append h
    rw [htail] at hrest
    refine bind_eq_ok.mpr ⟨_, readAsset_of_slice hn (hassets 0) hfirst, bind_eq_ok.mpr ⟨_,
      ih (fun i => hassets i.succ) hrest, ?_⟩⟩
    exact congrArg Except.ok (Fin.cons_self_tail assets)

theorem mapM_indexAt (hn : n ≤ maxAccounts) (accounts : List (Fin n)) :
    (accounts.map fun i => UInt8.ofNat i.val).mapM (fun i => indexAt n i.toNat) = .ok accounts := by
  rw [mapM_eq_ok, List.forall₂_map_left_iff, List.forall₂_same]
  exact fun i _ => indexAt_ofNat hn i

/-- The 14 bytes before the accounts of a leg. -/
def WireLeg.header (l : WireLeg) : List UInt8 :=
  [.ofNat l.venue.toByte, l.source, l.destination, if l.direction then 1 else 0] ++
    (Buffer.toBytes 8 l.budget ++ [l.program, .ofNat l.accounts.length])

theorem WireLeg.encode_eq (l : WireLeg) : l.encode = l.header ++ l.accounts := by
  simp only [encode, header, List.append_assoc]

@[simp] theorem WireLeg.length_header (l : WireLeg) : l.header.length = 14 := by
  simp [header]

theorem readLeg_of_slice (hn : n ≤ maxAccounts) (hk : k ≤ maxGraphAssets) {cursor : ℕ} {l : Leg n k}
    (hl : l.Encodable) (h : d.slice cursor l.wire.encode.length = some l.wire.encode) :
    readLeg d n k cursor = .ok (l, cursor + l.wire.encode.length) := by
  have hmax : maxAccounts = 64 := rfl
  have hassets : maxGraphAssets = 5 := rfl
  rw [WireLeg.encode_eq] at h
  obtain ⟨hheader, haccounts⟩ := slice_of_append h
  rw [WireLeg.length_header] at hheader haccounts
  have hbudget := (slice_of_append (slice_of_append hheader).2).1
  rw [Buffer.length_toBytes] at hbudget
  have hlt : l.budget < u64Size := by
    have hsize : maxInput < u64Size - 1 := by decide
    obtain hle | heq := hl.budget <;> omega
  have hcount : l.accounts.length < 256 := by
    have hle := hl.accounts_le
    have hbound : l.venue.accountBounds.2 < 256 := by cases l.venue <;> decide
    omega
  have hlength : (l.wire.header.getD 13 0).toNat = l.accounts.length := by
    have hget : l.wire.header.getD 13 0 = .ofNat l.wire.accounts.length := rfl
    rw [hget, Leg.wire, List.length_map, UInt8.toNat_ofNat_of_lt' hcount]
  have hsource : indexAt k (l.wire.header.getD 1 0).toNat = .ok l.source := by
    have hi := l.source.isLt
    exact indexAt_eq_ok.mpr (UInt8.toNat_ofNat_of_lt' (by show (l.source : ℕ) < 256; omega)).symm
  have hdestination : indexAt k (l.wire.header.getD 2 0).toNat = .ok l.destination := by
    have hi := l.destination.isLt
    exact indexAt_eq_ok.mpr (UInt8.toNat_ofNat_of_lt' (by show (l.destination : ℕ) < 256; omega)).symm
  have hvenue : Venue.ofByte (l.wire.header.getD 0 0).toNat = .ok l.venue := by
    have hget : l.wire.header.getD 0 0 = .ofNat l.venue.toByte := rfl
    rw [hget, UInt8.toNat_ofNat_of_lt' l.venue.toByte_lt, Venue.ofByte_toByte]
  have hflag : (l.wire.header.getD 3 0).toNat = if l.direction then 1 else 0 := by
    have hget : l.wire.header.getD 3 0 = if l.direction then 1 else 0 := rfl
    rw [hget]
    cases l.direction <;> rfl
  have hprogram : indexAt n (l.wire.header.getD 12 0).toNat = .ok l.program := indexAt_ofNat hn l.program
  have hdirection : decide ((l.wire.header.getD 3 0).toNat = 1) = l.direction := by
    rw [hflag]
    cases l.direction <;> rfl
  have hnext : cursor + legHeaderLen + (l.wire.header.getD 13 0).toNat = cursor + l.wire.encode.length := by
    rw [hlength, WireLeg.encode_eq, List.length_append, WireLeg.length_header, Leg.wire, List.length_map,
      legHeaderLen, Nat.add_assoc]
  refine bind_eq_ok.mpr ⟨_, okOr_eq_ok.mpr hheader, bind_eq_ok.mpr ⟨_, hvenue, bind_eq_ok.mpr ⟨_, hsource,
    bind_eq_ok.mpr ⟨_, hdestination, ?_⟩⟩⟩⟩
  refine bind_eq_ok.mpr ⟨⟨l.ordered⟩, evidence_eq_ok.mpr l.ordered, ?_⟩
  refine bind_eq_ok.mpr ⟨(), accept_eq_ok.mpr ?_, bind_eq_ok.mpr ⟨_, hprogram, ?_⟩⟩
  · rw [hflag]
    cases l.direction <;> decide
  refine bind_eq_ok.mpr ⟨(), accept_eq_ok.mpr ?_, bind_eq_ok.mpr ⟨_, u64At_of_slice hbudget hlt, ?_⟩⟩
  · rw [hlength]
    exact ⟨l.accounts_ge, hl.accounts_le⟩
  refine bind_eq_ok.mpr ⟨⟨l.budget_pos⟩, evidence_eq_ok.mpr l.budget_pos, ?_⟩
  refine bind_eq_ok.mpr ⟨(), accept_eq_ok.mpr hl.budget, ?_⟩
  refine bind_eq_ok.mpr ⟨l.wire.accounts, okOr_eq_ok.mpr ?_, ?_⟩
  · rw [hlength]
    simpa [Leg.wire, legHeaderLen] using haccounts
  refine bind_eq_ok.mpr ⟨(), accept_eq_ok.mpr fun b hb => ?_, bind_eq_ok.mpr ⟨_, mapM_indexAt hn _, ?_⟩⟩
  · obtain ⟨i, hi, rfl⟩ := List.mem_map.mp hb
    rw [← indexAt_eq_ok.mp (indexAt_ofNat hn i)]
    exact hl.accounts_ne i hi
  refine bind_eq_ok.mpr ⟨⟨l.accounts_ge⟩, evidence_eq_ok.mpr l.accounts_ge, ?_⟩
  simp only [hdirection, hnext]
  rfl

theorem readLegs_of_slice (hn : n ≤ maxAccounts) (hk : k ≤ maxGraphAssets) {cursor : ℕ} {legs : List (Leg n k)}
    (hlegs : ∀ l ∈ legs, l.Encodable)
    (h : d.slice cursor ((legs.map Leg.wire).flatMap WireLeg.encode).length =
      some ((legs.map Leg.wire).flatMap WireLeg.encode)) :
    readLegs d n k legs.length cursor =
      .ok (⟨legs, rfl⟩, cursor + ((legs.map Leg.wire).flatMap WireLeg.encode).length) := by
  induction legs generalizing cursor with
  | nil => rfl
  | cons l legs ih =>
    obtain ⟨hl, hrest⟩ := List.forall_mem_cons.mp hlegs
    rw [List.map_cons, List.flatMap_cons] at h ⊢
    obtain ⟨hfirst, htail⟩ := slice_of_append h
    refine bind_eq_ok.mpr ⟨_, readLeg_of_slice hn hk hl hfirst, bind_eq_ok.mpr ⟨_, ih hrest htail, ?_⟩⟩
    simp only [List.length_append, Nat.add_assoc]

/-- The opcode of a graph is told by its calls and its seed. -/
theorem Graph.toNat_opcode (g : Graph n) : g.wire.opcode.toNat =
    if g.reflowCalls = 0 then 2 else if g.seedInput = 0 then 4 else 9 := by
  simp only [wire]
  split
  · rfl
  · split <;> rfl

/-- The parts of a payload in their places. -/
theorem Graph.read_of_encodable (he : g.Encodable) : GraphRead (.ofList g.wire.encode) g := by
  have hmax : maxAccounts = 64 := rfl
  have hmaxAssets : maxGraphAssets = 5 := rfl
  have hcandidates : maxCandidates = 8 := rfl
  have hassets_le := he.assets_le
  have hlegs_le := g.legs_le
  have hwhole : (Buffer.ofList g.wire.encode).slice 0 g.wire.encode.length = some g.wire.encode := by
    rw [Buffer.slice_ofList (by omega)]
    simp
  obtain ⟨hhead, hbody⟩ := slice_of_append hwhole
  obtain ⟨hnumbers, hbody⟩ := slice_of_append hbody
  obtain ⟨hassets, hbody⟩ := slice_of_append hbody
  obtain ⟨hseed, hlegs⟩ := slice_of_append hbody
  obtain ⟨hsequence, hrest⟩ := slice_of_append hnumbers
  obtain ⟨hinput, hrest⟩ := slice_of_append hrest
  obtain ⟨hminOut, hdeadline⟩ := slice_of_append hrest
  simp only [List.length_cons, List.length_nil, List.length_append, Buffer.length_toBytes, Nat.reduceAdd, Nat.zero_add]
    at hhead hassets hseed hlegs hsequence hinput hminOut hdeadline
  have hassetBytes : (g.wire.assets.flatMap WireAsset.encode).length = 3 * g.assetCount := by
    rw [length_flatMap_assets, wire, List.length_ofFn]
  rw [hassetBytes] at hassets hseed hlegs
  -- the four bytes at the front
  have hbytes := (Buffer.slice_eq_some hhead).2
  simp only [List.range_succ, List.range_zero, List.nil_append, List.cons_append, List.map_cons, List.map_nil,
    Nat.zero_add, List.cons.injEq, and_true] at hbytes
  obtain ⟨hopcode, hassetCount, hlegCount, hcalls⟩ := hbytes
  generalize hd : Buffer.ofList g.wire.encode = d at *
  have hop : (d.byte 0).toNat = if g.reflowCalls = 0 then 2 else if g.seedInput = 0 then 4 else 9 := by
    rw [← hopcode, g.toNat_opcode]
  have hcount : (d.byte 1).toNat = g.assetCount := by
    rw [← hassetCount, wire, List.length_ofFn, UInt8.toNat_ofNat_of_lt' (by show g.assetCount < 256; omega)]
  have hlength : (d.byte 2).toNat = g.legs.length := by
    rw [← hlegCount, wire, List.length_map, UInt8.toNat_ofNat_of_lt' (by show g.legs.length < 256; omega)]
  have hreflow : (d.byte 3).toNat = g.reflowCalls := by
    have hle := he.calls
    rw [← hcalls, wire, UInt8.toNat_ofNat_of_lt' (by show g.reflowCalls < 256; omega)]
  have hseeded : (d.byte 0).toNat = 9 ↔ g.seedInput ≠ 0 := by
    rw [hop]
    constructor
    · intro h hzero
      rw [if_pos hzero] at h
      split at h <;> cases h
    · intro h
      rw [if_neg (g.seed_reflow h), if_neg h]
  have hsize : d.size = 36 + 3 * g.assetCount + ((g.wire.seed.map (Buffer.toBytes 8)).getD []).length +
      ((g.legs.map Leg.wire).flatMap WireLeg.encode).length := by
    have hlegsWire : g.wire.legs = g.legs.map Leg.wire := rfl
    rw [← hd, Buffer.ofList, Wire.encode]
    simp only [List.length_append, List.length_cons, List.length_nil, Buffer.length_toBytes, hassetBytes, hlegsWire]
    omega
  exact {
    size := (Buffer.slice_eq_some hdeadline).1
    opcode := by
      rw [hop]
      split
      · exact .inl rfl
      · split
        · exact .inr (.inl rfl)
        · exact .inr (.inr rfl)
    calls := fun h => by
      rw [hreflow]
      refine (he.calls fun hzero => h ?_).1
      rw [hop, if_pos hzero]
    fixed := fun h => by
      rw [hreflow]
      by_contra hne
      rw [hop, if_neg hne] at h
      split at h <;> cases h
    assetCount := hcount.symm
    legCount := hlength.symm
    reflowCalls := hreflow.symm
    sequence := u64At_of_slice hsequence he.sequence
    input := u64At_of_slice hinput (g.input_le.trans_lt (by decide))
    minOut := u64At_of_slice hminOut he.minOut
    deadline := u64At_of_slice hdeadline he.deadline
    assets := readAssets_of_slice g.accounts_le he.assets hassets
    seeded := fun h => by
      have hne := hseeded.mp h
      have hsome : g.wire.seed = some g.seedInput := if_neg hne
      rw [hsome] at hseed
      have hlt : g.seedInput < u64Size := (g.seed_lt.trans_le g.input_le).trans (by decide)
      exact ⟨u64At_of_slice (by simpa using hseed) hlt, hne⟩
    unseeded := fun h => not_not.mp fun hne => h (hseeded.mpr hne)
    legs := by
      have hcursor : (if (d.byte 0).toNat = 9 then 36 + 3 * g.assetCount + 8 else 36 + 3 * g.assetCount) =
          36 + 3 * g.assetCount + ((g.wire.seed.map (Buffer.toBytes 8)).getD []).length := by
        by_cases hne : g.seedInput = 0
        · have hnone : g.wire.seed = none := if_pos hne
          rw [if_neg (fun h => hseeded.mp h hne), hnone]
          rfl
        · have hsome : g.wire.seed = some g.seedInput := if_neg hne
          rw [if_pos (hseeded.mpr hne), hsome]
          simp
      have hread := readLegs_of_slice g.accounts_le hassets_le he.legs hlegs
      rw [← hsize, ← hcursor] at hread
      refine ⟨hlength.symm, ?_⟩
      generalize (d.byte 2).toNat = count at hlength ⊢
      subst hlength
      exact hread }

/-- Every graph is decoded from its payload. -/
theorem Graph.decode_encode (he : g.Encodable) : Graph.decode (.ofList g.wire.encode) n = .ok g :=
  Graph.decode_of_read (Graph.read_of_encodable he) he

/-! ## Other indices -/

/-- An asset over other indices. -/
def WireAsset.map (f : UInt8 → UInt8) (a : WireAsset) : WireAsset := ⟨f a.token, f a.mint, f a.program⟩

/-- A leg over other indices. -/
def WireLeg.map (f : UInt8 → UInt8) (l : WireLeg) : WireLeg :=
  { l with program := f l.program, accounts := l.accounts.map f }

/-- A payload over other indices. -/
def Wire.map (f : UInt8 → UInt8) (w : Wire) : Wire :=
  { w with assets := w.assets.map (WireAsset.map f), legs := w.legs.map (WireLeg.map f) }

section

variable {m : ℕ} (φ : Fin n → Fin m)

/-- An asset over other accounts. -/
def Asset.map (a : Asset n) : Asset m := ⟨φ a.token, φ a.mint, φ a.program⟩

/-- A leg over other accounts. -/
def Leg.map (l : Leg n k) : Leg m k :=
  { l with
    program := φ l.program
    accounts := l.accounts.map φ
    accounts_ge := by simpa using l.accounts_ge }

/-- A graph over other accounts. -/
def Graph.map (g : Graph n) (hsix : 6 ≤ m) (hmax : m ≤ maxAccounts) : Graph m :=
  { g with
    assets := fun i => (g.assets i).map φ
    legs := g.legs.map (Leg.map φ)
    accounts_ge := hsix
    accounts_le := hmax
    legs_pos := by simpa using g.legs_pos
    legs_le := by simpa using g.legs_le
    fixed_le := by simpa using g.fixed_le
    seed_le := by
      intro leg hleg
      rw [List.getElem?_map] at hleg
      obtain ⟨l, hl, rfl⟩ := Option.map_eq_some_iff.mp hleg
      exact g.seed_le l hl }

variable {φ} {hsix : 6 ≤ m} {hmax : m ≤ maxAccounts}

/-- Renamed indices keep a graph decodable if they keep off the wallet and its nonce. -/
theorem Graph.Encodable.map (h : g.Encodable) (htwo : ∀ i : Fin n, 2 ≤ (i : ℕ) → 2 ≤ (φ i : ℕ))
    (hone : ∀ i : Fin n, (i : ℕ) ≠ 1 → (φ i : ℕ) ≠ 1) : (g.map φ hsix hmax).Encodable where
  assets_le := h.assets_le
  sequence := h.sequence
  minOut := h.minOut
  deadline := h.deadline
  calls := h.calls
  seeded := h.seeded
  assets i := ⟨htwo _ (h.assets i).token, htwo _ (h.assets i).mint, htwo _ (h.assets i).program⟩
  legs := by
    intro l hl
    obtain ⟨leg, hleg, rfl⟩ := List.mem_map.mp hl
    obtain ⟨hbudget, hle, hne⟩ := h.legs leg hleg
    refine ⟨hbudget, by simpa [Leg.map] using hle, fun j hj => ?_⟩
    obtain ⟨i, hi, rfl⟩ := List.mem_map.mp hj
    exact hone i (hne i hi)

/-- The payload of a graph over other accounts. -/
theorem Graph.wire_map {f : UInt8 → UInt8} (hf : ∀ i : Fin n, f (.ofNat i) = .ofNat (φ i)) :
    (g.map φ hsix hmax).wire = g.wire.map f := by
  have hlegs : (g.legs.map (Leg.map φ)).map Leg.wire = (g.legs.map Leg.wire).map (WireLeg.map f) := by
    rw [List.map_map, List.map_map]
    refine List.map_congr_left fun l _ => ?_
    simp [Leg.map, Leg.wire, WireLeg.map, hf]
  have hassets : (List.ofFn fun i => ((g.assets i).map φ).wire) =
      (List.ofFn fun i => (g.assets i).wire).map (WireAsset.map f) := by
    rw [List.map_ofFn]
    refine congrArg List.ofFn (funext fun i => ?_)
    simp [Asset.map, Asset.wire, WireAsset.map, hf]
  simp only [wire, Wire.map, map, hlegs, hassets]
  rfl

end

end StockMesh

import StockMesh.Adapters.Graph
import StockMesh.Foundation.PrefixFree

/-! # What a graph payload says

A `Wire` is the content of a payload before its indices are resolved, with one text (`Wire.encode`). Its
texts tell it (`Wire.encode_inj`), and `Graph.decode` accepts only the text of the graph that it returns
(`Graph.encode_of_decode`). -/

namespace StockMesh

/-- The account indices of an asset. -/
structure WireAsset where
  token : UInt8
  mint : UInt8
  program : UInt8
  deriving DecidableEq

/-- A leg with its asset and account indices. -/
structure WireLeg where
  venue : Venue
  source : UInt8
  destination : UInt8
  direction : Bool
  budget : ℕ
  program : UInt8
  accounts : List UInt8
  deriving DecidableEq

/-- The content of a payload. -/
structure Wire where
  opcode : UInt8
  calls : UInt8
  sequence : ℕ
  input : ℕ
  minOut : ℕ
  deadline : ℕ
  assets : List WireAsset
  /-- Opcode 9 only. -/
  seed : Option ℕ
  legs : List WireLeg
  deriving DecidableEq

/-- Three indices. -/
def WireAsset.encode (a : WireAsset) : List UInt8 := [a.token, a.mint, a.program]

/-- The header of a leg and its accounts. -/
def WireLeg.encode (l : WireLeg) : List UInt8 :=
  [.ofNat l.venue.toByte, l.source, l.destination, if l.direction then 1 else 0] ++
    (Buffer.toBytes 8 l.budget ++ ([l.program, .ofNat l.accounts.length] ++ l.accounts))

/-- The bytes of a payload. -/
def Wire.encode (w : Wire) : List UInt8 :=
  [w.opcode, .ofNat w.assets.length, .ofNat w.legs.length, w.calls] ++
    ((Buffer.toBytes 8 w.sequence ++ (Buffer.toBytes 8 w.input ++
      (Buffer.toBytes 8 w.minOut ++ Buffer.toBytes 8 w.deadline))) ++
    (w.assets.flatMap WireAsset.encode ++
    ((w.seed.map (Buffer.toBytes 8)).getD [] ++ w.legs.flatMap WireLeg.encode)))

/-- The fields fit their places. -/
structure WireLeg.Fits (l : WireLeg) : Prop where
  budget : l.budget < u64Size
  accounts : l.accounts.length < 256

/-- The fields fit their places, and opcode 9 has a seed. -/
structure Wire.Fits (w : Wire) : Prop where
  sequence : w.sequence < u64Size
  input : w.input < u64Size
  minOut : w.minOut < u64Size
  deadline : w.deadline < u64Size
  assets : w.assets.length < 256
  seed : ∀ s ∈ w.seed, s < u64Size
  seeded : w.seed.isSome ↔ w.opcode = 9
  legs : w.legs.length < 256
  leg : ∀ l ∈ w.legs, l.Fits

theorem toBytes_eight_inj {m n : ℕ} (hm : m < u64Size) (hn : n < u64Size)
    (h : Buffer.toBytes 8 m = Buffer.toBytes 8 n) : m = n :=
  Buffer.toBytes_inj hm hn h

theorem ofNat_inj {m n : ℕ} (hm : m < 256) (hn : n < 256) (h : UInt8.ofNat m = UInt8.ofNat n) :
    m = n := by
  have htoNat := congrArg UInt8.toNat h
  rwa [UInt8.toNat_ofNat_of_lt' hm, UInt8.toNat_ofNat_of_lt' hn] at htoNat

theorem Venue.toByte_inj {v v' : Venue} (h : v.toByte = v'.toByte) : v = v' := by
  have hread := congrArg Venue.ofByte h
  rwa [Venue.ofByte_toByte, Venue.ofByte_toByte, Except.ok.injEq] at hread

theorem Venue.toByte_lt (v : Venue) : v.toByte < 256 := by
  cases v <;> decide

theorem WireAsset.prefixFree : PrefixFreeOn (fun _ => True) WireAsset.encode := by
  refine .of_length (k := 3) (fun _ => rfl) fun a b _ _ h => ?_
  obtain ⟨htoken, h⟩ := List.cons.inj h
  obtain ⟨hmint, h⟩ := List.cons.inj h
  obtain ⟨hprogram, -⟩ := List.cons.inj h
  cases a
  cases b
  simp_all

theorem WireLeg.prefixFree : PrefixFreeOn WireLeg.Fits WireLeg.encode := by
  intro a b rest rest' ha hb h
  simp only [WireLeg.encode, List.append_assoc, List.cons_append, List.nil_append,
    List.cons.injEq] at h
  obtain ⟨hvenue, hsource, hdestination, hdirection, h⟩ := h
  obtain ⟨hbudget, h⟩ := List.append_inj h (by simp)
  simp only [List.cons.injEq] at h
  obtain ⟨hprogram, hlength, h⟩ := h
  have hlength' := ofNat_inj ha.accounts hb.accounts hlength
  obtain ⟨haccounts, hrest⟩ := List.append_inj h hlength'
  have hvenue' := Venue.toByte_inj (ofNat_inj a.venue.toByte_lt b.venue.toByte_lt hvenue)
  have hbudget' := toBytes_eight_inj ha.budget hb.budget hbudget
  have hdirection' : a.direction = b.direction := by
    cases hda : a.direction <;> cases hdb : b.direction <;> simp_all
  refine ⟨?_, hrest⟩
  cases a
  cases b
  simp_all

/-- A text tells its content. -/
theorem Wire.encode_inj {w w' : Wire} (hw : w.Fits) (hw' : w'.Fits) (h : w.encode = w'.encode) :
    w = w' := by
  simp only [Wire.encode, List.append_assoc, List.cons_append, List.nil_append,
    List.cons.injEq] at h
  obtain ⟨hopcode, hassetCount, hlegCount, hcalls, h⟩ := h
  obtain ⟨hsequence, h⟩ := List.append_inj h (by simp)
  obtain ⟨hinput, h⟩ := List.append_inj h (by simp)
  obtain ⟨hminOut, h⟩ := List.append_inj h (by simp)
  obtain ⟨hdeadline, h⟩ := List.append_inj h (by simp)
  obtain ⟨hassets, h⟩ := WireAsset.prefixFree.flatMap (fun _ _ => trivial) (fun _ _ => trivial)
    (ofNat_inj hw.assets hw'.assets hassetCount) h
  have hseeded : w.seed.isSome = w'.seed.isSome := by
    rw [Bool.eq_iff_iff, hw.seeded, hw'.seeded, hopcode]
  have hseed : w.seed = w'.seed ∧ w.legs.flatMap WireLeg.encode = w'.legs.flatMap WireLeg.encode := by
    cases hs : w.seed with
    | none =>
      have hs' : w'.seed = none := by simpa [hs] using hseeded.symm
      rw [hs, hs'] at h
      exact ⟨hs'.symm, h⟩
    | some s =>
      obtain ⟨s', hs'⟩ := Option.isSome_iff_exists.mp (hseeded ▸ hs ▸ rfl : w'.seed.isSome = true)
      rw [hs, hs'] at h
      obtain ⟨hbytes, hlegs⟩ := List.append_inj h (by simp)
      rw [hs', toBytes_eight_inj (hw.seed s hs) (hw'.seed s' hs') hbytes]
      exact ⟨rfl, hlegs⟩
  have hlegs := (@PrefixFreeOn.flatMap _ _ _ _ WireLeg.prefixFree w.legs w'.legs [] [] hw.leg hw'.leg
    (ofNat_inj hw.legs hw'.legs hlegCount) (by rw [hseed.2])).1
  have hsequence' := toBytes_eight_inj hw.sequence hw'.sequence hsequence
  have hinput' := toBytes_eight_inj hw.input hw'.input hinput
  have hminOut' := toBytes_eight_inj hw.minOut hw'.minOut hminOut
  have hdeadline' := toBytes_eight_inj hw.deadline hw'.deadline hdeadline
  cases w
  cases w'
  simp_all

/-! ## Decoded graphs -/

/-- The indices of an asset. -/
def Asset.wire {n : ℕ} (a : Asset n) : WireAsset := ⟨.ofNat a.token, .ofNat a.mint, .ofNat a.program⟩

/-- The indices of a leg. -/
def Leg.wire {n k : ℕ} (l : Leg n k) : WireLeg where
  venue := l.venue
  source := .ofNat l.source
  destination := .ofNat l.destination
  direction := l.direction
  budget := l.budget
  program := .ofNat l.program
  accounts := l.accounts.map fun i => .ofNat i.val

/-- The content of the payload of a graph. -/
def Graph.wire {n : ℕ} (g : Graph n) : Wire where
  opcode := if g.reflowCalls = 0 then 2 else if g.seedInput = 0 then 4 else 9
  calls := .ofNat g.reflowCalls
  sequence := g.sequence
  input := g.input
  minOut := g.minOut
  deadline := g.deadline
  assets := List.ofFn fun i => (g.assets i).wire
  seed := if g.seedInput = 0 then none else some g.seedInput
  legs := g.legs.map Leg.wire

theorem indexAt_eq_ok {n i : ℕ} {x : Fin n} : indexAt n i = .ok x ↔ (x : ℕ) = i := by
  unfold indexAt
  by_cases h : i < n
  · rw [dif_pos h, Except.ok.injEq, Fin.ext_iff]
    exact eq_comm
  · rw [dif_neg h]
    constructor
    · intro h'
      cases h'
    · intro h'
      exact absurd (h' ▸ x.isLt) h

/-- The index of a byte is written as the byte. -/
theorem ofNat_index {n : ℕ} {b : UInt8} {x : Fin n} (h : indexAt n b.toNat = .ok x) :
    UInt8.ofNat x = b := by
  rw [indexAt_eq_ok.mp h, UInt8.ofNat_toNat]

theorem evidence_eq_ok {p : Prop} [Decidable p] {e : AdapterError} {h : PLift p} :
    evidence p e = .ok h ↔ p := by
  unfold evidence
  by_cases hp : p
  · rw [dif_pos hp]
    exact ⟨fun _ => hp, fun _ => rfl⟩
  · exact absurd h.down hp

theorem u64At_eq_ok {d : Buffer} {offset n : ℕ} (h : u64At d offset = .ok n) :
    d.slice offset 8 = some (Buffer.toBytes 8 n) :=
  Buffer.slice_of_number (okOr_eq_ok.mp h)

variable {d : Buffer} {n k cursor : ℕ}

/-- An asset is the text of what is read. -/
theorem slice_of_readAsset {a : Asset n} (h : readAsset d n cursor = .ok a) :
    d.slice cursor 3 = some a.wire.encode := by
  obtain ⟨s, hs, h⟩ := bind_eq_ok.mp h
  obtain ⟨_, -, h⟩ := bind_eq_ok.mp h
  obtain ⟨token, htoken, h⟩ := bind_eq_ok.mp h
  obtain ⟨mint, hmint, h⟩ := bind_eq_ok.mp h
  obtain ⟨program, hprogram, h⟩ := bind_eq_ok.mp h
  cases h
  have hslice := okOr_eq_ok.mp hs
  rw [hslice, Option.some.injEq]
  obtain ⟨-, rfl⟩ := Buffer.slice_eq_some hslice
  simp only [WireAsset.encode, Asset.wire, ofNat_index htoken, ofNat_index hmint,
    ofNat_index hprogram]
  simp [List.range_succ]

/-- Assets are the texts of what is read. -/
theorem slice_of_readAssets {assets : Fin k → Asset n} (hcursor : cursor ≤ d.size)
    (h : readAssets d n k cursor = .ok assets) :
    d.slice cursor (3 * k) =
      some ((List.ofFn fun i => (assets i).wire).flatMap WireAsset.encode) := by
  induction k generalizing cursor with
  | zero => simp [Buffer.slice, hcursor]
  | succ k ih =>
    obtain ⟨asset, hasset, h⟩ := bind_eq_ok.mp h
    obtain ⟨rest, hrest, h⟩ := bind_eq_ok.mp h
    cases h
    have hfirst := slice_of_readAsset hasset
    have htail := ih (Buffer.slice_eq_some hfirst).1 hrest
    have hlen : 3 * (k + 1) = 3 + 3 * k := by omega
    rw [hlen, Buffer.slice_append hfirst htail, List.ofFn_succ, List.flatMap_cons]
    rfl

theorem Venue.toByte_of_ofByte {m : ℕ} {v : Venue} (h : Venue.ofByte m = .ok v) : v.toByte = m := by
  unfold Venue.ofByte at h
  split at h <;> cases h <;> rfl

/-- What `readLeg` reads. -/
structure LegRead (d : Buffer) (cursor : ℕ) (leg : Leg n k) (next : ℕ) (s indices : List UInt8) :
    Prop where
  header : d.slice cursor 14 = some s
  venue : leg.venue.toByte = (s.getD 0 0).toNat
  source : (leg.source : ℕ) = (s.getD 1 0).toNat
  destination : (leg.destination : ℕ) = (s.getD 2 0).toNat
  flag : (s.getD 3 0).toNat ≤ 1
  direction : leg.direction = decide ((s.getD 3 0).toNat = 1)
  program : (leg.program : ℕ) = (s.getD 12 0).toNat
  budget : u64At d (cursor + 4) = .ok leg.budget
  window : d.slice (cursor + 14) (s.getD 13 0).toNat = some indices
  accounts : indices.mapM (fun i => indexAt n i.toNat) = .ok leg.accounts
  next : next = cursor + 14 + (s.getD 13 0).toNat

theorem readLeg_eq_ok {leg : Leg n k} {next : ℕ} (h : readLeg d n k cursor = .ok (leg, next)) :
    ∃ s indices, LegRead d cursor leg next s indices := by
  obtain ⟨s, hs, h⟩ := bind_eq_ok.mp h
  obtain ⟨venue, hvenue, h⟩ := bind_eq_ok.mp h
  obtain ⟨source, hsource, h⟩ := bind_eq_ok.mp h
  obtain ⟨destination, hdestination, h⟩ := bind_eq_ok.mp h
  obtain ⟨_, -, h⟩ := bind_eq_ok.mp h
  obtain ⟨_, hflag, h⟩ := bind_eq_ok.mp h
  obtain ⟨program, hprogram, h⟩ := bind_eq_ok.mp h
  obtain ⟨_, -, h⟩ := bind_eq_ok.mp h
  obtain ⟨budget, hbudget, h⟩ := bind_eq_ok.mp h
  obtain ⟨_, -, h⟩ := bind_eq_ok.mp h
  obtain ⟨_, -, h⟩ := bind_eq_ok.mp h
  obtain ⟨indices, hindices, h⟩ := bind_eq_ok.mp h
  obtain ⟨_, -, h⟩ := bind_eq_ok.mp h
  obtain ⟨accounts, haccounts, h⟩ := bind_eq_ok.mp h
  obtain ⟨_, -, h⟩ := bind_eq_ok.mp h
  cases h
  exact ⟨s, indices, {
    header := okOr_eq_ok.mp hs
    venue := Venue.toByte_of_ofByte hvenue
    source := indexAt_eq_ok.mp hsource
    destination := indexAt_eq_ok.mp hdestination
    flag := accept_eq_ok.mp hflag
    direction := rfl
    program := indexAt_eq_ok.mp hprogram
    budget := hbudget
    window := okOr_eq_ok.mp hindices
    accounts := haccounts
    next := rfl }⟩

theorem ofNat_indices {bytes : List UInt8} {accounts : List (Fin n)}
    (h : bytes.mapM (fun i => indexAt n i.toNat) = .ok accounts) :
    accounts.map (fun i => UInt8.ofNat i.val) = bytes := by
  have hread := mapM_eq_ok.mp h
  clear h
  induction hread with
  | nil => rfl
  | cons hi _ ih => rw [List.map_cons, ofNat_index hi, ih]

/-- A leg is the text of what is read, up to the next cursor. -/
theorem slice_of_readLeg {leg : Leg n k} {next : ℕ} (h : readLeg d n k cursor = .ok (leg, next)) :
    next = cursor + leg.wire.encode.length ∧
      d.slice cursor leg.wire.encode.length = some leg.wire.encode := by
  obtain ⟨s, indices, h⟩ := readLeg_eq_ok h
  obtain ⟨hle, hs⟩ := Buffer.slice_eq_some h.header
  have haccounts := ofNat_indices h.accounts
  have hcount : indices.length = (s.getD 13 0).toNat := by
    rw [(Buffer.slice_eq_some h.window).2, List.length_map, List.length_range]
  have hflag : (if leg.direction then 1 else 0) = s.getD 3 0 := by
    have hflag := h.flag
    rw [h.direction]
    generalize s.getD 3 0 = b at hflag ⊢
    obtain hb | hb : b.toNat = 0 ∨ b.toNat = 1 := by omega
    · simp [UInt8.toNat_inj.mp (hb.trans UInt8.toNat_zero.symm)]
    · simp [UInt8.toNat_inj.mp (hb.trans UInt8.toNat_one.symm)]
  have hfour : d.slice cursor 4 = some [UInt8.ofNat leg.venue.toByte, .ofNat leg.source,
      .ofNat leg.destination, if leg.direction then 1 else 0] := by
    rw [Buffer.slice, if_pos (by omega), h.venue, h.source, h.destination, hflag]
    simp [hs, List.range_succ]
  have htwo : d.slice (cursor + 4 + 8) 2 = some [UInt8.ofNat leg.program, .ofNat indices.length] := by
    rw [Buffer.slice, if_pos (by omega), h.program, hcount]
    simp [hs, List.range_succ, Nat.add_assoc]
  have hslice := Buffer.slice_append hfour (Buffer.slice_append (u64At_eq_ok h.budget)
    (Buffer.slice_append htwo h.window))
  have hencode : leg.wire.encode = [UInt8.ofNat leg.venue.toByte, .ofNat leg.source,
      .ofNat leg.destination, if leg.direction then 1 else 0] ++ (Buffer.toBytes 8 leg.budget ++
      ([UInt8.ofNat leg.program, .ofNat indices.length] ++ indices)) := by
    rw [WireLeg.encode, Leg.wire, haccounts]
  have hlength : leg.wire.encode.length = 4 + (8 + (2 + (s.getD 13 0).toNat)) := by
    rw [hencode]
    simp [hcount]
    omega
  refine ⟨by rw [h.next, hlength]; omega, ?_⟩
  rw [hlength, hslice, hencode]

/-- Legs are the texts of what is read, up to the next cursor. -/
theorem slice_of_readLegs {count next : ℕ} {legs : {legs : List (Leg n k) // legs.length = count}}
    (hcursor : cursor ≤ d.size) (h : readLegs d n k count cursor = .ok (legs, next)) :
    next = cursor + ((legs.1.map Leg.wire).flatMap WireLeg.encode).length ∧
      d.slice cursor ((legs.1.map Leg.wire).flatMap WireLeg.encode).length =
        some ((legs.1.map Leg.wire).flatMap WireLeg.encode) := by
  induction count generalizing cursor next with
  | zero =>
    cases h
    simp [Buffer.slice, hcursor]
  | succ count ih =>
    obtain ⟨⟨leg, middle⟩, hleg, h⟩ := bind_eq_ok.mp h
    obtain ⟨⟨rest, last⟩, hrest, h⟩ := bind_eq_ok.mp h
    cases h
    obtain ⟨rfl, hfirst⟩ := slice_of_readLeg hleg
    obtain ⟨rfl, htail⟩ := ih (Buffer.slice_eq_some hfirst).1 hrest
    rw [List.map_cons, List.flatMap_cons, List.length_append]
    exact ⟨Nat.add_assoc _ _ _, Buffer.slice_append hfirst htail⟩

/-- A list of bytes is its only window of its length. -/
theorem slice_ofList_eq {bytes x : List UInt8}
    (h : (Buffer.ofList bytes).slice 0 bytes.length = some x) : x = bytes := by
  rw [Buffer.slice_ofList (by omega), Option.some.injEq] at h
  simpa using h.symm

/-- What `decode` reads. -/
structure GraphRead (d : Buffer) (g : Graph n) : Prop where
  size : 36 ≤ d.size
  opcode : (d.byte 0).toNat = 2 ∨ (d.byte 0).toNat = 4 ∨ (d.byte 0).toNat = 9
  calls : (d.byte 0).toNat ≠ 2 → 8 ≤ (d.byte 3).toNat
  fixed : (d.byte 0).toNat = 2 → (d.byte 3).toNat = 0
  assetCount : g.assetCount = (d.byte 1).toNat
  legCount : g.legs.length = (d.byte 2).toNat
  reflowCalls : g.reflowCalls = (d.byte 3).toNat
  sequence : u64At d 4 = .ok g.sequence
  input : u64At d 12 = .ok g.input
  minOut : u64At d 20 = .ok g.minOut
  deadline : u64At d 28 = .ok g.deadline
  assets : readAssets d n g.assetCount 36 = .ok g.assets
  seeded : (d.byte 0).toNat = 9 →
    u64At d (36 + 3 * g.assetCount) = .ok g.seedInput ∧ g.seedInput ≠ 0
  unseeded : (d.byte 0).toNat ≠ 9 → g.seedInput = 0
  legs : ∃ hlength, readLegs d n g.assetCount (d.byte 2).toNat
    (if (d.byte 0).toNat = 9 then 36 + 3 * g.assetCount + 8 else 36 + 3 * g.assetCount) =
      .ok (⟨g.legs, hlength⟩, d.size)

/-- Both branches go on alike. -/
theorem bind_ite {ε α β : Type} {c : Prop} [Decidable c] {x y : Except ε α} {f : α → Except ε β} :
    (if c then x >>= f else y >>= f) = (if c then x else y) >>= f := by
  split <;> rfl

theorem Graph.decode_eq_ok {g : Graph n} (h : Graph.decode d n = .ok g) : GraphRead d g := by
  obtain ⟨_, hsize, h⟩ := bind_eq_ok.mp h
  obtain ⟨_, hopcode, h⟩ := bind_eq_ok.mp h
  obtain ⟨_, hfixed, h⟩ := bind_eq_ok.mp h
  obtain ⟨hcalls, -, h⟩ := bind_eq_ok.mp h
  obtain ⟨_, -, h⟩ := bind_eq_ok.mp h
  obtain ⟨_, -, h⟩ := bind_eq_ok.mp h
  obtain ⟨_, -, h⟩ := bind_eq_ok.mp h
  obtain ⟨_, -, h⟩ := bind_eq_ok.mp h
  obtain ⟨sequence, hsequence, h⟩ := bind_eq_ok.mp h
  obtain ⟨input, hinput, h⟩ := bind_eq_ok.mp h
  obtain ⟨minOut, hminOut, h⟩ := bind_eq_ok.mp h
  obtain ⟨deadline, hdeadline, h⟩ := bind_eq_ok.mp h
  obtain ⟨_, -, h⟩ := bind_eq_ok.mp h
  obtain ⟨assets, hassets, h⟩ := bind_eq_ok.mp h
  have hfixed := accept_eq_ok.mp hfixed
  have hreflow : (if (d.byte 0).toNat ≠ 2 then (d.byte 3).toNat else 0) = (d.byte 3).toNat := by
    split
    · rfl
    · next hop => exact (hfixed (not_not.mp hop)).symm
  -- the seed is read for opcode 9 only
  rw [bind_ite] at h
  obtain ⟨seed, hseed, h⟩ := bind_eq_ok.mp h
  obtain ⟨_, hseeded, h⟩ := bind_eq_ok.mp h
  obtain ⟨_, -, h⟩ := bind_eq_ok.mp h
  obtain ⟨⟨⟨legs, hlength⟩, cursor⟩, hlegs, h⟩ := bind_eq_ok.mp h
  obtain ⟨_, -, h⟩ := bind_eq_ok.mp h
  obtain ⟨_, hend, h⟩ := bind_eq_ok.mp h
  cases h
  have hend := accept_eq_ok.mp hend
  subst hend
  exact {
    size := accept_eq_ok.mp hsize
    opcode := accept_eq_ok.mp hopcode
    calls := fun h => (hcalls.down h).1
    fixed := hfixed
    assetCount := rfl
    legCount := hlength
    reflowCalls := hreflow
    sequence := hsequence
    input := hinput
    minOut := hminOut
    deadline := hdeadline
    assets := hassets
    seeded := fun hop => ⟨by rwa [if_pos hop] at hseed, accept_eq_ok.mp hseeded hop⟩
    unseeded := fun hop => by
      rw [if_neg hop] at hseed
      exact (Except.ok.inj hseed).symm
    legs := ⟨hlength, hlegs⟩ }

namespace GraphRead

variable {g : Graph n}

theorem opcode_eq (h : GraphRead d g) : g.wire.opcode = d.byte 0 := by
  have hcalls := h.calls
  apply UInt8.toNat_inj.mp
  simp only [Graph.wire, h.reflowCalls]
  rcases h.opcode with hop | hop | hop
  · rw [if_pos (h.fixed hop), hop]
    rfl
  · rw [if_neg (by omega), if_pos (h.unseeded (by omega)), hop]
    rfl
  · rw [if_neg (by omega), if_neg (h.seeded hop).2, hop]
    rfl

/-- The four bytes at the front. -/
theorem slice_head (h : GraphRead d g) : d.slice 0 4 = some [g.wire.opcode,
    .ofNat g.wire.assets.length, .ofNat g.wire.legs.length, g.wire.calls] := by
  have hsize := h.size
  have hassets : UInt8.ofNat g.wire.assets.length = d.byte 1 := by
    simp [Graph.wire, h.assetCount]
  have hlegs : UInt8.ofNat g.wire.legs.length = d.byte 2 := by
    simp [Graph.wire, h.legCount]
  have hcalls : g.wire.calls = d.byte 3 := by
    simp [Graph.wire, h.reflowCalls]
  rw [Buffer.slice, if_pos (by omega), h.opcode_eq, hassets, hlegs, hcalls]
  simp [List.range_succ]

/-- The four numbers after them. -/
theorem slice_numbers (h : GraphRead d g) : d.slice 4 32 =
    some (Buffer.toBytes 8 g.sequence ++ (Buffer.toBytes 8 g.input ++
      (Buffer.toBytes 8 g.minOut ++ Buffer.toBytes 8 g.deadline))) :=
  Buffer.slice_append (u64At_eq_ok h.sequence) (Buffer.slice_append (u64At_eq_ok h.input)
    (Buffer.slice_append (u64At_eq_ok h.minOut) (u64At_eq_ok h.deadline)))

/-- The seed with the cursor behind it. -/
theorem slice_seed (h : GraphRead d g) (hcursor : 36 + 3 * g.assetCount ≤ d.size) :
    ∃ k, (if (d.byte 0).toNat = 9 then 36 + 3 * g.assetCount + 8 else 36 + 3 * g.assetCount) =
        36 + 3 * g.assetCount + k ∧ 36 + 3 * g.assetCount + k ≤ d.size ∧
      d.slice (36 + 3 * g.assetCount) k = some ((g.wire.seed.map (Buffer.toBytes 8)).getD []) := by
  by_cases hop : (d.byte 0).toNat = 9
  · obtain ⟨hread, hpos⟩ := h.seeded hop
    have hslice := u64At_eq_ok hread
    have hseed : g.wire.seed = some g.seedInput := if_neg hpos
    refine ⟨8, if_pos hop, (Buffer.slice_eq_some hslice).1, ?_⟩
    rw [hslice, hseed]
    rfl
  · have hseed : g.wire.seed = none := if_pos (h.unseeded hop)
    refine ⟨0, if_neg hop, hcursor, ?_⟩
    rw [Buffer.slice, if_pos (Nat.add_zero _ ▸ hcursor), hseed]
    rfl

end GraphRead

/-- `decode` accepts only the text of the graph that it returns. -/
theorem Graph.encode_of_decode {bytes : List UInt8} {g : Graph n}
    (h : Graph.decode (.ofList bytes) n = .ok g) : g.wire.encode = bytes := by
  have hread := Graph.decode_eq_ok h
  have hassets := slice_of_readAssets hread.size hread.assets
  obtain ⟨k, hk, hcursor, hseed⟩ := hread.slice_seed (Buffer.slice_eq_some hassets).1
  obtain ⟨hlength, hlegs⟩ := hread.legs
  rw [hk] at hlegs
  obtain ⟨hend, hlegs⟩ := slice_of_readLegs hcursor hlegs
  have hwhole := Buffer.slice_append hread.slice_head (Buffer.slice_append hread.slice_numbers
    (Buffer.slice_append hassets (Buffer.slice_append hseed hlegs)))
  apply slice_ofList_eq
  have hbytes : bytes.length = (Buffer.ofList bytes).size := rfl
  rw [hbytes, hend]
  refine Eq.trans ?_ hwhole
  congr 1
  omega

/-- What `readLeg` reads fits. -/
theorem fits_of_readLeg {leg : Leg n k} {next : ℕ} (h : readLeg d n k cursor = .ok (leg, next)) :
    leg.wire.Fits := by
  obtain ⟨s, indices, h⟩ := readLeg_eq_ok h
  refine ⟨u64At_lt h.budget, ?_⟩
  have hcount : indices.length = (s.getD 13 0).toNat := by
    rw [(Buffer.slice_eq_some h.window).2, List.length_map, List.length_range]
  rw [Leg.wire, ofNat_indices h.accounts, hcount]
  exact (s.getD 13 0).toNat_lt

theorem fits_of_readLegs {count next : ℕ} {legs : {legs : List (Leg n k) // legs.length = count}}
    (h : readLegs d n k count cursor = .ok (legs, next)) : ∀ leg ∈ legs.1, leg.wire.Fits := by
  induction count generalizing cursor next with
  | zero =>
    cases h
    exact fun leg hleg => absurd hleg List.not_mem_nil
  | succ count ih =>
    obtain ⟨⟨leg, middle⟩, hleg, h⟩ := bind_eq_ok.mp h
    obtain ⟨⟨rest, last⟩, hrest, h⟩ := bind_eq_ok.mp h
    cases h
    exact List.forall_mem_cons.mpr ⟨fits_of_readLeg hleg, ih hrest⟩

/-- The content of a decoded payload fits. -/
theorem Graph.fits_of_decode {g : Graph n} (h : Graph.decode d n = .ok g) : g.wire.Fits := by
  have hread := Graph.decode_eq_ok h
  have hassets : g.assetCount < 256 := hread.assetCount ▸ (d.byte 1).toNat_lt
  have hlegs : g.legs.length < 256 := hread.legCount ▸ (d.byte 2).toNat_lt
  have hseed : ∀ s ∈ g.wire.seed, s < u64Size := by
    intro s hs
    by_cases hop : (d.byte 0).toNat = 9
    · obtain ⟨hseed, hpos⟩ := hread.seeded hop
      have hsome : g.wire.seed = some g.seedInput := if_neg hpos
      rw [hsome] at hs
      exact Option.some.inj hs ▸ u64At_lt hseed
    · have hnone : g.wire.seed = none := if_pos (hread.unseeded hop)
      rw [hnone] at hs
      cases hs
  have hseeded : g.wire.seed.isSome ↔ g.wire.opcode = 9 := by
    rw [hread.opcode_eq]
    by_cases hop : (d.byte 0).toNat = 9
    · have hsome : g.wire.seed = some g.seedInput := if_neg (hread.seeded hop).2
      have hnine : d.byte 0 = 9 := UInt8.toNat_inj.mp hop
      simp [hsome, hnine]
    · have hnone : g.wire.seed = none := if_pos (hread.unseeded hop)
      have hnine : d.byte 0 ≠ 9 := fun h => hop (by rw [h]; rfl)
      simp [hnone, hnine]
  obtain ⟨hlength, hread'⟩ := hread.legs
  exact {
    sequence := u64At_lt hread.sequence
    input := u64At_lt hread.input
    minOut := u64At_lt hread.minOut
    deadline := u64At_lt hread.deadline
    assets := by simpa [Graph.wire] using hassets
    seed := hseed
    seeded := hseeded
    legs := by simpa [Graph.wire] using hlegs
    leg := by
      intro l hl
      obtain ⟨leg, hleg, rfl⟩ := List.mem_map.mp hl
      exact fits_of_readLegs hread' leg hleg }

/-- What is written is what is decoded. -/
theorem Graph.wire_of_decode {w : Wire} (hw : w.Fits) {g : Graph n}
    (h : Graph.decode (.ofList w.encode) n = .ok g) : g.wire = w :=
  Wire.encode_inj (Graph.fits_of_decode h) hw (Graph.encode_of_decode h)

end StockMesh

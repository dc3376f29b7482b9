import StockMesh.Adapters.GraphEncode
import StockMesh.Host.SwapRoundTrip
import Mathlib.Data.List.Perm.Subperm
import Mathlib.Data.List.Nodup

/-! # Graphs inside a larger instruction

A larger instruction carries graphs over its own account list. `metaIndex` finds an account in that list or
appends it, and `remapGraph` rewrites the indices of a payload in place. Rewriting goes through the text of
the payload (`Wire.map`): the new text is that of the graph over the other indices, and every index
stands for the key that it stood for. -/

namespace StockMesh.Host

open Journal (refuse_eq_ok)
open Settle (AccountMeta Instruction)
open SwapGraph (keys At keys_modify mem_modify)

/-! ## The source -/

/-- `meta`: the index of a key, with its flags added. -/
def metaIndex (accounts : List AccountMeta) (key : Key) (writable signer : Bool) :
    Answer (UInt8 × List AccountMeta) :=
  match accounts.findIdx? fun prior => decide (prior.key = key) with
  | some index => do
    let accounts := accounts.modify index fun prior =>
      { prior with isWritable := prior.isWritable || writable, isSigner := prior.isSigner || signer }
    refuse (256 ≤ index) "MeshFill account index"
    .ok (.ofNat index, accounts)
  | none => do
    refuse (64 ≤ accounts.length) "MeshFill account bound"
    .ok (.ofNat accounts.length, accounts ++ [⟨key, signer, writable⟩])

/-- One account of the first loop of `remap_graph`. -/
def remapAccount (state : List UInt8 × List AccountMeta) (account : AccountMeta) :
    Answer (List UInt8 × List AccountMeta) := do
  let (index, accounts) ← metaIndex state.2 account.key account.isWritable account.isSigner
  .ok (state.1 ++ [index], accounts)

/-- `data[cursor] = *remap.get(data[cursor] as usize).ok_or(message)?`. -/
def rewriteIndex (remap : List UInt8) (message : String) (data : List UInt8) (cursor : ℕ) :
    Answer (List UInt8) := do
  -- a panic in the source
  let index ← present data[cursor]? "index out of bounds"
  let mapped ← present remap[index.toNat]? message
  .ok (data.set cursor mapped)

/-- One leg of `remap_graph`, with the cursor behind it. -/
def remapLeg (remap : List UInt8) (state : List UInt8 × ℕ) : Answer (List UInt8 × ℕ) := do
  let (data, cursor) := state
  let data ← rewriteIndex remap "MeshFill residual program index" data (cursor + 12)
  let count ← present data[cursor + 13]? "index out of bounds"
  -- `skip` and `take` stop at the end of the data
  let places := (List.range' (cursor + 14) count.toNat).filter (· < data.length)
  let data ← places.foldlM (rewriteIndex remap "MeshFill residual CPI index") data
  .ok (data, cursor + (14 + count.toNat))

/-- `remap_graph`. -/
def remapGraph (graph : Instruction) (accounts : List AccountMeta) : Answer (List UInt8 × List AccountMeta) := do
  let decoded ← (Graph.decode (.ofList graph.data) graph.accounts.length).mapError fun _ => "MeshFill residual graph"
  let (remap, accounts) ← graph.accounts.foldlM remapAccount ([], accounts)
  let data ← (List.range decoded.assetCount).foldlM (fun data asset =>
    (List.range 3).foldlM (fun data offset =>
      rewriteIndex remap "MeshFill residual asset index" data (36 + asset * 3 + offset)) data) graph.data
  let cursor := 36 + decoded.assetCount * 3
  let cursor := if data.getD 0 0 = 9 then cursor + 8 else cursor
  let (data, cursor) ← (List.range decoded.legs.length).foldlM (fun state _ => remapLeg remap state) (data, cursor)
  refuse (cursor ≠ data.length) "MeshFill residual trailing data"
  .ok (data, accounts)

/-! ## The account list -/

/-- A flag of the accounts is raised where the list had it or an added account asks for it. -/
def Raised (flag : AccountMeta → Bool) (accounts added merged : List AccountMeta) : Prop :=
  ∀ m ∈ merged, flag m = true ↔
    (∃ p ∈ accounts, p.key = m.key ∧ flag p = true) ∨ ∃ a ∈ added, a.key = m.key ∧ flag a = true

/-- An account list after accounts were looked up in it. -/
structure Merged (accounts added merged : List AccountMeta) : Prop where
  grows : keys accounts <+: keys merged
  nodup : (keys merged).Nodup
  listed : ∀ a ∈ added, a.key ∈ keys merged
  signer : Raised AccountMeta.isSigner accounts added merged
  writable : Raised AccountMeta.isWritable accounts added merged
  size : merged.length ≤ max accounts.length maxAccounts

section

variable {accounts added merged : List AccountMeta} {flag : AccountMeta → Bool} {a : AccountMeta}

theorem merged_start (h : (keys accounts).Nodup) : Merged accounts [] accounts where
  grows := List.prefix_rfl
  nodup := h
  listed a ha := absurd ha List.not_mem_nil
  signer m hm := ⟨fun hflag => .inl ⟨m, hm, rfl, hflag⟩, fun hraised => by
    obtain ⟨p, hp, hkey, hflag⟩ | ⟨_, ha, -⟩ := hraised
    · exact List.inj_on_of_nodup_map h hp hm hkey ▸ hflag
    · exact absurd ha List.not_mem_nil⟩
  writable m hm := ⟨fun hflag => .inl ⟨m, hm, rfl, hflag⟩, fun hraised => by
    obtain ⟨p, hp, hkey, hflag⟩ | ⟨_, ha, -⟩ := hraised
    · exact List.inj_on_of_nodup_map h hp hm hkey ▸ hflag
    · exact absurd ha List.not_mem_nil⟩
  size := le_max_left _ _

/-- An account of the list takes the flags of the added one. -/
theorem Raised.modify (h : Raised flag accounts added merged) (hnodup : (keys merged).Nodup) {j : ℕ}
    (hj : j < merged.length) (hkey : merged[j].key = a.key) {f : AccountMeta → AccountMeta}
    (hf : ∀ m, (f m).key = m.key) (hflag : ∀ m, flag (f m) = (flag m || flag a)) :
    Raised flag accounts (added ++ [a]) (merged.modify j f) := by
  intro m hm
  obtain rfl | ⟨hold, hne⟩ := mem_modify hnodup hj hm
  · rw [hflag, hf, Bool.or_eq_true, h _ (List.getElem_mem hj), hkey]
    simp [or_assoc]
  · rw [hkey] at hne
    rw [h m hold]
    simp [hne.symm]

/-- A new account comes with its own flags. -/
theorem Raised.append (h : Raised flag accounts added merged) (hgrows : keys accounts <+: keys merged)
    (hlisted : ∀ b ∈ added, b.key ∈ keys merged) (hnew : a.key ∉ keys merged) :
    Raised flag accounts (added ++ [a]) (merged ++ [a]) := by
  intro m hm
  obtain hm | hm := List.mem_append.mp hm
  · have hne : a.key ≠ m.key := fun heq => hnew (heq ▸ List.mem_map_of_mem hm)
    rw [h m hm]
    simp [hne]
  · obtain rfl := List.mem_singleton.mp hm
    have hold : ∀ p ∈ accounts, p.key ≠ m.key := fun p hp heq =>
      hnew (heq ▸ hgrows.subset (List.mem_map_of_mem hp))
    have hadded : ∀ b ∈ added, b.key ≠ m.key := fun b hb heq => hnew (heq ▸ hlisted b hb)
    constructor
    · intro hflag
      exact .inr ⟨m, List.mem_append_right _ List.mem_cons_self, rfl, hflag⟩
    · rintro (⟨p, hp, hkey, -⟩ | ⟨b, hb, hkey, hflag⟩)
      · exact absurd hkey (hold p hp)
      · obtain hb | hb := List.mem_append.mp hb
        · exact absurd hkey (hadded b hb)
        · exact List.mem_singleton.mp hb ▸ hflag

/-- One account is looked up. -/
theorem Merged.metaIndex (h : Merged accounts added merged) {i : UInt8} {merged' : List AccountMeta}
    (hindex : metaIndex merged a.key a.isWritable a.isSigner = .ok (i, merged')) :
    Merged accounts (added ++ [a]) merged' ∧ keys merged <+: keys merged' ∧ At (keys merged') i a.key := by
  unfold StockMesh.Host.metaIndex at hindex
  cases hfind : merged.findIdx? fun prior => decide (prior.key = a.key) with
  | some j =>
    rw [hfind] at hindex
    obtain ⟨_, hlt, hindex⟩ := bind_eq_ok.mp hindex
    cases hindex
    rw [refuse_eq_ok, not_le] at hlt
    obtain ⟨hj, hkey, -⟩ := List.findIdx?_eq_some_iff_getElem.mp hfind
    have hkey : merged[j].key = a.key := of_decide_eq_true hkey
    have hkeys : keys (merged.modify j fun prior => { prior with
        isWritable := prior.isWritable || a.isWritable, isSigner := prior.isSigner || a.isSigner }) = keys merged :=
      keys_modify j fun _ => rfl
    have hat : At (keys merged) (.ofNat j) a.key := by
      rw [At, UInt8.toNat_ofNat_of_lt' hlt, keys, List.getElem?_map, List.getElem?_eq_getElem hj, Option.map_some,
        hkey]
    refine ⟨?_, hkeys ▸ List.prefix_rfl, hkeys ▸ hat⟩
    exact {
      grows := hkeys ▸ h.grows
      nodup := hkeys ▸ h.nodup
      listed := by
        intro b hb
        rw [hkeys]
        obtain hb | hb := List.mem_append.mp hb
        · exact h.listed b hb
        · obtain rfl := List.mem_singleton.mp hb
          exact List.mem_map.mpr ⟨_, List.getElem_mem hj, hkey⟩
      signer := h.signer.modify h.nodup hj hkey (fun _ => rfl) fun _ => rfl
      writable := h.writable.modify h.nodup hj hkey (fun _ => rfl) fun _ => rfl
      size := by simpa using h.size }
  | none =>
    rw [hfind] at hindex
    obtain ⟨_, hsize, hindex⟩ := bind_eq_ok.mp hindex
    cases hindex
    rw [refuse_eq_ok, not_le] at hsize
    have hnew : a.key ∉ keys merged := by
      intro hmem
      obtain ⟨m, hm, hkey⟩ := List.mem_map.mp hmem
      simpa [hkey] using List.findIdx?_eq_none_iff.mp hfind m hm
    have hkeys : keys (merged ++ [a]) = keys merged ++ [a.key] := by simp [keys]
    have hat : At (keys (merged ++ [a])) (.ofNat merged.length) a.key := by
      have hlt : merged.length < 256 := hsize.trans (by decide)
      rw [At, UInt8.toNat_ofNat_of_lt' hlt, hkeys]
      simp [keys]
    refine ⟨?_, hkeys ▸ List.prefix_append _ _, hat⟩
    exact {
      grows := hkeys ▸ h.grows.trans (List.prefix_append _ _)
      nodup := by
        rw [hkeys]
        exact h.nodup.append (List.nodup_singleton _) (by simpa using hnew)
      listed := by
        intro b hb
        rw [hkeys]
        obtain hb | hb := List.mem_append.mp hb
        · exact List.mem_append_left _ (h.listed b hb)
        · obtain rfl := List.mem_singleton.mp hb
          exact List.mem_append_right _ (List.mem_singleton_self _)
      signer := h.signer.append h.grows h.listed hnew
      writable := h.writable.append h.grows h.listed hnew
      size := by
        rw [List.length_append]
        exact le_max_of_le_right hsize }

/-- All the accounts are looked up, and every index stands for the key of its account. -/
theorem Merged.foldlM (h : Merged accounts added merged) {graph : List AccountMeta} {remap : List UInt8}
    {out : List UInt8 × List AccountMeta} (hout : graph.foldlM remapAccount (remap, merged) = .ok out) :
    Merged accounts (added ++ graph) out.2 ∧ keys merged <+: keys out.2 ∧
      ∃ indices, out.1 = remap ++ indices ∧ List.Forall₂ (At (keys out.2)) indices (keys graph) := by
  induction graph generalizing added merged remap with
  | nil =>
    cases hout
    exact ⟨by simpa using h, List.prefix_rfl, [], by simp, .nil⟩
  | cons a graph ih =>
    rw [List.foldlM_cons] at hout
    obtain ⟨_, hstep, hout⟩ := bind_eq_ok.mp hout
    obtain ⟨⟨i, merged'⟩, hindex, hstep⟩ := bind_eq_ok.mp hstep
    cases hstep
    obtain ⟨h', hgrows, hat⟩ := h.metaIndex hindex
    obtain ⟨hall, hmore, indices, hremap, hats⟩ := ih h' hout
    refine ⟨by simpa using hall, hgrows.trans hmore, i :: indices, by simp [hremap], ?_⟩
    exact .cons (hat.mono hmore) hats

end

/-! ## The text -/

/-- The index that stands for an index. -/
def mapped (remap : List UInt8) (b : UInt8) : UInt8 := remap.getD b.toNat 0

section

variable {remap : List UInt8} (message : String)

/-- One index is rewritten in its place. -/
theorem rewriteIndex_eq (front back : List UInt8) {b : UInt8} (hb : b.toNat < remap.length) :
    rewriteIndex remap message (front ++ b :: back) front.length = .ok (front ++ mapped remap b :: back) := by
  have hget : (front ++ b :: back)[front.length]? = some b := by simp
  have hmapped : remap[b.toNat]? = some (mapped remap b) := by
    rw [mapped, List.getD_eq_getElem?_getD, List.getElem?_eq_getElem hb]
    rfl
  rw [rewriteIndex, hget, present, ok_bind, hmapped, present, ok_bind]
  simp

/-- A run of indices is rewritten in its place. -/
theorem foldlM_rewriteIndex (front bytes back : List UInt8) (hbytes : ∀ b ∈ bytes, b.toNat < remap.length) :
    (List.range' front.length bytes.length).foldlM (rewriteIndex remap message) (front ++ (bytes ++ back)) =
      .ok (front ++ (bytes.map (mapped remap) ++ back)) := by
  induction bytes generalizing front with
  | nil => rfl
  | cons b bytes ih =>
    obtain ⟨hb, hrest⟩ := List.forall_mem_cons.mp hbytes
    have hnext := ih (front ++ [mapped remap b]) hrest
    simp only [List.length_append, List.length_cons, List.length_nil, Nat.zero_add, List.append_assoc,
      List.cons_append, List.nil_append] at hnext
    rw [List.length_cons, List.range'_succ, List.foldlM_cons, List.cons_append, rewriteIndex_eq _ _ _ hb, ok_bind, hnext]
    simp

/-- Three places for each asset are one run of places. -/
theorem foldlM_assets (step : List UInt8 → ℕ → Answer (List UInt8)) (k : ℕ) (data : List UInt8) :
    (List.range k).foldlM (fun data asset => (List.range 3).foldlM (fun data offset =>
      step data (36 + asset * 3 + offset)) data) data = (List.range' 36 (3 * k)).foldlM step data := by
  induction k generalizing data with
  | zero => rfl
  | succ k ih =>
    have hrange : List.range' 36 (3 * (k + 1)) = List.range' 36 (3 * k) ++ List.range' (36 + 3 * k) 3 := by
      rw [Nat.mul_succ, ← List.range'_append_1]
    rw [List.range_succ (n := k), List.foldlM_append, ih, hrange, List.foldlM_append]
    refine bind_congr fun data' => ?_
    simp only [List.range_succ, List.range_zero, List.nil_append, List.cons_append, List.foldlM_cons, List.foldlM_nil,
      List.range'_succ, List.range'_zero, bind_pure, Nat.mul_comm k 3, Nat.add_zero, Nat.add_assoc, Nat.reduceAdd]

/-- The indices of a leg can be rewritten. -/
structure LegWithin (n : ℕ) (l : WireLeg) : Prop where
  program : l.program.toNat < n
  accounts : ∀ b ∈ l.accounts, b.toNat < n
  count : l.accounts.length < 256

/-- A leg is rewritten in its place. -/
theorem remapLeg_eq (front back : List UInt8) {l : WireLeg} (hl : LegWithin remap.length l) :
    remapLeg remap (front ++ (l.encode ++ back), front.length) =
      .ok (front ++ ((l.map (mapped remap)).encode ++ back), front.length + l.encode.length) := by
  obtain ⟨hprogram, haccounts, hcount⟩ := hl
  -- the bytes before the program, then the program, the count and the accounts
  have hencode : ∀ p accounts, ({ l with program := p, accounts := accounts } : WireLeg).encode =
      ([.ofNat l.venue.toByte, l.source, l.destination, if l.direction then 1 else 0] ++ Buffer.toBytes 8 l.budget) ++
        p :: .ofNat accounts.length :: accounts := by
    intro p accounts
    simp [WireLeg.encode]
  generalize hlead : [UInt8.ofNat l.venue.toByte, l.source, l.destination, if l.direction then 1 else 0] ++
    Buffer.toBytes 8 l.budget = lead at hencode
  have hlength : lead.length = 12 := by rw [← hlead]; simp
  have hplain : l.encode = lead ++ l.program :: .ofNat l.accounts.length :: l.accounts := hencode l.program l.accounts
  have hmapped : (l.map (mapped remap)).encode = lead ++ mapped remap l.program ::
      .ofNat l.accounts.length :: l.accounts.map (mapped remap) := by
    have h := hencode (mapped remap l.program) (l.accounts.map (mapped remap))
    rwa [List.length_map] at h
  have hcountByte : (UInt8.ofNat l.accounts.length).toNat = l.accounts.length := UInt8.toNat_ofNat_of_lt' hcount
  have hstart : (front ++ lead).length = front.length + 12 := by rw [List.length_append, hlength]
  have hfirst : rewriteIndex remap "MeshFill residual program index" (front ++ (l.encode ++ back))
      (front.length + 12) = .ok ((front ++ lead) ++ mapped remap l.program ::
        (.ofNat l.accounts.length :: l.accounts ++ back)) := by
    rw [← rewriteIndex_eq "MeshFill residual program index" (front ++ lead) _ hprogram, hstart, hplain]
    simp
  have hget : ((front ++ lead) ++ mapped remap l.program :: (.ofNat l.accounts.length :: l.accounts ++ back))[
      front.length + 13]? = some (.ofNat l.accounts.length) := by
    have hplace : front.length + 13 = (front ++ lead).length + 1 := by rw [hstart]
    rw [hplace, List.getElem?_append_right (Nat.le_add_right _ _), Nat.add_sub_cancel_left]
    rfl
  have hplaces : (List.range' (front.length + 14) l.accounts.length).filter (· <
      ((front ++ lead) ++ mapped remap l.program :: (UInt8.ofNat l.accounts.length :: l.accounts ++ back)).length) =
      List.range' (front.length + 14) l.accounts.length := by
    refine List.filter_eq_self.mpr fun i hi => ?_
    have hi := (List.mem_range'_1.mp hi).2
    simp only [List.length_append, List.length_cons, hlength, decide_eq_true_eq]
    omega
  have hrun := foldlM_rewriteIndex "MeshFill residual CPI index"
    (front ++ lead ++ [mapped remap l.program, .ofNat l.accounts.length]) l.accounts back haccounts
  have hbehind : (front ++ lead ++ [mapped remap l.program, UInt8.ofNat l.accounts.length]).length =
      front.length + 14 := by
    rw [List.length_append, hstart]
    rfl
  rw [hbehind] at hrun
  refine bind_eq_ok.mpr ⟨_, hfirst, bind_eq_ok.mpr ⟨_, present_eq_ok.mpr hget, ?_⟩⟩
  rw [hcountByte, hplaces]
  simp only [List.append_assoc, List.cons_append, List.nil_append] at hrun ⊢
  refine bind_eq_ok.mpr ⟨_, hrun, ?_⟩
  rw [hmapped, hplain]
  simp only [List.append_assoc, List.cons_append, List.length_append, List.length_cons, hlength]
  congr 2
  omega

/-- The legs are rewritten in their places. -/
theorem foldlM_remapLeg (front back : List UInt8) {legs : List WireLeg}
    (hlegs : ∀ l ∈ legs, LegWithin remap.length l) (rounds : List ℕ) (hrounds : rounds.length = legs.length) :
    rounds.foldlM (fun state _ => remapLeg remap state) (front ++ (legs.flatMap WireLeg.encode ++ back), front.length) =
      .ok (front ++ ((legs.map (WireLeg.map (mapped remap))).flatMap WireLeg.encode ++ back),
        front.length + (legs.flatMap WireLeg.encode).length) := by
  induction legs generalizing front rounds with
  | nil =>
    obtain rfl := List.eq_nil_of_length_eq_zero hrounds
    rfl
  | cons l legs ih =>
    obtain ⟨round, rounds, rfl⟩ := List.exists_cons_of_length_eq_add_one hrounds
    obtain ⟨hl, hrest⟩ := List.forall_mem_cons.mp hlegs
    have hsame : (l.map (mapped remap)).encode.length = l.encode.length := by
      simp [WireLeg.map, WireLeg.encode]
    have hnext := ih (front ++ (l.map (mapped remap)).encode) hrest rounds (by simpa using hrounds)
    rw [List.length_append, hsame] at hnext
    simp only [List.append_assoc] at hnext
    rw [List.foldlM_cons, List.flatMap_cons, List.append_assoc, remapLeg_eq _ _ hl, ok_bind, hnext, List.map_cons,
      List.flatMap_cons, List.length_append, List.append_assoc, Nat.add_assoc]

end

/-- The indices of a payload can be rewritten. -/
structure WireWithin (n : ℕ) (w : Wire) : Prop where
  assets : ∀ a ∈ w.assets, a.token.toNat < n ∧ a.mint.toNat < n ∧ a.program.toNat < n
  legs : ∀ l ∈ w.legs, LegWithin n l

/-- The bytes before the assets. -/
def wireHead (w : Wire) : List UInt8 :=
  [w.opcode, .ofNat w.assets.length, .ofNat w.legs.length, w.calls] ++
    (Buffer.toBytes 8 w.sequence ++ (Buffer.toBytes 8 w.input ++
      (Buffer.toBytes 8 w.minOut ++ Buffer.toBytes 8 w.deadline)))

/-- The bytes of the seed. -/
def wireSeed (w : Wire) : List UInt8 := (w.seed.map (Buffer.toBytes 8)).getD []

theorem encode_eq (w : Wire) : w.encode =
    wireHead w ++ (w.assets.flatMap WireAsset.encode ++ (wireSeed w ++ w.legs.flatMap WireLeg.encode)) := rfl

theorem map_encode_assets (f : UInt8 → UInt8) (assets : List WireAsset) :
    (assets.flatMap WireAsset.encode).map f = (assets.map (WireAsset.map f)).flatMap WireAsset.encode := by
  rw [List.map_flatMap, List.flatMap_map]
  rfl

/-- The loops of `remap_graph` rewrite the indices of a payload. -/
theorem rewrite_payload {remap : List UInt8} {n : ℕ} (hn : n = remap.length) {w : Wire} (hw : WireWithin n w)
    (hseed : w.opcode = 9 ↔ w.seed.isSome) {data : List UInt8} {cursor : ℕ} {data' : List UInt8}
    (hassets : (List.range w.assets.length).foldlM (fun data asset => (List.range 3).foldlM (fun data offset =>
      rewriteIndex remap "MeshFill residual asset index" data (36 + asset * 3 + offset)) data) w.encode = .ok data)
    (hlegs : (List.range w.legs.length).foldlM (fun state _ => remapLeg remap state)
      (data, if data.getD 0 0 = 9 then 36 + w.assets.length * 3 + 8 else 36 + w.assets.length * 3) =
        .ok (data', cursor)) : data' = (w.map (mapped remap)).encode := by
  subst hn
  have hhead : (wireHead w).length = 36 := by simp [wireHead]
  have hbytes : ∀ b ∈ w.assets.flatMap WireAsset.encode, b.toNat < remap.length := by
    intro b hb
    obtain ⟨a, ha, hb⟩ := List.mem_flatMap.mp hb
    obtain ⟨htoken, hmint, hprogram⟩ := hw.assets a ha
    simp only [WireAsset.encode, List.mem_cons, List.not_mem_nil, or_false] at hb
    obtain rfl | rfl | rfl := hb <;> assumption
  have hrun := foldlM_rewriteIndex "MeshFill residual asset index" (wireHead w) _
    (wireSeed w ++ w.legs.flatMap WireLeg.encode) hbytes
  rw [hhead, length_flatMap_assets, ← encode_eq, map_encode_assets] at hrun
  rw [foldlM_assets, hrun] at hassets
  cases hassets
  -- the cursor behind the seed
  have hfront : (wireHead w ++ ((w.assets.map (WireAsset.map (mapped remap))).flatMap WireAsset.encode ++
      wireSeed w)).length = if w.opcode = 9 then 36 + w.assets.length * 3 + 8 else 36 + w.assets.length * 3 := by
    rw [List.length_append, List.length_append, hhead, length_flatMap_assets, List.length_map, wireSeed]
    cases hsome : w.seed with
    | none =>
      rw [if_neg fun h => by simpa [hsome] using hseed.mp h]
      simp [Nat.mul_comm]
    | some n =>
      rw [if_pos (hseed.mpr (by rw [hsome]; rfl))]
      simp [Nat.mul_comm, Nat.add_assoc]
  have hopcode : (wireHead w ++ ((w.assets.map (WireAsset.map (mapped remap))).flatMap WireAsset.encode ++
      (wireSeed w ++ w.legs.flatMap WireLeg.encode))).getD 0 0 = w.opcode := rfl
  have hloop := foldlM_remapLeg (wireHead w ++ ((w.assets.map (WireAsset.map (mapped remap))).flatMap
    WireAsset.encode ++ wireSeed w)) [] hw.legs (List.range w.legs.length) (by rw [List.length_range])
  rw [hfront] at hloop
  simp only [List.append_nil, List.append_assoc] at hloop
  rw [hopcode, hloop] at hlegs
  cases hlegs
  simp [Wire.map, Wire.encode, wireHead, wireSeed]

/-! ## Graphs with keys -/

/-- An asset of a graph with the keys that its indices stand for. -/
structure KeyedAsset where
  token : Key
  mint : Key
  program : Key
  deriving DecidableEq

/-- A leg with the keys that its indices stand for. -/
structure KeyedLeg where
  venue : Venue
  source : ℕ
  destination : ℕ
  direction : Bool
  budget : ℕ
  program : Key
  accounts : List Key
  deriving DecidableEq

/-- A graph with the keys that its indices stand for. -/
structure KeyedGraph where
  sequence : ℕ
  input : ℕ
  minOut : ℕ
  deadline : ℕ
  assets : List KeyedAsset
  legs : List KeyedLeg
  reflowCalls : ℕ
  seedInput : ℕ
  deriving DecidableEq

/-- A graph over accounts with the keys of the accounts. -/
def resolveGraph {n : ℕ} (key : Fin n → Key) (g : Graph n) : KeyedGraph where
  sequence := g.sequence
  input := g.input
  minOut := g.minOut
  deadline := g.deadline
  assets := List.ofFn fun i => ⟨key (g.assets i).token, key (g.assets i).mint, key (g.assets i).program⟩
  legs := g.legs.map fun l =>
    ⟨l.venue, l.source, l.destination, l.direction, l.budget, key l.program, l.accounts.map key⟩
  reflowCalls := g.reflowCalls
  seedInput := g.seedInput

/-- Renamed accounts with the same keys. -/
theorem resolveGraph_map {n m : ℕ} {key : Fin n → Key} {key' : Fin m → Key} {φ : Fin n → Fin m}
    (hkey : ∀ i, key' (φ i) = key i) (g : Graph n) (hsix : 6 ≤ m) (hmax : m ≤ maxAccounts) :
    resolveGraph key' (g.map φ hsix hmax) = resolveGraph key g := by
  have haccounts : key' ∘ φ = key := funext hkey
  simp [resolveGraph, Graph.map, Leg.map, Asset.map, hkey, haccounts, Function.comp_def]

/-! ## Remapping commutes with decoding -/

/-- The indices of a decoded graph are below its account count. -/
theorem wireWithin_of_decode {n : ℕ} {d : Buffer} {g : Graph n} (h : Graph.decode d n = .ok g) :
    WireWithin n g.wire := by
  have hlt : ∀ i : Fin n, (UInt8.ofNat i).toNat < n := fun i =>
    indexAt_eq_ok.mp (indexAt_ofNat g.accounts_le i) ▸ i.isLt
  constructor
  · intro a ha
    obtain ⟨i, rfl⟩ := (List.mem_ofFn' _ _).mp ha
    exact ⟨hlt _, hlt _, hlt _⟩
  · intro l hl
    have hfits := (Graph.fits_of_decode h).leg l hl
    obtain ⟨leg, hleg, rfl⟩ := List.mem_map.mp hl
    refine ⟨hlt _, fun b hb => ?_, hfits.accounts⟩
    obtain ⟨i, hi, rfl⟩ := List.mem_map.mp hb
    exact hlt i

/-- What a successful remapping did. -/
structure Remapped (graph : Instruction) (accounts : List AccountMeta) (g : Graph graph.accounts.length)
    (remap data : List UInt8) (accounts' : List AccountMeta) : Prop where
  merged : Merged accounts graph.accounts accounts'
  indices : List.Forall₂ (At (keys accounts')) remap (keys graph.accounts)
  data_eq : data = (g.wire.map (mapped remap)).encode

theorem remapGraph_eq_ok {graph : Instruction} {accounts accounts' : List AccountMeta} {data : List UInt8}
    {g : Graph graph.accounts.length} (hdecode : Graph.decode (.ofList graph.data) graph.accounts.length = .ok g)
    (haccounts : (keys accounts).Nodup) (h : remapGraph graph accounts = .ok (data, accounts')) :
    ∃ remap, Remapped graph accounts g remap data accounts' := by
  unfold remapGraph at h
  rw [hdecode] at h
  obtain ⟨decoded, hsame, h⟩ := bind_eq_ok.mp h
  cases hsame
  obtain ⟨⟨remap, merged⟩, hfold, h⟩ := bind_eq_ok.mp h
  obtain ⟨data1, hassets, h⟩ := bind_eq_ok.mp h
  obtain ⟨⟨data2, cursor⟩, hlegs, h⟩ := bind_eq_ok.mp h
  obtain ⟨_, -, h⟩ := bind_eq_ok.mp h
  cases h
  obtain ⟨hmerged, -, indices, hremap, hindices⟩ := (merged_start haccounts).foldlM hfold
  simp only [List.nil_append] at hremap hmerged hindices
  subst hremap
  have hlength : remap.length = graph.accounts.length := by
    rw [hindices.length_eq, keys, List.length_map]
  have hseed : g.wire.opcode = 9 ↔ g.wire.seed.isSome := (Graph.fits_of_decode hdecode).seeded.symm
  have hassetCount : g.wire.assets.length = g.assetCount := List.length_ofFn
  have hlegCount : g.wire.legs.length = g.legs.length := List.length_map _
  refine ⟨remap, hmerged, hindices, ?_⟩
  rw [← Graph.encode_of_decode hdecode, ← hassetCount] at hassets
  rw [← hlegCount, ← hassetCount] at hlegs
  exact rewrite_payload hlength.symm (wireWithin_of_decode hdecode) hseed hassets hlegs

/-- Lists of keys that are places of each other. -/
theorem Remapped.at {graph : Instruction} {accounts accounts' : List AccountMeta} {remap data : List UInt8}
    {g : Graph graph.accounts.length} (h : Remapped graph accounts g remap data accounts')
    (i : Fin graph.accounts.length) :
    At (keys accounts') (mapped remap (.ofNat i)) (keyOf graph.accounts i) := by
  have hi : (i : ℕ) < remap.length := by
    rw [h.indices.length_eq, keys, List.length_map]
    exact i.isLt
  have hat := h.indices.get hi (by rw [keys, List.length_map]; exact i.isLt)
  have hbyte := indexAt_eq_ok.mp (indexAt_ofNat g.accounts_le i)
  have hmapped : mapped remap (.ofNat i) = remap.get ⟨i, hi⟩ := by
    rw [mapped, ← hbyte, List.getD_eq_getElem?_getD, List.getElem?_eq_getElem hi]
    rfl
  rw [hmapped]
  simpa [keys, keyOf] using hat

/-- **Remapping commutes with decoding.** The remapped payload decodes over the longer account list, and every
index stands for the key that it stood for. The parent's indices keep their keys, and the flags of a key are
raised where the parent or the graph raises them. -/
theorem remap_graph_commutes {graph : Instruction} {accounts accounts' : List AccountMeta} {data : List UInt8}
    {g : Graph graph.accounts.length} (hdecode : Graph.decode (.ofList graph.data) graph.accounts.length = .ok g)
    (hgraph : (keys graph.accounts).Nodup) (haccounts : (keys accounts).Nodup)
    (hfront : (keys accounts).take 2 = (keys graph.accounts).take 2) (hsize : accounts.length ≤ maxAccounts)
    (h : remapGraph graph accounts = .ok (data, accounts')) :
    (∃ g', Graph.decode (.ofList data) accounts'.length = .ok g' ∧
      resolveGraph (keyOf accounts') g' = resolveGraph (keyOf graph.accounts) g) ∧
    keys accounts <+: keys accounts' ∧ (keys accounts').Nodup ∧
    Raised AccountMeta.isSigner accounts graph.accounts accounts' ∧
    Raised AccountMeta.isWritable accounts graph.accounts accounts' := by
  obtain ⟨remap, hremapped⟩ := remapGraph_eq_ok hdecode haccounts h
  have hmerged := hremapped.merged
  refine ⟨?_, hmerged.grows, hmerged.nodup, hmerged.signer, hmerged.writable⟩
  have hat := hremapped.at
  have hsix : 6 ≤ accounts'.length := by
    have hsub : (keys graph.accounts).Subperm (keys accounts') :=
      List.subperm_of_subset hgraph fun key hkey => by
        obtain ⟨a, ha, rfl⟩ := List.mem_map.mp hkey
        exact hmerged.listed a ha
    have hle := hsub.length_le
    rw [keys, List.length_map, keys, List.length_map] at hle
    exact g.accounts_ge.trans hle
  have hmax : accounts'.length ≤ maxAccounts := hmerged.size.trans (max_le hsize le_rfl)
  -- the renaming of the accounts
  have hlt : ∀ i : Fin graph.accounts.length, (mapped remap (.ofNat i)).toNat < accounts'.length := by
    intro i
    have hi := (List.getElem?_eq_some_iff.mp (hat i)).1
    rwa [keys, List.length_map] at hi
  let φ : Fin graph.accounts.length → Fin accounts'.length := fun i => ⟨(mapped remap (.ofNat i)).toNat, hlt i⟩
  have hkey : ∀ i, keyOf accounts' (φ i) = keyOf graph.accounts i := by
    intro i
    have hi := (List.getElem?_eq_some_iff.mp (hat i)).2
    simpa [keys, keyOf, φ] using hi
  -- the wallet and its nonce stand first in both lists
  have hplace : ∀ (i : Fin graph.accounts.length) (j : ℕ), j < 2 → (φ i : ℕ) = j → (i : ℕ) = j := by
    intro i j hj hij
    have hjn : j < graph.accounts.length := hj.trans_le (le_trans (by decide) g.accounts_ge)
    have hgraph_j : (keys graph.accounts)[j]? = some (keyOf graph.accounts ⟨j, hjn⟩) := by
      rw [keys, List.getElem?_map, List.getElem?_eq_getElem hjn]
      rfl
    have htake : (keys accounts)[j]? = (keys graph.accounts)[j]? := by
      have hsame := congrArg (·[j]?) hfront
      simpa only [List.getElem?_take, if_pos hj] using hsame
    have hmerged_j : (keys accounts')[j]? = some (keyOf graph.accounts ⟨j, hjn⟩) := by
      obtain ⟨more, hmore⟩ := hmerged.grows
      have hlong := (List.getElem?_eq_some_iff.mp (htake.trans hgraph_j)).1
      rw [← hmore, List.getElem?_append_left hlong, htake, hgraph_j]
    have hi := hat i
    have hbyte : (mapped remap (.ofNat i)).toNat = j := hij
    rw [At, hbyte, hmerged_j, Option.some.injEq] at hi
    have hsame : (keys graph.accounts)[j]? = (keys graph.accounts)[(i : ℕ)]? := by
      rw [hgraph_j, hi, keys, List.getElem?_map, List.getElem?_eq_getElem i.isLt]
      rfl
    exact ((List.getElem?_inj (by simpa [keys] using hjn) hgraph).mp hsame).symm
  have he : (g.map φ hsix hmax).Encodable :=
    (Graph.encodable_of_decode hdecode).map
      (fun i hi => by
        by_contra hlow
        have := hplace i (φ i) (by omega) rfl
        omega)
      fun i hi hone => hi (hplace i 1 (by decide) hone)
  have hf : ∀ i : Fin graph.accounts.length, mapped remap (.ofNat i) = .ofNat (φ i) := fun i =>
    (UInt8.ofNat_toNat).symm
  refine ⟨g.map φ hsix hmax, ?_, resolveGraph_map hkey g hsix hmax⟩
  rw [hremapped.data_eq, ← Graph.wire_map hf]
  exact Graph.decode_encode he

section

open TwoPools

/-- A parent list that has some of the accounts of the swap, one of them without its flag. -/
def exampleParent : List AccountMeta :=
  [⟨owner, true, false⟩, ⟨nonce, false, true⟩, ⟨.ofNat 99, false, true⟩, ⟨.ofNat 61, false, false⟩,
    ⟨.ofNat 20, false, false⟩]

theorem nodup_ofNat {ms : List ℕ} (h : ∀ m ∈ ms, m < 256 ^ 32) (hnodup : ms.Nodup) :
    (ms.map Key.ofNat).Nodup := by
  refine List.Nodup.map_on (fun m hm n hn hkey => ?_) hnodup
  rw [← Key.number_ofNat (h m hm), hkey, Key.number_ofNat (h n hn)]

/-- The numbers of the keys of the swap. -/
def instructionNumbers : List ℕ := [1, 2, 10, 20,
  0x6ddf6e1d765a193d9cbe146ceeb79ac1cb485ed5f5b37913a8cf5857eff00a9, 11, 21, 12, 22,
  0x4bd949c43602c33f207790ed16a3524ca1b9975cf121a2a90cffec7df8b68acd, 30, 40, 50, 60, 31, 41, 51, 61]

theorem nodup_instruction : (keys instruction.accounts).Nodup := by
  have hkeys : keys instruction.accounts = instructionNumbers.map Key.ofNat := rfl
  rw [hkeys]
  exact nodup_ofNat (by decide) (by decide)

/-- The swap behind accounts of its parent. -/
theorem remap_graph_commutes_example : ∃ g data accounts', ∃ g' : Graph accounts'.length,
    Graph.decode (.ofList instruction.data) instruction.accounts.length = .ok g ∧
    remapGraph instruction exampleParent = .ok (data, accounts') ∧
    Graph.decode (.ofList data) accounts'.length = .ok g' ∧
    resolveGraph (keyOf accounts') g' = resolveGraph (keyOf instruction.accounts) g := by
  have hdecode : ∃ g, Graph.decode (.ofList instruction.data) instruction.accounts.length = .ok g :=
    exists_of_isOk (by decide +kernel)
  have hremap : ∃ out, remapGraph instruction exampleParent = .ok out := exists_of_isOk (by decide +kernel)
  obtain ⟨g, hdecode⟩ := hdecode
  obtain ⟨⟨data, accounts'⟩, hremap⟩ := hremap
  obtain ⟨⟨g', hdecode', hsame⟩, -⟩ := remap_graph_commutes hdecode nodup_instruction (by decide)
    (by decide) (by decide) hremap
  exact ⟨g, data, accounts', g', hdecode, hremap, hdecode', hsame⟩

/-- The accounts of the swap, and others up to 65. -/
def crowdedParent : List AccountMeta :=
  instruction.accounts ++ (List.range 47).map fun i => ⟨.ofNat (1000 + i), false, false⟩

theorem nodup_crowdedParent : (keys crowdedParent).Nodup := by
  have hkeys : keys crowdedParent =
      (instructionNumbers ++ (List.range 47).map (1000 + ·)).map Key.ofNat := rfl
  rw [hkeys]
  exact nodup_ofNat (by decide) (by decide +kernel)

/-- A parent list that is too long for a graph is only found out by decoding. -/
theorem remap_graph_crowded : ∃ (accounts accounts' : List AccountMeta) (data : List UInt8)
    (g : Graph instruction.accounts.length),
    Graph.decode (.ofList instruction.data) instruction.accounts.length = .ok g ∧
    (keys instruction.accounts).Nodup ∧ (keys accounts).Nodup ∧
    (keys accounts).take 2 = (keys instruction.accounts).take 2 ∧
    remapGraph instruction accounts = .ok (data, accounts') ∧
    ∀ g', Graph.decode (.ofList data) accounts'.length ≠ .ok g' := by
  have hdecode : ∃ g, Graph.decode (.ofList instruction.data) instruction.accounts.length = .ok g :=
    exists_of_isOk (by decide +kernel)
  have hremap : ∃ out, remapGraph instruction crowdedParent = .ok out := exists_of_isOk (by decide +kernel)
  obtain ⟨g, hdecode⟩ := hdecode
  obtain ⟨⟨data, accounts'⟩, hremap⟩ := hremap
  have hnodup := nodup_crowdedParent
  refine ⟨crowdedParent, accounts', data, g, hdecode, nodup_instruction, hnodup, by decide, hremap,
    fun g' _ => ?_⟩
  -- a graph has 64 accounts at most
  obtain ⟨remap, hremapped⟩ := remapGraph_eq_ok hdecode hnodup hremap
  have hlong := hremapped.merged.grows.length_le
  rw [keys, List.length_map, keys, List.length_map] at hlong
  have hcrowded : crowdedParent.length = 65 := rfl
  have hmax : maxAccounts = 64 := rfl
  have hle := g'.accounts_le
  omega

end

end StockMesh.Host

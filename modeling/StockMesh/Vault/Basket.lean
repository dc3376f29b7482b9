import StockMesh.Vault.Exchange

/-! # Baskets on the ledger

The view of a config account as a basket (`Basket`): its constituents, its vaults under the authority of
the config, and the backing of every share. `initializeBasket` makes one, and every step that leaves the
authority alone keeps it. -/

namespace StockMesh.Vault

open Settle (Account Ledger tokenId tokenAmount zeroWindow)

/-- The share mint of a config. -/
def shareKey (cfg : Buffer) : Key := (keyOf cfg 8).getD Settle.systemId

/-- The mint of constituent `i`. -/
def mintKey (cfg : Buffer) (i : ℕ) : Key := (keyOf cfg (header + i * legSize)).getD Settle.systemId

/-- The vault of constituent `i`. -/
def vaultKey (cfg : Buffer) (i : ℕ) : Key := (keyOf cfg (header + i * legSize + 32)).getD Settle.systemId

/-- The units of constituent `i` in one share atom. -/
def unitsOf (cfg : Buffer) (i : ℕ) : ℕ := (cfg.number (header + i * legSize + 64) 8).getD 0

/-- A config account. -/
def IsBasket (rt : Runtime) (l : Ledger) (c : Key) : Prop :=
  (l c).owner = rt.program ∧ (l c).data.slice 0 8 = some magic

/-- The accounts of a basket. -/
def basketKeys (rt : Runtime) (c : Key) (cfg : Buffer) : List Key :=
  [c, rt.authority c, shareKey cfg, tokenId] ++
    (List.range (legCount cfg)).flatMap fun i => [mintKey cfg i, vaultKey cfg i]

/-- A well-formed basket whose shares are backed. -/
structure Basket (rt : Runtime) (l : Ledger) (c : Key) (cfg : Buffer) : Prop where
  executable : (l c).executable = false
  version : cfg.byte 107 = 1
  count : 2 ≤ legCount cfg ∧ legCount cfg ≤ 16
  size : cfg.size = header + legCount cfg * legSize
  bump : cfg.byte 104 = (rt.find c).2
  nodup : (basketKeys rt c cfg).Nodup
  share : Issues l (shareKey cfg) (rt.authority c) (cfg.byte 106)
  mint : ∀ i < legCount cfg, IsMint l (mintKey cfg i)
  units_pos : ∀ i < legCount cfg, 0 < unitsOf cfg i
  vault : ∀ i < legCount cfg, Plain l (vaultKey cfg i) (mintKey cfg i) (rt.authority c)
  solvent : ∀ i < legCount cfg,
    supplyAt l (shareKey cfg) * unitsOf cfg i ≤ tokenAmount l (vaultKey cfg i)

/-- A step that takes nothing from the authority of a basket keeps it backed. -/
theorem Basket.mono {rt : Runtime} {l l' : Ledger} {c : Key} {cfg : Buffer} {P : Key → Prop}
    (h : Basket rt l c cfg) (hstep : Untouched P l l') (hP : P (rt.authority c))
    (hexecutable : (l' c).executable = (l c).executable) : Basket rt l' c cfg where
  executable := hexecutable.trans h.executable
  version := h.version
  count := h.count
  size := h.size
  bump := h.bump
  nodup := h.nodup
  share := (hstep.issues _ _ _ hP h.share).1
  mint i hi := (hstep.mint _ (h.mint i hi)).1
  units_pos := h.units_pos
  vault i hi := (hstep.plain _ _ _ hP (h.vault i hi)).1
  solvent i hi := by
    -- shares can only be burned and vaults can only be given to
    have hsupply := (hstep.issues _ _ _ hP h.share).2
    have hvault := (hstep.plain _ _ _ hP (h.vault i hi)).2
    calc supplyAt l' (shareKey cfg) * unitsOf cfg i
        ≤ supplyAt l (shareKey cfg) * unitsOf cfg i := Nat.mul_le_mul_right _ hsupply
      _ ≤ tokenAmount l (vaultKey cfg i) := h.solvent i hi
      _ ≤ tokenAmount l' (vaultKey cfg i) := hvault

/-! ## A new basket -/

theorem Key.ofBytes_toList (k : Key) : Key.ofBytes k.toList = k := by
  apply Vector.ext
  intro i hi
  simp [Key.ofBytes]

/-- A byte of a window. -/
theorem byte_of_slice {d : Buffer} {p length : ℕ} {bytes : List UInt8}
    (h : d.slice p length = some bytes) {i : ℕ} (hi : i < bytes.length) :
    d.byte (p + i) = bytes[i] := by
  unfold Buffer.slice at h
  split at h
  · cases h
    simp
  · cases h

/-- What `initializeBasket` writes does not overlap. -/
theorem configFields_apart {call : Call} {bump : UInt8} {n : ℕ} (hwindow : (window call.data 3 32).length = 32)
    (hunits : ∀ i < n, (window call.data (35 + 8 * i) 8).length = 8) :
    (configFields call bump n).Pairwise Buffer.Apart := by
  rw [configFields, List.pairwise_append]
  refine ⟨?_, ?_, ?_⟩
  · simp [magic, Buffer.Apart, hwindow]
  · rw [List.pairwise_flatMap]
    refine ⟨fun i hi => ?_, ?_⟩
    · simp [Buffer.Apart]
    · refine (List.nodup_range.imp_of_mem ?_)
      intro i j hi hj hne x hx y hy
      have hui := hunits i (List.mem_range.mp hi)
      have huj := hunits j (List.mem_range.mp hj)
      simp only [List.mem_cons, List.not_mem_nil, or_false, legSize, header] at hx hy
      rcases hx with rfl | rfl | rfl <;> rcases hy with rfl | rfl | rfl <;>
        simp only [Buffer.Apart, Vector.length_toList, hui, huj] <;> omega
  · intro x hx y hy
    obtain ⟨i, hi, hy⟩ := List.mem_flatMap.mp hy
    simp only [List.mem_cons, List.not_mem_nil, or_false, legSize, header] at hx hy
    rcases hx with rfl | rfl | rfl | rfl | rfl <;> rcases hy with rfl | rfl | rfl <;>
      simp only [Buffer.Apart, Vector.length_toList, hwindow, magic, List.length_cons,
        List.length_nil] <;> omega

/-- A constituent that `initializeBasket` accepts. -/
theorem initializeLeg_eq_ok {call : Call} {l : Ledger} {authority : Key} {i : ℕ} {u : Unit}
    (h : initializeLeg call l authority i = .ok u) :
    IsMint l (call.key (5 + 2 * i)) ∧
      Plain l (call.key (6 + 2 * i)) (call.key (5 + 2 * i)) authority ∧
      ∃ units, call.data.number (35 + 8 * i) 8 = some units ∧ 0 < units := by
  rw [initializeLeg] at h
  obtain ⟨_, hmint, h₁⟩ := bind_eq_ok.mp h
  obtain ⟨units, hunits, h₂⟩ := bind_eq_ok.mp h₁
  obtain ⟨_, hpos, h₃⟩ := bind_eq_ok.mp h₂
  obtain ⟨amount, hamount, -⟩ := bind_eq_ok.mp h₃
  exact ⟨(mint_eq_ok.mp hmint).1, (token_eq_ok.mp hamount).1.1, units, u64At_eq_ok.mp hunits,
    (need_eq_ok.mp hpos).2⟩

/-- What `initializeBasket` has checked and done. -/
structure Initialized (rt : Runtime) (call : Call) (l l' : Ledger) (n : ℕ) : Prop where
  count : 2 ≤ n ∧ n ≤ 16
  data_size : call.data.size = 35 + 8 * n
  accounts : call.accounts.length = 5 + 2 * n
  nodup : call.accounts.Nodup
  fresh : Fresh rt call l (call.key 0) (header + n * legSize)
  authority : call.key 1 = rt.authority (call.key 0)
  token_program : call.key 4 = tokenId
  share : Issues l (call.key 3) (rt.authority (call.key 0)) (call.data.byte 2)
  supply : supplyAt l (call.key 3) = 0
  legs : ∀ i < n, IsMint l (call.key (5 + 2 * i)) ∧
    Plain l (call.key (6 + 2 * i)) (call.key (5 + 2 * i)) (rt.authority (call.key 0)) ∧
    ∃ units, call.data.number (35 + 8 * i) 8 = some units ∧ 0 < units
  written : ∃ data, Buffer.spliceAll (configFields call (rt.find (call.key 0)).2 n)
    (l (call.key 0)).data = some data ∧
    l' = Function.update l (call.key 0) { l (call.key 0) with data }

theorem initializeBasket_eq_ok {rt : Runtime} {call : Call} {l l' : Ledger}
    (h : initializeBasket rt call l = .ok l') :
    Initialized rt call l l' (call.data.byte 1).toNat := by
  rw [initializeBasket, bind_eq_ok] at h
  obtain ⟨_, -, h₁⟩ := h
  dsimp only at h₁
  obtain ⟨_, hcount, h₂⟩ := bind_eq_ok.mp h₁
  obtain ⟨_, hnodup, h₃⟩ := bind_eq_ok.mp h₂
  obtain ⟨_, hfresh, h₄⟩ := bind_eq_ok.mp h₃
  obtain ⟨_, hkeys, h₅⟩ := bind_eq_ok.mp h₄
  obtain ⟨_, -, h₆⟩ := bind_eq_ok.mp h₅
  obtain ⟨supply, hshare, h₇⟩ := bind_eq_ok.mp h₆
  obtain ⟨_, hzero, h₈⟩ := bind_eq_ok.mp h₇
  obtain ⟨_, hlegs, h₉⟩ := bind_eq_ok.mp h₈
  obtain ⟨hlow, hhigh, -, hsize, haccounts⟩ := need_eq_ok.mp hcount
  obtain ⟨hauthority, -, htoken, -⟩ := need_eq_ok.mp hkeys
  obtain ⟨hissues, hsupply⟩ := shareMint_eq_ok.mp hshare
  refine ⟨⟨hlow, hhigh⟩, hsize, haccounts, need_eq_ok.mp hnodup, zeroAccount_eq_ok.mp hfresh,
    hauthority, htoken, hissues, hsupply ▸ need_eq_ok.mp hzero, fun i hi => ?_, ?_⟩
  · exact initializeLeg_eq_ok (forM_eq_ok.mp hlegs i (List.mem_range.mpr hi))
  · rw [write] at h₉
    split at h₉
    · next data hdata => exact ⟨data, hdata, (Except.ok.inj h₉).symm⟩
    · cases h₉

section Initialized

variable {rt : Runtime} {call : Call} {l l' : Ledger} {n : ℕ} (h : Initialized rt call l l' n)

include h

theorem Initialized.other {k : Key} (hk : k ≠ call.key 0) : l' k = l k := by
  obtain ⟨data, -, rfl⟩ := h.written
  exact Function.update_of_ne hk ..

theorem Initialized.foreign : Foreign l l' := by
  obtain ⟨data, -, rfl⟩ := h.written
  intro j
  by_cases hj : j = call.key 0
  · subst hj
    have howner : (l (call.key 0)).owner ≠ tokenId := h.fresh.owner.symm ▸ rt.program_ne
    rw [Function.update_self]
    exact .inr ⟨howner, howner⟩
  · exact .inl (Function.update_of_ne hj ..)

theorem Initialized.owner : (l' (call.key 0)).owner = rt.program := by
  obtain ⟨data, -, rfl⟩ := h.written
  rw [Function.update_self]
  exact h.fresh.owner

/-- Every field is read back from the config. -/
theorem Initialized.field {p : ℕ} {bytes : List UInt8}
    (hmem : (p, bytes) ∈ configFields call (rt.find (call.key 0)).2 n) :
    (l' (call.key 0)).data.slice p bytes.length = some bytes := by
  obtain ⟨data, hdata, rfl⟩ := h.written
  rw [Function.update_self]
  have hsize := h.data_size
  have hwindow {p length : ℕ} (hp : p + length ≤ call.data.size) :
      (window call.data p length).length = length := by
    rw [window, Buffer.slice, if_pos hp]
    simp
  exact Buffer.slice_spliceAll hdata (configFields_apart (hwindow (by omega))
    fun i hi => hwindow (by omega)) hmem

end Initialized

section Config

variable {rt : Runtime} {call : Call} {l l' : Ledger} {n : ℕ} (h : Initialized rt call l l' n)

include h

theorem Initialized.key {p : ℕ} {k : Key}
    (hmem : (p, k.toList) ∈ configFields call (rt.find (call.key 0)).2 n) :
    keyOf (l' (call.key 0)).data p = some k := by
  have hfield := h.field hmem
  rw [Vector.length_toList] at hfield
  rw [keyOf, hfield, Option.map_some, Key.ofBytes_toList]

theorem Initialized.byte {i : ℕ} (hi : i < 4) : (l' (call.key 0)).data.byte (104 + i)
    = [(rt.find (call.key 0)).2, UInt8.ofNat n, call.data.byte 2, 1][i] :=
  byte_of_slice (h.field (by simp [configFields])) hi

theorem Initialized.legCount : legCount (l' (call.key 0)).data = n := by
  have hcount := h.count.2
  rw [Vault.legCount, h.byte (i := 1) (by decide)]
  simp
  omega

theorem Initialized.size : (l' (call.key 0)).data.size = header + n * legSize := by
  obtain ⟨data, hdata, rfl⟩ := h.written
  rw [Function.update_self]
  exact (Buffer.size_spliceAll hdata).trans h.fresh.size

theorem Initialized.magic : (l' (call.key 0)).data.slice 0 8 = some magic :=
  @Initialized.field _ _ _ _ _ h 0 Vault.magic (by simp [configFields])

theorem Initialized.shareKey : shareKey (l' (call.key 0)).data = call.key 3 := by
  rw [Vault.shareKey, h.key (k := call.key 3) (by simp [configFields]), Option.getD_some]

omit h in
theorem mem_configFields {bump : UInt8} {i : ℕ} (hi : i < n) {f : ℕ × List UInt8}
    (hf : f ∈ [(header + i * legSize, (call.key (5 + 2 * i)).toList),
      (header + i * legSize + 32, (call.key (6 + 2 * i)).toList),
      (header + i * legSize + 64, window call.data (35 + 8 * i) 8)]) :
    f ∈ configFields call bump n :=
  List.mem_append_right _ (List.mem_flatMap.mpr ⟨i, List.mem_range.mpr hi, hf⟩)

theorem Initialized.mintKey {i : ℕ} (hi : i < n) :
    mintKey (l' (call.key 0)).data i = call.key (5 + 2 * i) := by
  rw [Vault.mintKey, h.key (k := call.key (5 + 2 * i)) (mem_configFields hi (by simp)), Option.getD_some]

theorem Initialized.vaultKey {i : ℕ} (hi : i < n) :
    vaultKey (l' (call.key 0)).data i = call.key (6 + 2 * i) := by
  rw [Vault.vaultKey, h.key (k := call.key (6 + 2 * i)) (mem_configFields hi (by simp)), Option.getD_some]

theorem Initialized.unitsOf_pos {i : ℕ} (hi : i < n) : 0 < unitsOf (l' (call.key 0)).data i := by
  obtain ⟨-, -, units, hunits, hpos⟩ := h.legs i hi
  have hfield := h.field (mem_configFields hi (f := (header + i * legSize + 64, window call.data (35 + 8 * i) 8))
    (by simp))
  obtain ⟨bytes, hbytes, rfl⟩ := Option.map_eq_some_iff.mp hunits
  have hwindow : window call.data (35 + 8 * i) 8 = bytes := by rw [window, hbytes, Option.getD_some]
  rw [hwindow, Buffer.length_slice hbytes] at hfield
  rwa [unitsOf, Buffer.number, hfield, Option.map_some, Option.getD_some]

theorem Initialized.nodup_basketKeys :
    (basketKeys rt (call.key 0) (l' (call.key 0)).data).Nodup := by
  have hkeys : basketKeys rt (call.key 0) (l' (call.key 0)).data
      = ([0, 1, 3, 4] ++ (List.range n).flatMap fun i => [5 + 2 * i, 6 + 2 * i]).map call.key := by
    rw [basketKeys, h.legCount, h.shareKey, ← h.authority, ← h.token_program, List.map_append,
      List.map_flatMap]
    congr 1
    apply List.flatMap_congr
    intro i hi
    rw [h.mintKey (List.mem_range.mp hi), h.vaultKey (List.mem_range.mp hi)]
    rfl
  have hindices : ([0, 1, 3, 4] ++ (List.range n).flatMap fun i => [5 + 2 * i, 6 + 2 * i]).Nodup := by
    rw [List.nodup_append, List.nodup_flatMap]
    refine ⟨by decide, ⟨fun i _ => by simp, List.nodup_range.imp fun {i j} hne => ?_⟩, ?_⟩
    · rw [Function.onFun, List.disjoint_left]
      simp only [List.mem_cons, List.not_mem_nil, or_false]
      omega
    · intro i hi j hj
      simp only [List.mem_flatMap, List.mem_cons, List.not_mem_nil, or_false] at hi hj
      omega
  rw [hkeys]
  refine hindices.map_on fun i hi j hj heq => ?_
  have hlength := h.accounts
  have hcount := h.count
  simp only [List.mem_append, List.mem_flatMap, List.mem_range, List.mem_cons, List.not_mem_nil,
    or_false] at hi hj
  have hi' : i < 5 + 2 * n := by
    rcases hi with hi | ⟨a, ha, hi⟩ <;> omega
  have hj' : j < 5 + 2 * n := by
    rcases hj with hj | ⟨a, ha, hj⟩ <;> omega
  by_contra hne
  exact Call.key_ne h.nodup (hlength ▸ hi') (hlength ▸ hj') hne heq

/-- A new basket is well formed and backs no share yet. -/
theorem Initialized.basket : Basket rt l' (call.key 0) (l' (call.key 0)).data where
  executable := by
    obtain ⟨data, -, rfl⟩ := h.written
    rw [Function.update_self]
    exact h.fresh.executable
  version := h.byte (i := 3) (by decide)
  count := h.legCount.symm ▸ h.count
  size := h.legCount.symm ▸ h.size
  bump := h.byte (i := 0) (by decide)
  nodup := h.nodup_basketKeys
  share := by
    rw [h.shareKey, h.byte (i := 2) (by decide)]
    exact h.foreign.issues.mpr h.share
  mint i hi := by
    rw [h.legCount] at hi
    rw [h.mintKey hi]
    exact h.foreign.mint.mpr (h.legs i hi).1
  units_pos i hi := h.unitsOf_pos (h.legCount ▸ hi)
  vault i hi := by
    rw [h.legCount] at hi
    rw [h.mintKey hi, h.vaultKey hi]
    exact h.foreign.plain.mpr (h.legs i hi).2.1
  solvent i hi := by
    rw [h.shareKey, supplyAt, h.foreign.same h.share.1.1, ← supplyAt, h.supply, Nat.zero_mul]
    exact Nat.zero_le _

end Config

end StockMesh.Vault

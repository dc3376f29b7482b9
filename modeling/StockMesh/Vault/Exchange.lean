import StockMesh.Vault.Program

/-! # What an exchange does

`preflight` decides everything: an exchange whose checks pass moves exactly the amounts it has computed
and never fails afterwards (`exchange_eq_ok`). The rest of the ledger stays as it was. -/

namespace StockMesh.Vault

open Settle (Account Ledger tokenId tokenAmount zeroWindow)

/-! ## The checks -/

@[simp] theorem u64At_eq_ok {d : Buffer} {p n : ℕ} : u64At d p = .ok n ↔ d.number p 8 = some n :=
  okOr_eq_ok

@[simp] theorem keyAt_eq_ok {d : Buffer} {p : ℕ} {k : Key} : keyAt d p = .ok k ↔ keyOf d p = some k :=
  okOr_eq_ok

@[simp] theorem mul_eq_ok {a b c : ℕ} : mul a b = .ok c ↔ a * b < u64Size ∧ a * b = c := by
  by_cases h : a * b < u64Size <;> simp [mul, h]

@[simp] theorem plainAdd_eq_ok {a b c : ℕ} : plainAdd a b = .ok c ↔ a + b < u64Size ∧ a + b = c := by
  by_cases h : a + b < u64Size <;> simp [plainAdd, h]

@[simp] theorem plainSub_eq_ok {a b c : ℕ} : plainSub a b = .ok c ↔ b ≤ a ∧ a - b = c := by
  by_cases h : b ≤ a <;> simp [plainSub, h]

@[simp] theorem checkedAdd_eq_ok {a b c : ℕ} :
    checkedAdd a b = .ok c ↔ a + b < u64Size ∧ a + b = c := by
  by_cases h : a + b < u64Size <;> simp [checkedAdd, h]

@[simp] theorem checkedSub_eq_ok {a b c : ℕ} : checkedSub a b = .ok c ↔ b ≤ a ∧ a - b = c := by
  by_cases h : b ≤ a <;> simp [checkedSub, h]

/-- A fresh account of the program. -/
structure Fresh (rt : Runtime) (call : Call) (l : Ledger) (k : Key) (length : ℕ) : Prop where
  owner : (l k).owner = rt.program
  isWritable : call.isWritable k = true
  isSigner : call.isSigner k = true
  executable : (l k).executable = false
  size : (l k).data.size = length
  zero : zeroWindow (l k).data 0 length
  rent : rt.minimumBalance length ≤ (l k).lamports

theorem zeroAccount_eq_ok {rt : Runtime} {call : Call} {l : Ledger} {k : Key} {length : ℕ} {u : Unit} :
    zeroAccount rt call l k rt.program length = .ok u ↔ Fresh rt call l k length := by
  rw [zeroAccount, bind_eq_ok]
  constructor
  · rintro ⟨_, h, hrest⟩
    obtain ⟨_, hzero, hrent⟩ := bind_eq_ok.mp hrest
    obtain ⟨howner, hwritable, hsigner, hexecutable⟩ := need_eq_ok.mp h
    obtain ⟨hsize, hzero⟩ := need_eq_ok.mp hzero
    exact ⟨howner, hwritable, hsigner, hexecutable, hsize, hzero, need_eq_ok.mp hrent⟩
  · intro h
    refine ⟨(), need_of ⟨h.owner, h.isWritable, h.isSigner, h.executable⟩, ?_⟩
    exact bind_eq_ok.mpr ⟨(), need_of ⟨h.size, h.zero⟩, need_of h.rent⟩

variable {call : Call} {l l' : Ledger} {a m owner authority : Key} {decimals : UInt8}

/-- A field inside a buffer is there. -/
theorem number_eq_getD {d : Buffer} {p : ℕ} (h : p + 8 ≤ d.size) :
    d.number p 8 = some ((d.number p 8).getD 0) := by
  obtain ⟨n, hn⟩ := Option.isSome_iff_exists.mp (Buffer.number_isSome.mpr h)
  rw [hn, Option.getD_some]

theorem mint_eq_ok {r : ℕ × UInt8} :
    mint l a = .ok r ↔ IsMint l a ∧ r = (supplyAt l a, (l a).data.byte 44) := by
  rw [mint, bind_eq_ok]
  constructor
  · rintro ⟨_, howner, h⟩
    obtain ⟨_, hsize, h⟩ := bind_eq_ok.mp h
    obtain ⟨supply, hsupply, h⟩ := bind_eq_ok.mp h
    obtain ⟨howner, hexecutable⟩ := need_eq_ok.mp howner
    obtain ⟨hsize, hbyte⟩ := need_eq_ok.mp hsize
    cases h
    rw [supplyAt, u64At_eq_ok.mp hsupply, Option.getD_some]
    exact ⟨⟨howner, hexecutable, hsize, hbyte⟩, rfl⟩
  · rintro ⟨h, rfl⟩
    refine ⟨(), need_of ⟨h.1, h.2.1⟩, ?_⟩
    refine bind_eq_ok.mpr ⟨(), need_of ⟨h.2.2.1, h.2.2.2⟩, ?_⟩
    refine bind_eq_ok.mpr ⟨supplyAt l a, u64At_eq_ok.mpr (number_eq_getD ?_), rfl⟩
    rw [h.2.2.1]
    decide

theorem shareMint_eq_ok {supply : ℕ} :
    shareMint l a authority decimals = .ok supply ↔
      Issues l a authority decimals ∧ supply = supplyAt l a := by
  rw [shareMint, bind_eq_ok]
  constructor
  · rintro ⟨r, hr, h⟩
    obtain ⟨hmint, rfl⟩ := mint_eq_ok.mp hr
    dsimp only at h
    obtain ⟨key, hkey, h⟩ := bind_eq_ok.mp h
    obtain ⟨_, hissues, hend⟩ := bind_eq_ok.mp h
    obtain ⟨hdecimals, htag, rfl, hfreeze⟩ := need_eq_ok.mp hissues
    cases hend
    exact ⟨⟨hmint, hdecimals, htag, keyAt_eq_ok.mp hkey, hfreeze⟩, rfl⟩
  · rintro ⟨⟨hmint, hdecimals, htag, hkey, hfreeze⟩, rfl⟩
    refine ⟨_, mint_eq_ok.mpr ⟨hmint, rfl⟩, ?_⟩
    refine bind_eq_ok.mpr ⟨authority, keyAt_eq_ok.mpr hkey, ?_⟩
    exact bind_eq_ok.mpr ⟨(), need_of ⟨hdecimals, htag, rfl, hfreeze⟩, rfl⟩

theorem token_eq_ok {amount : ℕ} :
    token call l a m owner = .ok amount ↔
      (Plain l a m owner ∧ Thawed l a ∧ call.isWritable a = true) ∧ amount = tokenAmount l a := by
  rw [token, bind_eq_ok]
  constructor
  · rintro ⟨_, howner, h⟩
    dsimp only at h
    obtain ⟨_, hsize, h⟩ := bind_eq_ok.mp h
    obtain ⟨mintKey, hmint, h⟩ := bind_eq_ok.mp h
    obtain ⟨ownerKey, hkey, h⟩ := bind_eq_ok.mp h
    obtain ⟨_, hfields, hend⟩ := bind_eq_ok.mp h
    obtain ⟨howner, hwritable, hexecutable⟩ := need_eq_ok.mp howner
    obtain ⟨rfl, rfl, hstate, hdelegate, hnative, hclose⟩ := need_eq_ok.mp hfields
    have hholds : Holds l a mintKey :=
      ⟨howner, hexecutable, need_eq_ok.mp hsize, keyAt_eq_ok.mp hmint, .inl hstate, hnative⟩
    refine ⟨⟨⟨hholds, keyAt_eq_ok.mp hkey, hdelegate, hclose⟩, hstate, hwritable⟩, ?_⟩
    rw [tokenAmount, u64At_eq_ok.mp hend, Option.getD_some]
  · rintro ⟨⟨⟨hholds, hkey, hdelegate, hclose⟩, hstate, hwritable⟩, rfl⟩
    obtain ⟨howner, hexecutable, hsize, hmint, -, hnative⟩ := hholds
    refine ⟨(), need_of ⟨howner, hwritable, hexecutable⟩, ?_⟩
    refine bind_eq_ok.mpr ⟨(), need_of hsize, ?_⟩
    refine bind_eq_ok.mpr ⟨m, keyAt_eq_ok.mpr hmint, ?_⟩
    refine bind_eq_ok.mpr ⟨owner, keyAt_eq_ok.mpr hkey, ?_⟩
    refine bind_eq_ok.mpr ⟨(), need_of ⟨rfl, rfl, hstate, hdelegate, hnative, hclose⟩, ?_⟩
    refine u64At_eq_ok.mpr (number_eq_getD ?_)
    rw [hsize]
    decide

/-! ## Preflight -/

/-- Leg `i` of a config in an account list. -/
structure LegOf (call : Call) (cfg : Buffer) (i : ℕ) (leg : Leg) : Prop where
  mint : leg.mint = call.key (7 + 3 * i)
  user : leg.user = call.key (8 + 3 * i)
  vault : leg.vault = call.key (9 + 3 * i)
  cfg_mint : keyOf cfg (header + i * legSize) = some leg.mint
  cfg_vault : keyOf cfg (header + i * legSize + 32) = some leg.vault
  cfg_units : cfg.number (header + i * legSize + 64) 8 = some leg.units

/-- A token account that the program may move tokens of. -/
def Open (call : Call) (l : Ledger) (k m owner : Key) : Prop :=
  Plain l k m owner ∧ Thawed l k ∧ call.isWritable k = true

/-- A leg whose transfer will succeed. -/
structure LegReady (call : Call) (l : Ledger) (authority : Key) (issue : Bool)
    (shares supply target : ℕ) (leg : Leg) : Prop where
  mint : IsMint l leg.mint
  vault : Open call l leg.vault leg.mint authority
  user : Open call l leg.user leg.mint (call.key 2)
  before : leg.before = tokenAmount l leg.vault
  userBefore : leg.userBefore = tokenAmount l leg.user
  amount_fits : shares * leg.units < u64Size
  solvent : supply * leg.units ≤ leg.before
  target_fits : target * leg.units < u64Size
  enough : issue = true → shares * leg.units ≤ leg.userBefore
  fits : (if issue then leg.before else leg.userBefore) + shares * leg.units < u64Size

theorem exchangeLeg_eq_ok {cfg : Buffer} {issue : Bool} {shares supply target i : ℕ} {leg : Leg} :
    exchangeLeg call l cfg authority issue shares supply target i = .ok leg ↔
      LegOf call cfg i leg ∧ LegReady call l authority issue shares supply target leg := by
  rw [exchangeLeg]
  dsimp only
  rw [bind_eq_ok]
  constructor
  · rintro ⟨mintKey, hmintKey, h⟩
    obtain ⟨vaultKey, hvaultKey, h⟩ := bind_eq_ok.mp h
    obtain ⟨_, hkeys, h⟩ := bind_eq_ok.mp h
    obtain ⟨_, hmint, h⟩ := bind_eq_ok.mp h
    obtain ⟨units, hunits, h⟩ := bind_eq_ok.mp h
    obtain ⟨amount, hamount, h⟩ := bind_eq_ok.mp h
    obtain ⟨before, hbefore, h⟩ := bind_eq_ok.mp h
    obtain ⟨userBefore, huser, h⟩ := bind_eq_ok.mp h
    obtain ⟨claimed, hclaimed, h⟩ := bind_eq_ok.mp h
    obtain ⟨_, hsolvent, h⟩ := bind_eq_ok.mp h
    obtain ⟨_, htarget, h⟩ := bind_eq_ok.mp h
    have hrest : (issue = true → amount ≤ userBefore) ∧
        (if issue then before else userBefore) + amount < u64Size ∧
        leg = ⟨call.key (7 + 3 * i), call.key (8 + 3 * i), call.key (9 + 3 * i), units, before,
          userBefore⟩ := by
      cases issue with
      | true =>
        obtain ⟨_, henough, h⟩ := bind_eq_ok.mp h
        obtain ⟨_, hfits, h⟩ := bind_eq_ok.mp h
        exact ⟨fun _ => need_eq_ok.mp henough, (checkedAdd_eq_ok.mp hfits).1, (Except.ok.inj h).symm⟩
      | false =>
        obtain ⟨_, -, h⟩ := bind_eq_ok.mp h
        obtain ⟨_, hfits, h⟩ := bind_eq_ok.mp h
        exact ⟨nofun, (checkedAdd_eq_ok.mp hfits).1,
          (Except.ok.inj h).symm⟩
    obtain ⟨henough, hfits, rfl⟩ := hrest
    obtain ⟨hkeym, hkeyv⟩ := need_eq_ok.mp hkeys
    obtain ⟨hamountFits, rfl⟩ := mul_eq_ok.mp hamount
    obtain ⟨hvault, rfl⟩ := token_eq_ok.mp hbefore
    obtain ⟨hopen, rfl⟩ := token_eq_ok.mp huser
    obtain ⟨-, rfl⟩ := mul_eq_ok.mp hclaimed
    refine ⟨⟨rfl, rfl, rfl, ?_, ?_, u64At_eq_ok.mp hunits⟩,
      ⟨(mint_eq_ok.mp hmint).1, hvault, hopen, rfl, rfl, hamountFits, need_eq_ok.mp hsolvent,
        (mul_eq_ok.mp htarget).1, henough, hfits⟩⟩
    · exact hkeym ▸ keyAt_eq_ok.mp hmintKey
    · exact hkeyv ▸ keyAt_eq_ok.mp hvaultKey
  · rintro ⟨hof, h⟩
    obtain ⟨_, _, _, units, before, userBefore⟩ := leg
    obtain ⟨rfl, rfl, rfl, hmintKey, hvaultKey, hunits⟩ := hof
    obtain ⟨hmint, hvault, huser, hbefore, huserBefore, hamount, hsolvent, htarget, henough, hfits⟩ := h
    dsimp only at hbefore huserBefore hsolvent hfits
    subst hbefore huserBefore
    have hlt := amount_lt l (call.key (9 + 3 * i))
    refine ⟨_, keyAt_eq_ok.mpr hmintKey, ?_⟩
    refine bind_eq_ok.mpr ⟨_, keyAt_eq_ok.mpr hvaultKey, ?_⟩
    refine bind_eq_ok.mpr ⟨(), need_of ⟨rfl, rfl⟩, ?_⟩
    refine bind_eq_ok.mpr ⟨_, mint_eq_ok.mpr ⟨hmint, rfl⟩, ?_⟩
    refine bind_eq_ok.mpr ⟨units, u64At_eq_ok.mpr hunits, ?_⟩
    refine bind_eq_ok.mpr ⟨_, mul_eq_ok.mpr ⟨hamount, rfl⟩, ?_⟩
    refine bind_eq_ok.mpr ⟨_, token_eq_ok.mpr ⟨hvault, rfl⟩, ?_⟩
    refine bind_eq_ok.mpr ⟨_, token_eq_ok.mpr ⟨huser, rfl⟩, ?_⟩
    refine bind_eq_ok.mpr ⟨_, mul_eq_ok.mpr ⟨hsolvent.trans_lt hlt, rfl⟩, ?_⟩
    refine bind_eq_ok.mpr ⟨(), need_of hsolvent, ?_⟩
    refine bind_eq_ok.mpr ⟨_, mul_eq_ok.mpr ⟨htarget, rfl⟩, ?_⟩
    cases issue with
    | true =>
      refine bind_eq_ok.mpr ⟨(), need_of (henough rfl), ?_⟩
      exact bind_eq_ok.mpr ⟨_, checkedAdd_eq_ok.mpr ⟨hfits, rfl⟩, rfl⟩
    | false =>
      refine bind_eq_ok.mpr ⟨(), rfl, ?_⟩
      exact bind_eq_ok.mpr ⟨_, checkedAdd_eq_ok.mpr ⟨hfits, rfl⟩, rfl⟩

/-- The number of constituents in a config. -/
def legCount (cfg : Buffer) : ℕ := (cfg.byte 105).toNat

/-- A plan that `exchange` accepts. -/
structure Ready (rt : Runtime) (call : Call) (l : Ledger) (cfg : Buffer) (plan : Plan) : Prop where
  data_size : call.data.size = 9
  data_shares : call.data.number 1 8 = some plan.shares
  pos : 0 < plan.shares
  cfg_owner : (l (call.key 0)).owner = rt.program
  cfg_executable : (l (call.key 0)).executable = false
  cfg_magic : cfg.slice 0 8 = some magic
  cfg_version : cfg.byte 107 = 1
  count : 2 ≤ legCount cfg ∧ legCount cfg ≤ 16
  cfg_size : cfg.size = header + legCount cfg * legSize
  accounts : call.accounts.length = 7 + 3 * legCount cfg
  nodup : call.accounts.Nodup
  create : rt.create (call.key 0) (cfg.byte 104) = some plan.authority
  authority : call.key 1 = plan.authority
  user_signs : call.isSigner (call.key 2) = true
  share_writable : call.isWritable (call.key 3) = true
  share_key : keyOf cfg 8 = some (call.key 3)
  token_program : call.key 6 = tokenId
  token_executable : (l (call.key 6)).executable = true
  receipt : Fresh rt call l (call.key 5) receiptSize
  share : Issues l (call.key 3) plan.authority (cfg.byte 106)
  supply : plan.supply = supplyAt l (call.key 3)
  holder : Open call l (call.key 4) (call.key 3) (call.key 2)
  owned : plan.owned = tokenAmount l (call.key 4)
  issue : plan.issue = decide (call.data.byte 0 = 1)
  issues : plan.issue = true → plan.target = plan.supply + plan.shares ∧
    plan.target < u64Size ∧ plan.owned + plan.shares < u64Size
  redeems : plan.issue = false → plan.target + plan.shares = plan.supply ∧ plan.shares ≤ plan.owned
  legs : List.Forall₂ (fun i leg => LegOf call cfg i leg ∧
    LegReady call l plan.authority plan.issue plan.shares plan.supply plan.target leg)
    (List.range (legCount cfg)) plan.legs

theorem preflight_eq_ok {rt : Runtime} {plan : Plan} :
    preflight rt call l = .ok plan ↔ Ready rt call l (l (call.key 0)).data plan := by
  rw [preflight, bind_eq_ok]
  constructor
  · rintro ⟨_, hsize, h₁⟩
    obtain ⟨shares, hshares, h₂⟩ := bind_eq_ok.mp h₁
    obtain ⟨_, hpos, h₃⟩ := bind_eq_ok.mp h₂
    obtain ⟨_, hconfig, h₄⟩ := bind_eq_ok.mp h₃
    dsimp only at h₄
    obtain ⟨_, hmagic, h₅⟩ := bind_eq_ok.mp h₄
    obtain ⟨_, hcount, h₆⟩ := bind_eq_ok.mp h₅
    obtain ⟨_, hnodup, h₇⟩ := bind_eq_ok.mp h₆
    obtain ⟨authority, hcreate, h₈⟩ := bind_eq_ok.mp h₇
    obtain ⟨shareKey, hshareKey, h₉⟩ := bind_eq_ok.mp h₈
    obtain ⟨_, hkeys, h₁₀⟩ := bind_eq_ok.mp h₉
    obtain ⟨_, hreceipt, h₁₁⟩ := bind_eq_ok.mp h₁₀
    obtain ⟨supply, hsupply, h₁₂⟩ := bind_eq_ok.mp h₁₁
    obtain ⟨owned, howned, h₁₃⟩ := bind_eq_ok.mp h₁₂
    obtain ⟨hdata, -⟩ := need_eq_ok.mp hsize
    obtain ⟨howner, hexecutable⟩ := need_eq_ok.mp hconfig
    obtain ⟨-, hmagic, hversion⟩ := need_eq_ok.mp hmagic
    obtain ⟨hlow, hhigh, hcfgSize, haccounts⟩ := need_eq_ok.mp hcount
    obtain ⟨hauthority, hsigner, hwritable, hkey, htoken, hrun⟩ := need_eq_ok.mp hkeys
    obtain ⟨hshare, hsupply⟩ := shareMint_eq_ok.mp hsupply
    obtain ⟨hholder, howned⟩ := token_eq_ok.mp howned
    have hrest : ∃ target legs, plan = ⟨authority, shares, supply, owned,
          decide (call.data.byte 0 = 1), target, legs⟩ ∧
        (decide (call.data.byte 0 = 1) = true →
          target = supply + shares ∧ target < u64Size ∧ owned + shares < u64Size) ∧
        (decide (call.data.byte 0 = 1) = false → target + shares = supply ∧ shares ≤ owned) ∧
        (List.range (legCount (l (call.key 0)).data)).mapM (exchangeLeg call l (l (call.key 0)).data
          authority (decide (call.data.byte 0 = 1)) shares supply target) = .ok legs := by
      cases hissue : decide (call.data.byte 0 = 1) with
      | true =>
        rw [hissue] at h₁₃
        obtain ⟨target, htarget, h₁₄⟩ := bind_eq_ok.mp h₁₃
        obtain ⟨_, hgrow, h₁₅⟩ := bind_eq_ok.mp h₁₄
        rw [ok_bind] at h₁₅
        obtain ⟨legs, hlegs, h₁₆⟩ := bind_eq_ok.mp h₁₅
        obtain ⟨htargetFits, rfl⟩ := checkedAdd_eq_ok.mp htarget
        exact ⟨_, legs, (Except.ok.inj h₁₆).symm,
          fun _ => ⟨rfl, htargetFits, (checkedAdd_eq_ok.mp hgrow).1⟩, nofun, hlegs⟩
      | false =>
        rw [hissue] at h₁₃
        obtain ⟨target, htarget, h₁₄⟩ := bind_eq_ok.mp h₁₃
        obtain ⟨_, hfits, h₁₅⟩ := bind_eq_ok.mp h₁₄
        obtain ⟨legs, hlegs, h₁₆⟩ := bind_eq_ok.mp h₁₅
        obtain ⟨hle, rfl⟩ := checkedSub_eq_ok.mp htarget
        exact ⟨_, legs, (Except.ok.inj h₁₆).symm, nofun,
          fun _ => ⟨Nat.sub_add_cancel hle, need_eq_ok.mp hfits⟩, hlegs⟩
    obtain ⟨target, legs, rfl, hissues, hredeems, hlegs⟩ := hrest
    exact {
      data_size := hdata
      data_shares := u64At_eq_ok.mp hshares
      pos := need_eq_ok.mp hpos
      cfg_owner := howner
      cfg_executable := hexecutable
      cfg_magic := hmagic
      cfg_version := hversion
      count := ⟨hlow, hhigh⟩
      cfg_size := hcfgSize
      accounts := haccounts
      nodup := need_eq_ok.mp hnodup
      create := okOr_eq_ok.mp hcreate
      authority := hauthority
      user_signs := hsigner
      share_writable := hwritable
      share_key := hkey ▸ keyAt_eq_ok.mp hshareKey
      token_program := htoken
      token_executable := hrun
      receipt := zeroAccount_eq_ok.mp hreceipt
      share := hshare
      supply := hsupply
      holder := hholder
      owned := howned
      issue := rfl
      issues := hissues
      redeems := hredeems
      legs := (mapM_eq_ok.mp hlegs).imp fun _ _ => exchangeLeg_eq_ok.mp }
  · intro h
    obtain ⟨authority, shares, supply, owned, issue, target, legs⟩ := plan
    obtain ⟨hlow, hhigh⟩ := h.count
    have haccounts := h.accounts
    have hlegs := mapM_eq_ok.mpr (h.legs.imp fun _ _ => exchangeLeg_eq_ok.mpr)
    have hsupply := h.supply
    have howned := h.owned
    have hissue := h.issue
    dsimp only at hsupply howned hissue hlegs
    subst hsupply howned
    refine ⟨(), need_of ⟨h.data_size, by omega⟩, ?_⟩
    refine bind_eq_ok.mpr ⟨shares, u64At_eq_ok.mpr h.data_shares, ?_⟩
    refine bind_eq_ok.mpr ⟨(), need_of h.pos, ?_⟩
    refine bind_eq_ok.mpr ⟨(), need_of ⟨h.cfg_owner, h.cfg_executable⟩, ?_⟩
    have hsize : header ≤ (l (call.key 0)).data.size := by
      rw [h.cfg_size]
      exact Nat.le_add_right _ _
    refine bind_eq_ok.mpr ⟨(), need_of ⟨hsize, h.cfg_magic, h.cfg_version⟩, ?_⟩
    refine bind_eq_ok.mpr ⟨(), need_of ⟨hlow, hhigh, h.cfg_size, haccounts⟩, ?_⟩
    refine bind_eq_ok.mpr ⟨(), need_of h.nodup, ?_⟩
    refine bind_eq_ok.mpr ⟨authority, okOr_eq_ok.mpr h.create, ?_⟩
    refine bind_eq_ok.mpr ⟨_, keyAt_eq_ok.mpr h.share_key, ?_⟩
    refine bind_eq_ok.mpr ⟨(), need_of ⟨h.authority, h.user_signs, h.share_writable, rfl,
      h.token_program, h.token_executable⟩, ?_⟩
    refine bind_eq_ok.mpr ⟨(), zeroAccount_eq_ok.mpr h.receipt, ?_⟩
    refine bind_eq_ok.mpr ⟨_, shareMint_eq_ok.mpr ⟨h.share, rfl⟩, ?_⟩
    refine bind_eq_ok.mpr ⟨_, token_eq_ok.mpr ⟨h.holder, rfl⟩, ?_⟩
    rw [← hissue]
    cases issue with
    | true =>
      obtain ⟨heq, htarget, hgrow⟩ := h.issues rfl
      dsimp only at heq htarget hgrow
      subst heq
      refine bind_eq_ok.mpr ⟨_, checkedAdd_eq_ok.mpr ⟨htarget, rfl⟩, ?_⟩
      refine bind_eq_ok.mpr ⟨_, checkedAdd_eq_ok.mpr ⟨hgrow, rfl⟩, ?_⟩
      rw [ok_bind]
      exact bind_eq_ok.mpr ⟨legs, hlegs, rfl⟩
    | false =>
      obtain ⟨htarget, hle⟩ := h.redeems rfl
      dsimp only at htarget
      refine bind_eq_ok.mpr ⟨target, checkedSub_eq_ok.mpr ⟨by omega, by omega⟩, ?_⟩
      refine bind_eq_ok.mpr ⟨(), need_of hle, ?_⟩
      exact bind_eq_ok.mpr ⟨legs, hlegs, rfl⟩

/-! ## The transfers -/

theorem Open.congr {k : Key} (h : l' k = l k) : Open call l' k m owner ↔ Open call l k m owner := by
  rw [Open, Open, Plain.congr h, Thawed, Thawed, h]

theorem LegReady.congr {issue : Bool} {shares supply target : ℕ} {leg : Leg}
    (h : LegReady call l authority issue shares supply target leg) (hmint : l' leg.mint = l leg.mint)
    (hvault : l' leg.vault = l leg.vault) (huser : l' leg.user = l leg.user) :
    LegReady call l' authority issue shares supply target leg where
  mint := (IsMint.congr hmint).mpr h.mint
  vault := (Open.congr hvault).mpr h.vault
  user := (Open.congr huser).mpr h.user
  before := by rw [tokenAmount, hvault, ← tokenAmount, h.before]
  userBefore := by rw [tokenAmount, huser, ← tokenAmount, h.userBefore]
  amount_fits := h.amount_fits
  solvent := h.solvent
  target_fits := h.target_fits
  enough := h.enough
  fits := h.fits

/-- A transfer between open accounts succeeds. -/
theorem exists_transfer {source destination : Key} {amount : ℕ} {seeds : Option Key} {other : Key}
    (hs : Open call l source m owner) (hd : Open call l destination m other) (hm : IsMint l m)
    (hsigned : call.isSigner owner = true ∨ seeds = some owner) (hle : amount ≤ tokenAmount l source)
    (hfits : tokenAmount l destination + amount < u64Size) :
    ∃ l', transfer call l source m destination owner amount ((l m).data.byte 44) seeds = .ok l' ∧
      Transferred l l' source m destination owner amount := by
  have hprivileged : privileged call [source, destination] owner seeds = .ok () := by
    refine need_of ⟨fun k hk => ?_, hsigned⟩
    rcases List.mem_cons.mp hk with rfl | hk
    · exact hs.2.2
    · rw [List.mem_singleton.mp hk]
      exact hd.2.2
  have hrun : ∃ l', transferChecked l source m destination owner amount ((l m).data.byte 44)
      = .ok l' := by
    rw [transferChecked, need_of ⟨hs.1.1, hs.2.1, hd.1.1, hd.2.1⟩, ok_bind, need_of ⟨hm, rfl⟩, ok_bind,
      need_of ⟨hs.1.2.1, hle⟩, ok_bind]
    split
    · exact ⟨_, rfl⟩
    · rw [need_of hfits, ok_bind]
      exact ⟨_, rfl⟩
  obtain ⟨l', hl'⟩ := hrun
  refine ⟨l', ?_, transferChecked_eq_ok hl'⟩
  rw [transfer, hprivileged, ok_bind, hl']

/-- What the transfer of a leg has done. -/
structure LegSettled (plan : Plan) (l' : Ledger) (leg : Leg) : Prop where
  issued : plan.issue = true → tokenAmount l' leg.vault = leg.before + plan.shares * leg.units ∧
    tokenAmount l' leg.user + plan.shares * leg.units = leg.userBefore
  redeemed : plan.issue = false → tokenAmount l' leg.vault + plan.shares * leg.units = leg.before ∧
    tokenAmount l' leg.user = leg.userBefore + plan.shares * leg.units

/-- What a settlement does not do. -/
structure Frame (call : Call) (plan : Plan) (l l' : Ledger) (touched : List Key) : Prop where
  other : ∀ k, k ∉ touched → l' k = l k
  plain : ∀ k m o, Plain l' k m o ↔ Plain l k m o
  thawed : ∀ k, Thawed l' k ↔ Thawed l k
  untouched : ∀ P : Key → Prop, ¬P (call.key 2) → ¬P plan.authority → Untouched P l l'

theorem Frame.refl (call : Call) (plan : Plan) (l : Ledger) : Frame call plan l l [] :=
  ⟨fun _ _ => rfl, fun _ _ _ => .rfl, fun _ => .rfl, fun P _ _ => .refl P l⟩

theorem Frame.trans {plan : Plan} {l₁ l₂ l₃ : Ledger} {ks ks' : List Key}
    (h : Frame call plan l₁ l₂ ks) (h' : Frame call plan l₂ l₃ ks') :
    Frame call plan l₁ l₃ (ks ++ ks') where
  other k hk := by
    rw [List.mem_append, not_or] at hk
    rw [h'.other k hk.2, h.other k hk.1]
  plain k m o := (h'.plain k m o).trans (h.plain k m o)
  thawed k := (h'.thawed k).trans (h.thawed k)
  untouched P hu ha := (h.untouched P hu ha).trans (h'.untouched P hu ha)

theorem Frame.open_iff {plan : Plan} {ks : List Key} (h : Frame call plan l l' ks) {k : Key} :
    Open call l' k m owner ↔ Open call l k m owner := by
  rw [Open, Open, h.plain, h.thawed]

theorem Transferred.frame {plan : Plan} {source destination : Key} {amount : ℕ} {ks : List Key}
    (h : Transferred l l' source m destination owner amount) (hs : source ∈ ks) (hd : destination ∈ ks)
    (howner : owner = call.key 2 ∨ owner = plan.authority) : Frame call plan l l' ks where
  other k hk := h.other (fun heq => hk (heq ▸ hs)) fun heq => hk (heq ▸ hd)
  plain _ _ _ := h.plain
  thawed _ := h.thawed
  untouched P hu ha := h.untouched (by rcases howner with rfl | rfl <;> assumption)

/-- The transfer of a leg that is ready succeeds. -/
theorem settleLeg_ok {plan : Plan} {leg : Leg}
    (h : LegReady call l plan.authority plan.issue plan.shares plan.supply plan.target leg)
    (hne : leg.user ≠ leg.vault) (hsigner : call.isSigner (call.key 2) = true)
    (hauthority : call.key 1 = plan.authority) (hle : plan.issue = false → plan.shares ≤ plan.supply) :
    ∃ l', settleLeg call plan l leg = .ok l' ∧ LegSettled plan l' leg ∧
      Frame call plan l l' [leg.user, leg.vault] := by
  rw [settleLeg, mul_eq_ok.mpr ⟨h.amount_fits, rfl⟩, ok_bind, mint_eq_ok.mpr ⟨h.mint, rfl⟩, ok_bind]
  dsimp only
  have hfits := h.fits
  have hbefore := h.before
  have huserBefore := h.userBefore
  cases hissue : plan.issue with
  | true =>
    rw [hissue, if_pos rfl] at hfits
    have henough := h.enough hissue
    obtain ⟨l', hl', hmoved⟩ := @exists_transfer _ _ _ _ _ _ _ none _ h.user h.vault h.mint
      (.inl hsigner) (huserBefore ▸ henough) (hbefore ▸ hfits)
    have hvault := hmoved.amount_destination hne
    have huser := hmoved.amount_source hne
    have hframe : Frame call plan l l' [leg.user, leg.vault] :=
      hmoved.frame (by simp) (by simp) (.inl rfl)
    have hv := (hframe.open_iff).mpr h.vault
    have hu := (hframe.open_iff).mpr h.user
    refine ⟨l', ?_, ⟨fun _ => ⟨by omega, by omega⟩,
      fun hnot => absurd (hissue.symm.trans hnot) (by decide)⟩, hframe⟩
    rw [if_pos rfl, hl', ok_bind, if_pos rfl, plainAdd_eq_ok.mpr ⟨hfits, rfl⟩, ok_bind, if_pos rfl,
      plainSub_eq_ok.mpr ⟨henough, rfl⟩, ok_bind, token_eq_ok.mpr ⟨hv, rfl⟩, ok_bind,
      need_of (by omega), ok_bind, token_eq_ok.mpr ⟨hu, rfl⟩, ok_bind, need_of (by omega), ok_bind]
  | false =>
    rw [hissue, if_neg (by decide)] at hfits
    -- the shares are part of the supply that the vault covers
    have henough : plan.shares * leg.units ≤ leg.before :=
      (Nat.mul_le_mul_right _ (hle hissue)).trans h.solvent
    have hvaultOpen : Open call l leg.vault leg.mint (call.key 1) := hauthority ▸ h.vault
    have hseeds : some plan.authority = some (call.key 1) := by rw [hauthority]
    obtain ⟨l', hl', hmoved⟩ := exists_transfer hvaultOpen h.user h.mint (.inr hseeds) (hbefore ▸ henough)
      (huserBefore ▸ hfits)
    have hvault := hmoved.amount_source hne.symm
    have huser := hmoved.amount_destination hne.symm
    have hframe : Frame call plan l l' [leg.user, leg.vault] :=
      hmoved.frame (by simp) (by simp) (.inr hauthority)
    have hv := (hframe.open_iff).mpr h.vault
    have hu := (hframe.open_iff).mpr h.user
    refine ⟨l', ?_, ⟨fun hnot => absurd (hissue.symm.trans hnot) (by decide),
      fun _ => ⟨by omega, by omega⟩⟩, hframe⟩
    rw [if_neg (by decide), hl', ok_bind, if_neg (by decide), plainSub_eq_ok.mpr ⟨henough, rfl⟩, ok_bind,
      if_neg (by decide), plainAdd_eq_ok.mpr ⟨hfits, rfl⟩, ok_bind, token_eq_ok.mpr ⟨hv, rfl⟩, ok_bind,
      need_of (by omega), ok_bind, token_eq_ok.mpr ⟨hu, rfl⟩, ok_bind, need_of (by omega), ok_bind]

/-- The accounts that the transfers change. -/
def touchedBy (legs : List Leg) : List Key := legs.flatMap fun leg => [leg.user, leg.vault]

theorem LegSettled.congr {plan : Plan} {leg : Leg} (h : LegSettled plan l leg)
    (hvault : l' leg.vault = l leg.vault) (huser : l' leg.user = l leg.user) :
    LegSettled plan l' leg where
  issued hissue := by
    rw [tokenAmount, tokenAmount, hvault, huser]
    exact h.issued hissue
  redeemed hissue := by
    rw [tokenAmount, tokenAmount, hvault, huser]
    exact h.redeemed hissue

/-- A mint is not among the token accounts that the transfers change. -/
theorem LegReady.not_mem {issue : Bool} {shares supply target : ℕ} {leg : Leg}
    (h : LegReady call l authority issue shares supply target leg) (hm : IsMint l m) :
    m ∉ [leg.user, leg.vault] := by
  rw [List.mem_pair, not_or]
  exact ⟨h.user.1.1.ne hm, h.vault.1.1.ne hm⟩

/-- The transfers of legs that are ready, over different accounts, all succeed. -/
theorem settleLegs_ok {plan : Plan} {legs : List Leg}
    (h : ∀ leg ∈ legs,
      LegReady call l plan.authority plan.issue plan.shares plan.supply plan.target leg)
    (hnodup : (touchedBy legs).Nodup) (hsigner : call.isSigner (call.key 2) = true)
    (hauthority : call.key 1 = plan.authority) (hle : plan.issue = false → plan.shares ≤ plan.supply) :
    ∃ l', legs.foldlM (settleLeg call plan) l = .ok l' ∧ (∀ leg ∈ legs, LegSettled plan l' leg) ∧
      Frame call plan l l' (touchedBy legs) := by
  induction legs generalizing l with
  | nil => exact ⟨l, rfl, fun _ hleg => absurd hleg List.not_mem_nil, .refl call plan l⟩
  | cons leg legs ih =>
    obtain ⟨hfirst, hrest⟩ := List.forall_mem_cons.mp h
    rw [touchedBy, List.flatMap_cons, ← touchedBy, List.nodup_append] at hnodup
    obtain ⟨hpair, hnodup, hdisjoint⟩ := hnodup
    have hne : leg.user ≠ leg.vault := by simpa using hpair
    obtain ⟨l₁, hl₁, hsettled, hframe⟩ := settleLeg_ok hfirst hne hsigner hauthority hle
    have hapart : ∀ k ∈ touchedBy legs, k ∉ [leg.user, leg.vault] := fun k hk hk' =>
      hdisjoint k hk' k hk rfl
    have hready : ∀ next ∈ legs,
        LegReady call l₁ plan.authority plan.issue plan.shares plan.supply plan.target next := by
      intro next hnext
      have hmem : ∀ k ∈ [next.user, next.vault], k ∈ touchedBy legs := fun k hk =>
        List.mem_flatMap.mpr ⟨next, hnext, hk⟩
      exact (hrest next hnext).congr (hframe.other _ (hfirst.not_mem (hrest next hnext).mint))
        (hframe.other _ (hapart _ (hmem _ (by simp)))) (hframe.other _ (hapart _ (hmem _ (by simp))))
    obtain ⟨l₂, hl₂, hall, hframe₂⟩ := ih hready hnodup
    refine ⟨l₂, ?_, ?_, hframe.trans hframe₂⟩
    · rw [List.foldlM_cons, hl₁, ok_bind, hl₂]
    · refine List.forall_mem_cons.mpr ⟨?_, hall⟩
      exact hsettled.congr (hframe₂.other _ fun hk => hapart _ hk (by simp))
        (hframe₂.other _ fun hk => hapart _ hk (by simp))

/-! ## The shares -/

/-- The shares are minted or burned. -/
theorem settleShares_ok {plan : Plan} (hshare : Issues l (call.key 3) plan.authority decimals)
    (hholder : Open call l (call.key 4) (call.key 3) (call.key 2))
    (hwritable : call.isWritable (call.key 3) = true) (hsigner : call.isSigner (call.key 2) = true)
    (hauthority : call.key 1 = plan.authority) (hsupply : plan.supply = supplyAt l (call.key 3))
    (howned : plan.owned = tokenAmount l (call.key 4))
    (hissues : plan.issue = true → plan.target = plan.supply + plan.shares ∧
      plan.target < u64Size ∧ plan.owned + plan.shares < u64Size)
    (hredeems : plan.issue = false → plan.target + plan.shares = plan.supply ∧
      plan.shares ≤ plan.owned) :
    ∃ l', settleShares call plan decimals l = .ok l' ∧ Resupplied l l' (call.key 3) (call.key 4)
      (if plan.issue then plan.owned + plan.shares else plan.owned - plan.shares) plan.target ∧
      ∀ P : Key → Prop, ¬P (call.key 2) → ¬P plan.authority → Untouched P l l' := by
  obtain ⟨hmint, hdecimals, htag, hkey, hfreeze⟩ := hshare
  cases hissue : plan.issue with
  | true =>
    obtain ⟨htarget, hlt, hgrow⟩ := hissues hissue
    have hrun : ∃ l', settleShares call plan decimals l = .ok l' ∧
        mintToChecked l (call.key 3) (call.key 4) (call.key 1) plan.shares decimals = .ok l' := by
      have hprivileged : privileged call [call.key 3, call.key 4] (call.key 1) (some plan.authority)
          = .ok () := by
        refine need_of ⟨fun k hk => ?_, .inr (by rw [hauthority])⟩
        rcases List.mem_pair.mp hk with rfl | rfl
        · exact hwritable
        · exact hholder.2.2
      rw [settleShares, hissue, if_pos rfl, hprivileged, ok_bind, mintToChecked,
        need_of ⟨hholder.1.1, hholder.2.1⟩, ok_bind, need_of ⟨hmint, hdecimals, htag, hauthority ▸ hkey⟩,
        ok_bind, need_of ⟨by omega, by omega⟩, ok_bind]
      exact ⟨_, rfl, rfl⟩
    obtain ⟨l', hl', hminted⟩ := hrun
    obtain ⟨-, hset⟩ := mintToChecked_eq_ok hminted
    rw [← hsupply, ← howned, ← htarget] at hset
    refine ⟨l', hl', hset, fun P _ ha => hset.untouched (.inl (by omega)) (.inr ?_)⟩
    intro a hmem
    rw [hkey, Option.some.injEq] at hmem
    exact hmem ▸ ha
  | false =>
    obtain ⟨htarget, hle⟩ := hredeems hissue
    have hrun : ∃ l', settleShares call plan decimals l = .ok l' ∧
        burnChecked l (call.key 4) (call.key 3) (call.key 2) plan.shares decimals = .ok l' := by
      have hprivileged : privileged call [call.key 4, call.key 3] (call.key 2) none = .ok () := by
        refine need_of ⟨fun k hk => ?_, .inl hsigner⟩
        rcases List.mem_pair.mp hk with rfl | rfl
        · exact hholder.2.2
        · exact hwritable
      rw [settleShares, hissue, if_neg (by decide), hprivileged, ok_bind, burnChecked,
        need_of ⟨hholder.1.1, hholder.2.1⟩, ok_bind, need_of ⟨hmint, hdecimals⟩, ok_bind,
        need_of ⟨hholder.1.2.1, by omega, by omega⟩, ok_bind]
      exact ⟨_, rfl, rfl⟩
    obtain ⟨l', hl', hburned⟩ := hrun
    obtain ⟨-, -, -, hset⟩ := burnChecked_eq_ok hburned
    have hsub : supplyAt l (call.key 3) - plan.shares = plan.target := by omega
    rw [hsub, ← howned] at hset
    refine ⟨l', hl', hset, fun P hu _ => hset.untouched (.inr ?_) (.inl (by omega))⟩
    intro o hmem
    rw [hholder.1.2.1, Option.some.injEq] at hmem
    exact hmem ▸ hu

/-! ## The whole exchange -/

theorem Call.key_ne (h : call.accounts.Nodup) {i j : ℕ} (hi : i < call.accounts.length)
    (hj : j < call.accounts.length) (hne : i ≠ j) : call.key i ≠ call.key j := by
  rw [Call.key, Call.key, List.getD_eq_getElem?_getD, List.getD_eq_getElem?_getD, List.getElem?_eq_getElem hi,
    List.getElem?_eq_getElem hj, Option.getD_some, Option.getD_some]
  exact fun heq => hne (h.getElem_inj_iff.mp heq)

theorem touchedBy_eq {cfg : Buffer} {is : List ℕ} {legs : List Leg}
    (h : List.Forall₂ (LegOf call cfg) is legs) :
    touchedBy legs = (is.flatMap fun i => [8 + 3 * i, 9 + 3 * i]).map call.key := by
  induction h with
  | nil => rfl
  | cons hleg _ ih =>
    rw [touchedBy, List.flatMap_cons, ← touchedBy, ih, List.flatMap_cons, List.map_append, hleg.user,
      hleg.vault]
    rfl

theorem nodup_indices (n : ℕ) : ((List.range n).flatMap fun i => [8 + 3 * i, 9 + 3 * i]).Nodup := by
  rw [List.nodup_flatMap]
  refine ⟨fun i _ => by simp, List.nodup_range.imp fun {i j} hne => ?_⟩
  rw [Function.onFun, List.disjoint_left]
  simp only [List.mem_cons, List.not_mem_nil, or_false]
  omega

theorem exists_of_mem_right {α β : Type} {R : α → β → Prop} {xs : List α} {ys : List β}
    (h : List.Forall₂ R xs ys) {y : β} (hy : y ∈ ys) : ∃ x ∈ xs, R x y := by
  obtain ⟨i, hi, rfl⟩ := List.mem_iff_getElem.mp hy
  obtain ⟨hlength, hget⟩ := List.forall₂_iff_get.mp h
  exact ⟨_, List.getElem_mem (hlength ▸ hi), hget i (hlength ▸ hi) hi⟩

theorem exists_of_mem_left {α β : Type} {R : α → β → Prop} {xs : List α} {ys : List β}
    (h : List.Forall₂ R xs ys) {x : α} (hx : x ∈ xs) : ∃ y ∈ ys, R x y := by
  obtain ⟨i, hi, rfl⟩ := List.mem_iff_getElem.mp hx
  obtain ⟨hlength, hget⟩ := List.forall₂_iff_get.mp h
  exact ⟨_, List.getElem_mem (hlength ▸ hi), hget i hi (hlength ▸ hi)⟩

section Ready

variable {rt : Runtime} {cfg : Buffer} {plan : Plan} (h : Ready rt call l cfg plan)

include h

theorem Ready.touchedBy_eq : touchedBy plan.legs =
    ((List.range (legCount cfg)).flatMap fun i => [8 + 3 * i, 9 + 3 * i]).map call.key :=
  Vault.touchedBy_eq (h.legs.imp fun _ _ => And.left)

theorem Ready.nodup_touchedBy : (touchedBy plan.legs).Nodup := by
  rw [h.touchedBy_eq]
  refine List.Nodup.map_on ?_ (nodup_indices _)
  have hlength := h.accounts
  intro i hi j hj heq
  simp only [List.mem_flatMap, List.mem_range, List.mem_cons, List.not_mem_nil, or_false] at hi hj
  obtain ⟨a, ha, hi⟩ := hi
  obtain ⟨b, hb, hj⟩ := hj
  by_contra hne
  exact Call.key_ne h.nodup (by omega) (by omega) hne heq

/-- The first accounts are none of the legs' accounts. -/
theorem Ready.not_touched {i : ℕ} (hi : i < 7) : call.key i ∉ touchedBy plan.legs := by
  rw [h.touchedBy_eq, List.mem_map]
  have hlength := h.accounts
  rintro ⟨j, hj, heq⟩
  simp only [List.mem_flatMap, List.mem_range, List.mem_cons, List.not_mem_nil, or_false] at hj
  obtain ⟨a, ha, hj⟩ := hj
  exact Call.key_ne h.nodup (by omega) (by omega) (by omega) heq

theorem Ready.key_ne {i j : ℕ} (hi : i < 7) (hj : j < 7) (hne : i ≠ j) : call.key i ≠ call.key j := by
  have hlength := h.accounts
  exact Call.key_ne h.nodup (by omega) (by omega) hne

theorem Ready.exists_index {leg : Leg} (hleg : leg ∈ plan.legs) :
    ∃ i < legCount cfg, LegOf call cfg i leg ∧
      LegReady call l plan.authority plan.issue plan.shares plan.supply plan.target leg := by
  obtain ⟨i, hi, hof⟩ := exists_of_mem_right h.legs hleg
  exact ⟨i, List.mem_range.mp hi, hof⟩

theorem Ready.exists_leg {i : ℕ} (hi : i < legCount cfg) :
    ∃ leg ∈ plan.legs, LegOf call cfg i leg ∧
      LegReady call l plan.authority plan.issue plan.shares plan.supply plan.target leg :=
  exists_of_mem_left h.legs (List.mem_range.mpr hi)

end Ready

/-- What an exchange has done. -/
structure Exchanged (rt : Runtime) (call : Call) (plan : Plan) (l l' : Ledger) : Prop where
  legs : ∀ leg ∈ plan.legs, LegSettled plan l' leg
  owned : tokenAmount l' (call.key 4)
    = if plan.issue then plan.owned + plan.shares else plan.owned - plan.shares
  supply : supplyAt l' (call.key 3) = plan.target
  plain : ∀ k m o, Plain l' k m o ↔ Plain l k m o
  thawed : ∀ k m o, Plain l k m o → (Thawed l' k ↔ Thawed l k)
  other : ∀ k, k ∉ [call.key 3, call.key 4, call.key 5] → k ∉ touchedBy plan.legs → l' k = l k
  untouched : ∀ P : Key → Prop, ¬P (call.key 2) → ¬P plan.authority → Untouched P l l'
  issues : ∀ m a d, Issues l' m a d ↔ Issues l m a d
  receipt_owner : (l' (call.key 5)).owner = rt.program
  receipt_executable : (l' (call.key 5)).executable = false
  receipt_magic : (l' (call.key 5)).data.slice 0 8 = some receiptMagic

/-- A receipt has room for what `exchange` writes. -/
theorem exists_receipt (call : Call) (cfg : Buffer) (plan : Plan) {b : Buffer}
    (h : b.size = receiptSize) : ∃ data, Buffer.spliceAll (receiptFields call cfg plan) b = some data ∧
      data.slice 0 8 = some receiptMagic := by
  have hwindow : (window cfg 72 32).length ≤ 32 := by
    rw [window]
    rcases hslice : cfg.slice 72 32 with - | bytes
    · exact Nat.zero_le _
    · exact (Buffer.length_slice hslice).le
  obtain ⟨data, hdata⟩ := @Buffer.exists_spliceAll b (receiptFields call cfg plan) (by
    rw [h, receiptSize]
    simp only [receiptFields, receiptMagic, List.forall_mem_cons, List.length_cons, List.length_nil,
      Vector.length_toList, Buffer.length_toBytes]
    refine ⟨by omega, by omega, by omega, by omega, by omega, by omega, by omega, ?_⟩
    exact fun f hf => absurd hf List.not_mem_nil)
  refine ⟨data, hdata, ?_⟩
  have hapart : (receiptFields call cfg plan).Pairwise Buffer.Apart := by
    simp only [receiptFields, receiptMagic, List.pairwise_cons, List.forall_mem_cons, Buffer.Apart,
      List.length_cons, List.length_nil, Vector.length_toList, Buffer.length_toBytes]
    simp
    omega
  exact Buffer.slice_spliceAll hdata hapart (f := (0, receiptMagic)) (by simp [receiptFields])

/-- An exchange whose checks pass succeeds. -/
theorem exchange_ok {rt : Runtime} {plan : Plan} (h : Ready rt call l (l (call.key 0)).data plan) :
    ∃ l', exchange rt call l = .ok l' ∧ Exchanged rt call plan l l' := by
  have hle : plan.issue = false → plan.shares ≤ plan.supply := fun hissue => by
    have htarget := (h.redeems hissue).1
    omega
  obtain ⟨l₁, hl₁, hlegs, hframe⟩ := settleLegs_ok (fun leg hleg => (h.exists_index hleg).choose_spec.2.2)
    h.nodup_touchedBy h.user_signs h.authority hle
  have hshare := hframe.other _ (h.not_touched (i := 3) (by decide))
  have hholder := hframe.other _ (h.not_touched (i := 4) (by decide))
  have hreceipt := hframe.other _ (h.not_touched (i := 5) (by decide))
  obtain ⟨l₂, hl₂, hset, hfree⟩ := settleShares_ok (l := l₁) ((Issues.congr hshare).mpr h.share)
    ((Open.congr hholder).mpr h.holder) h.share_writable h.user_signs h.authority
    (by rw [supplyAt, hshare, ← supplyAt, h.supply]) (by rw [tokenAmount, hholder, ← tokenAmount, h.owned])
    h.issues h.redeems
  have h53 : call.key 5 ≠ call.key 3 := h.key_ne (by decide) (by decide) (by decide)
  have h54 : call.key 5 ≠ call.key 4 := h.key_ne (by decide) (by decide) (by decide)
  have hsame : l₂ (call.key 5) = l (call.key 5) := (hset.other h53 h54).trans hreceipt
  obtain ⟨data, hdata, hmagic⟩ := exists_receipt call (l (call.key 0)).data plan
    (b := (l₂ (call.key 5)).data) (by rw [hsame, h.receipt.size])
  have hwrite : write l₂ (call.key 5) (receiptFields call (l (call.key 0)).data plan)
      = .ok (Function.update l₂ (call.key 5) { l₂ (call.key 5) with data }) := by
    rw [write, hdata]
  -- the shares pass the checks after the fact
  have hafter : shareMint l₂ (call.key 3) plan.authority ((l (call.key 0)).data.byte 106)
      = .ok plan.target := by
    refine shareMint_eq_ok.mpr ⟨hset.issues.mpr ((Issues.congr hshare).mpr h.share), ?_⟩
    rw [hset.supply_mint]
  have hopen : Open call l₂ (call.key 4) (call.key 3) (call.key 2) := by
    obtain ⟨hplain, hthawed, hwritable⟩ := (Open.congr hholder).mpr h.holder
    exact ⟨hset.plain.mpr hplain, (hset.thawed hset.ne.symm).mpr hthawed, hwritable⟩
  let l' := Function.update l₂ (call.key 5) { l₂ (call.key 5) with data }
  have hself : l' (call.key 5) = { l₂ (call.key 5) with data } := Function.update_self ..
  have hforeign : Foreign l₂ l' := by
    intro j
    by_cases hj : j = call.key 5
    · subst hj
      have howner : (l₂ (call.key 5)).owner ≠ tokenId := by
        rw [hsame, h.receipt.owner]
        exact rt.program_ne
      rw [hself]
      exact .inr ⟨howner, howner⟩
    · exact .inl (Function.update_of_ne hj ..)
  have hkeep : ∀ k, k ≠ call.key 5 → l' k = l₂ k := fun k hk => Function.update_of_ne hk ..
  refine ⟨l', ?_, ?_⟩
  · rw [exchange, preflight_eq_ok.mpr h, ok_bind, commit, hl₁, ok_bind, hl₂, ok_bind, hafter, ok_bind,
      need_of rfl, ok_bind]
    cases hissue : plan.issue with
    | true =>
      obtain ⟨-, -, hgrow⟩ := h.issues hissue
      rw [hissue, if_pos rfl] at hset
      rw [if_pos rfl, plainAdd_eq_ok.mpr ⟨hgrow, rfl⟩, ok_bind]
      dsimp only
      rw [token_eq_ok.mpr ⟨hopen, rfl⟩, ok_bind, need_of hset.amount_holder, ok_bind, hwrite]
    | false =>
      obtain ⟨-, hshares⟩ := h.redeems hissue
      rw [hissue, if_neg (by decide)] at hset
      rw [if_neg (by decide), plainSub_eq_ok.mpr ⟨hshares, rfl⟩, ok_bind]
      dsimp only
      rw [token_eq_ok.mpr ⟨hopen, rfl⟩, ok_bind, need_of hset.amount_holder, ok_bind, hwrite]
  · exact {
      legs := fun leg hleg => by
        have hmem : ∀ k ∈ [leg.user, leg.vault], k ∈ touchedBy plan.legs := fun k hk =>
          List.mem_flatMap.mpr ⟨leg, hleg, hk⟩
        have hlast : ∀ k ∈ [leg.user, leg.vault], l' k = l₁ k := by
          intro k hk
          have hne : ∀ i < 7, k ≠ call.key i := fun i hi heq =>
            h.not_touched hi (heq ▸ hmem k hk)
          rw [hkeep k (hne 5 (by decide)), hset.other (hne 3 (by decide)) (hne 4 (by decide))]
        exact (hlegs leg hleg).congr (hlast _ (by simp)) (hlast _ (by simp))
      owned := by rw [tokenAmount, hkeep _ h54.symm, ← tokenAmount, hset.amount_holder]
      supply := by rw [supplyAt, hkeep _ h53.symm, ← supplyAt, hset.supply_mint]
      plain := fun k m o => hforeign.plain.trans (hset.plain.trans (hframe.plain k m o))
      thawed := fun k m o hk => by
        have hk₁ : Plain l₁ k m o := (hframe.plain k m o).mpr hk
        have hne : k ≠ call.key 5 := by
          rintro rfl
          exact rt.program_ne (h.receipt.owner.symm.trans hk.1.1)
        have hmint : k ≠ call.key 3 := fun heq => hk₁.1.ne hset.issued heq.symm
        rw [Thawed, hkeep k hne, ← Thawed, hset.thawed hmint, hframe.thawed]
      other := fun k hk hlegs => by
        simp only [List.mem_cons, List.not_mem_nil, or_false, not_or] at hk
        rw [hkeep k hk.2.2, hset.other hk.1 hk.2.1, hframe.other k hlegs]
      untouched := fun P hu ha =>
        ((hframe.untouched P hu ha).trans (hfree P hu ha)).trans (hforeign.untouched P)
      issues := fun m a d => by
        rw [hforeign.issues, hset.issues]
        by_cases hm : m ∈ touchedBy plan.legs
        · obtain ⟨leg, hleg, hm⟩ := List.mem_flatMap.mp hm
          obtain ⟨i, -, -, hready⟩ := h.exists_index hleg
          have hplain : ∃ o, Plain l m leg.mint o := by
            rcases List.mem_pair.mp hm with rfl | rfl
            · exact ⟨_, hready.user.1⟩
            · exact ⟨_, hready.vault.1⟩
          obtain ⟨o, hplain⟩ := hplain
          have hplain₁ := (hframe.plain m leg.mint o).mpr hplain
          exact iff_of_false (fun hm => hplain₁.1.ne hm.1 rfl) fun hm => hplain.1.ne hm.1 rfl
        · exact Issues.congr (hframe.other m hm)
      receipt_owner := by rw [hself]; exact (congrArg _ hsame).trans h.receipt.owner
      receipt_executable := by rw [hself]; exact (congrArg _ hsame).trans h.receipt.executable
      receipt_magic := by rw [hself]; exact hmagic }

/-- An exchange that succeeds has done what its plan says. -/
theorem exchange_eq_ok {rt : Runtime} (h : exchange rt call l = .ok l') :
    ∃ plan, Ready rt call l (l (call.key 0)).data plan ∧ Exchanged rt call plan l l' := by
  rw [exchange, bind_eq_ok] at h
  obtain ⟨plan, hplan, hcommit⟩ := h
  have hready := preflight_eq_ok.mp hplan
  obtain ⟨l'', hl'', hexchanged⟩ := exchange_ok hready
  rw [exchange, hplan, ok_bind, hcommit] at hl''
  cases hl''
  exact ⟨plan, hready, hexchanged⟩

theorem need_ne_wrapped {ok : Prop} [Decidable ok] {e : Fault} (h : e ≠ .wrapped) :
    need ok e ≠ .error .wrapped := by
  unfold need
  split
  · exact nofun
  · exact fun heq => h (Except.error.inj heq)

theorem okOr_ne_wrapped {α : Type} {x : Option α} {e : Fault} (h : e ≠ .wrapped) :
    okOr x e ≠ .error .wrapped := by
  cases x with
  | none => exact fun heq => h (Except.error.inj heq)
  | some a => exact nofun

theorem mul_ne_wrapped (a b : ℕ) : mul a b ≠ .error .wrapped := by
  unfold mul
  split <;> exact nofun

theorem checkedAdd_ne_wrapped (a b : ℕ) : checkedAdd a b ≠ .error .wrapped := by
  unfold checkedAdd
  split <;> exact nofun

theorem checkedSub_ne_wrapped (a b : ℕ) : checkedSub a b ≠ .error .wrapped := by
  unfold checkedSub
  split <;> exact nofun

theorem mint_ne_wrapped (l : Ledger) (a : Key) : mint l a ≠ .error .wrapped :=
  bind_ne_error (need_ne_wrapped nofun) fun _ => bind_ne_error (need_ne_wrapped nofun) fun _ =>
    bind_ne_error (okOr_ne_wrapped nofun) fun _ => nofun

theorem token_ne_wrapped (call : Call) (l : Ledger) (a m owner : Key) :
    token call l a m owner ≠ .error .wrapped :=
  bind_ne_error (need_ne_wrapped nofun) fun _ => bind_ne_error (need_ne_wrapped nofun) fun _ =>
    bind_ne_error (okOr_ne_wrapped nofun) fun _ => bind_ne_error (okOr_ne_wrapped nofun) fun _ =>
      bind_ne_error (need_ne_wrapped nofun) fun _ => okOr_ne_wrapped nofun

theorem exchangeLeg_ne_wrapped (cfg : Buffer) (authority : Key) (issue : Bool)
    (shares supply target i : ℕ) :
    exchangeLeg call l cfg authority issue shares supply target i ≠ .error .wrapped := by
  refine bind_ne_error (okOr_ne_wrapped nofun) fun _ => ?_
  refine bind_ne_error (okOr_ne_wrapped nofun) fun _ => ?_
  refine bind_ne_error (need_ne_wrapped nofun) fun _ => ?_
  refine bind_ne_error (mint_ne_wrapped l _) fun _ => ?_
  refine bind_ne_error (okOr_ne_wrapped nofun) fun _ => ?_
  refine bind_ne_error (mul_ne_wrapped _ _) fun _ => ?_
  refine bind_ne_error (token_ne_wrapped call l _ _ _) fun _ => ?_
  refine bind_ne_error (token_ne_wrapped call l _ _ _) fun _ => ?_
  refine bind_ne_error (mul_ne_wrapped _ _) fun _ => ?_
  refine bind_ne_error (need_ne_wrapped nofun) fun _ => ?_
  refine bind_ne_error (mul_ne_wrapped _ _) fun _ => ?_
  cases issue with
  | true =>
    refine bind_ne_error (need_ne_wrapped nofun) fun _ => ?_
    exact bind_ne_error (checkedAdd_ne_wrapped _ _) fun _ => nofun
  | false =>
    refine bind_ne_error nofun fun _ => ?_
    exact bind_ne_error (checkedAdd_ne_wrapped _ _) fun _ => nofun

theorem preflight_ne_wrapped (rt : Runtime) (call : Call) (l : Ledger) :
    preflight rt call l ≠ .error .wrapped := by
  refine bind_ne_error (need_ne_wrapped nofun) fun _ => ?_
  refine bind_ne_error (okOr_ne_wrapped nofun) fun _ => ?_
  refine bind_ne_error (need_ne_wrapped nofun) fun _ => ?_
  refine bind_ne_error (need_ne_wrapped nofun) fun _ => ?_
  refine bind_ne_error (need_ne_wrapped nofun) fun _ => ?_
  refine bind_ne_error (need_ne_wrapped nofun) fun _ => ?_
  refine bind_ne_error (need_ne_wrapped nofun) fun _ => ?_
  refine bind_ne_error (okOr_ne_wrapped nofun) fun _ => ?_
  refine bind_ne_error (okOr_ne_wrapped nofun) fun _ => ?_
  refine bind_ne_error (need_ne_wrapped nofun) fun _ => ?_
  have hzero : zeroAccount rt call l (call.key 5) rt.program receiptSize ≠ .error .wrapped :=
    bind_ne_error (need_ne_wrapped nofun) fun _ => bind_ne_error (need_ne_wrapped nofun) fun _ =>
      need_ne_wrapped nofun
  refine bind_ne_error hzero fun _ => ?_
  have hshare (authority : Key) (decimals : UInt8) :
      shareMint l (call.key 3) authority decimals ≠ .error .wrapped :=
    bind_ne_error (mint_ne_wrapped l _) fun _ => bind_ne_error (okOr_ne_wrapped nofun) fun _ =>
      bind_ne_error (need_ne_wrapped nofun) fun _ => nofun
  refine bind_ne_error (hshare _ _) fun _ => ?_
  refine bind_ne_error (token_ne_wrapped call l _ _ _) fun _ => ?_
  cases decide (call.data.byte 0 = 1) with
  | true =>
    refine bind_ne_error (checkedAdd_ne_wrapped _ _) fun _ => ?_
    refine bind_ne_error (checkedAdd_ne_wrapped _ _) fun _ => ?_
    refine bind_ne_error nofun fun _ => ?_
    exact bind_ne_error (mapM_ne_error (exchangeLeg_ne_wrapped _ _ _ _ _ _) _) fun _ => nofun
  | false =>
    refine bind_ne_error (checkedSub_ne_wrapped _ _) fun _ => ?_
    refine bind_ne_error (need_ne_wrapped nofun) fun _ => ?_
    exact bind_ne_error (mapM_ne_error (exchangeLeg_ne_wrapped _ _ _ _ _ _) _) fun _ => nofun

/-- The unchecked operations of an exchange stay inside `u64`, on every ledger. -/
theorem exchange_ne_wrapped (rt : Runtime) (call : Call) (l : Ledger) :
    exchange rt call l ≠ .error .wrapped := by
  intro h
  rcases hplan : preflight rt call l with e | plan
  · rw [exchange, hplan, error_bind] at h
    cases h
    exact preflight_ne_wrapped rt call l hplan
  · obtain ⟨l', hl', -⟩ := exchange_ok (preflight_eq_ok.mp hplan)
    rw [hl'] at h
    cases h

end StockMesh.Vault

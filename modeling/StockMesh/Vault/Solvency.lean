import StockMesh.Vault.Basket

/-! # Solvency over all runs

A run interleaves instructions of the program with anything that other programs and other signers may do
(`Outside`): the authorities of the baskets are addresses of the program, so nobody else signs for them.
Every basket stays backed in every run, no receipt is consumed twice, and a holder with plain accounts
can always redeem. -/

namespace StockMesh.Vault

open Settle (Account Ledger tokenId tokenAmount zeroWindow)

/-- What may happen outside the program. The token program takes nothing from an authority that has not
signed, and the runtime lets nobody else write to an account of the program; an account that is newly
assigned to it holds zeros. -/
structure Outside (rt : Runtime) (l l' : Ledger) : Prop where
  untouched : Untouched (fun k => ∃ c, rt.inUse c ∧ rt.authority c = k) l l'
  kept : ∀ k, (l k).owner = rt.program →
    (l' k).owner = rt.program ∧ (l' k).executable = (l k).executable ∧ (l' k).data = (l k).data
  assigned : ∀ k, (l k).owner ≠ rt.program → (l' k).owner = rt.program →
    zeroWindow (l' k).data 0 (l' k).data.size

/-- The receipt that an instruction consumes. -/
def consumed (call : Call) : List Key := if call.data.byte 0 = 0 then [] else [call.key 5]

/-- The ledgers that runs reach, with the receipts consumed on the way. -/
inductive Reaches (rt : Runtime) : List Key → Ledger → Prop
  | start {l : Ledger} (zero : ∀ k, (l k).owner = rt.program → zeroWindow (l k).data 0 (l k).data.size)
      (backed : Backed l) : Reaches rt [] l
  | outside {receipts : List Key} {l l' : Ledger} (run : Reaches rt receipts l)
      (step : Outside rt l l') : Reaches rt receipts l'
  | instruction {receipts : List Key} {l l' : Ledger} {call : Call} (run : Reaches rt receipts l)
      (unsigned : ∀ c, rt.inUse c → call.isSigner (rt.authority c) = false)
      (named : call.data.byte 0 = 0 → rt.inUse (call.key 0)) (ok : process rt call l = .ok l') :
      Reaches rt (receipts ++ consumed call) l'

/-- A transfer signed by anyone but a basket is outside the program. -/
theorem outside_transfer {rt : Runtime} {l l' : Ledger} {source m destination owner : Key} {amount : ℕ}
    {decimals : UInt8} (hsigner : ∀ c, rt.inUse c → rt.authority c ≠ owner)
    (h : transferChecked l source m destination owner amount decimals = .ok l') : Outside rt l l' := by
  have hmoved := transferChecked_eq_ok h
  have hsame : ∀ k, (l k).owner ≠ tokenId → l' k = l k := fun k hk =>
    hmoved.other (fun heq => hk (heq ▸ hmoved.source_holds.1))
      fun heq => hk (heq ▸ hmoved.destination_holds.1)
  refine ⟨hmoved.untouched fun ⟨c, huse, hc⟩ => hsigner c huse hc, fun k hk => ?_, fun k hk hk' => ?_⟩
  · rw [hsame k (hk ▸ rt.program_ne)]
    exact ⟨hk, rfl, rfl⟩
  · by_cases htoken : (l k).owner = tokenId
    · -- an account of the token program stays with it
      have howner : (l' k).owner = tokenId := by
        rw [hmoved.moved]
        split
        · exact htoken
        · rw [(setWord_rewritten _ _ _ _ k).owner, (setWord_rewritten _ _ _ _ k).owner, htoken]
      exact absurd (hk'.symm.trans howner) rt.program_ne
    · exact absurd (hsame k htoken ▸ hk') hk

/-- So is a direct burn of shares. -/
theorem outside_burn {rt : Runtime} {l l' : Ledger} {source m owner : Key} {amount : ℕ}
    {decimals : UInt8} (hsigner : ∀ c, rt.inUse c → rt.authority c ≠ owner)
    (h : burnChecked l source m owner amount decimals = .ok l') : Outside rt l l' := by
  obtain ⟨howner, -, -, hset⟩ := burnChecked_eq_ok h
  have hsame : ∀ k, (l k).owner ≠ tokenId → l' k = l k := fun k hk =>
    hset.other (fun heq => hk (heq ▸ hset.issued.1)) fun heq => hk (heq ▸ hset.holder.1)
  refine ⟨hset.untouched (.inr fun o ho => ?_) (.inl (Nat.sub_le _ _)), fun k hk => ?_,
    fun k hk hk' => ?_⟩
  · rw [howner, Option.some.injEq] at ho
    rintro ⟨c, huse, hc⟩
    exact hsigner c huse (hc.trans ho.symm)
  · rw [hsame k (hk ▸ rt.program_ne)]
    exact ⟨hk, rfl, rfl⟩
  · by_cases htoken : (l k).owner = tokenId
    · have howner' : (l' k).owner = tokenId := by
        rw [hset.set, (setWord_rewritten _ _ _ _ k).owner, (setWord_rewritten _ _ _ _ k).owner, htoken]
      exact absurd (hk'.symm.trans howner') rt.program_ne
    · exact absurd (hsame k htoken ▸ hk') hk

/-! ## The invariant -/

/-- What every run keeps. -/
structure Inv (rt : Runtime) (receipts : List Key) (l : Ledger) : Prop where
  inUse : ∀ c, IsBasket rt l c → rt.inUse c
  baskets : ∀ c, IsBasket rt l c → Basket rt l c (l c).data
  marked : ∀ r ∈ receipts, (l r).owner = rt.program ∧ (l r).data.slice 0 8 = some receiptMagic
  nodup : receipts.Nodup
  backed : Backed l

/-- Zeros are no magic. -/
theorem byte_eq_zero {d : Buffer} {n : ℕ} {b : UInt8} {bytes : List UInt8} (hzero : zeroWindow d 0 n)
    (hn : 0 < n) (h : d.slice 0 8 = some (b :: bytes)) : b = 0 := by
  have hzero' := byte_of_slice hzero (i := 0) (by simpa using hn)
  have hbyte := byte_of_slice h (i := 0) (by simp)
  rw [List.getElem_replicate] at hzero'
  exact hbyte.symm.trans hzero'

theorem size_of_slice {d : Buffer} {p length : ℕ} {bytes : List UInt8}
    (h : d.slice p length = some bytes) : p + length ≤ d.size := by
  unfold Buffer.slice at h
  split at h
  · assumption
  · cases h

/-- An account with zeros is neither a basket nor a receipt. -/
theorem not_zero {d : Buffer} {b : UInt8} {bytes : List UInt8} (hzero : zeroWindow d 0 d.size)
    (hb : b ≠ 0) : d.slice 0 8 ≠ some (b :: bytes) := fun h => by
  have hsize := size_of_slice h
  exact hb (byte_eq_zero hzero (by omega) h)

theorem Inv.start {rt : Runtime} {l : Ledger}
    (hzero : ∀ k, (l k).owner = rt.program → zeroWindow (l k).data 0 (l k).data.size)
    (hbacked : Backed l) : Inv rt [] l where
  inUse c hc := absurd hc.2 (not_zero (hzero c hc.1) (by decide))
  baskets c hc := absurd hc.2 (not_zero (hzero c hc.1) (by decide))
  marked _ hr := absurd hr List.not_mem_nil
  nodup := List.nodup_nil
  backed := hbacked

variable {rt : Runtime} {receipts : List Key} {l l' : Ledger} {call : Call}

/-- Nobody else makes a basket. -/
theorem Outside.isBasket (hstep : Outside rt l l') {c : Key} (hc : IsBasket rt l' c) :
    IsBasket rt l c := by
  by_cases howner : (l c).owner = rt.program
  · obtain ⟨-, -, hdata⟩ := hstep.kept c howner
    exact ⟨howner, hdata ▸ hc.2⟩
  · exact absurd hc.2 (not_zero (hstep.assigned c howner hc.1) (by decide))

theorem Inv.outside (h : Inv rt receipts l) (hstep : Outside rt l l') : Inv rt receipts l' where
  inUse c hc := h.inUse c (hstep.isBasket hc)
  baskets c hc := by
    have hc' := hstep.isBasket hc
    obtain ⟨-, hexecutable, hdata⟩ := hstep.kept c hc'.1
    rw [hdata]
    exact (h.baskets c hc').mono hstep.untouched ⟨c, h.inUse c hc', rfl⟩ hexecutable
  marked r hr := by
    obtain ⟨howner, hmagic⟩ := h.marked r hr
    obtain ⟨howner', -, hdata⟩ := hstep.kept r howner
    exact ⟨howner', hdata ▸ hmagic⟩
  nodup := h.nodup
  backed := hstep.untouched.backed h.backed

theorem Inv.initialized {n : ℕ} (h : Inv rt receipts l) (hstep : Initialized rt call l l' n)
    (huse : rt.inUse (call.key 0)) : Inv rt receipts l' where
  inUse c hc := by
    by_cases hcall : c = call.key 0
    · exact hcall ▸ huse
    · rw [IsBasket, hstep.other hcall] at hc
      exact h.inUse c hc
  baskets c hc := by
    by_cases hcall : c = call.key 0
    · subst hcall
      exact hstep.basket
    · have hsame := hstep.other hcall
      rw [IsBasket, hsame] at hc
      rw [hsame]
      exact (h.baskets c hc).mono (hstep.foreign.untouched fun _ => True) trivial (by rw [hsame])
  marked r hr := by
    obtain ⟨howner, hmagic⟩ := h.marked r hr
    have hne : r ≠ call.key 0 := by
      rintro rfl
      have hzero := hstep.fresh.zero
      rw [← hstep.fresh.size] at hzero
      exact not_zero hzero (by decide) hmagic
    rw [hstep.other hne]
    exact ⟨howner, hmagic⟩
  nodup := h.nodup
  backed := (hstep.foreign.untouched fun _ => True).backed h.backed

section Exchange

variable {plan : Plan} (hbasket : Basket rt l (call.key 0) (l (call.key 0)).data)
  (hready : Ready rt call l (l (call.key 0)).data plan)

include hbasket hready

/-- An exchange signs for its own basket. -/
theorem plan_authority : plan.authority = rt.authority (call.key 0) := by
  have hcreate := hready.create
  rw [hbasket.bump, rt.create_find] at hcreate
  exact (Option.some.inj hcreate).symm

omit hbasket in
theorem key_share : call.key 3 = shareKey (l (call.key 0)).data := by
  rw [shareKey, hready.share_key, Option.getD_some]

omit hbasket in
/-- The legs of a plan are those of the config. -/
theorem plan_leg {i : ℕ} (hi : i < legCount (l (call.key 0)).data) :
    ∃ leg ∈ plan.legs, leg.mint = mintKey (l (call.key 0)).data i ∧ leg.user = call.key (8 + 3 * i) ∧
      leg.vault = vaultKey (l (call.key 0)).data i ∧ leg.units = unitsOf (l (call.key 0)).data i ∧
      LegReady call l plan.authority plan.issue plan.shares plan.supply plan.target leg := by
  obtain ⟨leg, hleg, hof, hlegReady⟩ := hready.exists_leg hi
  refine ⟨leg, hleg, ?_, hof.user, ?_, ?_, hlegReady⟩
  · rw [mintKey, hof.cfg_mint, Option.getD_some]
  · rw [vaultKey, hof.cfg_vault, Option.getD_some]
  · rw [unitsOf, hof.cfg_units, Option.getD_some]

/-- A basket keeps its backing when its shares are minted or redeemed. -/
theorem Basket.exchanged (h : Exchanged rt call plan l l')
    (hsame : l' (call.key 0) = l (call.key 0)) :
    Basket rt l' (call.key 0) (l (call.key 0)).data where
  executable := hsame ▸ hbasket.executable
  version := hbasket.version
  count := hbasket.count
  size := hbasket.size
  bump := hbasket.bump
  nodup := hbasket.nodup
  share := (h.issues _ _ _).mpr hbasket.share
  mint i hi := by
    have hfree := h.untouched (fun _ => False) id id
    exact (hfree.mint _ (hbasket.mint i hi)).1
  units_pos := hbasket.units_pos
  vault i hi := (h.plain _ _ _).mpr (hbasket.vault i hi)
  solvent i hi := by
    obtain ⟨leg, hleg, -, -, hvault, hunits, hlegReady⟩ := plan_leg hready hi
    have hsettled := h.legs leg hleg
    have hsolvent := hlegReady.solvent
    rw [← key_share hready, h.supply, ← hvault, ← hunits]
    cases hissue : plan.issue with
    | true =>
      obtain ⟨htarget, -⟩ := hready.issues hissue
      rw [htarget, (hsettled.issued hissue).1, Nat.add_mul]
      exact Nat.add_le_add_right hsolvent _
    | false =>
      obtain ⟨htarget, -⟩ := hready.redeems hissue
      have hmoved := (hsettled.redeemed hissue).1
      rw [← htarget, Nat.add_mul] at hsolvent
      omega

end Exchange

/-- An exchange changes no account of the program but its receipt. -/
theorem Exchanged.kept {plan : Plan} (h : Exchanged rt call plan l l')
    (hready : Ready rt call l (l (call.key 0)).data plan) {k : Key} (hk : (l k).owner ≠ tokenId)
    (hne : k ≠ call.key 5) : l' k = l k := by
  apply h.other
  · simp only [List.mem_cons, List.not_mem_nil, or_false, not_or]
    exact ⟨fun heq => hk (heq ▸ hready.share.1.1), fun heq => hk (heq ▸ hready.holder.1.1.1), hne⟩
  · intro hmem
    obtain ⟨leg, hleg, hmem⟩ := List.mem_flatMap.mp hmem
    obtain ⟨i, -, -, hlegReady⟩ := hready.exists_index hleg
    rcases List.mem_pair.mp hmem with rfl | rfl
    · exact hk hlegReady.user.1.1.1
    · exact hk hlegReady.vault.1.1.1

/-- The token program keeps its accounts. -/
theorem Exchanged.token_owner {plan : Plan} (h : Exchanged rt call plan l l')
    (hready : Ready rt call l (l (call.key 0)).data plan) {k : Key} (hk : (l k).owner = tokenId)
    (hne : k ≠ call.key 5) : (l' k).owner = tokenId := by
  by_cases hshare : k = call.key 3
  · exact hshare ▸ ((h.issues _ _ _).mpr hready.share).1.1
  by_cases hholder : k = call.key 4
  · exact hholder ▸ ((h.plain _ _ _).mpr hready.holder.1).1.1
  by_cases htouched : k ∈ touchedBy plan.legs
  · obtain ⟨leg, hleg, hmem⟩ := List.mem_flatMap.mp htouched
    obtain ⟨i, -, -, hlegReady⟩ := hready.exists_index hleg
    rcases List.mem_pair.mp hmem with rfl | rfl
    · exact ((h.plain _ _ _).mpr hlegReady.user.1).1.1
    · exact ((h.plain _ _ _).mpr hlegReady.vault.1).1.1
  · rw [h.other k (by simp [hshare, hholder, hne]) htouched, hk]

theorem Inv.exchanged {plan : Plan} (h : Inv rt receipts l)
    (hready : Ready rt call l (l (call.key 0)).data plan) (hstep : Exchanged rt call plan l l')
    (hsigner : ∀ c, rt.inUse c → call.isSigner (rt.authority c) = false) :
    Inv rt (receipts ++ [call.key 5]) l' := by
  have hbasket := h.baskets _ ⟨hready.cfg_owner, hready.cfg_magic⟩
  have hforeign : ∀ k, (l k).owner = rt.program → (l k).owner ≠ tokenId := fun k hk =>
    hk ▸ rt.program_ne
  have hfresh : ¬(l (call.key 5)).data.slice 0 8 = some receiptMagic := by
    have hzero := hready.receipt.zero
    rw [← hready.receipt.size] at hzero
    exact not_zero hzero (by decide)
  have hself : l' (call.key 0) = l (call.key 0) :=
    hstep.kept hready (hforeign _ hready.cfg_owner) (hready.key_ne (by decide) (by decide) (by decide))
  have hbefore : ∀ c, IsBasket rt l' c → l' c = l c := by
    intro c hc
    have h5 : c ≠ call.key 5 := by
      rintro rfl
      exact absurd (hc.2.symm.trans hstep.receipt_magic) (by decide)
    refine hstep.kept hready (fun howner => ?_) h5
    exact rt.program_ne (hc.1.symm.trans (hstep.token_owner hready howner h5))
  refine ⟨fun c hc => ?_, fun c hc => ?_, fun r hr => ?_, ?_, ?_⟩
  · exact h.inUse c (by rwa [IsBasket, hbefore c hc] at hc)
  · have hsame := hbefore c hc
    rw [IsBasket, hsame] at hc
    rw [hsame]
    by_cases h0 : c = call.key 0
    · subst h0
      exact hbasket.exchanged hready hstep hself
    · -- another basket has another authority, which has not signed
      have huntouched := hstep.untouched
        (fun k => ∃ c, rt.inUse c ∧ c ≠ call.key 0 ∧ rt.authority c = k) ?_ ?_
      · exact (h.baskets c hc).mono huntouched ⟨c, h.inUse c hc, h0, rfl⟩ (by rw [hsame])
      · rintro ⟨b, huse, -, hb⟩
        have hsigned := hready.user_signs
        rw [← hb, hsigner b huse] at hsigned
        cases hsigned
      · rintro ⟨b, huse, hb, hauthority⟩
        rw [plan_authority hbasket hready] at hauthority
        have hin := h.inUse _ ⟨hready.cfg_owner, hready.cfg_magic⟩
        exact hb (rt.find_injective _ _ huse hin hauthority)
  · rcases List.mem_append.mp hr with hr | hr
    · obtain ⟨howner, hmagic⟩ := h.marked r hr
      have hne : r ≠ call.key 5 := fun heq => hfresh (heq ▸ hmagic)
      rw [hstep.kept hready (hforeign r howner) hne]
      exact ⟨howner, hmagic⟩
    · rw [List.mem_singleton.mp hr]
      exact ⟨hstep.receipt_owner, hstep.receipt_magic⟩
  · rw [List.nodup_append]
    refine ⟨h.nodup, List.nodup_singleton _, ?_⟩
    intro r hr k hk heq
    rw [List.mem_singleton.mp hk] at heq
    exact hfresh (heq ▸ (h.marked r hr).2)
  · exact (hstep.untouched (fun _ => False) id id).backed h.backed

/-- Every run keeps the invariant. -/
theorem Reaches.inv (h : Reaches rt receipts l) : Inv rt receipts l := by
  induction h with
  | start hzero hbacked => exact .start hzero hbacked
  | outside _ hstep ih => exact ih.outside hstep
  | @instruction receipts l l' call _ hsigner hnamed hok ih =>
    rw [process] at hok
    split at hok
    · cases hok
    · split at hok
      · next hop =>
        rw [consumed, if_pos hop, List.append_nil]
        exact ih.initialized (initializeBasket_eq_ok hok) (hnamed hop)
      · next hop =>
        split at hok
        · rw [consumed, if_neg hop]
          obtain ⟨plan, hready, hstep⟩ := exchange_eq_ok hok
          exact ih.exchanged hready hstep hsigner
        · cases hok

/-! ## Redemption -/

/-- A token account of the holder that is not frozen. -/
def Thawn (l : Ledger) (k m owner : Key) : Prop :=
  Holds l k m ∧ keyOf (l k).data 32 = some owner ∧ Thawed l k

instance (l : Ledger) (k m owner : Key) : Decidable (Thawn l k m owner) :=
  inferInstanceAs (Decidable (_ ∧ _))

/-- A holder redeems shares of a basket, from accounts that are as `own` says. -/
structure Redeems (own : Ledger → Key → Key → Key → Prop) (rt : Runtime) (call : Call) (l : Ledger)
    (shares : ℕ) : Prop where
  basket : IsBasket rt l (call.key 0)
  accounts : call.accounts.length = 7 + 3 * legCount (l (call.key 0)).data
  nodup : call.accounts.Nodup
  authority : call.key 1 = rt.authority (call.key 0)
  share_key : call.key 3 = shareKey (l (call.key 0)).data
  token_program : call.key 6 = tokenId
  token_executable : (l tokenId).executable = true
  leg_keys : ∀ i < legCount (l (call.key 0)).data,
    call.key (7 + 3 * i) = mintKey (l (call.key 0)).data i ∧
    call.key (9 + 3 * i) = vaultKey (l (call.key 0)).data i
  user_signs : call.isSigner (call.key 2) = true
  writable : call.isWritable (call.key 3) = true ∧ call.isWritable (call.key 4) = true ∧
    ∀ i < legCount (l (call.key 0)).data, call.isWritable (call.key (8 + 3 * i)) = true ∧
      call.isWritable (call.key (9 + 3 * i)) = true
  receipt : Fresh rt call l (call.key 5) receiptSize
  data_size : call.data.size = 9
  operation : call.data.byte 0 = 2
  data_shares : call.data.number 1 8 = some shares
  pos : 0 < shares
  holder : own l (call.key 4) (call.key 3) (call.key 2)
  owned : shares ≤ tokenAmount l (call.key 4)
  user : ∀ i < legCount (l (call.key 0)).data,
    own l (call.key (8 + 3 * i)) (call.key (7 + 3 * i)) (call.key 2)
  vault : ∀ i < legCount (l (call.key 0)).data, Thawed l (call.key (9 + 3 * i))

/-- What a redemption pays. -/
structure Paid (call : Call) (l l' : Ledger) (shares : ℕ) : Prop where
  legs : ∀ i < legCount (l (call.key 0)).data,
    tokenAmount l' (call.key (8 + 3 * i)) = tokenAmount l (call.key (8 + 3 * i))
      + shares * unitsOf (l (call.key 0)).data i ∧
    tokenAmount l' (call.key (9 + 3 * i)) + shares * unitsOf (l (call.key 0)).data i
      = tokenAmount l (call.key (9 + 3 * i))
  holder : tokenAmount l' (call.key 4) + shares = tokenAmount l (call.key 4)
  supply : supplyAt l' (call.key 3) + shares = supplyAt l (call.key 3)

/-- A token account as `exchange` wants it. -/
def Spendable (l : Ledger) (k m owner : Key) : Prop := Plain l k m owner ∧ Thawed l k

/-- Two accounts of a mint fit into `u64` together. -/
theorem Backed.pair_lt (h : Backed l) {m k j : Key} (hm : IsMint l m) (hk : Holds l k m)
    (hj : Holds l j m) (hne : k ≠ j) : tokenAmount l k + tokenAmount l j < u64Size := by
  have hpair := h m hm {k, j} (by
    intro i hi
    rcases Finset.mem_insert.mp hi with rfl | hi
    · exact hk
    · exact Finset.mem_singleton.mp hi ▸ hj)
  rw [Finset.sum_pair hne] at hpair
  exact hpair.trans_lt (supply_lt l m)

/-- No account holds more than the supply of its mint. -/
theorem Backed.le_supply (h : Backed l) {m k : Key} (hm : IsMint l m) (hk : Holds l k m) :
    tokenAmount l k ≤ supplyAt l m := by
  have hsingle := h m hm {k} (by simpa using hk)
  rwa [Finset.sum_singleton] at hsingle

theorem keyOf_eq_getD {d : Buffer} {p : ℕ} (h : p + 32 ≤ d.size) :
    keyOf d p = some ((keyOf d p).getD Settle.systemId) := by
  rw [keyOf, Buffer.slice, if_pos h, Option.map_some, Option.getD_some]

section Redeem

variable {shares : ℕ}

/-- The leg that `exchange` reads. -/
def readLeg (call : Call) (l : Ledger) (cfg : Buffer) (i : ℕ) : Leg where
  mint := call.key (7 + 3 * i)
  user := call.key (8 + 3 * i)
  vault := call.key (9 + 3 * i)
  units := unitsOf cfg i
  before := tokenAmount l (call.key (9 + 3 * i))
  userBefore := tokenAmount l (call.key (8 + 3 * i))

/-- The plan of a redemption. -/
def redeemPlan (rt : Runtime) (call : Call) (l : Ledger) (shares : ℕ) : Plan where
  authority := rt.authority (call.key 0)
  shares := shares
  supply := supplyAt l (call.key 3)
  owned := tokenAmount l (call.key 4)
  issue := false
  target := supplyAt l (call.key 3) - shares
  legs := (List.range (legCount (l (call.key 0)).data)).map (readLeg call l (l (call.key 0)).data)

theorem Redeems.shares_le (h : Inv rt receipts l) (hcall : Redeems Spendable rt call l shares) :
    shares ≤ supplyAt l (call.key 3) := by
  have hbasket := h.baskets _ hcall.basket
  have hmint : IsMint l (call.key 3) := hcall.share_key ▸ hbasket.share.1
  exact hcall.owned.trans (h.backed.le_supply hmint hcall.holder.1.1)

theorem Redeems.legReady (h : Inv rt receipts l) (hcall : Redeems Spendable rt call l shares) {i : ℕ}
    (hi : i < legCount (l (call.key 0)).data) :
    LegReady call l (rt.authority (call.key 0)) false shares (supplyAt l (call.key 3))
      (supplyAt l (call.key 3) - shares) (readLeg call l (l (call.key 0)).data i) := by
  have hbasket := h.baskets _ hcall.basket
  obtain ⟨hmintKey, hvaultKey⟩ := hcall.leg_keys i hi
  have hmint := hbasket.mint i hi
  have hvault := hbasket.vault i hi
  have hsolvent := hbasket.solvent i hi
  rw [← hmintKey] at hmint hvault
  rw [← hvaultKey] at hvault hsolvent
  rw [← hcall.share_key] at hsolvent
  obtain ⟨huser, huserThawed⟩ := hcall.user i hi
  obtain ⟨huserWritable, hvaultWritable⟩ := hcall.writable.2.2 i hi
  have hlt := amount_lt l (call.key (9 + 3 * i))
  have hshares := Nat.mul_le_mul_right (unitsOf (l (call.key 0)).data i) (hcall.shares_le h)
  have htarget := Nat.mul_le_mul_right (unitsOf (l (call.key 0)).data i)
    (Nat.sub_le (supplyAt l (call.key 3)) shares)
  have hne : call.key (8 + 3 * i) ≠ call.key (9 + 3 * i) := by
    have hlength := hcall.accounts
    exact Call.key_ne hcall.nodup (by omega) (by omega) (by omega)
  have hpair := h.backed.pair_lt hmint huser.1 hvault.1 hne
  exact {
    mint := hmint
    vault := ⟨hvault, hcall.vault i hi, hvaultWritable⟩
    user := ⟨huser, huserThawed, huserWritable⟩
    before := rfl
    userBefore := rfl
    amount_fits := by
      show shares * unitsOf (l (call.key 0)).data i < u64Size
      omega
    solvent := hsolvent
    target_fits := by
      show (supplyAt l (call.key 3) - shares) * unitsOf (l (call.key 0)).data i < u64Size
      omega
    enough := nofun
    fits := by
      show tokenAmount l (call.key (8 + 3 * i)) + shares * unitsOf (l (call.key 0)).data i < u64Size
      omega }

/-- The checks of `exchange` pass for a redemption from plain accounts. -/
theorem Redeems.ready (h : Inv rt receipts l) (hcall : Redeems Spendable rt call l shares) :
    Ready rt call l (l (call.key 0)).data (redeemPlan rt call l shares) := by
  have hbasket := h.baskets _ hcall.basket
  have hsize := hbasket.size
  have hcount := hbasket.count
  have hle := hcall.shares_le h
  exact {
    data_size := hcall.data_size
    data_shares := hcall.data_shares
    pos := hcall.pos
    cfg_owner := hcall.basket.1
    cfg_executable := hbasket.executable
    cfg_magic := hcall.basket.2
    cfg_version := hbasket.version
    count := hcount
    cfg_size := hsize
    accounts := hcall.accounts
    nodup := hcall.nodup
    create := by
      rw [hbasket.bump]
      exact rt.create_find _
    authority := hcall.authority
    user_signs := hcall.user_signs
    share_writable := hcall.writable.1
    share_key := by
      rw [hcall.share_key]
      exact keyOf_eq_getD (by rw [hsize, header]; omega)
    token_program := hcall.token_program
    token_executable := hcall.token_program ▸ hcall.token_executable
    receipt := hcall.receipt
    share := hcall.share_key ▸ hbasket.share
    supply := rfl
    holder := ⟨hcall.holder.1, hcall.holder.2, hcall.writable.2.1⟩
    owned := rfl
    issue := by
      rw [hcall.operation]
      rfl
    issues := nofun
    redeems := fun _ => ⟨Nat.sub_add_cancel hle, hcall.owned⟩
    legs := by
      rw [redeemPlan, List.forall₂_map_right_iff, List.forall₂_same]
      intro i hi
      rw [List.mem_range] at hi
      obtain ⟨hmintKey, hvaultKey⟩ := hcall.leg_keys i hi
      have hend : header + i * legSize + 72 ≤ (l (call.key 0)).data.size := by
        rw [hsize, legSize]
        omega
      refine ⟨⟨rfl, rfl, rfl, ?_, ?_, ?_⟩, hcall.legReady h hi⟩
      · rw [readLeg, hmintKey]
        exact keyOf_eq_getD (by omega)
      · rw [readLeg, hvaultKey]
        exact keyOf_eq_getD (by omega)
      · exact number_eq_getD (by omega) }

/-- A holder with plain accounts can redeem, for exactly the units of the shares. -/
theorem Inv.redeem (h : Inv rt receipts l) (hcall : Redeems Spendable rt call l shares) :
    ∃ l', process rt call l = .ok l' ∧ Paid call l l' shares := by
  have hready := hcall.ready h
  obtain ⟨l', hl', hstep⟩ := exchange_ok hready
  refine ⟨l', ?_, fun i hi => ?_, ?_, ?_⟩
  · rw [process, if_neg (by rw [hcall.data_size]; decide), if_neg (by rw [hcall.operation]; decide),
      if_pos (.inr hcall.operation), hl']
  · have hleg : readLeg call l (l (call.key 0)).data i ∈ (redeemPlan rt call l shares).legs :=
      List.mem_map.mpr ⟨i, List.mem_range.mpr hi, rfl⟩
    obtain ⟨hvault, huser⟩ := (hstep.legs _ hleg).redeemed rfl
    exact ⟨huser, hvault⟩
  · rw [hstep.owned]
    exact Nat.sub_add_cancel hcall.owned
  · rw [hstep.supply]
    exact Nat.sub_add_cancel (hcall.shares_le h)

end Redeem

/-! ## Minting and redeeming again -/

/-- A redemption of the shares that a mint has issued, over the same accounts but for the receipt. -/
structure Undoes (rt : Runtime) (call call' : Call) (l₁ : Ledger) : Prop where
  accounts : call'.accounts.length = call.accounts.length
  key : ∀ i, i ≠ 5 → call'.key i = call.key i
  nodup : call'.accounts.Nodup
  user_signs : call'.isSigner (call.key 2) = true
  writable : ∀ k, call.isWritable k = true → call'.isWritable k = true
  receipt : Fresh rt call' l₁ (call'.key 5) receiptSize
  data_size : call'.data.size = 9
  operation : call'.data.byte 0 = 2
  data_shares : call'.data.number 1 8 = call.data.number 1 8

/-- The balances of the user and of the vaults are as before. -/
structure Restored (call : Call) (l l₂ : Ledger) : Prop where
  legs : ∀ i < legCount (l (call.key 0)).data,
    tokenAmount l₂ (call.key (8 + 3 * i)) = tokenAmount l (call.key (8 + 3 * i)) ∧
    tokenAmount l₂ (call.key (9 + 3 * i)) = tokenAmount l (call.key (9 + 3 * i))
  holder : tokenAmount l₂ (call.key 4) = tokenAmount l (call.key 4)
  supply : supplyAt l₂ (call.key 3) = supplyAt l (call.key 3)

/-- After a mint the user can redeem what was issued. -/
theorem Undoes.redeems {plan : Plan} {call' : Call} (h : Undoes rt call call' l')
    (hinv : Inv rt receipts l) (hready : Ready rt call l (l (call.key 0)).data plan)
    (hstep : Exchanged rt call plan l l') (hissue : plan.issue = true) :
    Redeems Spendable rt call' l' plan.shares := by
  have hbasket := hinv.baskets _ ⟨hready.cfg_owner, hready.cfg_magic⟩
  have hself : l' (call.key 0) = l (call.key 0) :=
    hstep.kept hready (hready.cfg_owner ▸ rt.program_ne)
      (hready.key_ne (by decide) (by decide) (by decide))
  have hspend {k m o : Key} (hk : Open call l k m o) : Spendable l' k m o :=
    ⟨(hstep.plain k m o).mpr hk.1, (hstep.thawed k m o hk.1).mpr hk.2.1⟩
  have hlegKey {i : ℕ} : call'.key (7 + 3 * i) = call.key (7 + 3 * i) ∧
      call'.key (8 + 3 * i) = call.key (8 + 3 * i) ∧ call'.key (9 + 3 * i) = call.key (9 + 3 * i) :=
    ⟨h.key _ (by omega), h.key _ (by omega), h.key _ (by omega)⟩
  have hlegOf {i : ℕ} (hi : i < legCount (l (call.key 0)).data) :
      call.key (7 + 3 * i) = mintKey (l (call.key 0)).data i ∧
      call.key (9 + 3 * i) = vaultKey (l (call.key 0)).data i ∧
      Open call l (call.key (8 + 3 * i)) (call.key (7 + 3 * i)) (call.key 2) ∧
      Open call l (call.key (9 + 3 * i)) (call.key (7 + 3 * i)) plan.authority := by
    obtain ⟨leg, -, hof, hlegReady⟩ := hready.exists_leg hi
    refine ⟨?_, ?_, hof.user ▸ hof.mint ▸ hlegReady.user, hof.vault ▸ hof.mint ▸ hlegReady.vault⟩
    · rw [mintKey, hof.cfg_mint, Option.getD_some, hof.mint]
    · rw [vaultKey, hof.cfg_vault, Option.getD_some, hof.vault]
  have h0 := h.key 0 (by decide)
  have h2 := h.key 2 (by decide)
  have h3 := h.key 3 (by decide)
  have h4 := h.key 4 (by decide)
  have h6 := h.key 6 (by decide)
  have hexecutable : l' (call.key 6) = l (call.key 6) :=
    hstep.other _ (by
      simp only [List.mem_cons, List.not_mem_nil, or_false, not_or]
      exact ⟨hready.key_ne (by decide) (by decide) (by decide),
        hready.key_ne (by decide) (by decide) (by decide),
        hready.key_ne (by decide) (by decide) (by decide)⟩) (hready.not_touched (by decide))
  have howned := hstep.owned
  rw [hissue, if_pos rfl] at howned
  constructor
  case basket => rw [IsBasket, h0, hself]; exact ⟨hready.cfg_owner, hready.cfg_magic⟩
  case accounts => rw [h0, hself, h.accounts, hready.accounts]
  case nodup => exact h.nodup
  case authority => rw [h.key 1 (by decide), h0, hready.authority, plan_authority hbasket hready]
  case share_key => rw [h0, h3, hself, key_share hready]
  case token_program => rw [h6, hready.token_program]
  case token_executable =>
    rw [← hready.token_program, hexecutable]
    exact hready.token_executable
  case leg_keys =>
    rw [h0, hself]
    intro i hi
    obtain ⟨hmint, hvault, -, -⟩ := hlegOf hi
    rw [hlegKey.1, hlegKey.2.2]
    exact ⟨hmint, hvault⟩
  case user_signs => rw [h2]; exact h.user_signs
  case writable =>
    rw [h0, hself, h3, h4]
    refine ⟨h.writable _ hready.share_writable, h.writable _ hready.holder.2.2, fun i hi => ?_⟩
    obtain ⟨-, -, huser, hvault⟩ := hlegOf hi
    rw [hlegKey.2.1, hlegKey.2.2]
    exact ⟨h.writable _ huser.2.2, h.writable _ hvault.2.2⟩
  case receipt => exact h.receipt
  case data_size => exact h.data_size
  case operation => exact h.operation
  case data_shares => rw [h.data_shares, hready.data_shares]
  case pos => exact hready.pos
  case holder =>
    rw [h2, h3, h4]
    exact hspend hready.holder
  case owned =>
    rw [h4, howned]
    exact Nat.le_add_left _ _
  case user =>
    rw [h0, hself, h2]
    intro i hi
    obtain ⟨-, -, huser, -⟩ := hlegOf hi
    rw [hlegKey.1, hlegKey.2.1]
    exact hspend huser
  case vault =>
    rw [h0, hself]
    intro i hi
    obtain ⟨-, -, -, hvault⟩ := hlegOf hi
    rw [hlegKey.2.2]
    exact (hspend hvault).2

/-- Minting shares and redeeming them restores every balance. -/
theorem Inv.restore {call' : Call} (hinv : Inv rt receipts l)
    (hsigner : ∀ c, rt.inUse c → call.isSigner (rt.authority c) = false) (hmint : process rt call l = .ok l')
    (hop : call.data.byte 0 = 1) (h : Undoes rt call call' l') :
    ∃ l₂, process rt call' l' = .ok l₂ ∧ Restored call l l₂ := by
  have hexchange : exchange rt call l = .ok l' := by
    rw [process] at hmint
    split at hmint
    · cases hmint
    · rwa [if_neg (by rw [hop]; decide), if_pos (.inl hop)] at hmint
  obtain ⟨plan, hready, hstep⟩ := exchange_eq_ok hexchange
  have hissue : plan.issue = true := by
    rw [hready.issue, hop]
    rfl
  obtain ⟨l₂, hl₂, hpaid⟩ := (hinv.exchanged hready hstep hsigner).redeem
    (h.redeems hinv hready hstep hissue)
  have hself : l' (call.key 0) = l (call.key 0) :=
    hstep.kept hready (hready.cfg_owner ▸ rt.program_ne)
      (hready.key_ne (by decide) (by decide) (by decide))
  refine ⟨l₂, hl₂, fun i hi => ?_, ?_, ?_⟩
  · obtain ⟨leg, hleg, hof, hlegReady⟩ := hready.exists_leg hi
    obtain ⟨hvault, huser⟩ := (hstep.legs leg hleg).issued hissue
    obtain ⟨huser', hvault'⟩ := hpaid.legs i (by rwa [h.key 0 (by decide), hself])
    have hbefore := hlegReady.before
    have huserBefore := hlegReady.userBefore
    have hunits : unitsOf (l (call.key 0)).data i = leg.units := by
      rw [unitsOf, hof.cfg_units, Option.getD_some]
    rw [h.key 0 (by decide), hself, hunits, h.key (8 + 3 * i) (by omega), ← hof.user] at huser'
    rw [h.key 0 (by decide), hself, hunits, h.key (9 + 3 * i) (by omega), ← hof.vault] at hvault'
    rw [← hof.user, ← hof.vault]
    exact ⟨by omega, by omega⟩
  · have hholder := hpaid.holder
    have howned := hstep.owned
    rw [hissue, if_pos rfl] at howned
    rw [h.key 4 (by decide), howned] at hholder
    have hplan := hready.owned
    omega
  · have hsupply := hpaid.supply
    have htarget := (hready.issues hissue).1
    rw [h.key 3 (by decide), hstep.supply] at hsupply
    have hplan := hready.supply
    omega

/-- What a ledger of a run promises, to holders whose accounts are as `own` says. -/
structure Solvency (own : Ledger → Key → Key → Key → Prop) (rt : Runtime) (receipts : List Key)
    (l : Ledger) : Prop where
  backed : ∀ c, IsBasket rt l c → ∀ i < legCount (l c).data,
    supplyAt l (shareKey (l c).data) * unitsOf (l c).data i ≤ tokenAmount l (vaultKey (l c).data i)
  formed : ∀ c, IsBasket rt l c → Basket rt l c (l c).data
  redeemable : ∀ call shares, Redeems own rt call l shares →
    ∃ l', process rt call l = .ok l' ∧ Paid call l l' shares
  restores : ∀ call call' l₁, (∀ c, rt.inUse c → call.isSigner (rt.authority c) = false) →
    process rt call l = .ok l₁ → call.data.byte 0 = 1 → Undoes rt call call' l₁ →
    ∃ l₂, process rt call' l₁ = .ok l₂ ∧ Restored call l l₂
  once : receipts.Nodup
  unwrapped : ∀ call, exchange rt call l ≠ .error .wrapped

/-- Key `n` of the example. -/
def keyNo (n : ℕ) : Key := .replicate 32 (UInt8.ofNat n)

/-- A runtime whose derived address adds 128 to every byte. -/
def exampleRuntime : Runtime where
  program := keyNo 100
  program_ne := by decide
  find config := (config.map (· + 128), 255)
  create config bump := if bump = 255 then some (config.map (· + 128)) else none
  create_find _ := rfl
  inUse config := config = keyNo 1
  find_injective _ _ h h' _ := h.trans h'.symm
  minimumBalance _ := 1

/-- An account of the program that holds zeros. -/
def zeroed (size : ℕ) : Account := ⟨keyNo 100, false, 1, ⟨size, fun _ => 0⟩⟩

/-- A mint of key `authority`. -/
def exampleMint (authority supply : UInt8) : Account where
  owner := tokenId
  executable := false
  lamports := 1
  data := ⟨82, fun i => if i = 0 ∨ i = 45 then 1 else if i < 4 then 0 else if i < 36 then authority
    else if i = 36 then supply else if i = 44 then 6 else 0⟩

/-- A token account of key `owner` for the mint `m`, with or without a delegate. -/
def exampleToken (m owner amount delegated : UInt8) : Account where
  owner := tokenId
  executable := false
  lamports := 1
  data := ⟨165, fun i => if i < 32 then m else if i < 64 then owner else if i = 64 then amount
    else if i = 72 then delegated else if i = 108 then 1 else 0⟩

/-- The accounts of the example: a fresh config and receipts, a share mint with an account of the user,
two stocks with a vault and an account of the user each, and one more account of the user for the first
stock, with a delegate. -/
def exampleAccount : ℕ → Account
  | 1 => zeroed 256
  | 3 => exampleMint 129 0
  | 4 => exampleToken 3 2 0 0
  | 5 => exampleToken 8 2 0 1
  | 6 => zeroed 128
  | 7 => zeroed 128
  | 8 => exampleMint 99 10
  | 9 => exampleMint 99 10
  | 10 => exampleToken 8 129 0 0
  | 11 => exampleToken 9 129 0 0
  | 12 => exampleToken 8 2 10 0
  | 13 => exampleToken 9 2 10 0
  | _ => ⟨keyNo 0, false, 0, ⟨0, fun _ => 0⟩⟩

/-- The first ledger of the example. -/
def exampleLedger : Ledger := fun k =>
  if k = keyNo k[0].toNat then exampleAccount k[0].toNat
  else ⟨keyNo 0, k = tokenId, 0, ⟨0, fun _ => 0⟩⟩

/-- An instruction of the example. Key 0 stands for the authority of the basket in second place, and for
the token program elsewhere. -/
def exampleCall (accounts : List ℕ) (data : List UInt8) : Call where
  accounts := (accounts.map fun n => if n = 0 then tokenId else keyNo n).set 1 (keyNo 129)
  isSigner k := k ∈ [keyNo 1, keyNo 2, keyNo 6, keyNo 7]
  isWritable _ := true
  data := .ofList data

/-- The basket of one atom of each stock. -/
def initializeCall : Call :=
  exampleCall [1, 0, 2, 3, 0, 8, 10, 9, 11]
    ([0, 2, 6] ++ List.replicate 32 7 ++ Buffer.toBytes 8 1 ++ Buffer.toBytes 8 1)

/-- Minting two shares. -/
def mintCall : Call := exampleCall [1, 0, 2, 3, 4, 6, 0, 8, 12, 10, 9, 13, 11] (1 :: Buffer.toBytes 8 2)

/-- Redeeming a share into the account with a delegate. -/
def redeemCall : Call := exampleCall [1, 0, 2, 3, 4, 7, 0, 8, 5, 10, 9, 13, 11] (2 :: Buffer.toBytes 8 1)

/-- The example up to the plan of the mint. -/
def exampleRun : Outcome Plan := do
  let l ← process exampleRuntime initializeCall exampleLedger
  preflight exampleRuntime mintCall l

theorem exampleRun_isOk : exampleRun.isOk = true := by decide +kernel

/-- The accounts of the example are listed, or are of the system program. -/
theorem exampleLedger_cases (k : Key) :
    (∃ n < 14, k = keyNo n) ∨ (exampleLedger k).owner = keyNo 0 := by
  by_cases hk : k = keyNo k[0].toNat
  · by_cases hn : k[0].toNat < 14
    · exact .inl ⟨_, hn, hk⟩
    · right
      rw [exampleLedger, if_pos hk]
      unfold exampleAccount
      split <;> first | omega | rfl
  · right
    rw [exampleLedger, if_neg hk]

/-- Only two accounts of the example hold tokens. -/
theorem exampleLedger_amount {k m : Key} (h : Holds exampleLedger k m) :
    tokenAmount exampleLedger k = 0 ∨ k = keyNo 12 ∧ m = keyNo 8 ∨ k = keyNo 13 ∧ m = keyNo 9 := by
  have hzero : ∀ n < 14, n ≠ 12 → n ≠ 13 → tokenAmount exampleLedger (keyNo n) = 0 := by
    decide
  have h12 : keyOf (exampleLedger (keyNo 12)).data 0 = some (keyNo 8) := by decide
  have h13 : keyOf (exampleLedger (keyNo 13)).data 0 = some (keyNo 9) := by decide
  rcases exampleLedger_cases k with ⟨n, hn, rfl⟩ | howner
  · have hmint := h.2.2.2.1
    by_cases hn12 : n = 12
    · subst hn12
      exact .inr (.inl ⟨rfl, Option.some.inj (hmint.symm.trans h12)⟩)
    by_cases hn13 : n = 13
    · subst hn13
      exact .inr (.inr ⟨rfl, Option.some.inj (hmint.symm.trans h13)⟩)
    exact .inl (hzero n hn hn12 hn13)
  · exact absurd (howner.symm.trans h.1) (by decide)

theorem backed_exampleLedger : Backed exampleLedger := by
  intro m hm S hS
  -- at most one account of a mint is not empty
  have hsum (j : Key) (hj : ∀ k ∈ S, k ≠ j → tokenAmount exampleLedger k = 0)
      (hle : tokenAmount exampleLedger j ≤ supplyAt exampleLedger m) :
      ∑ k ∈ S, tokenAmount exampleLedger k ≤ supplyAt exampleLedger m :=
    (Finset.sum_le_sum_of_subset (Finset.subset_insert j S)).trans
      ((Finset.sum_eq_single_of_mem j (Finset.mem_insert_self j S) fun k hk hne =>
        hj k ((Finset.mem_insert.mp hk).resolve_left hne) hne).trans_le hle)
  by_cases h8 : m = keyNo 8
  · subst h8
    refine hsum (keyNo 12) (fun k hk hne => ?_) (by decide)
    rcases exampleLedger_amount (hS k hk) with hzero | ⟨rfl, -⟩ | ⟨-, hmint⟩
    · exact hzero
    · exact absurd rfl hne
    · exact absurd hmint (by decide)
  by_cases h9 : m = keyNo 9
  · subst h9
    refine hsum (keyNo 13) (fun k hk hne => ?_) (by decide)
    rcases exampleLedger_amount (hS k hk) with hzero | ⟨-, hmint⟩ | ⟨rfl, -⟩
    · exact hzero
    · exact absurd hmint (by decide)
    · exact absurd rfl hne
  · rw [Finset.sum_eq_zero fun k hk => ?_]
    · exact Nat.zero_le _
    · rcases exampleLedger_amount (hS k hk) with hzero | ⟨-, hmint⟩ | ⟨-, hmint⟩
      · exact hzero
      · exact absurd hmint h8
      · exact absurd hmint h9

/-- The ledger of the example can start a run. -/
theorem reaches_exampleLedger : Reaches exampleRuntime [] exampleLedger := by
  have hprogram : ∀ n < 14, (exampleLedger (keyNo n)).owner = keyNo 100 →
      zeroWindow (exampleLedger (keyNo n)).data 0 (exampleLedger (keyNo n)).data.size := by
    decide +kernel
  refine .start (fun k hk => ?_) backed_exampleLedger
  rcases exampleLedger_cases k with ⟨n, hn, rfl⟩ | howner
  · exact hprogram n hn hk
  · exact absurd (howner.symm.trans hk) (by decide)

theorem example_unsigned {call : Call} (h : call.isSigner = initializeCall.isSigner) (c : Key)
    (hc : exampleRuntime.inUse c) : call.isSigner (exampleRuntime.authority c) = false := by
  cases hc
  rw [h]
  decide +kernel

/-- The basket of the example has issued two shares. -/
structure Minted (l₁ l₂ : Ledger) (plan : Plan) : Prop where
  initialized : Initialized exampleRuntime initializeCall exampleLedger l₁ 2
  ready : Ready exampleRuntime mintCall l₁ (l₁ (keyNo 1)).data plan
  exchanged : Exchanged exampleRuntime mintCall plan l₁ l₂
  reaches : Reaches exampleRuntime [keyNo 6] l₂

theorem exists_minted : ∃ l₁ l₂ plan, Minted l₁ l₂ plan := by
  obtain ⟨plan, hplan⟩ := exists_of_isOk exampleRun_isOk
  rw [exampleRun, bind_eq_ok] at hplan
  obtain ⟨l₁, hl₁, hplan⟩ := hplan
  have hready := preflight_eq_ok.mp hplan
  obtain ⟨l₂, hl₂, hstep⟩ := exchange_ok hready
  have hcreated := Reaches.instruction reaches_exampleLedger (example_unsigned rfl) (fun _ => rfl) hl₁
  have hnamed : mintCall.data.byte 0 = 0 → exampleRuntime.inUse (mintCall.key 0) :=
    fun hop => absurd hop (by decide)
  have hunsigned : ∀ c, exampleRuntime.inUse c → mintCall.isSigner (exampleRuntime.authority c) = false :=
    example_unsigned rfl
  have hreaches := hcreated.instruction hunsigned hnamed hl₂
  exact ⟨l₁, l₂, plan, initializeBasket_eq_ok hl₁, hready, hstep, hreaches⟩

/-- The new basket is there. -/
theorem Minted.isBasket {l₁ l₂ : Ledger} {plan : Plan} (h : Minted l₁ l₂ plan) :
    l₂ (keyNo 1) = l₁ (keyNo 1) ∧ IsBasket exampleRuntime l₂ (keyNo 1) := by
  have hsame : l₂ (keyNo 1) = l₁ (keyNo 1) :=
    h.exchanged.kept h.ready (h.ready.cfg_owner ▸ exampleRuntime.program_ne)
      (h.ready.key_ne (i := 0) (j := 5) (by decide) (by decide) (by decide))
  refine ⟨hsame, ?_⟩
  rw [IsBasket, hsame]
  exact ⟨h.ready.cfg_owner, h.ready.cfg_magic⟩

/-- Accounts that no instruction names stay as they were. -/
theorem Minted.same {l₁ l₂ : Ledger} {plan : Plan} (h : Minted l₁ l₂ plan) {k : Key}
    (h0 : k ≠ keyNo 1) (hk : k ∉ [keyNo 3, keyNo 4, keyNo 6, keyNo 12, keyNo 10, keyNo 13, keyNo 11]) :
    l₂ k = exampleLedger k := by
  have hcount : legCount (l₁ (keyNo 1)).data = 2 := h.initialized.legCount
  have htouched : touchedBy plan.legs = [keyNo 12, keyNo 10, keyNo 13, keyNo 11] := by
    rw [h.ready.touchedBy_eq, hcount]
    rfl
  simp only [List.mem_cons, List.not_mem_nil, or_false, not_or] at hk
  obtain ⟨h3, h4, h6, hlegs⟩ := hk
  have hother : l₂ k = l₁ k := by
    apply h.exchanged.other
    · simp only [List.mem_cons, List.not_mem_nil, or_false, not_or]
      exact ⟨h3, h4, h6⟩
    · rw [htouched]
      simpa using hlegs
  exact hother.trans (h.initialized.other h0)

/-- The redemption into the account with a delegate. -/
theorem Minted.redeems {l₁ l₂ : Ledger} {plan : Plan} (h : Minted l₁ l₂ plan) :
    Redeems Thawn exampleRuntime redeemCall l₂ 1 := by
  obtain ⟨hsame, hbasket⟩ := h.isBasket
  have hcount : legCount (l₁ (keyNo 1)).data = 2 := h.initialized.legCount
  have hcount₂ : legCount (l₂ (redeemCall.key 0)).data = 2 := by rw [← hcount, ← hsame]; rfl
  have hshare : shareKey (l₁ (keyNo 1)).data = keyNo 3 := h.initialized.shareKey
  have hmint {i : ℕ} (hi : i < 2) : mintKey (l₁ (keyNo 1)).data i = initializeCall.key (5 + 2 * i) :=
    h.initialized.mintKey hi
  have hvault {i : ℕ} (hi : i < 2) : vaultKey (l₁ (keyNo 1)).data i = initializeCall.key (6 + 2 * i) :=
    h.initialized.vaultKey hi
  have hthawn {k m o : Key} (hk : Open mintCall l₁ k m o) : Thawn l₂ k m o := by
    obtain ⟨hplain, hthawed, -⟩ := hk
    have hplain₂ := (h.exchanged.plain k m o).mpr hplain
    exact ⟨hplain₂.1, hplain₂.2.1, (h.exchanged.thawed k m o hplain).mpr hthawed⟩
  have hleg {i : ℕ} (hi : i < 2) :
      Thawn l₂ (mintCall.key (8 + 3 * i)) (mintCall.key (7 + 3 * i)) (keyNo 2) ∧
      Thawed l₂ (mintCall.key (9 + 3 * i)) := by
    obtain ⟨leg, -, hof, hlegReady⟩ := h.ready.exists_leg (hcount.symm ▸ hi : i < legCount _)
    rw [← hof.user, ← hof.vault, ← hof.mint]
    exact ⟨hthawn hlegReady.user, (hthawn hlegReady.vault).2.2⟩
  have hdelegated : Thawn l₂ (keyNo 5) (keyNo 8) (keyNo 2) := by
    have hstart : Thawn exampleLedger (keyNo 5) (keyNo 8) (keyNo 2) := by decide
    rw [Thawn, Holds, Thawed, h.same (by decide) (by decide)]
    exact hstart
  have hpair {p : ℕ → Prop} (h0 : p 0) (h1 : p 1) : ∀ i < 2, p i := by
    intro i hi
    rcases Nat.lt_succ_iff_lt_or_eq.mp hi with hi | rfl
    · exact Nat.lt_one_iff.mp hi ▸ h0
    · exact h1
  constructor
  case basket => exact hbasket
  case accounts => rw [hcount₂]; rfl
  case nodup => decide
  case authority => decide +kernel
  case share_key => exact (hsame ▸ hshare).symm
  case token_program => rfl
  case token_executable =>
    rw [h.same (by decide) (by decide)]
    decide
  case leg_keys =>
    rw [hcount₂]
    refine hpair ⟨?_, ?_⟩ ⟨?_, ?_⟩
    · exact (hsame ▸ hmint (i := 0) (by decide)).symm
    · exact (hsame ▸ hvault (i := 0) (by decide)).symm
    · exact (hsame ▸ hmint (i := 1) (by decide)).symm
    · exact (hsame ▸ hvault (i := 1) (by decide)).symm
  case user_signs => decide
  case writable => exact ⟨rfl, rfl, fun _ _ => ⟨rfl, rfl⟩⟩
  case receipt =>
    have hreceipt : l₂ (redeemCall.key 5) = exampleLedger (keyNo 7) :=
      h.same (by decide) (by decide)
    constructor
    case isWritable => rfl
    case isSigner => decide
    all_goals
      rw [hreceipt]
      decide +kernel
  case data_size => rfl
  case operation => rfl
  case data_shares => decide
  case pos => decide
  case holder => exact hthawn h.ready.holder
  case owned =>
    have hissue : plan.issue = true := h.ready.issue.trans (by decide)
    have howned := h.exchanged.owned
    rw [hissue, if_pos rfl] at howned
    have hpos := h.ready.pos
    show 1 ≤ tokenAmount l₂ (mintCall.key 4)
    omega
  case user =>
    rw [hcount₂]
    exact hpair hdelegated (hleg (i := 1) (by decide)).1
  case vault =>
    rw [hcount₂]
    exact hpair (hleg (i := 0) (by decide)).2 (hleg (i := 1) (by decide)).2

end StockMesh.Vault

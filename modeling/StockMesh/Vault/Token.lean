import StockMesh.Settle.Token
import Mathlib.Algebra.Order.BigOperators.Group.Finset
import Mathlib.Algebra.BigOperators.Group.Finset.Basic

/-! # The token program under the basket vault

The vault knows the legacy token program only. `transferChecked`, `mintToChecked` and `burnChecked` are
its three instructions that the vault invokes, on accounts that are not native. What they leave alone is
said once, for any set of authorities that did not sign (`Untouched`), and `Backed` is the promise that
the accounts of a mint never hold more than its supply. -/

namespace StockMesh.Vault

open Settle (Account Ledger tokenId tokenAmount zeroWindow)

/-- The errors of the program: its five codes, the overflow of a checked multiplication, an error of an
invoked program, and an unchecked operation that leaves `u64`. -/
inductive Fault
  | bad
  | auth
  | replay
  | insolvent
  | delta
  | arithmeticOverflow
  | invoked
  | wrapped
  deriving DecidableEq, Repr

/-- Results of the program. -/
abbrev Outcome (α : Type) := Except Fault α

/-- `need(ok, e)`. -/
def need (ok : Prop) [Decidable ok] (e : Fault) : Outcome Unit := if ok then .ok () else .error e

@[simp] theorem need_eq_ok {ok : Prop} [Decidable ok] {e : Fault} {u : Unit} :
    need ok e = .ok u ↔ ok := by
  by_cases h : ok <;> simp [need, h]

theorem need_of {ok : Prop} [Decidable ok] {e : Fault} (h : ok) : need ok e = .ok () := if_pos h

/-! ## Reading token accounts -/

/-- A key in a buffer. -/
def keyOf (d : Buffer) (p : ℕ) : Option Key := (d.slice p 32).map Key.ofBytes

/-- The supply of a mint. -/
def supplyAt (l : Ledger) (m : Key) : ℕ := ((l m).data.number 36 8).getD 0

/-- An initialized mint. -/
def IsMint (l : Ledger) (m : Key) : Prop :=
  (l m).owner = tokenId ∧ (l m).executable = false ∧ (l m).data.size = 82 ∧ (l m).data.byte 45 = 1

/-- A mint of the authority that nobody can freeze. -/
def Issues (l : Ledger) (m authority : Key) (decimals : UInt8) : Prop :=
  IsMint l m ∧ (l m).data.byte 44 = decimals ∧ (l m).data.slice 0 4 = some [1, 0, 0, 0] ∧
    keyOf (l m).data 4 = some authority ∧ zeroWindow (l m).data 46 4

/-- An initialized token account, frozen or not, that is not native. -/
def Holds (l : Ledger) (k m : Key) : Prop :=
  (l k).owner = tokenId ∧ (l k).executable = false ∧ (l k).data.size = 165 ∧
    keyOf (l k).data 0 = some m ∧ ((l k).data.byte 108 = 1 ∨ (l k).data.byte 108 = 2) ∧
    zeroWindow (l k).data 109 4

/-- A token account of the owner without delegate or close authority. -/
def Plain (l : Ledger) (k m owner : Key) : Prop :=
  Holds l k m ∧ keyOf (l k).data 32 = some owner ∧ zeroWindow (l k).data 72 4 ∧
    zeroWindow (l k).data 129 4

/-- The account is not frozen. -/
def Thawed (l : Ledger) (k : Key) : Prop := (l k).data.byte 108 = 1

instance (l : Ledger) (m : Key) : Decidable (IsMint l m) := inferInstanceAs (Decidable (_ ∧ _))

instance (l : Ledger) (m authority : Key) (decimals : UInt8) : Decidable (Issues l m authority decimals) :=
  inferInstanceAs (Decidable (_ ∧ _))

instance (l : Ledger) (k m : Key) : Decidable (Holds l k m) := inferInstanceAs (Decidable (_ ∧ _))

instance (l : Ledger) (k m owner : Key) : Decidable (Plain l k m owner) :=
  inferInstanceAs (Decidable (_ ∧ _))

instance (l : Ledger) (k : Key) : Decidable (Thawed l k) := inferInstanceAs (Decidable (_ = _))

/-- Overwrite a word of an account. -/
def setWord (l : Ledger) (k : Key) (offset value : ℕ) : Ledger :=
  Function.update l k
    { l k with data := ((l k).data.splice offset (Buffer.toBytes 8 value)).getD (l k).data }

/-! ## Instructions -/

/-- `TransferChecked`, signed by the owner of the source. -/
def transferChecked (l : Ledger) (source m destination owner : Key) (amount : ℕ) (decimals : UInt8) :
    Outcome Ledger := do
  need (Holds l source m ∧ Thawed l source ∧ Holds l destination m ∧ Thawed l destination) .invoked
  need (IsMint l m ∧ (l m).data.byte 44 = decimals) .invoked
  need (keyOf (l source).data 32 = some owner ∧ amount ≤ tokenAmount l source) .invoked
  if source = destination then .ok l else
  need (tokenAmount l destination + amount < u64Size) .invoked
  .ok (setWord (setWord l source 64 (tokenAmount l source - amount)) destination 64
    (tokenAmount l destination + amount))

/-- `MintToChecked`, signed by the mint authority. -/
def mintToChecked (l : Ledger) (m destination authority : Key) (amount : ℕ) (decimals : UInt8) :
    Outcome Ledger := do
  need (Holds l destination m ∧ Thawed l destination) .invoked
  need (IsMint l m ∧ (l m).data.byte 44 = decimals ∧ (l m).data.slice 0 4 = some [1, 0, 0, 0] ∧
    keyOf (l m).data 4 = some authority) .invoked
  need (tokenAmount l destination + amount < u64Size ∧ supplyAt l m + amount < u64Size) .invoked
  .ok (setWord (setWord l destination 64 (tokenAmount l destination + amount)) m 36
    (supplyAt l m + amount))

/-- `BurnChecked`, signed by the owner of the source. -/
def burnChecked (l : Ledger) (source m owner : Key) (amount : ℕ) (decimals : UInt8) :
    Outcome Ledger := do
  need (Holds l source m ∧ Thawed l source) .invoked
  need (IsMint l m ∧ (l m).data.byte 44 = decimals) .invoked
  need (keyOf (l source).data 32 = some owner ∧ amount ≤ tokenAmount l source ∧ amount ≤ supplyAt l m)
    .invoked
  .ok (setWord (setWord l source 64 (tokenAmount l source - amount)) m 36 (supplyAt l m - amount))

/-! ## Writing a word -/

variable {l l' : Ledger} {k m owner : Key}

/-- A word write changes one account, and there only the data. -/
theorem setWord_of_ne {offset value : ℕ} {j : Key} (h : j ≠ k) : setWord l k offset value j = l j :=
  Function.update_of_ne h _ _

theorem setWord_congr {offset value : ℕ} (h : l' k = l k) :
    setWord l' k offset value k = setWord l k offset value k := by
  simp only [setWord, Function.update_self, h]

/-- An account that may have another word in its data. -/
structure Rewritten (a b : Account) (offset : ℕ) : Prop where
  owner : b.owner = a.owner
  executable : b.executable = a.executable
  size : b.data.size = a.data.size
  slice : ∀ p length, p + length ≤ offset ∨ offset + 8 ≤ p →
    b.data.slice p length = a.data.slice p length
  byte : ∀ p, p < offset ∨ offset + 8 ≤ p → b.data.byte p = a.data.byte p

theorem Rewritten.refl (a : Account) (offset : ℕ) : Rewritten a a offset :=
  ⟨rfl, rfl, rfl, fun _ _ _ => rfl, fun _ _ => rfl⟩

theorem setWord_rewritten (l : Ledger) (k : Key) (offset value : ℕ) (j : Key) :
    Rewritten (l j) (setWord l k offset value j) offset := by
  by_cases hj : j = k
  · subst hj
    rw [setWord, Function.update_self]
    rcases hdata : (l j).data.splice offset (Buffer.toBytes 8 value) with - | data
    · exact .refl _ _
    · refine ⟨rfl, rfl, Buffer.size_splice hdata, ?_, ?_⟩
      · intro p length hdisj
        exact Buffer.slice_splice_of_disjoint hdata (by rwa [Buffer.length_toBytes])
      · intro p hp
        rw [Buffer.splice, Buffer.length_toBytes] at hdata
        split at hdata
        · cases hdata
          exact if_neg (by omega)
        · cases hdata
  · rw [setWord_of_ne hj]
    exact .refl _ _

theorem number_setWord {offset value : ℕ} (hsize : offset + 8 ≤ (l k).data.size)
    (hvalue : value < u64Size) : (setWord l k offset value k).data.number offset 8 = some value := by
  obtain ⟨data, hdata⟩ := @Buffer.exists_splice (l k).data offset (Buffer.toBytes 8 value)
    (by rwa [Buffer.length_toBytes])
  rw [setWord, hdata, Function.update_self]
  rw [← List.append_nil (Buffer.toBytes 8 value)] at hdata
  exact Buffer.number_splice hdata hvalue

/-! ### The amount of a token account -/

theorem holds_setWord_amount {j : Key} {value : ℕ} :
    Holds (setWord l k 64 value) j m ↔ Holds l j m := by
  have h := setWord_rewritten l k 64 value j
  rw [Holds, Holds, keyOf, keyOf, zeroWindow, zeroWindow, h.owner, h.executable, h.size,
    h.slice 0 32 (by omega), h.slice 109 4 (by omega), h.byte 108 (by omega)]

theorem plain_setWord_amount {j : Key} {value : ℕ} :
    Plain (setWord l k 64 value) j m owner ↔ Plain l j m owner := by
  have h := setWord_rewritten l k 64 value j
  rw [Plain, Plain, holds_setWord_amount, keyOf, keyOf, zeroWindow, zeroWindow, zeroWindow,
    zeroWindow, h.slice 32 32 (by omega), h.slice 72 4 (by omega), h.slice 129 4 (by omega)]

theorem thawed_setWord_amount {j : Key} {value : ℕ} :
    Thawed (setWord l k 64 value) j ↔ Thawed l j := by
  rw [Thawed, Thawed, (setWord_rewritten l k 64 value j).byte 108 (by omega)]

/-- A token account is no mint. -/
theorem Holds.ne (h : Holds l k m) {j : Key} (hj : IsMint l j) : j ≠ k := by
  rintro rfl
  exact absurd (h.2.2.1.symm.trans hj.2.2.1) (by decide)

theorem amount_setWord_self (h : Holds l k m) {value : ℕ} (hvalue : value < u64Size) :
    tokenAmount (setWord l k 64 value) k = value := by
  have hsize : 64 + 8 ≤ (l k).data.size := by
    rw [h.2.2.1]
    decide
  rw [tokenAmount, number_setWord hsize hvalue, Option.getD_some]

theorem amount_setWord_of_ne {offset value : ℕ} {j : Key} (h : j ≠ k) :
    tokenAmount (setWord l k offset value) j = tokenAmount l j := by
  rw [tokenAmount, tokenAmount, setWord_of_ne h]

/-! ### The supply of a mint -/

theorem isMint_setWord_supply {j : Key} {value : ℕ} :
    IsMint (setWord l k 36 value) j ↔ IsMint l j := by
  have h := setWord_rewritten l k 36 value j
  rw [IsMint, IsMint, h.owner, h.executable, h.size, h.byte 45 (by omega)]

theorem issues_setWord_supply {j authority : Key} {decimals : UInt8} {value : ℕ} :
    Issues (setWord l k 36 value) j authority decimals ↔ Issues l j authority decimals := by
  have h := setWord_rewritten l k 36 value j
  rw [Issues, Issues, isMint_setWord_supply, keyOf, keyOf, zeroWindow, zeroWindow,
    h.byte 44 (by omega), h.slice 0 4 (by omega), h.slice 4 32 (by omega), h.slice 46 4 (by omega)]

theorem supply_setWord_self (h : IsMint l m) {value : ℕ} (hvalue : value < u64Size) :
    supplyAt (setWord l m 36 value) m = value := by
  have hsize : 36 + 8 ≤ (l m).data.size := by
    rw [h.2.2.1]
    decide
  rw [supplyAt, number_setWord hsize hvalue, Option.getD_some]

theorem supply_setWord_of_ne {offset value : ℕ} {j : Key} (h : j ≠ k) :
    supplyAt (setWord l k offset value) j = supplyAt l j := by
  rw [supplyAt, supplyAt, setWord_of_ne h]

theorem amount_lt (l : Ledger) (k : Key) : tokenAmount l k < u64Size := by
  rw [tokenAmount]
  rcases h : (l k).data.number 64 8 with - | n
  · decide
  · exact Buffer.number_lt h

theorem supply_lt (l : Ledger) (m : Key) : supplyAt l m < u64Size := by
  rw [supplyAt]
  rcases h : (l m).data.number 36 8 with - | n
  · decide
  · exact Buffer.number_lt h

/-! ## What an instruction leaves alone -/

/-- The accounts of a mint never hold more than its supply. -/
def Backed (l : Ledger) : Prop :=
  ∀ m, IsMint l m → ∀ S : Finset Key, (∀ k ∈ S, Holds l k m) → ∑ k ∈ S, tokenAmount l k ≤ supplyAt l m

/-- The step took nothing from the authorities in `P`: their accounts keep their tokens and their mints
issue nothing. -/
structure Untouched (P : Key → Prop) (l l' : Ledger) : Prop where
  plain : ∀ k m o, P o → Plain l k m o → Plain l' k m o ∧ tokenAmount l k ≤ tokenAmount l' k
  issues : ∀ m a d, P a → Issues l m a d → Issues l' m a d ∧ supplyAt l' m ≤ supplyAt l m
  mint : ∀ m, IsMint l m → IsMint l' m ∧ (l' m).data.byte 44 = (l m).data.byte 44
  backed : Backed l → Backed l'

theorem Untouched.refl (P : Key → Prop) (l : Ledger) : Untouched P l l :=
  ⟨fun _ _ _ _ h => ⟨h, le_rfl⟩, fun _ _ _ _ h => ⟨h, le_rfl⟩, fun _ h => ⟨h, rfl⟩, id⟩

theorem Untouched.trans {P : Key → Prop} {l₁ l₂ l₃ : Ledger} (h : Untouched P l₁ l₂)
    (h' : Untouched P l₂ l₃) : Untouched P l₁ l₃ where
  plain k m o ho hk := by
    obtain ⟨hk, hle⟩ := h.plain k m o ho hk
    obtain ⟨hk, hle'⟩ := h'.plain k m o ho hk
    exact ⟨hk, hle.trans hle'⟩
  issues m a d ha hm := by
    obtain ⟨hm, hle⟩ := h.issues m a d ha hm
    obtain ⟨hm, hle'⟩ := h'.issues m a d ha hm
    exact ⟨hm, hle'.trans hle⟩
  mint m hm := by
    obtain ⟨hm, hbyte⟩ := h.mint m hm
    obtain ⟨hm, hbyte'⟩ := h'.mint m hm
    exact ⟨hm, hbyte'.trans hbyte⟩
  backed hl := h'.backed (h.backed hl)

/-- Views of an account depend on that account only. -/
theorem IsMint.congr {m : Key} (h : l' m = l m) : IsMint l' m ↔ IsMint l m := by
  rw [IsMint, IsMint, h]

theorem Issues.congr {a : Key} {d : UInt8} (h : l' m = l m) : Issues l' m a d ↔ Issues l m a d := by
  rw [Issues, Issues, IsMint.congr h, h]

theorem Plain.congr (h : l' k = l k) : Plain l' k m owner ↔ Plain l k m owner := by
  rw [Plain, Plain, Holds, Holds, h]

/-- A token account has one mint. -/
theorem Holds.unique {m' : Key} (h : Holds l k m) (h' : Holds l k m') : m = m' :=
  Option.some.inj (h.2.2.2.1.symm.trans h'.2.2.2.1)

/-- Moving an amount between two places keeps the sum over a set that has both. -/
theorem sum_moved {f g : Key → ℕ} {S : Finset Key} {s d : Key} {a : ℕ} (hs : s ∈ S) (hd : d ∈ S)
    (hne : s ≠ d) (ha : a ≤ f s) (hgs : g s = f s - a) (hgd : g d = f d + a)
    (hg : ∀ k, k ≠ s → k ≠ d → g k = f k) : ∑ k ∈ S, g k = ∑ k ∈ S, f k := by
  have hd' : d ∈ S.erase s := Finset.mem_erase.mpr ⟨hne.symm, hd⟩
  have hrest : ∑ k ∈ (S.erase s).erase d, g k = ∑ k ∈ (S.erase s).erase d, f k := by
    apply Finset.sum_congr rfl
    intro k hk
    obtain ⟨hkd, hk⟩ := Finset.mem_erase.mp hk
    exact hg k (Finset.mem_erase.mp hk).1 hkd
  rw [← Finset.add_sum_erase S g hs, ← Finset.add_sum_erase S f hs,
    ← Finset.add_sum_erase _ g hd', ← Finset.add_sum_erase _ f hd', hrest, hgs, hgd]
  omega

/-- Where a transfer has moved tokens. -/
structure Transferred (l l' : Ledger) (source m destination owner : Key) (amount : ℕ) : Prop where
  source_holds : Holds l source m
  signed : keyOf (l source).data 32 = some owner
  destination_holds : Holds l destination m
  enough : amount ≤ tokenAmount l source
  fits : source ≠ destination → tokenAmount l destination + amount < u64Size
  moved : l' = if source = destination then l else
    setWord (setWord l source 64 (tokenAmount l source - amount)) destination 64
      (tokenAmount l destination + amount)

theorem transferChecked_eq_ok {source destination : Key} {amount : ℕ} {decimals : UInt8}
    (h : transferChecked l source m destination owner amount decimals = .ok l') :
    Transferred l l' source m destination owner amount := by
  rw [transferChecked, bind_eq_ok] at h
  obtain ⟨_, haccounts, h⟩ := h
  obtain ⟨hsource, -, hdestination, -⟩ := need_eq_ok.mp haccounts
  obtain ⟨_, -, h⟩ := bind_eq_ok.mp h
  obtain ⟨_, howner, h⟩ := bind_eq_ok.mp h
  obtain ⟨howner, henough⟩ := need_eq_ok.mp howner
  split at h
  · next heq =>
    cases h
    exact ⟨hsource, howner, hdestination, henough, fun hne => absurd heq hne, (if_pos heq).symm⟩
  · next hne =>
    obtain ⟨_, hfits, h⟩ := bind_eq_ok.mp h
    cases h
    exact ⟨hsource, howner, hdestination, henough, fun _ => need_eq_ok.mp hfits, (if_neg hne).symm⟩

namespace Transferred

variable {source destination : Key} {amount : ℕ}
  (h : Transferred l l' source m destination owner amount)

include h

theorem amount_source (hne : source ≠ destination) :
    tokenAmount l' source = tokenAmount l source - amount := by
  have hlt := amount_lt l source
  rw [h.moved, if_neg hne, amount_setWord_of_ne hne, amount_setWord_self h.source_holds (by omega)]

theorem amount_destination (hne : source ≠ destination) :
    tokenAmount l' destination = tokenAmount l destination + amount := by
  rw [h.moved, if_neg hne]
  exact amount_setWord_self (holds_setWord_amount.mpr h.destination_holds) (h.fits hne)

/-- No other account changes. -/
theorem other {j : Key} (hs : j ≠ source) (hd : j ≠ destination) : l' j = l j := by
  rw [h.moved]
  split
  · rfl
  · rw [setWord_of_ne hd, setWord_of_ne hs]

theorem holds {j m' : Key} : Holds l' j m' ↔ Holds l j m' := by
  rw [h.moved]
  split
  · rfl
  · rw [holds_setWord_amount, holds_setWord_amount]

theorem plain {j m' o : Key} : Plain l' j m' o ↔ Plain l j m' o := by
  rw [h.moved]
  split
  · rfl
  · rw [plain_setWord_amount, plain_setWord_amount]

theorem thawed {j : Key} : Thawed l' j ↔ Thawed l j := by
  rw [h.moved]
  split
  · rfl
  · rw [thawed_setWord_amount, thawed_setWord_amount]

theorem mint_other {j : Key} (hj : IsMint l j) : l' j = l j :=
  h.other (h.source_holds.ne hj) (h.destination_holds.ne hj)

theorem mint {j : Key} : IsMint l' j ↔ IsMint l j := by
  constructor
  · intro hj
    by_cases hs : j = source
    · exact absurd rfl ((h.holds.mpr (hs ▸ h.source_holds)).ne hj)
    · by_cases hd : j = destination
      · exact absurd rfl ((h.holds.mpr (hd ▸ h.destination_holds)).ne hj)
      · exact (IsMint.congr (h.other hs hd)).mp hj
  · exact fun hj => (IsMint.congr (h.mint_other hj)).mpr hj

/-- Tokens moved between two accounts stay backed. -/
theorem backed (hl : Backed l) : Backed l' := by
  by_cases hne : source = destination
  · rwa [h.moved, if_pos hne]
  intro j hj S hS
  rw [h.mint] at hj
  have hsupply : supplyAt l' j = supplyAt l j := by rw [supplyAt, supplyAt, h.mint_other hj]
  have hholds : ∀ k ∈ S, Holds l k j := fun k hk => h.holds.mp (hS k hk)
  rw [hsupply]
  by_cases hjm : j = m
  · subst hjm
    -- count both accounts of the transfer, whatever part of it the set sees
    let T := insert source (insert destination S)
    have hT : ∀ k ∈ T, Holds l k j := by
      intro k hk
      rcases Finset.mem_insert.mp hk with rfl | hk
      · exact h.source_holds
      · rcases Finset.mem_insert.mp hk with rfl | hk
        · exact h.destination_holds
        · exact hholds k hk
    have hsub : S ⊆ T := fun k hk => Finset.mem_insert_of_mem (Finset.mem_insert_of_mem hk)
    have hsum : ∑ k ∈ T, tokenAmount l' k = ∑ k ∈ T, tokenAmount l k :=
      sum_moved (Finset.mem_insert_self _ _)
        (Finset.mem_insert_of_mem (Finset.mem_insert_self _ _)) hne h.enough
        (h.amount_source hne) (h.amount_destination hne)
        fun k hs hd => by rw [tokenAmount, tokenAmount, h.other hs hd]
    calc ∑ k ∈ S, tokenAmount l' k
        ≤ ∑ k ∈ T, tokenAmount l' k := Finset.sum_le_sum_of_subset hsub
      _ = ∑ k ∈ T, tokenAmount l k := hsum
      _ ≤ supplyAt l j := hl j hj T hT
  · refine le_of_eq_of_le (Finset.sum_congr rfl fun k hk => ?_) (hl j hj S hholds)
    have hs : k ≠ source := fun heq => hjm ((hholds k hk).unique (heq ▸ h.source_holds))
    have hd : k ≠ destination := fun heq => hjm ((hholds k hk).unique (heq ▸ h.destination_holds))
    rw [tokenAmount, tokenAmount, h.other hs hd]

/-- A transfer takes tokens from the authority that signs it only. -/
theorem untouched {P : Key → Prop} (hP : ¬P owner) : Untouched P l l' where
  plain k m' o ho hk := by
    refine ⟨h.plain.mpr hk, ?_⟩
    by_cases hne : source = destination
    · rw [h.moved, if_pos hne]
    by_cases hs : k = source
    · subst hs
      have howner : o = owner := Option.some.inj (hk.2.1.symm.trans h.signed)
      exact absurd (howner ▸ ho) hP
    · by_cases hd : k = destination
      · rw [hd, h.amount_destination hne]
        exact Nat.le_add_right _ _
      · rw [tokenAmount, tokenAmount, h.other hs hd]
  issues m' a d _ hm := by
    have hsame := h.mint_other hm.1
    exact ⟨(Issues.congr hsame).mpr hm, by rw [supplyAt, supplyAt, hsame]⟩
  mint m' hm := ⟨h.mint.mpr hm, by rw [h.mint_other hm]⟩
  backed := h.backed

end Transferred

/-- A balance and the supply of its mint have been set, by the same difference. -/
structure Resupplied (l l' : Ledger) (m k : Key) (amount supply : ℕ) : Prop where
  holder : Holds l k m
  issued : IsMint l m
  amount_fits : amount < u64Size
  supply_fits : supply < u64Size
  balanced : amount + supplyAt l m = supply + tokenAmount l k
  set : l' = setWord (setWord l k 64 amount) m 36 supply

namespace Resupplied

variable {amount supply : ℕ} (h : Resupplied l l' m k amount supply)

include h

theorem ne : m ≠ k := h.holder.ne h.issued

/-- No other account changes. -/
theorem other {j : Key} (hm : j ≠ m) (hk : j ≠ k) : l' j = l j := by
  rw [h.set, setWord_of_ne hm, setWord_of_ne hk]

theorem token_same {j : Key} (hm : j ≠ m) : l' j = setWord l k 64 amount j := by
  rw [h.set, setWord_of_ne hm]

theorem mint_same {j : Key} (hk : j ≠ k) : l' j = setWord l m 36 supply j := by
  by_cases hm : j = m
  · subst hm
    rw [h.set]
    exact setWord_congr (setWord_of_ne hk)
  · rw [h.other hm hk, setWord_of_ne hm]

theorem amount_holder : tokenAmount l' k = amount := by
  rw [tokenAmount, h.token_same h.ne.symm, ← tokenAmount, amount_setWord_self h.holder h.amount_fits]

theorem supply_mint : supplyAt l' m = supply := by
  rw [supplyAt, h.mint_same h.ne, ← supplyAt, supply_setWord_self h.issued h.supply_fits]

theorem mint {j : Key} : IsMint l' j ↔ IsMint l j := by
  by_cases hk : j = k
  · subst hk
    have hnot : ¬IsMint l j := fun hj => h.holder.ne hj rfl
    have hnot' : ¬IsMint (setWord l j 64 amount) j := fun hj =>
      (holds_setWord_amount.mpr h.holder).ne hj rfl
    rw [IsMint.congr (h.token_same h.ne.symm)]
    exact iff_of_false hnot' hnot
  · rw [IsMint.congr (h.mint_same hk), isMint_setWord_supply]

theorem holds {j m' : Key} : Holds l' j m' ↔ Holds l j m' := by
  by_cases hm : j = m
  · subst hm
    exact iff_of_false (fun hj => hj.ne (h.mint.mpr h.issued) rfl) fun hj => hj.ne h.issued rfl
  · rw [← @holds_setWord_amount l k m' j amount, Holds, Holds, h.token_same hm]

theorem plain {j m' o : Key} : Plain l' j m' o ↔ Plain l j m' o := by
  by_cases hm : j = m
  · subst hm
    exact iff_of_false (fun hj => hj.1.ne (h.mint.mpr h.issued) rfl) fun hj => hj.1.ne h.issued rfl
  · rw [Plain.congr (h.token_same hm), plain_setWord_amount]

theorem thawed {j : Key} (hm : j ≠ m) : Thawed l' j ↔ Thawed l j := by
  rw [Thawed, h.token_same hm, ← Thawed, thawed_setWord_amount]

theorem issues {j a : Key} {d : UInt8} : Issues l' j a d ↔ Issues l j a d := by
  by_cases hk : j = k
  · subst hk
    exact iff_of_false (fun hj => h.holder.ne (h.mint.mp hj.1) rfl) fun hj => h.holder.ne hj.1 rfl
  · rw [Issues.congr (h.mint_same hk), issues_setWord_supply]

theorem decimals {j : Key} (hj : IsMint l j) : (l' j).data.byte 44 = (l j).data.byte 44 := by
  rw [h.mint_same (h.holder.ne hj), (setWord_rewritten l m 36 supply j).byte 44 (by omega)]

theorem amount_other {j : Key} (hm : j ≠ m) (hk : j ≠ k) : tokenAmount l' j = tokenAmount l j := by
  rw [tokenAmount, tokenAmount, h.other hm hk]

theorem supply_other {j : Key} (hm : j ≠ m) (hj : IsMint l j) : supplyAt l' j = supplyAt l j := by
  rw [supplyAt, supplyAt, h.other hm (h.holder.ne hj)]

/-- A balance set with its supply stays backed. -/
theorem backed (hl : Backed l) : Backed l' := by
  intro j hj S hS
  rw [h.mint] at hj
  have hholds : ∀ i ∈ S, Holds l i j := fun i hi => h.holds.mp (hS i hi)
  have hmint : ∀ i ∈ S, i ≠ m := fun i hi heq => (hholds i hi).ne h.issued heq.symm
  by_cases hjm : j = m
  · subst hjm
    rw [h.supply_mint]
    have hT : ∀ i ∈ insert k S, Holds l i j := by
      intro i hi
      rcases Finset.mem_insert.mp hi with rfl | hi
      · exact h.holder
      · exact hholds i hi
    have hle := hl j hj (insert k S) hT
    have hbalanced := h.balanced
    have hrest : ∑ i ∈ S.erase k, tokenAmount l' i = ∑ i ∈ S.erase k, tokenAmount l i := by
      apply Finset.sum_congr rfl
      intro i hi
      obtain ⟨hik, hi⟩ := Finset.mem_erase.mp hi
      exact h.amount_other (hmint i hi) hik
    have hsplit := Finset.add_sum_erase (insert k S) (tokenAmount l) (Finset.mem_insert_self k S)
    rw [Finset.erase_insert_eq_erase] at hsplit
    by_cases hk : k ∈ S
    · have hsplit' := Finset.add_sum_erase S (tokenAmount l') hk
      rw [hrest, h.amount_holder] at hsplit'
      omega
    · rw [Finset.erase_eq_of_notMem hk] at hrest hsplit
      omega
  · rw [h.supply_other hjm hj]
    refine le_of_eq_of_le (Finset.sum_congr rfl fun i hi => ?_) (hl j hj S hholds)
    have hik : i ≠ k := fun heq => hjm ((hholds i hi).unique (heq ▸ h.holder))
    exact h.amount_other (hmint i hi) hik

theorem untouched {P : Key → Prop}
    (hamount : tokenAmount l k ≤ amount ∨ ∀ o, keyOf (l k).data 32 = some o → ¬P o)
    (hsupply : supply ≤ supplyAt l m ∨ ∀ a, keyOf (l m).data 4 = some a → ¬P a) :
    Untouched P l l' where
  plain j m' o ho hj := by
    refine ⟨h.plain.mpr hj, ?_⟩
    have hjm : j ≠ m := fun heq => hj.1.ne h.issued heq.symm
    by_cases hjk : j = k
    · subst hjk
      rw [h.amount_holder]
      exact hamount.resolve_right fun hnot => hnot o hj.2.1 ho
    · rw [h.amount_other hjm hjk]
  issues j a d ha hj := by
    refine ⟨h.issues.mpr hj, ?_⟩
    by_cases hjm : j = m
    · subst hjm
      rw [h.supply_mint]
      exact hsupply.resolve_right fun hnot => hnot a hj.2.2.2.1 ha
    · rw [h.supply_other hjm hj.1]
  mint j hj := ⟨h.mint.mpr hj, h.decimals hj⟩
  backed := h.backed

end Resupplied

theorem mintToChecked_eq_ok {destination authority : Key} {amount : ℕ} {decimals : UInt8}
    (h : mintToChecked l m destination authority amount decimals = .ok l') :
    keyOf (l m).data 4 = some authority ∧
      Resupplied l l' m destination (tokenAmount l destination + amount) (supplyAt l m + amount) := by
  rw [mintToChecked, bind_eq_ok] at h
  obtain ⟨_, hholder, h⟩ := h
  obtain ⟨_, hmint, h⟩ := bind_eq_ok.mp h
  obtain ⟨_, hfits, h⟩ := bind_eq_ok.mp h
  obtain ⟨hholder, -⟩ := need_eq_ok.mp hholder
  obtain ⟨hmint, -, -, hauthority⟩ := need_eq_ok.mp hmint
  obtain ⟨hamount, hsupply⟩ := need_eq_ok.mp hfits
  cases h
  exact ⟨hauthority, hholder, hmint, hamount, hsupply, by omega, rfl⟩

theorem burnChecked_eq_ok {source : Key} {amount : ℕ} {decimals : UInt8}
    (h : burnChecked l source m owner amount decimals = .ok l') :
    keyOf (l source).data 32 = some owner ∧ amount ≤ tokenAmount l source ∧ amount ≤ supplyAt l m ∧
      Resupplied l l' m source (tokenAmount l source - amount) (supplyAt l m - amount) := by
  rw [burnChecked, bind_eq_ok] at h
  obtain ⟨_, hholder, h⟩ := h
  obtain ⟨_, hmint, h⟩ := bind_eq_ok.mp h
  obtain ⟨_, howner, h⟩ := bind_eq_ok.mp h
  obtain ⟨hholder, -⟩ := need_eq_ok.mp hholder
  obtain ⟨hmint, -⟩ := need_eq_ok.mp hmint
  obtain ⟨howner, hamount, hsupply⟩ := need_eq_ok.mp howner
  cases h
  have hlt := amount_lt l source
  have hlt' := supply_lt l m
  exact ⟨howner, hamount, hsupply, hholder, hmint, by omega, by omega, by omega, rfl⟩

/-- Only accounts of other programs have changed. -/
def Foreign (l l' : Ledger) : Prop :=
  ∀ j, l' j = l j ∨ (l j).owner ≠ tokenId ∧ (l' j).owner ≠ tokenId

namespace Foreign

variable (h : Foreign l l')

include h

theorem same {j : Key} (hj : (l j).owner = tokenId) : l' j = l j := by
  rcases h j with hsame | ⟨hne, -⟩
  · exact hsame
  · exact absurd hj hne

theorem same' {j : Key} (hj : (l' j).owner = tokenId) : l' j = l j := by
  rcases h j with hsame | ⟨-, hne⟩
  · exact hsame
  · exact absurd hj hne

theorem mint {j : Key} : IsMint l' j ↔ IsMint l j :=
  ⟨fun hj => (IsMint.congr (h.same' hj.1)).mp hj, fun hj => (IsMint.congr (h.same hj.1)).mpr hj⟩

theorem holds {j m' : Key} : Holds l' j m' ↔ Holds l j m' := by
  constructor
  · intro hj
    rwa [Holds, h.same' hj.1] at hj
  · intro hj
    rwa [Holds, h.same hj.1]

theorem plain {j m' o : Key} : Plain l' j m' o ↔ Plain l j m' o :=
  ⟨fun hj => (Plain.congr (h.same' hj.1.1)).mp hj, fun hj => (Plain.congr (h.same hj.1.1)).mpr hj⟩

theorem issues {j a : Key} {d : UInt8} : Issues l' j a d ↔ Issues l j a d :=
  ⟨fun hj => (Issues.congr (h.same' hj.1.1)).mp hj, fun hj => (Issues.congr (h.same hj.1.1)).mpr hj⟩

theorem untouched (P : Key → Prop) : Untouched P l l' where
  plain k m' o _ hk := ⟨h.plain.mpr hk, by rw [tokenAmount, tokenAmount, h.same hk.1.1]⟩
  issues j a d _ hj := ⟨h.issues.mpr hj, by rw [supplyAt, supplyAt, h.same hj.1.1]⟩
  mint j hj := ⟨h.mint.mpr hj, by rw [h.same hj.1]⟩
  backed hl j hj S hS := by
    rw [h.mint] at hj
    have hholds : ∀ k ∈ S, Holds l k j := fun k hk => h.holds.mp (hS k hk)
    have hsum : ∑ k ∈ S, tokenAmount l' k = ∑ k ∈ S, tokenAmount l k := by
      apply Finset.sum_congr rfl
      intro k hk
      rw [tokenAmount, tokenAmount, h.same (hholds k hk).1]
    rw [hsum, supplyAt, h.same hj.1]
    exact hl j hj S hholds

end Foreign

end StockMesh.Vault

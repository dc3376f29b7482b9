import StockMesh.Clearing.Settlement
import Mathlib.Logic.Equiv.Basic

/-! # Distribution does not depend on the order of submission

`residuals` succeeds on conditions about the orders one by one and on sums over them (`ResidualsAccepted`), and
`distribute` gives each member a share that is told by its own order and the totals of its group. What is
left over goes to the member of the least owner and nonce. So rearranging the orders rearranges the groups
and the amounts alike (`distribute_equivariant`). -/

namespace StockMesh

section Acceptance

variable {orders : List FlowIntent} {fills : ℕ → FoldFill} {groups groups' : List ResidualGroup}
  {pairs : List (ℕ × ℕ)} {k : ℕ} {p : ℕ × ℕ}

/-- The bounds that `build_residuals` checks on its groups. -/
structure Bounded (groups : List ResidualGroup) : Prop where
  length_le : groups.length ≤ maxEdges
  amount_le : ∀ g ∈ groups, g.amountIn ≤ maxAtoms
  minOut_lt : ∀ g ∈ groups, g.minOut < u64Size

theorem enter_eq_ok {group group' : ResidualGroup} {o : FlowIntent} {i amount output : ℕ} :
    group.enter o i amount output = .ok group' ↔
      group.amountIn + amount ≤ maxAtoms ∧ group.minOut + (o.minOut - output) < u64Size ∧
      group' = { group with
        amountIn := group.amountIn + amount
        minOut := group.minOut + (o.minOut - output)
        members := group.members ||| (1 <<< i) } := by
  have hatoms : maxAtoms < u64Size := by decide
  rw [ResidualGroup.enter, bind_eq_ok]
  constructor
  · rintro ⟨amountIn, hamount, h⟩
    obtain ⟨-, rfl⟩ := fits_eq_ok.mp hamount
    obtain ⟨_, hle, h⟩ := bind_eq_ok.mp h
    obtain ⟨minOut, hmin, h⟩ := bind_eq_ok.mp h
    obtain ⟨hlt, rfl⟩ := fits_eq_ok.mp hmin
    exact ⟨not_lt.mp (rejectIf_eq_ok.mp hle), hlt, (Except.ok.inj h).symm⟩
  · rintro ⟨hle, hlt, rfl⟩
    refine ⟨group.amountIn + amount, checkedAdd_of_lt (by omega), ?_⟩
    rw [rejectIf_of_not _ (not_lt.mpr hle), ok_bind, checkedAdd_of_lt hlt, ok_bind]

/-- One order keeps the bounds. -/
theorem Bounded.step (h : Bounded groups) (hstep : residualStep orders fills groups k = .ok groups') :
    Bounded groups' := by
  obtain ⟨_, -, hstep⟩ := bind_eq_ok.mp hstep
  dsimp only at hstep
  split at hstep
  · obtain ⟨_, -, hstep⟩ := bind_eq_ok.mp hstep
    cases hstep
    exact h
  split at hstep
  · next j _ =>
    obtain ⟨group, henter, hstep⟩ := bind_eq_ok.mp hstep
    cases hstep
    obtain ⟨hle, hlt, rfl⟩ := enter_eq_ok.mp henter
    refine ⟨by simpa using h.length_le, fun g hg => ?_, fun g hg => ?_⟩
    · rcases List.mem_or_eq_of_mem_set hg with hg | rfl
      · exact h.amount_le g hg
      · exact hle
    · rcases List.mem_or_eq_of_mem_set hg with hg | rfl
      · exact h.minOut_lt g hg
      · exact hlt
  · obtain ⟨_, hroom, hstep⟩ := bind_eq_ok.mp hstep
    obtain ⟨group, henter, hstep⟩ := bind_eq_ok.mp hstep
    cases hstep
    obtain ⟨hle, hlt, rfl⟩ := enter_eq_ok.mp henter
    have hlength := h.length_le
    have hne := rejectIf_eq_ok.mp hroom
    refine ⟨?_, fun g hg => ?_, fun g hg => ?_⟩
    · rw [List.length_append, List.length_singleton]
      omega
    · rcases List.mem_append.mp hg with hg | hg
      · exact h.amount_le g hg
      · obtain rfl := List.mem_singleton.mp hg
        exact hle
    · rcases List.mem_append.mp hg with hg | hg
      · exact h.minOut_lt g hg
      · obtain rfl := List.mem_singleton.mp hg
        exact hlt

/-- What `build_residuals` asks of the orders. -/
structure Buildable (orders : List FlowIntent) (fills : ℕ → FoldFill) : Prop where
  input_le : ∀ i < orders.length, (fills i).input ≤ (intentAt orders i).amount
  closed : ∀ i < orders.length, residualOf orders fills i = 0 →
    (intentAt orders i).minOut ≤ (fills i).output
  amount_le : ∀ p, memberSum orders fills p (residualOf orders fills) orders.length ≤ maxAtoms
  needed_lt : ∀ p, memberSum orders fills p (neededOf orders fills) orders.length < u64Size
  pairs : ∃ pairs : List (ℕ × ℕ), pairs.length ≤ maxEdges ∧
    ∀ i < orders.length, 0 < residualOf orders fills i → pairOf orders i ∈ pairs

/-- Orders whose groups were built are as it asks. -/
theorem buildable_of_build (h : buildResiduals orders fills = .ok groups) :
    Buildable orders fills := by
  obtain ⟨pairs, hgrouped⟩ := grouped_of_build h
  have hbounded : Bounded groups :=
    foldlM_range_inv (P := fun _ groups => Bounded groups) (fun _ _ _ _ hb hstep => hb.step hstep)
      ⟨Nat.zero_le _, by simp, by simp⟩ h
  have hgroup : ∀ p ∈ pairs, groupFor orders fills orders.length p ∈ groups := fun p hp => by
    rw [hgrouped.groups_eq]
    exact List.mem_map_of_mem hp
  have hempty : ∀ p ∉ pairs, ∀ value, memberSum orders fills p value orders.length = 0 := by
    intro p hp value
    refine Finset.sum_eq_zero fun i hi => onMembers_of_not fun hm => hp ?_
    rw [← hm.2]
    exact hgrouped.covered i (Finset.mem_range.mp hi) hm.1
  refine ⟨hgrouped.input_le, hgrouped.closed, fun p => ?_, fun p => ?_, pairs, ?_, hgrouped.covered⟩
  · by_cases hp : p ∈ pairs
    · exact hbounded.amount_le _ (hgroup p hp)
    · rw [hempty p hp]
      exact Nat.zero_le _
  · by_cases hp : p ∈ pairs
    · exact hbounded.minOut_lt _ (hgroup p hp)
    · rw [hempty p hp]
      decide
  · have hlength := hbounded.length_le
    rwa [hgrouped.groups_eq, List.length_map] at hlength

/-- One order of buildable ones is entered. -/
theorem Buildable.step (h : Buildable orders fills) (hk : k < orders.length)
    (hgrouped : Grouped orders fills k groups pairs) :
    ∃ groups', residualStep orders fills groups k = .ok groups' := by
  rw [residualStep, rejectIf_of_not _ (not_lt.mpr (h.input_le k hk)), ok_bind]
  change ∃ groups', (if residualOf orders fills k = 0 then _ else _) = _
  by_cases hzero : residualOf orders fills k = 0
  · rw [if_pos hzero, rejectIf_of_not _ (not_lt.mpr (h.closed k hk hzero)), ok_bind]
    exact ⟨groups, rfl⟩
  rw [if_neg hzero]
  have hmember : Member orders fills (pairOf orders k) k := ⟨Nat.pos_of_ne_zero hzero, rfl⟩
  -- the group of the order has room for it
  have hentered : ∃ group, (groupFor orders fills k (pairOf orders k)).enter (intentAt orders k) k
      (residualOf orders fills k) (fills k).output = .ok group := by
    refine ⟨_, enter_eq_ok.mpr ⟨?_, ?_, rfl⟩⟩
    · have hamount := h.amount_le (pairOf orders k)
      have hmono := @memberSum_mono orders fills (pairOf orders k) (residualOf orders fills) _ _ hk
      rw [memberSum_succ_of hmember] at hmono
      exact hmono.trans hamount
    · have hneeded := h.needed_lt (pairOf orders k)
      have hmono := @memberSum_mono orders fills (pairOf orders k) (neededOf orders fills) _ _ hk
      rw [memberSum_succ_of hmember] at hmono
      exact hmono.trans_lt hneeded
  obtain ⟨group, hgroup⟩ := hentered
  rw [hgrouped.groups_eq]
  split
  · next j hfind =>
    obtain ⟨hj, hpair, -⟩ := List.findIdx?_eq_some_iff_getElem.mp hfind
    rw [List.length_map] at hj
    have hpj : pairs[j] = pairOf orders k := by
      rw [List.getElem_map, decide_eq_true_eq] at hpair
      exact Prod.ext hpair.1 hpair.2
    rw [List.getD_eq_getElem?_getD, List.getElem?_map, List.getElem?_eq_getElem hj, Option.map_some,
      Option.getD_some, hpj]
    change ∃ groups', ((groupFor orders fills k (pairOf orders k)).enter (intentAt orders k) k
      (residualOf orders fills k) (fills k).output >>= _) = _
    rw [hgroup, ok_bind]
    exact ⟨_, rfl⟩
  · next hfind =>
    have hfresh : pairOf orders k ∉ pairs := by
      intro hmem
      have hnone := List.findIdx?_eq_none_iff.mp hfind _ (List.mem_map_of_mem hmem)
      simp [groupFor, pairOf, sellOf, buyOf] at hnone
    have hempty : groupFor orders fills k (pairOf orders k) =
        { sell := (pairOf orders k).1, buy := (pairOf orders k).2 } :=
      groupFor_of_forall_not fun i hi hm => hfresh (hm.2 ▸ hgrouped.covered i hi hm.1)
    -- a new pair is among those that have an edge
    obtain ⟨all, hall, hcovered⟩ := h.pairs
    have hlength : (pairOf orders k :: pairs).length ≤ all.length := by
      have hnodup : (pairOf orders k :: pairs).Nodup := List.nodup_cons.mpr ⟨hfresh, hgrouped.nodup⟩
      refine (hnodup.subperm fun q hq => ?_).length_le
      rcases List.mem_cons.mp hq with rfl | hq
      · exact hcovered k hk hmember.1
      · obtain ⟨i, hi, hm⟩ := hgrouped.inhabited q hq
        rw [← hm.2]
        exact hcovered i (hi.trans hk) hm.1
    rw [List.length_cons] at hlength
    rw [List.length_map, rejectIf_of_not _ (by omega), ok_bind]
    rw [hempty] at hgroup
    change ∃ groups', ((({ sell := (pairOf orders k).1, buy := (pairOf orders k).2 } :
      ResidualGroup).enter (intentAt orders k) k (residualOf orders fills k) (fills k).output) >>= _) = _
    rw [hgroup, ok_bind]
    exact ⟨_, rfl⟩

/-- The groups of buildable orders are built. -/
theorem Buildable.build (h : Buildable orders fills) : ∃ groups,
    buildResiduals orders fills = .ok groups := by
  obtain ⟨groups, hrun, -⟩ := foldlM_range_ok
    (P := fun k groups => ∃ pairs, Grouped orders fills k groups pairs)
    (fun k hk groups ⟨pairs, hgrouped⟩ => by
      obtain ⟨groups', hstep⟩ := h.step hk hgrouped
      exact ⟨groups', hstep, hgrouped.step hstep⟩)
    (⟨[], List.nodup_nil, rfl, by simp, by simp, by simp, by simp⟩ :
      ∃ pairs, Grouped orders fills 0 [] pairs)
  exact ⟨groups, hrun⟩

/-- A fill that `validate_fold` rejects. -/
abbrev RejectedFill (o : FlowIntent) (f : FoldFill) : Prop :=
  BadIntent o ∨ o.amount < f.input ∨ (f.input = 0 ∧ f.output ≠ 0) ∨
    f.output * o.amount < f.input * o.minOut

/-- What `residuals` asks of the orders and their fills. -/
structure ResidualsAccepted (orders : List FlowIntent) (fills : ℕ → FoldFill) : Prop
    extends Buildable orders fills where
  length_le : orders.length ≤ maxIntents
  fill : ∀ i < orders.length, ¬RejectedFill (intentAt orders i) (fills i)
  balanced : ∀ a < maxAssets, tally (sellOf orders) (fun i => (fills i).input) orders.length a =
    tally (buyOf orders) (fun i => (fills i).output) orders.length a

/-- The loop of `validate_fold`. -/
theorem validateFold_eq_ok {report : FoldReport} : validateFold orders report = .ok () ↔
    orders.length ≤ maxIntents ∧
      (∀ i < orders.length, ¬RejectedFill (intentAt orders i) (report.fills i)) ∧
      ∀ a < maxAssets, tally (sellOf orders) (fun i => (report.fills i).input) orders.length a =
        tally (buyOf orders) (fun i => (report.fills i).output) orders.length a := by
  constructor
  · intro h
    obtain ⟨_, hlength, hrest⟩ := bind_eq_ok.mp h
    obtain ⟨t, ht, hsame⟩ := bind_eq_ok.mp hrest
    refine ⟨not_lt.mp (rejectIf_eq_ok.mp hlength), fun i hi => ?_, (validated_of_validateFold h).balanced⟩
    obtain ⟨t₁, t₂, hstep⟩ := foldlM_step_ok ht (List.mem_range.mpr hi)
    obtain ⟨_, hfill, -⟩ := bind_eq_ok.mp hstep
    exact rejectIf_eq_ok.mp hfill
  · rintro ⟨hlength, hfill, hbalanced⟩
    obtain ⟨t, hrun, ht⟩ := foldlM_range_ok (f := validateFill orders report)
      (P := fun k t => Entered orders report.fills (fun _ => 0) k t)
      (fun k hk t ht => ⟨_, by
        rw [validateFill, rejectIf_of_not _ (hfill k hk), ok_bind]
        rfl, ht.replay⟩)
      (Entered.start report.fills fun _ => 0)
    rw [validateFold, rejectIf_of_not _ (not_lt.mpr hlength), ok_bind, hrun, ok_bind]
    refine rejectIf_of_not _ (not_not.mpr fun a ha => ?_)
    rw [ht.debit, ht.credit]
    exact hbalanced a ha

/-- `residuals` succeeds exactly on what it accepts. -/
theorem exists_residuals {report : FoldReport} :
    (∃ groups, residuals orders report = .ok groups) ↔ ResidualsAccepted orders report.fills := by
  constructor
  · rintro ⟨groups, h⟩
    obtain ⟨_, hlength, h⟩ := bind_eq_ok.mp h
    obtain ⟨_, hvalid, h⟩ := bind_eq_ok.mp h
    obtain ⟨hle, hfill, hbalanced⟩ := validateFold_eq_ok.mp hvalid
    exact { buildable_of_build h with length_le := hle, fill := hfill, balanced := hbalanced }
  · intro h
    obtain ⟨groups, hbuild⟩ := h.build
    refine ⟨groups, ?_⟩
    rw [residuals, rejectIf_of_not _ (not_lt.mpr h.length_le), ok_bind,
      validateFold_eq_ok.mpr ⟨h.length_le, h.fill, h.balanced⟩, ok_bind, hbuild]

end Acceptance

/-! ## Rearrangement -/

/-- The mask of the places below `n` that `f` marks. -/
def maskOfBits (f : ℕ → Bool) : ℕ → ℕ
  | 0 => 0
  | n + 1 => if f n then maskOfBits f n ||| (1 <<< n) else maskOfBits f n

theorem testBit_maskOfBits (f : ℕ → Bool) (n i : ℕ) :
    (maskOfBits f n).testBit i = (decide (i < n) && f i) := by
  induction n with
  | zero => simp [maskOfBits]
  | succ n ih =>
    have hlt : i < n + 1 ↔ i < n ∨ i = n := Nat.lt_succ_iff_lt_or_eq
    rw [maskOfBits]
    by_cases hn : f n
    · rw [if_pos hn, Nat.testBit_or, ih, Nat.one_shiftLeft, Nat.testBit_two_pow]
      by_cases hi : n = i
      · subst hi
        simp [hn]
      · simp [hlt, hi, Ne.symm hi]
    · rw [if_neg hn, ih]
      by_cases hi : n = i
      · subst hi
        simp [hn]
      · simp [hlt, Ne.symm hi]

variable (σ : Equiv.Perm ℕ) (orders : List FlowIntent)

/-- The orders with place `i` taken by the order at `σ i`. -/
def rearrange : List FlowIntent := (List.range orders.length).map fun i => intentAt orders (σ i)

/-- The fills of the rearranged orders. -/
def FoldReport.rearrange (report : FoldReport) : FoldReport :=
  { report with fills := fun i => report.fills (σ i) }

/-- The group with its members marked at their new places. -/
def ResidualGroup.rearrange (n : ℕ) (group : ResidualGroup) : ResidualGroup :=
  { group with members := maskOfBits (fun i => group.members.testBit (σ i)) n }

section Rearranged

variable {σ orders} {fills : ℕ → FoldFill} {p : ℕ × ℕ} {value value' : ℕ → ℕ} {f g : ℕ}

@[simp] theorem length_rearrange : (rearrange σ orders).length = orders.length := by
  simp [rearrange]

variable (hσ : ∀ i, orders.length ≤ i → σ i = i)
include hσ

/-- A rearrangement stays among the orders. -/
theorem perm_lt_iff {i : ℕ} : σ i < orders.length ↔ i < orders.length := by
  constructor
  · intro h
    by_contra hi
    rw [hσ i (not_lt.mp hi)] at h
    exact hi h
  · intro h
    by_contra hi
    have hfix : σ (σ i) = σ i := hσ (σ i) (not_lt.mp hi)
    rw [σ.injective hfix] at hi
    exact hi h

theorem intentAt_rearrange (i : ℕ) : intentAt (rearrange σ orders) i = intentAt orders (σ i) := by
  by_cases hi : i < orders.length
  · simp [intentAt, rearrange, List.getD_eq_getElem?_getD, hi]
  · rw [hσ i (not_lt.mp hi)]
    simp [intentAt, rearrange, List.getD_eq_getElem?_getD, not_lt.mp hi]

theorem pairOf_rearrange (i : ℕ) : pairOf (rearrange σ orders) i = pairOf orders (σ i) := by
  simp only [pairOf, sellOf, buyOf, intentAt_rearrange hσ]

theorem residualOf_rearrange (i : ℕ) :
    residualOf (rearrange σ orders) (fun i => fills (σ i)) i = residualOf orders fills (σ i) := by
  simp only [residualOf, intentAt_rearrange hσ]

theorem neededOf_rearrange (i : ℕ) :
    neededOf (rearrange σ orders) (fun i => fills (σ i)) i = neededOf orders fills (σ i) := by
  simp only [neededOf, intentAt_rearrange hσ]

theorem member_rearrange (i : ℕ) : Member (rearrange σ orders) (fun i => fills (σ i)) p i ↔
    Member orders fills p (σ i) := by
  rw [Member, Member, residualOf_rearrange hσ, pairOf_rearrange hσ]

theorem onMembers_rearrange (hvalue : ∀ i, value' i = value (σ i)) (i : ℕ) :
    onMembers (rearrange σ orders) (fun i => fills (σ i)) p value' i =
      onMembers orders fills p value (σ i) := by
  by_cases h : Member orders fills p (σ i)
  · rw [onMembers_of h, onMembers_of ((member_rearrange hσ i).mpr h), hvalue]
  · rw [onMembers_of_not h, onMembers_of_not (mt (member_rearrange hσ i).mp h)]

/-- A sum over the places does not see their order. -/
theorem sum_rearrange {α : Type} [AddCommMonoid α] (f : ℕ → α) :
    ∑ i ∈ Finset.range orders.length, f (σ i) = ∑ i ∈ Finset.range orders.length, f i :=
  Finset.sum_equiv σ (fun i => by simp [perm_lt_iff hσ]) fun _ _ => rfl

theorem memberSum_rearrange (hvalue : ∀ i, value' i = value (σ i)) :
    memberSum (rearrange σ orders) (fun i => fills (σ i)) p value' orders.length =
      memberSum orders fills p value orders.length := by
  rw [memberSum, memberSum, ← sum_rearrange hσ (onMembers orders fills p value)]
  exact Finset.sum_congr rfl fun i _ => onMembers_rearrange hσ hvalue i

theorem tally_rearrange {key key' : ℕ → ℕ} (hkey : ∀ i, key' i = key (σ i))
    (hvalue : ∀ i, value' i = value (σ i)) (a : ℕ) :
    tally key' value' orders.length a = tally key value orders.length a := by
  rw [tally, tally, ← sum_rearrange hσ fun i => if key i = a then value i else 0]
  refine Finset.sum_congr rfl fun i _ => ?_
  rw [hkey, hvalue]

/-- The group of a pair is rearranged with the orders. -/
theorem groupFor_rearrange :
    groupFor (rearrange σ orders) (fun i => fills (σ i)) orders.length p =
      (groupFor orders fills orders.length p).rearrange σ orders.length := by
  have hmembers : memberBits (rearrange σ orders) (fun i => fills (σ i)) p orders.length =
      maskOfBits (fun i => (memberBits orders fills p orders.length).testBit (σ i)) orders.length := by
    refine Nat.eq_of_testBit_eq fun i => ?_
    rw [testBit_memberBits, testBit_maskOfBits, testBit_memberBits]
    by_cases hi : i < orders.length
    · simp [hi, (perm_lt_iff hσ).mpr hi, member_rearrange hσ]
    · simp [hi]
  simp only [groupFor, ResidualGroup.rearrange, hmembers, ResidualGroup.mk.injEq, true_and, and_true]
  exact ⟨memberSum_rearrange hσ (residualOf_rearrange hσ), memberSum_rearrange hσ (neededOf_rearrange hσ)⟩

/-- Whether the orders are accepted does not depend on their places. -/
theorem ResidualsAccepted.rearrange (h : ResidualsAccepted orders fills) :
    ResidualsAccepted (rearrange σ orders) fun i => fills (σ i) := by
  have hplace : ∀ {i}, i < (StockMesh.rearrange σ orders).length → σ i < orders.length := fun hi =>
    (perm_lt_iff hσ).mpr (by simpa using hi)
  refine ⟨⟨fun i hi => ?_, fun i hi hzero => ?_, fun p => ?_, fun p => ?_, ?_⟩, ?_, fun i hi => ?_,
    fun a ha => ?_⟩
  · rw [intentAt_rearrange hσ]
    exact h.input_le _ (hplace hi)
  · rw [residualOf_rearrange hσ] at hzero
    rw [intentAt_rearrange hσ]
    exact h.closed _ (hplace hi) hzero
  · rw [length_rearrange, memberSum_rearrange hσ (residualOf_rearrange hσ)]
    exact h.amount_le p
  · rw [length_rearrange, memberSum_rearrange hσ (neededOf_rearrange hσ)]
    exact h.needed_lt p
  · obtain ⟨pairs, hlength, hcovered⟩ := h.pairs
    refine ⟨pairs, hlength, fun i hi hpos => ?_⟩
    rw [residualOf_rearrange hσ] at hpos
    rw [pairOf_rearrange hσ]
    exact hcovered _ (hplace hi) hpos
  · rw [length_rearrange]
    exact h.length_le
  · rw [intentAt_rearrange hσ]
    exact h.fill _ (hplace hi)
  · have hsell : ∀ i, sellOf (StockMesh.rearrange σ orders) i = sellOf orders (σ i) := fun i => by
      simp only [sellOf, intentAt_rearrange hσ]
    have hbuy : ∀ i, buyOf (StockMesh.rearrange σ orders) i = buyOf orders (σ i) := fun i => by
      simp only [buyOf, intentAt_rearrange hσ]
    rw [length_rearrange,
      @tally_rearrange σ orders (fun i => (fills i).input) _ hσ _ _ hsell (fun _ => rfl) a,
      @tally_rearrange σ orders (fun i => (fills i).output) _ hσ _ _ hbuy (fun _ => rfl) a]
    exact h.balanced a ha

/-- The place of the least member moves with it. -/
theorem Least.rearrange (h : Least (rearrange σ orders) (fun i => fills (σ i)) p orders.length f) :
    Least orders fills p orders.length (σ f) := by
  refine ⟨(perm_lt_iff hσ).mpr h.lt, (member_rearrange hσ f).mp h.member, fun i hi hm => ?_⟩
  obtain ⟨j, rfl⟩ := σ.surjective i
  have hleast := h.least j ((perm_lt_iff hσ).mp hi) ((member_rearrange hσ j).mpr hm)
  rwa [intentAt_rearrange hσ, intentAt_rearrange hσ] at hleast

omit hσ in
/-- Orders of different owners or nonces have one least member. -/
theorem Least.unique (hdistinct : (orders.map fun o => (o.owner, o.nonce)).Nodup)
    (h : Least orders fills p orders.length f) (h' : Least orders fills p orders.length g) : f = g := by
  have hfg := h.least g h'.lt h'.member
  have hgf := h'.least f h.lt h.member
  simp only [Earlier, not_or, not_and, not_lt] at hfg hgf
  -- neither is earlier, so owner and nonce agree
  have howner : (intentAt orders f).owner = (intentAt orders g).owner :=
    Vector.toList_inj.mp (List.le_antisymm hfg.1 hgf.1)
  have hnonce : (intentAt orders f).nonce = (intentAt orders g).nonce :=
    Nat.le_antisymm (hfg.2 howner.symm) (hgf.2 howner)
  have hlt := h.lt
  have hlt' := h'.lt
  refine (@List.Nodup.getElem_inj_iff _ _ hdistinct f (by simpa) g (by simpa)).mp ?_
  have hf : intentAt orders f = orders[f] := by simp [intentAt, List.getD_eq_getElem?_getD, hlt]
  have hg : intentAt orders g = orders[g] := by simp [intentAt, List.getD_eq_getElem?_getD, hlt']
  rw [List.getElem_map, List.getElem_map, ← hf, ← hg, howner, hnonce]

/-- The amounts move with the orders and the order that takes the rest. -/
theorem amounts_rearrange (observed : ℕ) :
    amounts (rearrange σ orders) (fun i => fills (σ i)) p observed f =
      fun i => amounts orders fills p observed (σ f) (σ i) := by
  have hshare : ∀ surplus total i,
      shareOf (rearrange σ orders) (fun i => fills (σ i)) surplus total i =
        shareOf orders fills surplus total (σ i) := fun surplus total i => by
    simp only [shareOf, neededOf_rearrange hσ, residualOf_rearrange hσ]
  funext i
  simp only [amounts, length_rearrange, memberSum_rearrange hσ (residualOf_rearrange hσ),
    memberSum_rearrange hσ (neededOf_rearrange hσ), perm_lt_iff hσ, σ.injective.eq_iff,
    memberSum_rearrange hσ (hshare _ _), onMembers_rearrange hσ (hshare _ _)]

end Rearranged

/-! ## Two runs -/

section Runs

variable {σ orders} {report : FoldReport} {groups : List ResidualGroup}

/-- The pairs of the groups are those that have a member. -/
theorem Grouped.mem_pairs {fills : ℕ → FoldFill} {n : ℕ} {pairs : List (ℕ × ℕ)} {p : ℕ × ℕ}
    (h : Grouped orders fills n groups pairs) : p ∈ pairs ↔ ∃ i < n, Member orders fills p i := by
  constructor
  · exact h.inhabited p
  · rintro ⟨i, hi, hpos, rfl⟩
    exact h.covered i hi hpos

theorem grouped_of_residuals (h : residuals orders report = .ok groups) :
    ∃ pairs, Grouped orders report.fills orders.length groups pairs := by
  obtain ⟨_, -, h⟩ := bind_eq_ok.mp h
  obtain ⟨_, -, h⟩ := bind_eq_ok.mp h
  exact grouped_of_build h

/-- Too little observed is refused. -/
theorem distribute_of_lt {group : ResidualGroup} {observed : ℕ}
    (hres : residuals orders report = .ok groups) (hgroup : group ∈ groups)
    (hlt : observed < group.minOut) : distribute orders report group observed = .error .minOut := by
  rw [distribute, hres, ok_bind, rejectIf_of_not _ (not_not.mpr hgroup), ok_bind,
    rejectIf_of _ hlt]
  rfl

/-- Rearranged orders of different owners or nonces have the same groups, and every group is
distributed among them as before. -/
theorem distribute_equivariant (hdistinct : (orders.map fun o => (o.owner, o.nonce)).Nodup)
    (hres : residuals orders report = .ok groups) (hσ : ∀ i, orders.length ≤ i → σ i = i) :
    ∃ groups', residuals (rearrange σ orders) (report.rearrange σ) = .ok groups' ∧
      groups'.Perm (groups.map (·.rearrange σ orders.length)) ∧
      ∀ group ∈ groups, ∀ observed < u64Size,
        distribute (rearrange σ orders) (report.rearrange σ) (group.rearrange σ orders.length) observed =
          (distribute orders report group observed).map fun out i => out (σ i) := by
  have haccepted : ResidualsAccepted (rearrange σ orders) (report.rearrange σ).fills :=
    (exists_residuals.mp ⟨groups, hres⟩).rearrange hσ
  obtain ⟨groups', hres'⟩ := exists_residuals.mpr haccepted
  obtain ⟨pairs, h⟩ := grouped_of_residuals hres
  obtain ⟨pairs', h'⟩ := grouped_of_residuals hres'
  -- both runs group the same pairs
  have hpairs : ∀ p, p ∈ pairs' ↔ p ∈ pairs := by
    intro p
    rw [h'.mem_pairs, h.mem_pairs, length_rearrange]
    constructor
    · rintro ⟨i, hi, hm⟩
      exact ⟨σ i, (perm_lt_iff hσ).mpr hi, (member_rearrange hσ i).mp hm⟩
    · rintro ⟨i, hi, hm⟩
      obtain ⟨j, rfl⟩ := σ.surjective i
      exact ⟨j, (perm_lt_iff hσ).mp hi, (member_rearrange hσ j).mpr hm⟩
  have hgroup : ∀ p, groupFor (rearrange σ orders) (report.rearrange σ).fills
      (rearrange σ orders).length p =
      (groupFor orders report.fills orders.length p).rearrange σ orders.length := fun p => by
    rw [length_rearrange]
    exact groupFor_rearrange hσ
  refine ⟨groups', hres', ?_, fun group hmem observed hobserved => ?_⟩
  · rw [h.groups_eq, h'.groups_eq, List.map_map]
    have hperm : pairs'.Perm pairs := (List.perm_ext_iff_of_nodup h'.nodup h.nodup).mpr hpairs
    have hmap : pairs'.map (groupFor (rearrange σ orders) (report.rearrange σ).fills
        (rearrange σ orders).length) = pairs'.map fun p =>
        (groupFor orders report.fills orders.length p).rearrange σ orders.length :=
      List.map_congr_left fun p _ => hgroup p
    rw [hmap]
    exact hperm.map _
  · rw [h.groups_eq] at hmem
    obtain ⟨p, hp, rfl⟩ := List.mem_map.mp hmem
    have hp' := (hpairs p).mpr hp
    rcases lt_or_ge observed (groupFor orders report.fills orders.length p).minOut with hlt | hmin
    · -- both runs refuse
      have hmem' : groupFor (rearrange σ orders) (report.rearrange σ).fills
          (rearrange σ orders).length p ∈ groups' := by
        rw [h'.groups_eq]
        exact List.mem_map_of_mem hp'
      rw [hgroup] at hmem'
      rw [distribute_of_lt hres (h.groups_eq ▸ hmem) hlt, distribute_of_lt hres' hmem' hlt]
      rfl
    · have hmin' : (groupFor (rearrange σ orders) (report.rearrange σ).fills
          (rearrange σ orders).length p).minOut ≤ observed := by
        rw [hgroup]
        exact hmin
      obtain ⟨f, hleast, hrun⟩ := distribute_runs hres h hp hmin hobserved
      obtain ⟨f', hleast', hrun'⟩ := distribute_runs hres' h' hp' hmin' hobserved
      rw [hgroup] at hrun'
      rw [length_rearrange] at hleast'
      -- the rest goes to one order
      have hf : σ f' = f := (Least.rearrange hσ hleast').unique hdistinct hleast
      rw [hrun, hrun', Except.map]
      subst hf
      exact congrArg Except.ok (amounts_rearrange hσ observed)

/-- Two orders on one pair, the later owner first. -/
def laterFirst : List FlowIntent :=
  [{ owner := .replicate 32 2, sell := 0, buy := 1, amount := 5, minOut := 3 },
    { owner := .replicate 32 1, sell := 0, buy := 1, amount := 10, minOut := 6 }]

/-- Exchanging the two orders exchanges their amounts, the rest included. -/
theorem distribute_equivariant_example :
    ∃ groups', residuals (rearrange (Equiv.swap 0 1) laterFirst) (FoldReport.rearrange (Equiv.swap 0 1) {}) =
        .ok groups' ∧
      groups'.Perm ([(⟨0, 1, 15, 9, 3⟩ : ResidualGroup)].map (·.rearrange (Equiv.swap 0 1) 2)) ∧
      ∀ group ∈ [(⟨0, 1, 15, 9, 3⟩ : ResidualGroup)], ∀ observed < u64Size,
        distribute (rearrange (Equiv.swap 0 1) laterFirst) (FoldReport.rearrange (Equiv.swap 0 1) {})
            (group.rearrange (Equiv.swap 0 1) 2) observed =
          (distribute laterFirst {} group observed).map fun out i => out (Equiv.swap 0 1 i) :=
  @distribute_equivariant (Equiv.swap 0 1) laterFirst {} [⟨0, 1, 15, 9, 3⟩] (by decide) (by rfl)
    fun i hi => Equiv.swap_apply_of_ne_of_ne (by simp only [laterFirst, List.length] at hi; omega)
      (by simp only [laterFirst, List.length] at hi; omega)

end Runs

end StockMesh

import StockMesh.Clearing.Residuals
import StockMesh.Clearing.Ledger

/-! # A cell settles

Residual groups, distribution and the final check fit together. `residuals` groups every order that a
fold left open by its asset pair (`Grouped`); `distribute` hands out exactly what a group received and
at least what each member still needs (`distribute_spec`); so every asset of the cell nets to zero
and `verifySettlement` accepts (`cell_settles`). -/

namespace StockMesh

variable (orders : List FlowIntent) (fills : ℕ → FoldFill)

/-- What an order has left to sell. -/
def residualOf (i : ℕ) : ℕ := (intentAt orders i).amount - (fills i).input

/-- What an order still has to receive. -/
def neededOf (i : ℕ) : ℕ := (intentAt orders i).minOut - (fills i).output

/-- The asset pair of an order. -/
def pairOf (i : ℕ) : ℕ × ℕ := (sellOf orders i, buyOf orders i)

/-- The order is residual on the asset pair. -/
def Member (p : ℕ × ℕ) (i : ℕ) : Prop := 0 < residualOf orders fills i ∧ pairOf orders i = p

instance (p : ℕ × ℕ) (i : ℕ) : Decidable (Member orders fills p i) :=
  inferInstanceAs (Decidable (_ ∧ _))

/-- A value of the members, zero elsewhere. -/
def onMembers (p : ℕ × ℕ) (value : ℕ → ℕ) (i : ℕ) : ℕ :=
  if Member orders fills p i then value i else 0

/-- The mask of the members among the first `k` orders. -/
def memberBits (p : ℕ × ℕ) : ℕ → ℕ
  | 0 => 0
  | k + 1 => if Member orders fills p k then memberBits p k ||| (1 <<< k) else memberBits p k

/-- The group of an asset pair among the first `k` orders. -/
def groupFor (k : ℕ) (p : ℕ × ℕ) : ResidualGroup where
  sell := p.1
  buy := p.2
  amountIn := ∑ i ∈ Finset.range k, onMembers orders fills p (residualOf orders fills) i
  minOut := ∑ i ∈ Finset.range k, onMembers orders fills p (neededOf orders fills) i
  members := memberBits orders fills p k

/-- The groups after the first `k` orders. -/
structure Grouped (k : ℕ) (groups : List ResidualGroup) (pairs : List (ℕ × ℕ)) : Prop where
  nodup : pairs.Nodup
  groups_eq : groups = pairs.map (groupFor orders fills k)
  input_le : ∀ i < k, (fills i).input ≤ (intentAt orders i).amount
  /-- An order without residual has received its minimum. -/
  closed : ∀ i < k, residualOf orders fills i = 0 → (intentAt orders i).minOut ≤ (fills i).output
  /-- An order with residual is in a group. -/
  covered : ∀ i < k, 0 < residualOf orders fills i → pairOf orders i ∈ pairs
  /-- Every group has a member. -/
  inhabited : ∀ p ∈ pairs, ∃ i < k, Member orders fills p i

section Grouping

variable {orders fills} {k : ℕ} {p : ℕ × ℕ}

variable (orders fills p) in
theorem testBit_memberBits (k i : ℕ) : (memberBits orders fills p k).testBit i =
    decide (i < k ∧ Member orders fills p i) := by
  induction k with
  | zero => simp [memberBits]
  | succ k ih =>
    rw [memberBits]
    split
    · next hk =>
      rw [Nat.testBit_or, ih, Nat.one_shiftLeft, Nat.testBit_two_pow]
      by_cases hi : k = i
      · subst hi
        simp [hk]
      · have hlt : i < k + 1 ↔ i < k := by omega
        simp [hi, hlt]
    · next hk =>
      rw [ih, decide_eq_decide]
      constructor
      · rintro ⟨hlt, hm⟩
        exact ⟨by omega, hm⟩
      · rintro ⟨hlt, hm⟩
        have hne : i ≠ k := fun h => hk (h ▸ hm)
        exact ⟨by omega, hm⟩

theorem onMembers_of {value : ℕ → ℕ} {i : ℕ} (h : Member orders fills p i) :
    onMembers orders fills p value i = value i := if_pos h

theorem onMembers_of_not {value : ℕ → ℕ} {i : ℕ} (h : ¬Member orders fills p i) :
    onMembers orders fills p value i = 0 := if_neg h

/-- An order that is no member leaves the group as it is. -/
theorem groupFor_succ_of_not (h : ¬Member orders fills p k) :
    groupFor orders fills (k + 1) p = groupFor orders fills k p := by
  simp [groupFor, Finset.sum_range_succ, onMembers_of_not h, memberBits, h]

/-- Entering a member gives the group of one more order. -/
theorem enter_groupFor (h : Member orders fills p k) {group : ResidualGroup}
    (henter : (groupFor orders fills k p).enter (intentAt orders k) k (residualOf orders fills k)
      (fills k).output = .ok group) : group = groupFor orders fills (k + 1) p := by
  rw [ResidualGroup.enter, bind_eq_ok] at henter
  obtain ⟨amountIn, hamount, henter⟩ := henter
  rw [bind_eq_ok] at henter
  obtain ⟨u, -, henter⟩ := henter
  rw [bind_eq_ok] at henter
  obtain ⟨minOut, hmin, henter⟩ := henter
  obtain ⟨-, rfl⟩ := fits_eq_ok.mp hamount
  obtain ⟨-, rfl⟩ := fits_eq_ok.mp hmin
  cases henter
  simp [groupFor, Finset.sum_range_succ, onMembers_of h, memberBits, h, neededOf]

/-- Before its first member a group is empty. -/
theorem groupFor_of_forall_not (h : ∀ i < k, ¬Member orders fills p i) :
    groupFor orders fills k p = { sell := p.1, buy := p.2 } := by
  induction k with
  | zero => rfl
  | succ k ih =>
    rw [groupFor_succ_of_not (h k (Nat.lt_succ_self k))]
    exact ih fun i hi => h i (by omega)

/-- Updating the image of one entry of a list without duplicates. -/
theorem set_map_of_nodup {α β : Type} {f g : α → β} {xs : List α} (hnodup : xs.Nodup) {j : ℕ}
    (hj : j < xs.length) (hother : ∀ x, x ≠ xs[j] → g x = f x) :
    (xs.map f).set j (g xs[j]) = xs.map g := by
  refine List.ext_getElem (by simp) fun i hi hi' => ?_
  rw [List.length_map] at hi'
  by_cases hij : j = i
  · subst hij
    simp
  · have hne : xs[i] ≠ xs[j] := fun heq => hij ((hnodup.getElem_inj_iff).mp heq).symm
    simp [List.getElem_set_ne hij, hother _ hne]

/-- One order keeps the groups. -/
theorem Grouped.step {groups groups' : List ResidualGroup} {pairs : List (ℕ × ℕ)}
    (h : Grouped orders fills k groups pairs)
    (hstep : residualStep orders fills groups k = .ok groups') :
    ∃ pairs', Grouped orders fills (k + 1) groups' pairs' := by
  rw [residualStep, bind_eq_ok] at hstep
  obtain ⟨u, hinput, hstep⟩ := hstep
  have hle : (fills k).input ≤ (intentAt orders k).amount := not_lt.mp (rejectIf_eq_ok.mp hinput)
  have hinput_le : ∀ i < k + 1, (fills i).input ≤ (intentAt orders i).amount := by
    intro i hi
    rcases Nat.lt_succ_iff_lt_or_eq.mp hi with hlt | rfl
    · exact h.input_le i hlt
    · exact hle
  change (if residualOf orders fills k = 0 then _ else _) = _ at hstep
  split at hstep
  · -- nothing is left of the order
    next hzero =>
    rw [bind_eq_ok] at hstep
    obtain ⟨u', hmin, hstep⟩ := hstep
    cases hstep
    have hnot : ∀ p, ¬Member orders fills p k := fun p hm => by
      have := hm.1
      omega
    refine ⟨pairs, h.nodup, ?_, hinput_le, fun i hi hres => ?_, fun i hi hres => ?_, fun p hp => ?_⟩
    · rw [h.groups_eq]
      exact List.map_congr_left fun p _ => (groupFor_succ_of_not (hnot p)).symm
    · rcases Nat.lt_succ_iff_lt_or_eq.mp hi with hlt | rfl
      · exact h.closed i hlt hres
      · exact not_lt.mp (rejectIf_eq_ok.mp hmin)
    · rcases Nat.lt_succ_iff_lt_or_eq.mp hi with hlt | rfl
      · exact h.covered i hlt hres
      · omega
    · obtain ⟨i, hi, hm⟩ := h.inhabited p hp
      exact ⟨i, by omega, hm⟩
  · next hpos =>
    have hmember : Member orders fills (pairOf orders k) k := ⟨Nat.pos_of_ne_zero hpos, rfl⟩
    have hclosed : ∀ i < k + 1, residualOf orders fills i = 0 →
        (intentAt orders i).minOut ≤ (fills i).output := by
      intro i hi hres
      rcases Nat.lt_succ_iff_lt_or_eq.mp hi with hlt | rfl
      · exact h.closed i hlt hres
      · exact absurd hres hpos
    have hother : ∀ q, q ≠ pairOf orders k →
        groupFor orders fills (k + 1) q = groupFor orders fills k q := fun q hq =>
      groupFor_succ_of_not fun hm => hq hm.2.symm
    rw [h.groups_eq] at hstep
    split at hstep
    · -- the pair has a group
      next j hfind =>
      rw [bind_eq_ok] at hstep
      obtain ⟨group, henter, hstep⟩ := hstep
      cases hstep
      obtain ⟨hj, hpair, -⟩ := List.findIdx?_eq_some_iff_getElem.mp hfind
      rw [List.length_map] at hj
      have hpj : pairs[j] = pairOf orders k := by
        rw [List.getElem_map, decide_eq_true_eq] at hpair
        exact Prod.ext hpair.1 hpair.2
      rw [List.getD_eq_getElem?_getD, List.getElem?_map, List.getElem?_eq_getElem hj,
        Option.map_some, Option.getD_some, hpj] at henter
      rw [enter_groupFor hmember henter]
      refine ⟨pairs, h.nodup, ?_, hinput_le, hclosed, fun i hi hres => ?_, fun p hp => ?_⟩
      · rw [← hpj]
        exact set_map_of_nodup h.nodup hj fun q hq => hother q (hpj ▸ hq)
      · rcases Nat.lt_succ_iff_lt_or_eq.mp hi with hlt | rfl
        · exact h.covered i hlt hres
        · rw [← hpj]
          exact List.getElem_mem _
      · obtain ⟨i, hi, hm⟩ := h.inhabited p hp
        exact ⟨i, by omega, hm⟩
    · -- a new pair
      next hfind =>
      rw [bind_eq_ok] at hstep
      obtain ⟨u', -, hstep⟩ := hstep
      rw [bind_eq_ok] at hstep
      obtain ⟨group, henter, hstep⟩ := hstep
      cases hstep
      have hfresh : pairOf orders k ∉ pairs := by
        intro hmem
        have hnone := List.findIdx?_eq_none_iff.mp hfind _ (List.mem_map_of_mem hmem)
        simp [groupFor, pairOf, sellOf, buyOf] at hnone
      have hnone : ∀ i < k, ¬Member orders fills (pairOf orders k) i := fun i hi hm =>
        hfresh (hm.2 ▸ h.covered i hi hm.1)
      have hempty := groupFor_of_forall_not hnone
      have henter' : (groupFor orders fills k (pairOf orders k)).enter (intentAt orders k) k
          (residualOf orders fills k) (fills k).output = .ok group := hempty ▸ henter
      rw [enter_groupFor hmember henter']
      refine ⟨pairs ++ [pairOf orders k], ?_, ?_, hinput_le, hclosed, fun i hi hres => ?_,
        fun p hp => ?_⟩
      · exact List.nodup_append.mpr ⟨h.nodup, List.nodup_singleton _, fun a ha b hb => by
          rw [List.mem_singleton.mp hb]
          exact fun heq => hfresh (heq ▸ ha)⟩
      · rw [List.map_append, List.map_singleton]
        congr 1
        exact List.map_congr_left fun q hq => (hother q fun heq => hfresh (heq ▸ hq)).symm
      · rcases Nat.lt_succ_iff_lt_or_eq.mp hi with hlt | rfl
        · exact List.mem_append_left _ (h.covered i hlt hres)
        · exact List.mem_append_right _ (List.mem_singleton_self _)
      · rcases List.mem_append.mp hp with hp | hp
        · obtain ⟨i, hi, hm⟩ := h.inhabited p hp
          exact ⟨i, by omega, hm⟩
        · rw [List.mem_singleton.mp hp]
          exact ⟨k, Nat.lt_succ_self k, hmember⟩

/-- The groups that `build_residuals` returns. -/
theorem grouped_of_build {groups : List ResidualGroup}
    (h : buildResiduals orders fills = .ok groups) :
    ∃ pairs, Grouped orders fills orders.length groups pairs := by
  refine foldlM_range_inv (P := fun k groups => ∃ pairs, Grouped orders fills k groups pairs)
    (fun k _ groups groups' => ?_) ?_ h
  · rintro ⟨pairs, hpairs⟩ hstep
    exact hpairs.step hstep
  · exact ⟨[], List.nodup_nil, rfl, by simp, by simp, by simp, by simp⟩

end Grouping

/-! ## Distribution -/

section Distribution

variable {orders fills} {p : ℕ × ℕ}

/-- What a member receives before the dust. -/
def shareOf (orders : List FlowIntent) (fills : ℕ → FoldFill) (surplus amountIn i : ℕ) : ℕ :=
  neededOf orders fills i + surplus * residualOf orders fills i / amountIn

/-- Proportional floors add up to at most the surplus. -/
theorem sum_div_le {s : Finset ℕ} {weight : ℕ → ℕ} {total : ℕ} (surplus : ℕ)
    (hsum : ∑ i ∈ s, weight i = total) : ∑ i ∈ s, surplus * weight i / total ≤ surplus := by
  rcases Nat.eq_zero_or_pos total with hzero | hpos
  · simp [hzero]
  · refine Nat.le_of_mul_le_mul_right ?_ hpos
    calc (∑ i ∈ s, surplus * weight i / total) * total
        = ∑ i ∈ s, surplus * weight i / total * total := Finset.sum_mul ..
      _ ≤ ∑ i ∈ s, surplus * weight i := Finset.sum_le_sum fun i _ => Nat.div_mul_le_self _ _
      _ = surplus * total := by rw [← Finset.mul_sum, hsum]

/-- A sum over the members among the first `k` orders. -/
def memberSum (orders : List FlowIntent) (fills : ℕ → FoldFill) (p : ℕ × ℕ) (value : ℕ → ℕ) (k : ℕ) :
    ℕ := ∑ i ∈ Finset.range k, onMembers orders fills p value i

theorem memberSum_succ_of {value : ℕ → ℕ} {k : ℕ} (h : Member orders fills p k) :
    memberSum orders fills p value (k + 1) = memberSum orders fills p value k + value k := by
  rw [memberSum, Finset.sum_range_succ, onMembers_of h]
  rfl

theorem memberSum_succ_of_not {value : ℕ → ℕ} {k : ℕ} (h : ¬Member orders fills p k) :
    memberSum orders fills p value (k + 1) = memberSum orders fills p value k := by
  rw [memberSum, Finset.sum_range_succ, onMembers_of_not h]
  rfl

theorem memberSum_mono {value : ℕ → ℕ} {k n : ℕ} (h : k ≤ n) :
    memberSum orders fills p value k ≤ memberSum orders fills p value n :=
  Finset.sum_le_sum_of_subset (Finset.range_mono h)

theorem le_memberSum {value : ℕ → ℕ} {i n : ℕ} (hi : i < n) (h : Member orders fills p i) :
    value i ≤ memberSum orders fills p value n := by
  have hle := Finset.single_le_sum (f := onMembers orders fills p value) (fun _ _ => Nat.zero_le _)
    (Finset.mem_range.mpr hi)
  rwa [onMembers_of h] at hle

variable (orders fills p) in
/-- The minimums of the members and the proportional floors stay within what was observed. -/
theorem memberSum_shareOf_le (surplus n : ℕ) :
    memberSum orders fills p (shareOf orders fills surplus
      (memberSum orders fills p (residualOf orders fills) n)) n ≤
      memberSum orders fills p (neededOf orders fills) n + surplus := by
  have hsplit : ∀ i, onMembers orders fills p (shareOf orders fills surplus
      (memberSum orders fills p (residualOf orders fills) n)) i =
      onMembers orders fills p (neededOf orders fills) i +
        surplus * onMembers orders fills p (residualOf orders fills) i /
          memberSum orders fills p (residualOf orders fills) n := by
    intro i
    by_cases h : Member orders fills p i
    · simp only [onMembers_of h, shareOf]
    · simp [onMembers_of_not h]
  calc memberSum orders fills p (shareOf orders fills surplus _) n
      = memberSum orders fills p (neededOf orders fills) n + ∑ i ∈ Finset.range n,
          surplus * onMembers orders fills p (residualOf orders fills) i /
            memberSum orders fills p (residualOf orders fills) n := by
        rw [memberSum, Finset.sum_congr rfl fun i _ => hsplit i, Finset.sum_add_distrib]
        rfl
    _ ≤ memberSum orders fills p (neededOf orders fills) n + surplus :=
        Nat.add_le_add_left (sum_div_le surplus rfl) _

/-- The distribution after `k` orders. -/
structure Shared (orders : List FlowIntent) (fills : ℕ → FoldFill) (p : ℕ × ℕ) (share : ℕ → ℕ)
    (k : ℕ) (s : Shares) : Prop where
  out : s.out = fun i => if i < k then onMembers orders fills p share i else 0
  allocated : s.allocated = memberSum orders fills p share k
  first : ∀ f, s.first = some f → f < k ∧ Member orders fills p f
  first_ne : (∃ i < k, Member orders fills p i) → s.first ≠ none

/-- The lowest member so far is a member. -/
theorem firstMember_mem {first : Option ℕ} {k : ℕ}
    (h : ∀ f, first = some f → f < k ∧ Member orders fills p f) (hk : Member orders fills p k) :
    firstMember orders first k < k + 1 ∧ Member orders fills p (firstMember orders first k) := by
  rcases first with - | f
  · exact ⟨Nat.lt_succ_self k, hk⟩
  · obtain ⟨hlt, hm⟩ := h f rfl
    unfold firstMember
    split
    · next j heq =>
      cases heq
    · next j heq =>
      cases heq
      split
      · exact ⟨Nat.lt_succ_self k, hk⟩
      · exact ⟨by omega, hm⟩

/-- One order of the distribution. -/
theorem Shared.step {s : Shares} {k n surplus observed : ℕ} (hk : k < n)
    (hinput : (fills k).input ≤ (intentAt orders k).amount) {group : ResidualGroup}
    (hgroup : group = groupFor orders fills n p)
    (hfit : memberSum orders fills p (shareOf orders fills surplus group.amountIn) n ≤ observed)
    (hobserved : observed < u64Size)
    (h : Shared orders fills p (shareOf orders fills surplus group.amountIn) k s) :
    ∃ s', shareStep orders fills group surplus s k = .ok s' ∧
      Shared orders fills p (shareOf orders fills surplus group.amountIn) (k + 1) s' := by
  have hbit : group.members.testBit k = decide (k < n ∧ Member orders fills p k) := by
    rw [hgroup]
    exact testBit_memberBits orders fills p n k
  by_cases hm : Member orders fills p k
  · have hbits : ¬group.members.testBit k = false := by simp [hbit, hk, hm]
    -- the members' share is part of what was observed, so every sum fits
    have hprefix : s.allocated + shareOf orders fills surplus group.amountIn k ≤ observed := by
      rw [h.allocated, ← memberSum_succ_of hm]
      exact le_trans (memberSum_mono hk) hfit
    have hamount : 0 < group.amountIn := by
      rw [hgroup]
      exact Nat.lt_of_lt_of_le hm.1 (le_memberSum hk hm)
    have hshare : neededOf orders fills k + surplus * residualOf orders fills k / group.amountIn =
        shareOf orders fills surplus group.amountIn k := rfl
    have hbonus : surplus * residualOf orders fills k / group.amountIn < u64Size := by omega
    refine ⟨⟨Function.update s.out k (shareOf orders fills surplus group.amountIn k),
      s.allocated + shareOf orders fills surplus group.amountIn k,
      some (firstMember orders s.first k)⟩, ?_, ?_, ?_, ?_, fun _ => by simp⟩
    · rw [shareStep, if_neg hbits]
      dsimp only
      rw [subUint_of_le hinput, ok_bind]
      change (divU128 (surplus * residualOf orders fills k) group.amountIn >>= _) = _
      rw [divU128_of_pos hamount, ok_bind, asU64_of_lt hbonus, ok_bind]
      change (checkedAdd (neededOf orders fills k) _ >>= _) = _
      rw [checkedAdd_of_lt (by omega), ok_bind, hshare, checkedAdd_of_lt (by omega), ok_bind]
    · funext i
      by_cases hi : i = k
      · subst hi
        simp [onMembers_of hm]
      · simp only [Function.update_of_ne hi, h.out, Nat.lt_succ_iff_lt_or_eq, hi, or_false]
    · show s.allocated + _ = _
      rw [memberSum_succ_of hm, h.allocated]
    · rintro f hf
      cases hf
      exact firstMember_mem h.first hm
  · have hbits : group.members.testBit k = false := by simp [hbit, hm]
    refine ⟨s, by rw [shareStep, if_pos hbits], ?_, ?_, fun f hf => ?_, ?_⟩
    · rw [h.out]
      funext i
      by_cases hi : i = k
      · subst hi
        simp [onMembers_of_not hm]
      · simp only [Nat.lt_succ_iff_lt_or_eq, hi, or_false]
    · rw [h.allocated, memberSum_succ_of_not hm]
    · obtain ⟨hlt, hmf⟩ := h.first f hf
      exact ⟨by omega, hmf⟩
    · rintro ⟨i, hi, hmi⟩
      have hne : i ≠ k := fun heq => hm (heq ▸ hmi)
      exact h.first_ne ⟨i, by omega, hmi⟩

/-- What a distribution guarantees: it hands out exactly what was observed, at least what every
member needs, and nothing to other orders. -/
structure Distributed (orders : List FlowIntent) (fills : ℕ → FoldFill) (p : ℕ × ℕ) (observed : ℕ)
    (out : ℕ → ℕ) : Prop where
  sum_eq : ∑ i ∈ Finset.range orders.length, out i = observed
  needed : ∀ i < orders.length, Member orders fills p i → neededOf orders fills i ≤ out i
  outside : ∀ i, ¬(i < orders.length ∧ Member orders fills p i) → out i = 0

/-- The member of the least owner and nonce. -/
structure Least (orders : List FlowIntent) (fills : ℕ → FoldFill) (p : ℕ × ℕ) (n f : ℕ) : Prop where
  lt : f < n
  member : Member orders fills p f
  least : ∀ i < n, Member orders fills p i → ¬Earlier (intentAt orders i) (intentAt orders f)

theorem Earlier.trans {a b c : FlowIntent} (h : Earlier a b) (h' : Earlier b c) : Earlier a c := by
  rcases h with h | ⟨h, hn⟩ <;> rcases h' with h' | ⟨h', hn'⟩
  · exact .inl (List.lt_trans h h')
  · exact .inl (h' ▸ h)
  · exact .inl (h ▸ h')
  · exact .inr ⟨h.trans h', hn.trans hn'⟩

theorem Earlier.irrefl (a : FlowIntent) : ¬Earlier a a := by
  rintro (h | ⟨-, h⟩)
  · exact List.lt_irrefl _ h
  · exact Nat.lt_irrefl _ h

/-- One order of the distribution keeps the first member the least. -/
theorem least_step {s s' : Shares} {k n surplus : ℕ} (hk : k < n) {group : ResidualGroup}
    (hgroup : group = groupFor orders fills n p) (h : ∀ f, s.first = some f → Least orders fills p k f)
    (hnone : s.first = none → ∀ i < k, ¬Member orders fills p i)
    (hstep : shareStep orders fills group surplus s k = .ok s') :
    (∀ f, s'.first = some f → Least orders fills p (k + 1) f) ∧
      (s'.first = none → ∀ i < k + 1, ¬Member orders fills p i) := by
  have hbit : group.members.testBit k = decide (k < n ∧ Member orders fills p k) := by
    rw [hgroup]
    exact testBit_memberBits orders fills p n k
  rw [shareStep] at hstep
  split at hstep
  · next hbits =>
    cases hstep
    have hm : ¬Member orders fills p k := by simpa [hbit, hk] using hbits
    refine ⟨fun f hf => ?_, fun hf i hi => ?_⟩
    · obtain ⟨hlt, hmember, hleast⟩ := h f hf
      refine ⟨by omega, hmember, fun i hi hmi => ?_⟩
      rcases Nat.lt_succ_iff_lt_or_eq.mp hi with hi | rfl
      · exact hleast i hi hmi
      · exact absurd hmi hm
    · rcases Nat.lt_succ_iff_lt_or_eq.mp hi with hi | rfl
      · exact hnone hf i hi
      · exact hm
  · next hbits =>
    have hm : Member orders fills p k := by simpa [hbit, hk] using hbits
    obtain ⟨_, -, hstep⟩ := bind_eq_ok.mp hstep
    obtain ⟨_, -, hstep⟩ := bind_eq_ok.mp hstep
    obtain ⟨_, -, hstep⟩ := bind_eq_ok.mp hstep
    obtain ⟨_, -, hstep⟩ := bind_eq_ok.mp hstep
    obtain ⟨_, -, hstep⟩ := bind_eq_ok.mp hstep
    cases hstep
    refine ⟨?_, fun hf => by cases hf⟩
    rintro f hf
    cases hf
    rcases hfirst : s.first with - | f
    · refine ⟨Nat.lt_succ_self k, hm, fun i hi hmi => ?_⟩
      rcases Nat.lt_succ_iff_lt_or_eq.mp hi with hi | rfl
      · exact absurd hmi (hnone hfirst i hi)
      · exact Earlier.irrefl _
    · obtain ⟨hlt, hmember, hleast⟩ := h f hfirst
      rw [firstMember]
      split
      · next hearlier =>
        refine ⟨Nat.lt_succ_self k, hm, fun i hi hmi => ?_⟩
        rcases Nat.lt_succ_iff_lt_or_eq.mp hi with hi | rfl
        · exact fun hi' => hleast i hi hmi (hi'.trans hearlier)
        · exact Earlier.irrefl _
      · next hlater =>
        refine ⟨by omega, hmember, fun i hi hmi => ?_⟩
        rcases Nat.lt_succ_iff_lt_or_eq.mp hi with hi | rfl
        · exact hleast i hi hmi
        · exact hlater

/-- What every order receives when `f` takes what the shares leave. -/
def amounts (orders : List FlowIntent) (fills : ℕ → FoldFill) (p : ℕ × ℕ) (observed f : ℕ) (i : ℕ) : ℕ :=
  let n := orders.length
  let share := shareOf orders fills (observed - memberSum orders fills p (neededOf orders fills) n)
    (memberSum orders fills p (residualOf orders fills) n)
  (if i < n then onMembers orders fills p share i else 0) +
    if i = f then observed - memberSum orders fills p share n else 0

/-- A group of a fold's residuals is distributed by shares, and its least member takes the rest. -/
theorem distribute_runs {report : FoldReport} {groups : List ResidualGroup}
    (hres : residuals orders report = .ok groups) {pairs : List (ℕ × ℕ)}
    (h : Grouped orders report.fills orders.length groups pairs) (hp : p ∈ pairs) {observed : ℕ}
    (hmin : (groupFor orders report.fills orders.length p).minOut ≤ observed)
    (hobserved : observed < u64Size) :
    ∃ f, Least orders report.fills p orders.length f ∧
      distribute orders report (groupFor orders report.fills orders.length p) observed =
        .ok (amounts orders report.fills p observed f) := by
  obtain ⟨group, hgroup⟩ : ∃ g, g = groupFor orders report.fills orders.length p := ⟨_, rfl⟩
  rw [← hgroup] at hmin ⊢
  have hmem : group ∈ groups := by
    rw [h.groups_eq, hgroup]
    exact List.mem_map_of_mem hp
  have hneeded : memberSum orders report.fills p (neededOf orders report.fills) orders.length =
      group.minOut := by rw [hgroup]; rfl
  have hamount : memberSum orders report.fills p (residualOf orders report.fills) orders.length =
      group.amountIn := by rw [hgroup]; rfl
  obtain ⟨share, hshare⟩ : ∃ f, f = shareOf orders report.fills (observed - group.minOut)
    group.amountIn := ⟨_, rfl⟩
  have hfit : memberSum orders report.fills p share orders.length ≤ observed := by
    have hle := memberSum_shareOf_le orders report.fills p (observed - group.minOut) orders.length
    rw [hamount, hneeded, ← hshare] at hle
    omega
  obtain ⟨s, hs, hshared⟩ := foldlM_range_ok
    (P := Shared orders report.fills p share)
    (fun k hk s hs => by
      rw [hshare] at hs ⊢ hfit
      exact hs.step hk (h.input_le k hk) hgroup hfit hobserved)
    (⟨by simp, rfl, by simp, by simp⟩ : Shared orders report.fills p share 0 {})
  have hleast := foldlM_range_inv
    (P := fun k (s : Shares) => (∀ f, s.first = some f → Least orders report.fills p k f) ∧
      (s.first = none → ∀ i < k, ¬Member orders report.fills p i))
    (fun k hk s s' hs hstep => least_step hk hgroup hs.1 hs.2 hstep)
    ⟨(fun f hf => by cases hf), fun _ i hi => absurd hi (Nat.not_lt_zero i)⟩ hs
  obtain ⟨f, hf⟩ := Option.ne_none_iff_exists'.mp (hshared.first_ne (h.inhabited p hp))
  obtain ⟨hflt, hfm⟩ := hshared.first f hf
  have hout : ∀ i, s.out i = if i < orders.length then onMembers orders report.fills p share i
      else 0 := fun i => congrFun hshared.out i
  have hsf : s.out f = share f := by rw [hout, if_pos hflt, onMembers_of hfm]
  have hle : share f ≤ s.allocated := hshared.allocated ▸ le_memberSum hflt hfm
  have halloc : s.allocated ≤ observed := hshared.allocated ▸ hfit
  refine ⟨f, hleast.1 f hf, ?_⟩
  have hamounts : Function.update s.out f (s.out f + (observed - s.allocated)) =
      amounts orders report.fills p observed f := by
    funext i
    rw [amounts, hneeded, hamount, ← hshare, ← hshared.allocated]
    rw [← hout]
    by_cases hif : i = f
    · subst hif
      rw [Function.update_self, if_pos rfl]
    · rw [Function.update_of_ne hif, if_neg hif, Nat.add_zero]
  rw [distribute, hres, ok_bind, rejectIf_of_not _ (not_not.mpr hmem), ok_bind,
    rejectIf_of_not _ (not_lt.mpr hmin), ok_bind]
  change ((List.range orders.length).foldlM (shareStep orders report.fills group
    (observed - group.minOut)) {} >>= _) = _
  rw [hs, ok_bind, rejectIf_of_not _ (not_lt.mpr halloc), ok_bind, hf]
  change (addU64 (s.out f) (observed - s.allocated) >>= _) = _
  rw [addU64_of_lt (by omega), ok_bind, hamounts]

/-- Every group of a fold's residuals is distributed. -/
theorem distribute_spec {report : FoldReport} {groups : List ResidualGroup}
    (hres : residuals orders report = .ok groups) {pairs : List (ℕ × ℕ)}
    (h : Grouped orders report.fills orders.length groups pairs) (hp : p ∈ pairs) {observed : ℕ}
    (hmin : (groupFor orders report.fills orders.length p).minOut ≤ observed)
    (hobserved : observed < u64Size) :
    ∃ out, distribute orders report (groupFor orders report.fills orders.length p) observed =
      .ok out ∧ Distributed orders report.fills p observed out := by
  obtain ⟨f, hleast, hrun⟩ := distribute_runs hres h hp hmin hobserved
  refine ⟨_, hrun, ?_, fun i hi hm => ?_, fun i hi => ?_⟩
  · -- the dust completes the allocated shares
    have hfit := memberSum_shareOf_le orders report.fills p
      (observed - memberSum orders report.fills p (neededOf orders report.fills) orders.length)
      orders.length
    have hmin' : memberSum orders report.fills p (neededOf orders report.fills) orders.length ≤
        observed := hmin
    have hrange : ∀ value : ℕ → ℕ, (∑ i ∈ Finset.range orders.length,
        if i < orders.length then onMembers orders report.fills p value i else 0) =
        memberSum orders report.fills p value orders.length := fun value =>
      Finset.sum_congr rfl fun i hi => if_pos (Finset.mem_range.mp hi)
    simp only [amounts]
    rw [Finset.sum_add_distrib, hrange, Finset.sum_ite_eq' (Finset.range orders.length) f,
      if_pos (Finset.mem_range.mpr hleast.lt)]
    omega
  · rw [amounts, if_pos hi, onMembers_of hm, shareOf]
    exact (Nat.le_add_right _ _).trans (Nat.le_add_right _ _)
  · have hif : i ≠ f := fun heq => hi ⟨heq ▸ hleast.lt, heq ▸ hleast.member⟩
    rw [amounts, if_neg hif, Nat.add_zero]
    split
    · next hlt => exact onMembers_of_not fun hm => hi ⟨hlt, hm⟩
    · rfl

end Distribution

/-! ## The whole cell -/

section Cell

variable {orders fills}

/-- What a validated report says about every order, and that its books balance. -/
structure Validated (orders : List FlowIntent) (fills : ℕ → FoldFill) : Prop where
  length_le : orders.length ≤ maxIntents
  intent : ∀ i < orders.length, ¬BadIntent (intentAt orders i)
  balanced : ∀ a < maxAssets, tally (sellOf orders) (fun i => (fills i).input) orders.length a =
    tally (buyOf orders) (fun i => (fills i).output) orders.length a

theorem validated_of_validateFold {report : FoldReport} (h : validateFold orders report = .ok ()) :
    Validated orders report.fills := by
  rw [validateFold, bind_eq_ok] at h
  obtain ⟨u, hlen, h⟩ := h
  rw [bind_eq_ok] at h
  obtain ⟨t, ht, hsame⟩ := h
  have hinv := foldlM_range_inv (P := fun k (t : Tally) =>
      Entered orders report.fills (fun _ => 0) k t ∧ ∀ i < k, ¬BadIntent (intentAt orders i))
    (fun k _ t t' => ?_) ⟨Entered.start _ _, by simp⟩ ht
  · obtain ⟨hentered, hintents⟩ := hinv
    refine ⟨not_lt.mp (rejectIf_eq_ok.mp hlen), hintents, fun a ha => ?_⟩
    have := not_not.mp (rejectIf_eq_ok.mp hsame) a ha
    rwa [hentered.debit, hentered.credit] at this
  · rintro ⟨hentered, hintents⟩ hstep
    rw [validateFill, bind_eq_ok] at hstep
    obtain ⟨u', hcheck, hstep⟩ := hstep
    cases hstep
    refine ⟨hentered.replay, fun i hi => ?_⟩
    rcases Nat.lt_succ_iff_lt_or_eq.mp hi with hlt | rfl
    · exact hintents i hlt
    · exact fun hbad => rejectIf_eq_ok.mp hcheck (Or.inl hbad)

/-- Net tokens of an asset that the external venues return: what the groups buying it observed minus
what the groups selling it spent. -/
def externalDelta (groups : List ResidualGroup) (observed : ResidualGroup → ℕ) (a : ℕ) : ℤ :=
  (groups.map fun g => ((if g.buy = a then observed g else 0 : ℕ) : ℤ) -
    (if g.sell = a then g.amountIn else 0 : ℕ)).sum

/-- What an order is credited: its fill and its shares. -/
def creditOf (fills : ℕ → FoldFill) (groups : List ResidualGroup) (shares : ResidualGroup → ℕ → ℕ)
    (i : ℕ) : ℕ := (fills i).output + (groups.map fun g => shares g i).sum

variable {groups : List ResidualGroup} {pairs : List (ℕ × ℕ)}

theorem Grouped.sum_map {α : Type} [AddCommMonoid α] {n : ℕ}
    (h : Grouped orders fills n groups pairs) (f : ResidualGroup → α) :
    (groups.map f).sum = ∑ p ∈ pairs.toFinset, f (groupFor orders fills n p) := by
  rw [h.groups_eq, List.map_map, List.sum_toFinset _ h.nodup]
  rfl

/-- The groups that sell an asset spend what its orders have left. -/
theorem Grouped.sum_amountIn (h : Grouped orders fills orders.length groups pairs) (a : ℕ) :
    ∑ p ∈ pairs.toFinset, (if p.1 = a then (groupFor orders fills orders.length p).amountIn else 0) =
      tally (sellOf orders) (residualOf orders fills) orders.length a := by
  have hswap : ∀ p : ℕ × ℕ,
      (if p.1 = a then (groupFor orders fills orders.length p).amountIn else 0) =
        ∑ i ∈ Finset.range orders.length,
          if p.1 = a then onMembers orders fills p (residualOf orders fills) i else 0 := by
    intro p
    split
    · rfl
    · simp
  rw [Finset.sum_congr rfl fun p _ => hswap p, Finset.sum_comm]
  refine Finset.sum_congr rfl fun i hi => ?_
  rcases Nat.eq_zero_or_pos (residualOf orders fills i) with hzero | hpos
  · have hnot : ∀ p, ¬Member orders fills p i := fun p hm => by
      have := hm.1
      omega
    simp [onMembers_of_not (hnot _), hzero]
  · -- the order is in exactly one group
    have hmem := h.covered i (Finset.mem_range.mp hi) hpos
    rw [Finset.sum_eq_single (pairOf orders i)]
    · rw [onMembers_of ⟨hpos, rfl⟩]
      rfl
    · rintro p - hne
      rw [onMembers_of_not fun hm => hne hm.2.symm, ite_self]
    · exact fun hnot => absurd (List.mem_toFinset.mpr hmem) hnot

/-- The orders that buy an asset receive what its groups observed. -/
theorem sum_shares {observed : ℕ × ℕ → ℕ} {out : ℕ × ℕ → ℕ → ℕ}
    (h : ∀ p ∈ pairs, Distributed orders fills p (observed p) (out p)) (a : ℕ) :
    tally (buyOf orders) (fun i => ∑ p ∈ pairs.toFinset, out p i) orders.length a =
      ∑ p ∈ pairs.toFinset, if p.2 = a then observed p else 0 := by
  have hpush : ∀ i, (if buyOf orders i = a then ∑ p ∈ pairs.toFinset, out p i else 0) =
      ∑ p ∈ pairs.toFinset, if buyOf orders i = a then out p i else 0 := by
    intro i
    split
    · rfl
    · simp
  rw [tally, Finset.sum_congr rfl fun i _ => hpush i, Finset.sum_comm]
  refine Finset.sum_congr rfl fun p hp => ?_
  have hp' := h p (List.mem_toFinset.mp hp)
  have hkey : ∀ i, (if buyOf orders i = a then out p i else 0) = if p.2 = a then out p i else 0 := by
    intro i
    by_cases hm : i < orders.length ∧ Member orders fills p i
    · have hbuy : buyOf orders i = p.2 := congrArg Prod.snd hm.2.2
      rw [hbuy]
    · rw [hp'.outside i hm, ite_self, ite_self]
  rw [Finset.sum_congr rfl fun i _ => hkey i]
  split
  · exact hp'.sum_eq
  · simp

theorem fitsI128_of {n : ℤ} (hlo : -170141183460469231731687303715884105728 ≤ n)
    (hhi : n < 170141183460469231731687303715884105728) : fitsI128 n = .ok n := if_pos ⟨hlo, hhi⟩

/-- One order of the final check. -/
theorem verifyStep_eq {debits credits : List ℕ} {net : ℕ → ℤ} {k : ℕ}
    (hbad : ¬BadIntent (intentAt orders k)) (hdebit : debits.getD k 0 = (intentAt orders k).amount)
    (hcredit : (intentAt orders k).minOut ≤ credits.getD k 0)
    (hsold : fitsI128 (net (sellOf orders k) + debits.getD k 0) =
      .ok (net (sellOf orders k) + debits.getD k 0))
    (hbought : fitsI128 (net (buyOf orders k) - credits.getD k 0) =
      .ok (net (buyOf orders k) - credits.getD k 0)) :
    verifyStep orders debits credits net k = .ok fun a =>
      net a + (if sellOf orders k = a then debits.getD k 0 else 0 : ℕ) -
        (if buyOf orders k = a then credits.getD k 0 else 0 : ℕ) := by
  simp only [BadIntent, not_or, not_le] at hbad
  obtain ⟨hsell, hbuy, hne, -⟩ := hbad
  have hne' : buyOf orders k ≠ sellOf orders k := fun heq => hne heq.symm
  rw [verifyStep, rejectIf_of_not _ (by
      rw [not_or, not_or, not_or, not_not]
      exact ⟨not_le.mpr hsell, not_le.mpr hbuy, hne, hdebit⟩), ok_bind,
    rejectIf_of_not _ (not_lt.mpr hcredit), ok_bind]
  change (fitsI128 (net (sellOf orders k) + debits.getD k 0) >>= fun sold =>
    fitsI128 (Function.update net (sellOf orders k) sold (buyOf orders k) - credits.getD k 0) >>=
      fun bought => Except.ok (Function.update (Function.update net (sellOf orders k) sold)
        (buyOf orders k) bought)) = _
  rw [hsold, ok_bind, Function.update_of_ne hne', hbought, ok_bind]
  congr 1
  funext a
  by_cases hb : buyOf orders k = a
  · subst hb
    simp [hne'.symm]
  · by_cases hs : sellOf orders k = a
    · subst hs
      simp [Function.update_of_ne (Ne.symm hb), hb]
    · simp [Function.update_of_ne (Ne.symm hb), Function.update_of_ne (Ne.symm hs), hb, hs]

/-- A column of machine words. -/
theorem tally_le_words (key : ℕ → ℕ) {value : ℕ → ℕ} {n : ℕ} (hvalue : ∀ i < n, value i < u64Size) {k : ℕ}
    (hk : k ≤ n) (hn : n ≤ 32) (a : ℕ) : tally key value k a ≤ 32 * u64Size :=
  calc tally key value k a ≤ ∑ i ∈ Finset.range k, value i := tally_le_sum key value k a
    _ ≤ ∑ _i ∈ Finset.range k, u64Size := Finset.sum_le_sum fun i hi =>
        Nat.le_of_lt (hvalue i (by have := Finset.mem_range.mp hi; omega))
    _ = k * u64Size := by simp
    _ ≤ 32 * u64Size := Nat.mul_le_mul_right _ (by omega)

/-- The final check accepts an order list whose books net to zero. -/
theorem verifySettlement_of_net {amount credit : ℕ → ℕ} {delta : ℕ → ℤ}
    (hvalid : Validated orders fills) (hamount : ∀ i < orders.length,
      amount i = (intentAt orders i).amount ∧ amount i < u64Size)
    (hcredit : ∀ i < orders.length, (intentAt orders i).minOut ≤ credit i ∧ credit i < u64Size)
    (hdelta : ∀ a, -1208925819614629174706176 ≤ delta a ∧ delta a ≤ 1208925819614629174706176)
    (hnet : ∀ a < maxAssets, delta a + tally (sellOf orders) amount orders.length a -
      tally (buyOf orders) credit orders.length a = 0) :
    verifySettlement orders ((List.range orders.length).map amount)
      ((List.range orders.length).map credit) delta = .ok () := by
  have hconst := constants
  have hlen : orders.length ≤ 32 := hvalid.length_le
  have hget : ∀ f : ℕ → ℕ, ∀ i < orders.length,
      ((List.range orders.length).map f).getD i 0 = f i := by
    intro f i hi
    simp [List.getD_eq_getElem?_getD, hi]
  have hloop : ∃ net, (List.range orders.length).foldlM (verifyStep orders
      ((List.range orders.length).map amount) ((List.range orders.length).map credit)) delta =
        .ok net ∧ net = fun a => delta a + tally (sellOf orders) amount orders.length a -
          tally (buyOf orders) credit orders.length a := by
    refine foldlM_range_ok (P := fun k (net : ℕ → ℤ) => net = fun a =>
      delta a + tally (sellOf orders) amount k a - tally (buyOf orders) credit k a) ?_
      (by funext a; simp [tally_zero])
    rintro k hk net rfl
    -- every partial balance is a few machine words
    have hsold := fun a => tally_le_words (sellOf orders) (fun i hi => (hamount i hi).2)
      (Nat.le_of_lt hk) hlen a
    have hbought := fun a => tally_le_words (buyOf orders) (fun i hi => (hcredit i hi).2)
      (Nat.le_of_lt hk) hlen a
    have hak := hamount k hk
    have hck := hcredit k hk
    rw [verifyStep_eq (hvalid.intent k hk) ((hget _ k hk).trans hak.1)
      (le_of_le_of_eq hck.1 (hget _ k hk).symm)]
    · refine ⟨_, rfl, ?_⟩
      funext a
      rw [hget _ k hk, hget _ k hk, tally, tally, tally, tally, Finset.sum_range_succ,
        Finset.sum_range_succ]
      push_cast
      ring
    · have := hdelta (sellOf orders k)
      have := hsold (sellOf orders k)
      have := hbought (sellOf orders k)
      rw [hget _ k hk]
      exact fitsI128_of (by omega) (by omega)
    · have := hdelta (buyOf orders k)
      have := hsold (buyOf orders k)
      have := hbought (buyOf orders k)
      rw [hget _ k hk]
      exact fitsI128_of (by omega) (by omega)
  obtain ⟨net, hfold, heq⟩ := hloop
  rw [verifySettlement, rejectIf_of_not _ (by
      simp only [not_or, not_lt, not_not, List.length_map, List.length_range, and_self, and_true]
      exact hvalid.length_le), ok_bind, hfold, ok_bind]
  refine rejectIf_of_not _ (not_not.mpr fun a ha => ?_)
  rw [heq]
  exact hnet a ha

/-- What an order is credited meets its minimum. -/
theorem Grouped.minOut_le (h : Grouped orders fills orders.length groups pairs)
    {observed : ResidualGroup → ℕ} {shares : ResidualGroup → ℕ → ℕ}
    (hshares : ∀ p ∈ pairs, Distributed orders fills p
      (observed (groupFor orders fills orders.length p))
      (shares (groupFor orders fills orders.length p))) {i : ℕ} (hi : i < orders.length) :
    (intentAt orders i).minOut ≤ creditOf fills groups shares i := by
  rw [creditOf]
  rcases Nat.eq_zero_or_pos (residualOf orders fills i) with hzero | hpos
  · exact le_trans (h.closed i hi hzero) (Nat.le_add_right _ _)
  · have hp := h.covered i hi hpos
    have hneeded := (hshares _ hp).needed i hi ⟨hpos, rfl⟩
    have hsingle : shares (groupFor orders fills orders.length (pairOf orders i)) i ≤
        (groups.map fun g => shares g i).sum := by
      rw [h.sum_map]
      exact Finset.single_le_sum
        (f := fun p => shares (groupFor orders fills orders.length p) i)
        (fun _ _ => Nat.zero_le _) (List.mem_toFinset.mpr hp)
    have hmin : (intentAt orders i).minOut ≤ (fills i).output + neededOf orders fills i := by
      rw [neededOf]
      omega
    omega

/-- With the observed outputs distributed, every asset nets to zero. -/
theorem Grouped.net_eq_zero (h : Grouped orders fills orders.length groups pairs)
    (hvalid : Validated orders fills) {observed : ResidualGroup → ℕ}
    {shares : ResidualGroup → ℕ → ℕ}
    (hshares : ∀ p ∈ pairs, Distributed orders fills p
      (observed (groupFor orders fills orders.length p))
      (shares (groupFor orders fills orders.length p))) {a : ℕ} (ha : a < maxAssets) :
    externalDelta groups observed a +
        tally (sellOf orders) (fun i => (intentAt orders i).amount) orders.length a -
      tally (buyOf orders) (creditOf fills groups shares) orders.length a = 0 := by
  have hdelta : externalDelta groups observed a =
      (∑ p ∈ pairs.toFinset, if p.2 = a then observed (groupFor orders fills orders.length p)
        else 0 : ℕ) -
      (∑ p ∈ pairs.toFinset, if p.1 = a then (groupFor orders fills orders.length p).amountIn
        else 0 : ℕ) := by
    rw [externalDelta, h.sum_map, Finset.sum_sub_distrib]
    push_cast
    rfl
  have hamount : tally (sellOf orders) (fun i => (intentAt orders i).amount) orders.length a =
      tally (sellOf orders) (fun i => (fills i).input) orders.length a +
        tally (sellOf orders) (residualOf orders fills) orders.length a := by
    rw [tally, tally, tally, ← Finset.sum_add_distrib]
    refine Finset.sum_congr rfl fun i hi => ?_
    have := h.input_le i (Finset.mem_range.mp hi)
    split
    · rw [residualOf]
      omega
    · rfl
  have hcredit : tally (buyOf orders) (creditOf fills groups shares) orders.length a =
      tally (buyOf orders) (fun i => (fills i).output) orders.length a +
        ∑ p ∈ pairs.toFinset, if p.2 = a then observed (groupFor orders fills orders.length p)
          else 0 := by
    rw [← sum_shares hshares a, tally, tally, tally, ← Finset.sum_add_distrib]
    refine Finset.sum_congr rfl fun i _ => ?_
    split
    · rw [creditOf, h.sum_map]
    · rfl
  have hbooks := hvalid.balanced a ha
  rw [hdelta, hamount, hcredit, h.sum_amountIn a, hbooks]
  push_cast
  ring

/-- The external deltas are a few machine words. -/
theorem Grouped.delta_bounds (h : Grouped orders fills orders.length groups pairs)
    (hlen : orders.length ≤ 32) {observed : ResidualGroup → ℕ} {shares : ResidualGroup → ℕ → ℕ}
    (hshares : ∀ p ∈ pairs, Distributed orders fills p
      (observed (groupFor orders fills orders.length p))
      (shares (groupFor orders fills orders.length p)))
    (hamount : ∀ i < orders.length, (intentAt orders i).amount < u64Size)
    (hcredit : ∀ i < orders.length, creditOf fills groups shares i < u64Size) (a : ℕ) :
    -1208925819614629174706176 ≤ externalDelta groups observed a ∧
      externalDelta groups observed a ≤ 1208925819614629174706176 := by
  have hconst := constants
  have hspent := h.sum_amountIn a
  have hresidual : ∀ i < orders.length, residualOf orders fills i < u64Size := fun i hi =>
    Nat.lt_of_le_of_lt (Nat.sub_le _ _) (hamount i hi)
  have hspent' := tally_le_words (sellOf orders) hresidual (Nat.le_refl _) hlen a
  have hreceived := sum_shares hshares a
  have hshare : ∀ i < orders.length,
      ∑ p ∈ pairs.toFinset, shares (groupFor orders fills orders.length p) i < u64Size := by
    intro i hi
    have := hcredit i hi
    rw [creditOf, h.sum_map] at this
    omega
  have hreceived' := tally_le_words (buyOf orders) hshare (Nat.le_refl _) hlen a
  rw [externalDelta, h.sum_map, Finset.sum_sub_distrib, ← Nat.cast_sum, ← Nat.cast_sum]
  change -_ ≤ ((∑ p ∈ pairs.toFinset, if p.2 = a then _ else 0 : ℕ) : ℤ) -
      ((∑ p ∈ pairs.toFinset, if p.1 = a then _ else 0 : ℕ) : ℤ) ∧
    ((∑ p ∈ pairs.toFinset, if p.2 = a then _ else 0 : ℕ) : ℤ) -
      ((∑ p ∈ pairs.toFinset, if p.1 = a then _ else 0 : ℕ) : ℤ) ≤ _
  rw [hspent, ← hreceived]
  omega

/-- The shares that `distribute` hands out. -/
def sharesOf (orders : List FlowIntent) (report : FoldReport) (observed : ResidualGroup → ℕ)
    (group : ResidualGroup) : ℕ → ℕ :=
  match distribute orders report group (observed group) with
  | .ok out => out
  | .error _ => fun _ => 0

/-- A cell settles: whatever the groups of a fold's residuals observe, as long as it meets their
minimums, `distribute` succeeds for every group, hands out exactly what was observed and nothing to
orders outside the group, and with the fills and shares credited `verify_settlement` accepts: every
order has its minimum and every asset nets to zero. -/
theorem cell_settles {orders : List FlowIntent} {report : FoldReport} {groups : List ResidualGroup}
    (hres : residuals orders report = .ok groups) (observed : ResidualGroup → ℕ)
    (hobserved : ∀ g ∈ groups, g.minOut ≤ observed g ∧ observed g < u64Size)
    (hamount : ∀ i < orders.length, (intentAt orders i).amount < u64Size) :
    (∀ g ∈ groups, distribute orders report g (observed g) = .ok (sharesOf orders report observed g) ∧
      ∑ i ∈ Finset.range orders.length, sharesOf orders report observed g i = observed g ∧
      ∀ i, g.members.testBit i = false → sharesOf orders report observed g i = 0) ∧
    (∀ i < orders.length, (intentAt orders i).minOut ≤
      creditOf report.fills groups (sharesOf orders report observed) i) ∧
    (∀ a < maxAssets, externalDelta groups observed a +
        tally (sellOf orders) (fun i => (intentAt orders i).amount) orders.length a -
      tally (buyOf orders) (creditOf report.fills groups (sharesOf orders report observed))
        orders.length a = 0) ∧
    ((∀ i < orders.length,
        creditOf report.fills groups (sharesOf orders report observed) i < u64Size) →
      verifySettlement orders
        ((List.range orders.length).map fun i => (intentAt orders i).amount)
        ((List.range orders.length).map
          (creditOf report.fills groups (sharesOf orders report observed)))
        (externalDelta groups observed) = .ok ()) := by
  have hres' := hres
  rw [residuals, bind_eq_ok] at hres'
  obtain ⟨u, -, hres'⟩ := hres'
  rw [bind_eq_ok] at hres'
  obtain ⟨u', hvalidate, hbuild⟩ := hres'
  have hvalid := validated_of_validateFold hvalidate
  obtain ⟨pairs, h⟩ := grouped_of_build hbuild
  have hmem : ∀ p ∈ pairs, groupFor orders report.fills orders.length p ∈ groups := fun p hp => by
    rw [h.groups_eq]
    exact List.mem_map_of_mem hp
  have hout : ∀ p ∈ pairs, distribute orders report (groupFor orders report.fills orders.length p)
      (observed (groupFor orders report.fills orders.length p)) =
        .ok (sharesOf orders report observed (groupFor orders report.fills orders.length p)) ∧
      Distributed orders report.fills p (observed (groupFor orders report.fills orders.length p))
        (sharesOf orders report observed (groupFor orders report.fills orders.length p)) := by
    intro p hp
    obtain ⟨hmin, hfit⟩ := hobserved _ (hmem p hp)
    obtain ⟨out, hdist, hspec⟩ := distribute_spec hres h hp hmin hfit
    have hshares : sharesOf orders report observed (groupFor orders report.fills orders.length p) =
        out := by rw [sharesOf, hdist]
    rw [hshares]
    exact ⟨hdist, hspec⟩
  have hdistributed := fun p hp => (hout p hp).2
  refine ⟨fun g hg => ?_, fun i hi => h.minOut_le hdistributed hi,
    fun a ha => h.net_eq_zero hvalid hdistributed ha, fun hcredit => ?_⟩
  · rw [h.groups_eq] at hg
    obtain ⟨p, hp, rfl⟩ := List.mem_map.mp hg
    refine ⟨(hout p hp).1, (hout p hp).2.sum_eq, fun i hi => (hout p hp).2.outside i ?_⟩
    have hbit := testBit_memberBits orders report.fills p orders.length i
    rw [show memberBits orders report.fills p orders.length =
      (groupFor orders report.fills orders.length p).members from rfl, hi] at hbit
    exact fun hm => absurd hbit (by simp [hm])
  · exact verifySettlement_of_net hvalid (fun i hi => ⟨rfl, hamount i hi⟩)
      (fun i hi => ⟨h.minOut_le hdistributed hi, hcredit i hi⟩)
      (h.delta_bounds hvalid.length_le hdistributed hamount hcredit)
      fun a ha => h.net_eq_zero hvalid hdistributed ha

/-- Two orders on one asset pair and one back, none of them filled. -/
def sampleCell : List FlowIntent :=
  [{ nonce := 1, sell := 0, buy := 1, amount := 10, minOut := 15 },
    { nonce := 2, sell := 0, buy := 1, amount := 20, minOut := 10 },
    { nonce := 3, sell := 1, buy := 0, amount := 30, minOut := 10 }]

/-- The groups of `sampleCell`. -/
def sampleGroups : List ResidualGroup :=
  [{ sell := 0, buy := 1, amountIn := 30, minOut := 25, members := 3 },
    { sell := 1, buy := 0, amountIn := 30, minOut := 10, members := 4 }]

theorem cell_settles_sample :
    (∀ g ∈ sampleGroups, ∑ i ∈ Finset.range sampleCell.length,
      sharesOf sampleCell {} (fun g => g.minOut + 7) g i = g.minOut + 7) ∧
    verifySettlement sampleCell
      ((List.range sampleCell.length).map fun i => (intentAt sampleCell i).amount)
      ((List.range sampleCell.length).map
        (creditOf (fun _ => {}) sampleGroups (sharesOf sampleCell {} fun g => g.minOut + 7)))
      (externalDelta sampleGroups fun g => g.minOut + 7) = .ok () := by
  have hres : residuals sampleCell {} = .ok sampleGroups := by decide
  obtain ⟨hshares, -, -, hverify⟩ := cell_settles hres (fun g => g.minOut + 7) (by decide) (by decide)
  exact ⟨fun g hg => (hshares g hg).2.1, hverify (by decide)⟩

end Cell

end StockMesh

import StockMesh.Host.PreparedQuotes
import Mathlib.Data.List.MinMax
import Mathlib.Data.List.Nodup

/-! # Which bid wins

`select` goes through the bids in the order of their arrival and keeps the first one of the greatest rank.
Whether it succeeds depends on the bids one by one and on their identities, not on their order, so that the
order can matter in one way only: two bids of one executor, under different sequences, share the greatest
rank. Then the one that arrived first wins. -/

namespace StockMesh.Host

open Journal (refuse_eq_ok)

variable {crates : MeshCrates} {verify : Verify} {intent : FrozenIntent} {slot : ℕ}

/-! ## Ranks -/

/-- The key of the executor of a bid. -/
def executorKey (crates : MeshCrates) (bid : ExecutorBid) : Key :=
  match crates.key bid.executor with
  | .ok executor => executor
  | .error _ => zeroKey

theorem executorKey_of_ok {bid : ExecutorBid} {executor : Key} (h : crates.key bid.executor = .ok executor) :
    executorKey crates bid = executor := by
  rw [executorKey, h]

/-- The rank of a bid. -/
def bidRank (crates : MeshCrates) (bid : ExecutorBid) : Rank := bid.rank (executorKey crates bid)

/-- Two bids of one executor that nothing in the order of bids tells apart. -/
structure TiedBids (crates : MeshCrates) (a b : ExecutorBid) : Prop where
  executor : executorKey crates a = executorKey crates b
  exposure : a.guaranteedExposureQ32 = b.guaranteedExposureQ32
  fee : a.executorFeeInputAtoms = b.executorFeeInputAtoms
  units : a.predictedComputeUnits = b.predictedComputeUnits

/-- Equal ranks are ties. -/
theorem bidRank_eq_iff {a b : ExecutorBid} : bidRank crates a = bidRank crates b ↔ TiedBids crates a b := by
  constructor
  · intro h
    have hexposure := congrArg (fun r : Rank => (ofLex r).1) h
    have hfee := congrArg (fun r : Rank => (ofLex (ofLex r).2).1) h
    have hunits := congrArg (fun r : Rank => (ofLex (ofLex (ofLex r).2).2).1) h
    have hkey := congrArg (fun r : Rank => (ofLex (ofLex (ofLex r).2).2).2) h
    exact ⟨Key.number_injective (OrderDual.toDual_inj.mp hkey), hexposure, OrderDual.toDual_inj.mp hfee,
      OrderDual.toDual_inj.mp hunits⟩
  · rintro ⟨hkey, hexposure, hfee, hunits⟩
    rw [bidRank, bidRank, ExecutorBid.rank, ExecutorBid.rank, hkey, hexposure, hfee, hunits]

/-- What makes a bid unique in a list: the executor and the sequence. -/
def bidIdentity (crates : MeshCrates) (bid : ExecutorBid) : Key × ℕ := (executorKey crates bid, bid.sequence)

/-- A bid that `select` can compare. -/
def ValidBid (crates : MeshCrates) (verify : Verify) (intent : FrozenIntent) (slot : ℕ)
    (bid : ExecutorBid) : Prop :=
  verify bid intent slot = .ok () ∧ ∃ executor, crates.key bid.executor = .ok executor

/-- The bids that `select` accepts. -/
structure AdmissibleBids (crates : MeshCrates) (verify : Verify) (intent : FrozenIntent) (slot : ℕ)
    (bids : List ExecutorBid) : Prop where
  nonempty : bids ≠ []
  length_le : bids.length ≤ 32
  valid : ∀ bid ∈ bids, ValidBid crates verify intent slot bid
  nodup : (bids.map (bidIdentity crates)).Nodup

/-- The order of arrival does not matter to what is accepted. -/
theorem AdmissibleBids.perm {bids bids' : List ExecutorBid} (h : AdmissibleBids crates verify intent slot bids)
    (hperm : bids.Perm bids') : AdmissibleBids crates verify intent slot bids' where
  nonempty := fun hnil => h.nonempty (List.perm_nil.mp (hnil ▸ hperm))
  length_le := hperm.length_eq ▸ h.length_le
  valid := fun bid hbid => h.valid bid (hperm.mem_iff.mpr hbid)
  nodup := (hperm.map _).nodup_iff.mp h.nodup

/-! ## The fold -/

/-- The winner so far, with its key, as a fold without checks. -/
theorem foldl_best (bids : List ExecutorBid) (winner : Option ExecutorBid) :
    bids.foldl (fun w bid => some (best w bid (executorKey crates bid)))
        (winner.map fun w => (w, executorKey crates w)) =
      (bids.foldl (List.argAux fun b c => bidRank crates c < bidRank crates b) winner).map
        fun w => (w, executorKey crates w) := by
  induction bids generalizing winner with
  | nil => rfl
  | cons bid bids ih =>
    rw [List.foldl_cons, List.foldl_cons, ← ih]
    congr 1
    cases winner with
    | none => rfl
    | some w =>
      rw [Option.map_some]
      by_cases hlt : bidRank crates w < bidRank crates bid
      · have haux : List.argAux (fun b c => bidRank crates c < bidRank crates b) (some w) bid = some bid :=
          if_pos hlt
        rw [best_some_of_lt hlt, haux, Option.map_some]
      · have haux : List.argAux (fun b c => bidRank crates c < bidRank crates b) (some w) bid = some w :=
          if_neg hlt
        rw [best_some_of_not_lt hlt, haux, Option.map_some]

/-- One bid. -/
theorem selectBid_eq_ok {seen : List (Key × ℕ)} {winner : Option (ExecutorBid × Key)} {bid : ExecutorBid}
    {state : List (Key × ℕ) × Option (ExecutorBid × Key)} :
    selectBid crates verify intent slot (seen, winner) bid = .ok state ↔
      ValidBid crates verify intent slot bid ∧ bidIdentity crates bid ∉ seen ∧
        state = (bidIdentity crates bid :: seen, some (best winner bid (executorKey crates bid))) := by
  simp only [selectBid, bind_eq_ok, refuse_eq_ok, ValidBid, bidIdentity]
  constructor
  · rintro ⟨_, hverify, executor, hkey, _, hnew, hstate⟩
    rw [executorKey_of_ok hkey]
    exact ⟨⟨hverify, executor, hkey⟩, hnew, (Except.ok.inj hstate).symm⟩
  · rintro ⟨⟨hverify, executor, hkey⟩, hnew, rfl⟩
    rw [executorKey_of_ok hkey] at hnew ⊢
    exact ⟨(), hverify, executor, hkey, (), hnew, rfl⟩

/-- The loop of `select`. -/
theorem foldlM_selectBid {bids : List ExecutorBid} {seen : List (Key × ℕ)}
    {winner : Option (ExecutorBid × Key)} {state : List (Key × ℕ) × Option (ExecutorBid × Key)} :
    bids.foldlM (selectBid crates verify intent slot) (seen, winner) = .ok state ↔
      (∀ bid ∈ bids, ValidBid crates verify intent slot bid) ∧ (bids.map (bidIdentity crates)).Nodup ∧
      (∀ bid ∈ bids, bidIdentity crates bid ∉ seen) ∧
      state = ((bids.map (bidIdentity crates)).reverse ++ seen,
        bids.foldl (fun w bid => some (best w bid (executorKey crates bid))) winner) := by
  induction bids generalizing seen winner with
  | nil =>
    rw [List.foldlM_nil]
    constructor
    · intro h
      cases h
      exact ⟨by simp, List.nodup_nil, by simp, rfl⟩
    · rintro ⟨-, -, -, rfl⟩
      rfl
  | cons bid bids ih =>
    rw [List.foldlM_cons, bind_eq_ok, List.map_cons, List.nodup_cons, List.forall_mem_cons,
      List.forall_mem_cons]
    constructor
    · rintro ⟨next, hnext, hrest⟩
      obtain ⟨hbid, hnew, rfl⟩ := selectBid_eq_ok.mp hnext
      obtain ⟨hvalid, hnodup, hseen, rfl⟩ := ih.mp hrest
      refine ⟨⟨hbid, hvalid⟩, ⟨fun hmem => ?_, hnodup⟩, ⟨hnew, fun other hother hmem => ?_⟩, by simp⟩
      · obtain ⟨other, hother, heq⟩ := List.mem_map.mp hmem
        exact hseen other hother (heq ▸ List.mem_cons_self)
      · exact hseen other hother (List.mem_cons_of_mem _ hmem)
    · rintro ⟨⟨hbid, hvalid⟩, ⟨hfresh, hnodup⟩, ⟨hnew, hseen⟩, rfl⟩
      refine ⟨_, selectBid_eq_ok.mpr ⟨hbid, hnew, rfl⟩, ih.mpr ⟨hvalid, hnodup, ?_, by simp⟩⟩
      intro other hother hmem
      rcases List.mem_cons.mp hmem with heq | hmem
      · exact hfresh (heq ▸ List.mem_map_of_mem hother)
      · exact hseen other hother hmem

/-- `select` returns the first bid of the greatest rank of an admissible list. -/
theorem select_eq_ok {bids : List ExecutorBid} {winner : ExecutorBid} :
    select crates verify intent bids slot = .ok winner ↔
      AdmissibleBids crates verify intent slot bids ∧ bids.argmax (bidRank crates) = some winner := by
  have hfold := @foldl_best crates bids none
  rw [Option.map_none] at hfold
  simp only [select, bind_eq_ok, refuse_eq_ok, present_eq_ok]
  constructor
  · rintro ⟨_, hcount, state, hstate, pair, hpair, hout⟩
    obtain ⟨hvalid, hnodup, -, rfl⟩ := foldlM_selectBid.mp hstate
    rw [not_or, not_lt] at hcount
    refine ⟨⟨hcount.1, hcount.2, hvalid, hnodup⟩, ?_⟩
    rw [hfold, Option.map_eq_some_iff] at hpair
    obtain ⟨w, hw, rfl⟩ := hpair
    cases hout
    exact hw
  · rintro ⟨h, hmax⟩
    refine ⟨(), not_or.mpr ⟨h.nonempty, not_lt.mpr h.length_le⟩, _,
      foldlM_selectBid.mpr ⟨h.valid, h.nodup, fun _ _ => List.not_mem_nil, rfl⟩,
      (winner, executorKey crates winner), ?_, rfl⟩
    rw [hfold, Option.map_eq_some_iff]
    exact ⟨winner, hmax, rfl⟩

/-- On an admissible list `select` succeeds. -/
theorem exists_select {bids : List ExecutorBid} :
    (∃ winner, select crates verify intent bids slot = .ok winner) ↔
      AdmissibleBids crates verify intent slot bids := by
  constructor
  · rintro ⟨winner, h⟩
    exact (select_eq_ok.mp h).1
  · intro h
    cases hmax : bids.argmax (bidRank crates) with
    | none => exact absurd (List.argmax_eq_none.mp hmax) h.nonempty
    | some winner => exact ⟨winner, select_eq_ok.mpr ⟨h, hmax⟩⟩

/-! ## The order of arrival -/

/-- Both fail, or both return the same bid. -/
def SameOutcome (x y : Answer ExecutorBid) : Prop := ∀ winner, x = .ok winner ↔ y = .ok winner

/-- What is promised of `select`: every order of arrival has the same outcome, and a winner is one of the bids
and comes after none of them. -/
structure OrderFree (crates : MeshCrates) (verify : Verify) (intent : FrozenIntent) (slot : ℕ)
    (bids : List ExecutorBid) : Prop where
  same : ∀ bids', bids.Perm bids' →
    SameOutcome (select crates verify intent bids slot) (select crates verify intent bids' slot)
  best : ∀ winner, select crates verify intent bids slot = .ok winner →
    winner ∈ bids ∧ ∀ bid ∈ bids, bidRank crates bid ≤ bidRank crates winner

/-- Two different bids of one executor share the greatest rank of a list. -/
def TiedAtTop (crates : MeshCrates) (bids : List ExecutorBid) : Prop :=
  ∃ a ∈ bids, ∃ b ∈ bids, a ≠ b ∧ TiedBids crates a b ∧
    ∀ bid ∈ bids, bidRank crates bid ≤ bidRank crates a

/-- A bid of the greatest rank wins where it arrives first. -/
theorem select_of_first {bids : List ExecutorBid} (h : AdmissibleBids crates verify intent slot bids)
    {a : ExecutorBid} (ha : a ∈ bids) (hmax : ∀ bid ∈ bids, bidRank crates bid ≤ bidRank crates a) :
    ∃ bids', bids.Perm bids' ∧ select crates verify intent bids' slot = .ok a := by
  have hperm : bids.Perm (a :: bids.erase a) := List.perm_cons_erase ha
  refine ⟨_, hperm, select_eq_ok.mpr ⟨h.perm hperm, ?_⟩⟩
  rw [List.argmax_eq_some_iff]
  refine ⟨List.mem_cons_self, fun bid hbid => hmax bid (hperm.mem_iff.mpr hbid), fun bid _ _ => ?_⟩
  rw [List.idxOf_cons_self]
  exact Nat.zero_le _

/-- The order of arrival matters exactly to admissible lists with a tie at the top. -/
theorem orderFree_iff (crates : MeshCrates) (verify : Verify) (intent : FrozenIntent) (slot : ℕ)
    (bids : List ExecutorBid) :
    OrderFree crates verify intent slot bids ↔
      ¬(AdmissibleBids crates verify intent slot bids ∧ TiedAtTop crates bids) := by
  have hbest : ∀ {bids : List ExecutorBid} {winner}, select crates verify intent bids slot = .ok winner →
      winner ∈ bids ∧ ∀ bid ∈ bids, bidRank crates bid ≤ bidRank crates winner := by
    intro bids winner h
    have hmax := (select_eq_ok.mp h).2
    exact ⟨List.argmax_mem hmax, fun bid hbid => List.le_of_mem_argmax hbid hmax⟩
  constructor
  · rintro hfree ⟨hadmissible, a, ha, b, hb, hne, htie, hmax⟩
    have htie := bidRank_eq_iff.mpr htie
    obtain ⟨bids₁, hperm₁, h₁⟩ := select_of_first hadmissible ha hmax
    obtain ⟨bids₂, hperm₂, h₂⟩ := select_of_first hadmissible hb fun bid hbid => htie ▸ hmax bid hbid
    have hwins := (hfree.same bids₁ hperm₁ a).mpr h₁
    have hloses := (hfree.same bids₂ hperm₂ b).mpr h₂
    rw [hwins] at hloses
    exact hne (Except.ok.inj hloses)
  · intro hfree
    refine ⟨fun bids' hperm winner => ?_, fun winner h => hbest h⟩
    -- the two winners are of the same rank
    have hsame : ∀ {left right : List ExecutorBid}, bids.Perm left → left.Perm right →
        select crates verify intent left slot = .ok winner →
          select crates verify intent right slot = .ok winner := by
      intro left right hleft hright h
      have hadmissible := ((select_eq_ok.mp h).1.perm hright)
      obtain ⟨other, hother⟩ := exists_select.mpr hadmissible
      obtain ⟨hmem, hmax⟩ := hbest h
      obtain ⟨hmem', hmax'⟩ := hbest hother
      obtain rfl : winner = other := by
        by_contra hne
        refine hfree ⟨(select_eq_ok.mp h).1.perm hleft.symm, winner, hleft.mem_iff.mpr hmem, other,
          (hleft.trans hright).mem_iff.mpr hmem', hne, bidRank_eq_iff.mp (le_antisymm ?_ ?_),
          fun bid hbid => ?_⟩
        · exact hmax' winner (hright.mem_iff.mp hmem)
        · exact hmax other (hright.mem_iff.mpr hmem')
        · exact hmax bid (hleft.mem_iff.mp hbid)
      exact hother
    exact ⟨hsame (.refl _) hperm, hsame hperm hperm.symm⟩

/-- With the signature check as any predicate: the outcome of `select` is the same for every order of arrival,
and a winner is of the greatest rank, exactly if no two different bids of one executor share the greatest
rank of a list that `select` accepts. -/
theorem select_orderFree_iff (crates : MeshCrates) (signatures : SignatureCrate) (intent : FrozenIntent)
    (slot : ℕ) (bids : List ExecutorBid) :
    OrderFree crates (ExecutorBid.verify crates signatures) intent slot bids ↔
      ¬(AdmissibleBids crates (ExecutorBid.verify crates signatures) intent slot bids ∧
        TiedAtTop crates bids) :=
  orderFree_iff crates _ intent slot bids

/-- The example's crates, which also read a text of ones: every one is a zero byte. -/
def onesCrates : MeshCrates where
  base58 text :=
    if text.toList.all (· == '1') then some (List.replicate text.toList.length 0)
    else exampleCrates.base58 text
  sha256 := exampleCrates.sha256

/-- A crate that accepts every signature. -/
def trustingCrate : SignatureCrate := ⟨fun _ => true, fun _ _ _ => true⟩

/-- An executor's bid with a sequence, for the transaction of that number. -/
def exampleBid (sequence : ℕ) : ExecutorBid :=
  ⟨exampleText 3, sequence, exampleCrates.sha256 [], Key.ofNat 8, Key.ofNat (100 + sequence), 5, 0, 70000, 90,
    String.ofList (List.replicate 64 '1')⟩

/-- The sequence of the bid that wins. -/
def winningSequence (bids : List ExecutorBid) : Option ℕ :=
  match select onesCrates (ExecutorBid.verify onesCrates trustingCrate) exampleIntent bids 50 with
  | .ok winner => some winner.sequence
  | .error _ => none

theorem winningSequence_eq_some {bids : List ExecutorBid} {sequence : ℕ}
    (h : winningSequence bids = some sequence) : ∃ winner,
    select onesCrates (ExecutorBid.verify onesCrates trustingCrate) exampleIntent bids 50 = .ok winner ∧
      winner.sequence = sequence := by
  unfold winningSequence at h
  split at h
  · next winner hselect => exact ⟨winner, hselect, Option.some.inj h⟩
  · cases h

/-- Of two bids of one executor with the same offer the first one wins, in either order. -/
theorem select_first_of_tie : ¬∀ (crates : MeshCrates) (signatures : SignatureCrate) (intent : FrozenIntent)
    (slot : ℕ) (bids : List ExecutorBid),
    OrderFree crates (ExecutorBid.verify crates signatures) intent slot bids := by
  intro hall
  have hsame := (hall onesCrates trustingCrate exampleIntent 50 [exampleBid 1, exampleBid 2]).same
    [exampleBid 2, exampleBid 1] (.swap _ _ _)
  have hboth : winningSequence [exampleBid 1, exampleBid 2] = some 1 ∧
      winningSequence [exampleBid 2, exampleBid 1] = some 2 := by decide +kernel
  obtain ⟨winner, hselect, hfirst⟩ := winningSequence_eq_some hboth.1
  obtain ⟨winner', hselect', hsecond⟩ := winningSequence_eq_some hboth.2
  rw [(hsame winner).mp hselect] at hselect'
  cases hselect'
  exact absurd (hfirst.symm.trans hsecond) (by decide)

end StockMesh.Host

import StockMesh.Host.SellRoute

/-! # The best chain of a sale

The layers of the search are the chains of options that leave one leg for every stage to come, at most
four for each path before, so that the bound on candidates is never met. An option that uses a pool of its
path again ends the whole search with an error, also where another path is complete. Apart from that, and
from counters that overflow, the search finds the best chain. -/

namespace StockMesh.Host

open Frontier
open Journal (refuse_eq_ok)

variable {quote : StageQuote} {count input stage : ℕ}

/-! ## Layers -/

/-- The paths that the search keeps up to a stage. -/
def keptPaths (quote : StageQuote) (count input : ℕ) : ℕ → List (List SellStage) :=
  layers (extensionsOf quote count input) [[]]

theorem mem_extensionsOf {before path : List SellStage} :
    path ∈ extensionsOf quote count input stage before ↔
      ∃ option ∈ optionsAt quote stage (amountAt input before), HasRoom count stage before option ∧
        IsFresh before option ∧ path = before ++ [⟨amountAt input before, option.1, option.2⟩] := by
  simp only [extensionsOf, List.mem_filterMap, extension, Option.ite_none_right_eq_some, Option.some.injEq,
    and_assoc, @eq_comm _ path]

theorem offeredEntry_spec {entry : Value} {option : ℕ × List Value} (h : offeredEntry entry = some option) :
    option.2 ≠ [] := by
  obtain ⟨output, -, h⟩ := Option.bind_eq_some_iff.mp h
  obtain ⟨legs, hlegs, h⟩ := Option.bind_eq_some_iff.mp h
  cases h
  have hsome := (Option.filter_eq_some_iff.mp hlegs).2
  rintro rfl
  cases hsome

/-- An option has legs. -/
theorem legs_ne_nil {proposal : Value} {option : ℕ × List Value} (h : option ∈ proposalOptions proposal) :
    option.2 ≠ [] := by
  rw [proposalOptions, List.mem_append] at h
  rcases h with h | h
  · exact offeredEntry_spec (Option.mem_toList.mp h)
  · split at h
    · obtain ⟨entry, -, hentry⟩ := List.mem_filterMap.mp h
      exact offeredEntry_spec hentry
    · cases h

/-- A proposal has at most four options. -/
theorem length_proposalOptions_le (proposal : Value) : (proposalOptions proposal).length ≤ 4 := by
  have hmain : (offeredEntry proposal).toList.length ≤ 1 := by
    cases offeredEntry proposal <;> simp
  rw [proposalOptions, List.length_append]
  split
  · rename_i alternatives _
    have hrest := List.length_filterMap_le offeredEntry (alternatives.take 3)
    have htake := List.length_take_le 3 alternatives
    omega
  · rw [List.length_nil]
    omega

theorem length_optionsAt_le (quote : StageQuote) (stage amount : ℕ) :
    (optionsAt quote stage amount).length ≤ 4 := by
  unfold optionsAt
  split
  · exact Nat.zero_le _
  · exact length_proposalOptions_le _

theorem optionsAt_legs {amount : ℕ} {option : ℕ × List Value} (h : option ∈ optionsAt quote stage amount) :
    0 < option.2.length := by
  unfold optionsAt at h
  split at h
  · cases h
  · exact List.length_pos_iff.mpr (legs_ne_nil h)

theorem usedLegs_concat (path : List SellStage) (s : SellStage) :
    usedLegs (path ++ [s]) = usedLegs path + s.legs.length := by
  simp [usedLegs]

theorem poolsOf_concat (path : List SellStage) (s : SellStage) :
    poolsOf (path ++ [s]) = poolsOf path ++ s.legs.map poolOf := by
  simp [poolsOf]

theorem amountAt_concat (path : List SellStage) (s : SellStage) : amountAt input (path ++ [s]) = s.output := by
  simp [amountAt]

/-- A chain with one more stage. -/
theorem sellChain_concat {path : List SellStage} {s : SellStage} :
    SellChain quote input (stage + 1) (path ++ [s]) ↔ SellChain quote input stage path ∧
      s.input = amountAt input path ∧ (s.output, s.legs) ∈ optionsAt quote stage s.input ∧
      (poolsOf path ++ s.legs.map poolOf).Nodup := by
  constructor
  · rintro ⟨hlength, hlinked, hoffered, hpools⟩
    have hlen : path.length = stage := by simpa using hlength
    rw [poolsOf_concat] at hpools
    refine ⟨⟨hlen, fun k hk => ?_, fun k hk => ?_, (List.nodup_append.mp hpools).1⟩, ?_, ?_, hpools⟩
    · have := hlinked k (by rw [List.length_append]; omega)
      rwa [List.getElem_append_left hk, List.take_append_of_le_length hk.le] at this
    · have := hoffered k (by rw [List.length_append]; omega)
      rwa [List.getElem_append_left hk] at this
    · have := hlinked path.length (by simp)
      simpa using this
    · have := hoffered path.length (by simp)
      simpa [hlen] using this
  · rintro ⟨⟨hlength, hlinked, hoffered, -⟩, hinput, hoption, hpools⟩
    refine ⟨by simp [hlength], fun k hk => ?_, fun k hk => ?_, by rwa [poolsOf_concat]⟩
    · rcases Nat.lt_or_ge k path.length with hlt | hge
      · rw [List.getElem_append_left hlt, List.take_append_of_le_length hlt.le]
        exact hlinked k hlt
      · obtain rfl : k = path.length := by rw [List.length_append, List.length_singleton] at hk; omega
        simpa using hinput
    · rcases Nat.lt_or_ge k path.length with hlt | hge
      · rw [List.getElem_append_left hlt]
        exact hoffered k hlt
      · obtain rfl : k = path.length := by rw [List.length_append, List.length_singleton] at hk; omega
        simpa [hlength] using hoption

/-- The search keeps exactly the chains that leave a leg for every stage to come. -/
theorem mem_keptPaths (hcount : count ≤ 3) {k : ℕ} (hk : k ≤ count) {path : List SellStage} :
    path ∈ keptPaths quote count input k ↔ PartialSell quote count input k path := by
  induction k generalizing path with
  | zero =>
    constructor
    · intro h
      obtain rfl := List.mem_singleton.mp h
      exact ⟨⟨rfl, by simp, by simp, List.nodup_nil⟩, by simpa [usedLegs] using hcount.trans (by decide)⟩
    · intro h
      rw [List.length_eq_zero_iff.mp h.length]
      exact List.mem_singleton.mpr rfl
  | succ k ih =>
    have ih := fun before => @ih (by omega) before
    rw [keptPaths, mem_layers_succ]
    constructor
    · rintro ⟨before, hbefore, hpath⟩
      have hkept := (ih before).mp hbefore
      obtain ⟨option, hoption, hroom, hfresh, rfl⟩ := mem_extensionsOf.mp hpath
      refine ⟨sellChain_concat.mpr ⟨hkept.toSellChain, rfl, hoption, hfresh⟩, ?_⟩
      rw [usedLegs_concat]
      exact hroom
    · rintro ⟨hchain, hlegs⟩
      -- the last stage
      obtain rfl | ⟨before, s, rfl⟩ := List.eq_nil_or_concat' path
      · exact absurd hchain.length (by simp)
      obtain ⟨hbefore, hinput, hoption, hfresh⟩ := sellChain_concat.mp hchain
      have hpos := optionsAt_legs hoption
      rw [usedLegs_concat] at hlegs
      refine ⟨before, (ih before).mpr ⟨hbefore, by simp only at hpos; omega⟩,
        mem_extensionsOf.mpr ⟨(s.output, s.legs), hinput ▸ hoption, ?_, hfresh, ?_⟩⟩
      · show _ + _ + (count - k - 1) ≤ maxLegs
        simpa [Nat.sub_sub] using hlegs
      · rw [← hinput]

/-- The complete paths of the search are the admissible chains. -/
theorem mem_keptPaths_count (hcount : count ≤ 3) {chain : List SellStage} :
    chain ∈ keptPaths quote count input count ↔ AdmissibleSell quote count input chain := by
  rw [mem_keptPaths hcount le_rfl]
  exact ⟨fun h => ⟨h.toSellChain, by simpa using h.legs⟩, fun h => ⟨h.toSellChain, by simpa using h.legs⟩⟩

theorem length_keptPaths_le (k : ℕ) : (keptPaths quote count input k).length ≤ 4 ^ k := by
  have h := @length_layers_le _ (extensionsOf quote count input) [[]] 4
    (fun k path => (List.length_filterMap_le _ _).trans (length_optionsAt_le _ _ _)) k
  rwa [List.length_singleton, Nat.mul_one] at h

/-! ## The search -/

/-- A counter over the first stages. -/
def searchCounter (field : String) (quote : StageQuote) (count input stages : ℕ) : ℕ :=
  ∑ k ∈ Finset.range stages, stageCounter field quote k (amountsOf input (keptPaths quote count input k))

/-- Every option of every quote is well formed and conserving. -/
def ConservingQuotes (quote : StageQuote) : Prop :=
  ∀ stage amount, ∀ option ∈ optionsAt quote stage amount, Conserving amount option

/-- The search after some stages. -/
def searched (quote : StageQuote) (count input k : ℕ) : SellSearch :=
  ⟨keptPaths quote count input k, searchCounter "oracleCalls" quote count input k,
    searchCounter "nativeEvaluations" quote count input k⟩

/-- Stages that the search goes through without an error. -/
structure SearchedWell (quote : StageQuote) (count input stages : ℕ) : Prop where
  visited : ∀ k < stages, VisitedWell quote count input k (searchCounter "oracleCalls" quote count input k)
    (searchCounter "nativeEvaluations" quote count input k) (keptPaths quote count input k)
  nonempty : ∀ k < stages, keptPaths quote count input (k + 1) ≠ []

theorem searchCounter_succ (field : String) (k : ℕ) :
    searchCounter field quote count input (k + 1) = searchCounter field quote count input k +
      stageCounter field quote k (amountsOf input (keptPaths quote count input k)) :=
  Finset.sum_range_succ _ _

theorem searchedWell_succ {k : ℕ} : SearchedWell quote count input (k + 1) ↔ SearchedWell quote count input k ∧
    VisitedWell quote count input k (searchCounter "oracleCalls" quote count input k)
      (searchCounter "nativeEvaluations" quote count input k) (keptPaths quote count input k) ∧
    keptPaths quote count input (k + 1) ≠ [] := by
  constructor
  · exact fun h => ⟨⟨fun j hj => h.visited j (by omega), fun j hj => h.nonempty j (by omega)⟩,
      h.visited k (by omega), h.nonempty k (by omega)⟩
  · rintro ⟨h, hvisited, hnonempty⟩
    constructor
    · intro j hj
      obtain hlt | rfl := Nat.lt_succ_iff_lt_or_eq.mp hj
      · exact h.visited j hlt
      · exact hvisited
    · intro j hj
      obtain hlt | rfl := Nat.lt_succ_iff_lt_or_eq.mp hj
      · exact h.nonempty j hlt
      · exact hnonempty

/-- The counters of the stages gone through are `u64`s. -/
theorem SearchedWell.bounded {k : ℕ} (h : SearchedWell quote count input k) :
    searchCounter "oracleCalls" quote count input k < u64Size ∧
      searchCounter "nativeEvaluations" quote count input k < u64Size := by
  cases k with
  | zero =>
    have hzero : ∀ field, searchCounter field quote count input 0 < u64Size := fun field => by
      rw [searchCounter, Finset.range_zero, Finset.sum_empty]
      decide
    exact ⟨hzero _, hzero _⟩
  | succ k =>
    have hlast := (h.visited k (by omega)).asked
    rw [searchCounter_succ, searchCounter_succ]
    exact ⟨hlast.calls, hlast.evaluations⟩

/-- A path that the search keeps is one that the checks of the next stage are made for. -/
theorem PartialSell.sound {k : ℕ} {path : List SellStage} (hwell : ConservingQuotes quote)
    (hinput : input ≤ maxAtoms) (h : PartialSell quote count input k path) :
    SoundPath quote input k path where
  pools := h.pools
  bounded := by
    obtain rfl | ⟨before, s, rfl⟩ := List.eq_nil_or_concat' path
    · exact hinput.trans_lt (by decide)
    · cases k with
      | zero => exact absurd h.length (by simp)
      | succ k =>
        rw [amountAt_concat]
        exact (hwell _ _ _ (sellChain_concat.mp h.toSellChain).2.2.1).bounded
  conserving := hwell k _

/-- Four options a stage make at most 64 paths. -/
theorem length_keptPaths_succ_le (hcount : count ≤ 3) {k : ℕ} (hk : k < count) :
    (keptPaths quote count input (k + 1)).length ≤ 64 :=
  (length_keptPaths_le (k + 1)).trans (Nat.pow_le_pow_right (by decide) (by omega : k + 1 ≤ 3))

/-- The paths of one more stage. -/
theorem searched_visit_eq_ok (hcount : count ≤ 3) (hwell : ConservingQuotes quote)
    (hinput : input ≤ maxAtoms) {k : ℕ} (hk : k < count) (h : SearchedWell quote count input k)
    {s : StageSearch} :
    (keptPaths quote count input k).foldlM (StageSearch.visit quote count k input)
        ⟨fun _ => none, searchCounter "oracleCalls" quote count input k,
          searchCounter "nativeEvaluations" quote count input k, []⟩ = .ok s ↔
      VisitedWell quote count input k (searchCounter "oracleCalls" quote count input k)
          (searchCounter "nativeEvaluations" quote count input k) (keptPaths quote count input k) ∧
        s = visited quote count input k (searchCounter "oracleCalls" quote count input k)
          (searchCounter "nativeEvaluations" quote count input k) (keptPaths quote count input k) :=
  foldlM_visit_eq_ok (fun _ hpath => ((mem_keptPaths hcount hk.le).mp hpath).sound hwell hinput)
    h.bounded.1 h.bounded.2

/-- One more stage. -/
theorem searched_stage_eq_ok (hcount : count ≤ 3) (hwell : ConservingQuotes quote)
    (hinput : input ≤ maxAtoms) {k : ℕ} (hk : k < count) (h : SearchedWell quote count input k)
    {s : SellSearch} :
    (searched quote count input k).stage quote count input k = .ok s ↔
      SearchedWell quote count input (k + 1) ∧ s = searched quote count input (k + 1) := by
  have hfold := fun s => @searched_visit_eq_ok quote count input hcount hwell hinput k hk h s
  have hlength := @length_keptPaths_succ_le quote count input hcount k hk
  rw [searchedWell_succ, SellSearch.stage]
  simp only [bind_eq_ok, refuse_eq_ok]
  constructor
  · rintro ⟨done, hdone, _, hnonempty, _, _, hend⟩
    obtain ⟨hvisited, rfl⟩ := (hfold done).mp hdone
    refine ⟨⟨h, hvisited, fun hnil => hnonempty (List.isEmpty_iff.mpr hnil)⟩, ?_⟩
    rw [searched, searchCounter_succ, searchCounter_succ]
    exact (Except.ok.inj hend).symm
  · rintro ⟨⟨-, hvisited, hnonempty⟩, rfl⟩
    refine ⟨_, (hfold _).mpr ⟨hvisited, rfl⟩, (), fun hnil => hnonempty (List.isEmpty_iff.mp hnil), (),
      Nat.not_lt.mpr hlength, ?_⟩
    rw [searched, searchCounter_succ, searchCounter_succ]
    rfl

/-- The first stages. -/
theorem foldlM_stage_eq_ok (hcount : count ≤ 3) (hwell : ConservingQuotes quote)
    (hinput : input ≤ maxAtoms) {k : ℕ} (hk : k ≤ count) {s : SellSearch} :
    (List.range k).foldlM (SellSearch.stage quote count input) ⟨[[]], 0, 0⟩ = .ok s ↔
      SearchedWell quote count input k ∧ s = searched quote count input k :=
  foldlM_range_eq_ok_iff (SearchedWell quote count input) (searched quote count input) rfl
    ⟨fun k hk => absurd hk (Nat.not_lt_zero k), fun k hk => absurd hk (Nat.not_lt_zero k)⟩
    (fun _ h => (searchedWell_succ.mp h).1)
    (fun _ _ hj h => searched_stage_eq_ok hcount hwell hinput (hj.trans_le hk) h)

/-- The search ends exactly if its stages go well, with the last of the greatest complete paths. -/
theorem chooseSell_eq_ok (hcount : 1 ≤ count ∧ count ≤ 3) (hwell : ConservingQuotes quote)
    (hpos : 0 < input) {route : SellRoute} :
    chooseSell quote count input = .ok route ↔ input ≤ maxAtoms ∧ SearchedWell quote count input count ∧
      (keptPaths quote count input count).reverse.argmax merit = some route.stages ∧
      route.oracleCalls = searchCounter "oracleCalls" quote count input count ∧
      route.nativeEvaluations = searchCounter "nativeEvaluations" quote count input count := by
  rw [chooseSell]
  simp only [bind_eq_ok, refuse_eq_ok, present_eq_ok]
  constructor
  · rintro ⟨_, hbound, s, hs, stages, hstages, hend⟩
    have hinput : input ≤ maxAtoms := Nat.not_lt.mp fun hlt => hbound (.inr (.inr hlt))
    obtain ⟨hsearched, rfl⟩ := (foldlM_stage_eq_ok hcount.2 hwell hinput le_rfl).mp hs
    cases hend
    exact ⟨hinput, hsearched, hstages, rfl, rfl⟩
  · rintro ⟨hinput, hsearched, hstages, hcalls, hevaluations⟩
    refine ⟨(), ?_, _, (foldlM_stage_eq_ok hcount.2 hwell hinput le_rfl).mpr ⟨hsearched, rfl⟩, _, hstages, ?_⟩
    · rintro (h | h | h)
      · exact h hcount
      · omega
      · omega
    · rw [searched, ← hcalls, ← hevaluations]

/-- The last of the greatest complete paths is the best chain. -/
theorem bestSell_of_argmax (hcount : count ≤ 3) {stages : List SellStage}
    (h : (keptPaths quote count input count).reverse.argmax merit = some stages) :
    BestSell quote count input stages := by
  have hmem := List.mem_reverse.mp (List.argmax_mem h)
  refine ⟨(mem_keptPaths_count hcount).mp hmem, fun other hother => ?_⟩
  have hle := List.le_of_mem_argmax (List.mem_reverse.mpr ((mem_keptPaths_count hcount).mpr hother)) h
  rcases Prod.Lex.toLex_le_toLex.mp hle with hlt | ⟨heq, hlegs⟩
  · exact .inl hlt
  · exact .inr ⟨heq, OrderDual.toDual_le_toDual.mp hlegs⟩

/-- No path that the search keeps meets an option with room that uses a pool of the path again, the
counters are `u64`s and the input is within bounds. -/
structure SearchesThrough (quote : StageQuote) (count input : ℕ) : Prop where
  input_le : input ≤ maxAtoms
  fresh : ∀ k < count, ∀ path, PartialSell quote count input k path →
    NoRepeat count k path (optionsAt quote k (amountAt input path))
  oracleCalls : searchCounter "oracleCalls" quote count input count < u64Size
  nativeEvaluations : searchCounter "nativeEvaluations" quote count input count < u64Size

theorem searchCounter_mono (field : String) {j k : ℕ} (h : j ≤ k) :
    searchCounter field quote count input j ≤ searchCounter field quote count input k :=
  Finset.sum_le_sum_of_subset (Finset.range_subset_range.mpr h)

/-- The quotes that the search reaches fail for want of capacity only. -/
def ReachesCapacityOnly (quote : StageQuote) (count input : ℕ) : Prop :=
  ∀ k < count, ∀ path, PartialSell quote count input k path → CapacityOnly quote k (amountAt input path)

/-- With a chain to find, the stages go well exactly if nothing is met that ends the search. -/
theorem searchedWell_iff (hcount : 1 ≤ count ∧ count ≤ 3)
    (hchain : ∃ chain, AdmissibleSell quote count input chain)
    (hfail : ReachesCapacityOnly quote count input) :
    input ≤ maxAtoms ∧ SearchedWell quote count input count ↔ SearchesThrough quote count input := by
  obtain ⟨chain, hchain⟩ := hchain
  have hlast : keptPaths quote count input count ≠ [] :=
    List.ne_nil_of_mem ((mem_keptPaths_count hcount.2).mpr hchain)
  constructor
  · rintro ⟨hinput, h⟩
    refine ⟨hinput, fun k hk path hpath => ?_, h.bounded.1, h.bounded.2⟩
    exact (h.visited k hk).fresh path ((mem_keptPaths hcount.2 hk.le).mpr hpath)
  · intro h
    refine ⟨h.input_le, fun k hk => ⟨⟨fun amount hamount => ?_, ?_, ?_⟩, fun path hpath => ?_⟩, fun k hk => ?_⟩
    · obtain ⟨path, hpath, rfl⟩ := List.mem_map.mp (List.mem_toFinset.mp hamount)
      exact hfail k hk path ((mem_keptPaths hcount.2 hk.le).mp hpath)
    · rw [← searchCounter_succ]
      exact (searchCounter_mono _ hk).trans_lt h.oracleCalls
    · rw [← searchCounter_succ]
      exact (searchCounter_mono _ hk).trans_lt h.nativeEvaluations
    · exact h.fresh k hk path ((mem_keptPaths hcount.2 hk.le).mp hpath)
    · exact layers_ne_nil hk hlast

/-- An admissible chain spends something. -/
theorem AdmissibleSell.input_pos (hcount : 1 ≤ count) (hwell : ConservingQuotes quote)
    {chain : List SellStage} (h : AdmissibleSell quote count input chain) : 0 < input := by
  have hlength : 0 < chain.length := h.length ▸ hcount
  have hoption := h.offered 0 hlength
  have hinput : chain[0].input = input := by rw [h.linked 0 hlength]; rfl
  have hconserving := hwell _ _ _ hoption
  -- the first leg spends something
  obtain ⟨leg, hleg⟩ := List.exists_mem_of_length_pos (optionsAt_legs hoption)
  obtain ⟨n, hn, hpos⟩ := hconserving.input leg hleg
  have hle : inputOf leg ≤ (chain[0].legs.map inputOf).sum :=
    List.single_le_sum (fun _ _ => Nat.zero_le _) _ (List.mem_map_of_mem hleg)
  have hspent : (chain[0].legs.map inputOf).sum = chain[0].input := hconserving.spent
  have hinputOf : inputOf leg = n := by rw [inputOf, hn]; rfl
  omega

/-! ## The bound on candidates -/

/-- The text of a layer with too many paths. -/
def candidateBound : String := "sell candidate bound"

theorem refuse_ne_candidateBound {bad : Prop} [Decidable bad] {message : String}
    (h : message ≠ candidateBound) : refuse bad message ≠ .error candidateBound := by
  unfold refuse
  split
  · exact fun hend => h (Except.error.inj hend)
  · exact fun hend => by cases hend

theorem present_ne_candidateBound {α : Type} {x : Option α} {message : String}
    (h : message ≠ candidateBound) : present x message ≠ .error candidateBound := by
  cases x
  · exact fun hend => h (Except.error.inj hend)
  · exact fun hend => by cases hend

theorem addedTo_ne_candidateBound {a b : ℕ} {message : String} (h : message ≠ candidateBound) :
    addedTo a b message ≠ .error candidateBound := by
  unfold addedTo bounded
  split
  · exact fun hend => by cases hend
  · exact fun hend => h (Except.error.inj hend)

theorem extendPath_ne_candidateBound {stage amount : ℕ} {path : List SellStage}
    (next : List (List SellStage)) (option : ℕ × List Value) :
    extendPath count stage amount path next option ≠ .error candidateBound := by
  unfold extendPath
  split
  · exact fun hend => by cases hend
  · refine bind_ne_error (foldlM_ne_error (fun t leg => ?_) _ _) fun t =>
      bind_ne_error (refuse_ne_candidateBound (by decide)) fun _ hend => by cases hend
    unfold LegTally.add
    exact bind_ne_error (present_ne_candidateBound (by decide)) fun _ =>
      bind_ne_error (present_ne_candidateBound (by decide)) fun _ =>
      bind_ne_error (present_ne_candidateBound (by decide)) fun _ =>
      bind_ne_error (refuse_ne_candidateBound (by decide)) fun _ =>
      bind_ne_error (addedTo_ne_candidateBound (by decide)) fun _ =>
      bind_ne_error (addedTo_ne_candidateBound (by decide)) fun _ hend => by cases hend

theorem visit_ne_candidateBound {path : List SellStage}
    (hcapacity : CapacityOnly quote stage (amountAt input path)) (s : StageSearch) :
    s.visit quote count stage input path ≠ .error candidateBound := by
  unfold StageSearch.visit
  refine bind_ne_error ?_ fun s' => ?_
  · unfold StageSearch.ask
    split
    · exact fun hend => by cases hend
    · split
      · exact bind_ne_error (addedTo_ne_candidateBound (by decide)) fun _ =>
          bind_ne_error (addedTo_ne_candidateBound (by decide)) fun _ hend => by cases hend
      · rename_i e he
        rw [if_pos (hcapacity e he)]
        exact fun hend => by cases hend
  · split
    · exact fun hend => by cases hend
    · exact bind_ne_error (foldlM_ne_error extendPath_ne_candidateBound _ _) fun _ hend => by cases hend

/-- The bound on candidates is never met. -/
theorem chooseSell_ne_candidateBound (hcount : 1 ≤ count ∧ count ≤ 3) (hwell : ConservingQuotes quote)
    (hfail : ReachesCapacityOnly quote count input) :
    chooseSell quote count input ≠ .error candidateBound := by
  unfold chooseSell
  by_cases hbound : ¬(1 ≤ count ∧ count ≤ 3) ∨ input = 0 ∨ maxAtoms < input
  · rw [refuse, if_pos hbound]
    exact fun hend => absurd (Except.error.inj hend) (by decide)
  rw [refuse_of_not hbound, ok_bind]
  have hinput : input ≤ maxAtoms := Nat.not_lt.mp fun hlt => hbound (.inr (.inr hlt))
  refine bind_ne_error (foldlM_range_ne_error (fun k hk s => (foldlM_stage_eq_ok hcount.2 hwell hinput
    hk.le).mp) fun k hk h => ?_) fun s => bind_ne_error (present_ne_candidateBound (by decide))
      fun _ hend => by cases hend
  unfold SellSearch.stage
  have hvisits : ∀ s, (keptPaths quote count input k).foldlM (StageSearch.visit quote count k input) s ≠
      .error candidateBound :=
    foldlM_ne_error_of_mem fun path hpath =>
      visit_ne_candidateBound (hfail k hk path ((mem_keptPaths hcount.2 hk.le).mp hpath))
  cases hfold : (searched quote count input k).frontier.foldlM (StageSearch.visit quote count k input)
      ⟨fun _ => none, (searched quote count input k).oracleCalls,
        (searched quote count input k).nativeEvaluations, []⟩ with
  | error e =>
    intro hend
    cases hend
    exact hvisits _ hfold
  | ok done =>
    obtain ⟨-, rfl⟩ := (searched_visit_eq_ok hcount.2 hwell hinput hk h).mp hfold
    rw [ok_bind]
    refine bind_ne_error (refuse_ne_candidateBound (by decide)) fun _ => bind_ne_error ?_ fun _ hend => by
      cases hend
    intro hend
    have hbounded := @refuse_of_not _ _ "sell candidate bound"
      (Nat.not_lt.mpr (@length_keptPaths_succ_le quote count input hcount.2 k hk))
    cases hbounded.symm.trans hend

/-! ## The best chain -/

/-- For conserving quotes of one to three stages, with a chain to find and no failure among the quotes
reached but for capacity, the search ends with a best chain exactly if it gets through. The bound on
candidates is never met. -/
theorem sell_route_best_iff (hcount : 1 ≤ count ∧ count ≤ 3) (hwell : ConservingQuotes quote)
    (hchain : ∃ chain, AdmissibleSell quote count input chain)
    (hfail : ReachesCapacityOnly quote count input) :
    ((∃ route, chooseSell quote count input = .ok route ∧ BestSell quote count input route.stages) ↔
      SearchesThrough quote count input) ∧
    chooseSell quote count input ≠ .error "sell candidate bound" := by
  have hpos : 0 < input := by
    obtain ⟨chain, hchain⟩ := hchain
    exact hchain.input_pos hcount.1 hwell
  refine ⟨?_, chooseSell_ne_candidateBound hcount hwell hfail⟩
  rw [← searchedWell_iff hcount hchain hfail]
  constructor
  · rintro ⟨route, hroute, -⟩
    obtain ⟨hinput, hsearched, -⟩ := (chooseSell_eq_ok hcount hwell hpos).mp hroute
    exact ⟨hinput, hsearched⟩
  · rintro ⟨hinput, hsearched⟩
    obtain ⟨chain, hchain⟩ := hchain
    have hmem := List.mem_reverse.mpr ((mem_keptPaths_count hcount.2).mpr hchain)
    -- the layer is not empty
    cases hargmax : (keptPaths quote count input count).reverse.argmax merit with
    | none => exact absurd (List.argmax_eq_none.mp hargmax) (List.ne_nil_of_mem hmem)
    | some stages =>
      exact ⟨⟨stages, _, _⟩, (chooseSell_eq_ok hcount hwell hpos).mpr ⟨hinput, hsearched, hargmax, rfl, rfl⟩,
        bestSell_of_argmax hcount.2 hargmax⟩

/-! ## Quotes from a table -/

/-- A leg. -/
def legOf (pool : String) (spent produced : ℕ) : Value :=
  .object [("pool", .string pool), ("inputAtoms", .number (.natural spent)),
    ("outputAtoms", .number (.natural produced))]

/-- An entry with one leg, with alternatives. -/
def singleLeg (pool : String) (spent produced : ℕ) (alternatives : List Value) : Value :=
  .object [("outputAtoms", .number (.natural produced)), ("legs", .array [legOf pool spent produced]),
    ("alternatives", .array alternatives)]

theorem legOf_conserving {pool : String} {spent produced : ℕ} (hpool : pool ≠ "") (hspent : 0 < spent)
    (hproduced : 0 < produced) (hbound : produced < u64Size) :
    Conserving spent (produced, [legOf pool spent produced]) where
  pool := by simpa using ⟨pool, rfl, hpool⟩
  input := by simpa using ⟨spent, rfl, hspent⟩
  output := by simpa using ⟨produced, rfl, hproduced⟩
  spent := rfl
  produced := rfl
  bounded := hbound

/-- Quotes that are there for some amounts only. -/
def tableQuote (rows : List ((ℕ × ℕ) × Value)) : StageQuote :=
  fun stage amount => present (rows.lookup (stage, amount)) capacityError

theorem tableQuote_capacityOnly (rows : List ((ℕ × ℕ) × Value)) :
    ReachesCapacityOnly (tableQuote rows) count input := by
  intro k _ path _ e he
  unfold tableQuote present at he
  split at he
  · cases he
  · exact (Except.error.inj he).symm

/-- A table is conserving if its rows are. -/
theorem tableQuote_conserving {rows : List ((ℕ × ℕ) × Value)}
    (h : ∀ row ∈ rows, ∀ option ∈ proposalOptions row.2, Conserving row.1.2 option) :
    ConservingQuotes (tableQuote rows) := by
  intro stage amount option hoption
  rw [optionsAt, answerAt, tableQuote] at hoption
  cases hrow : rows.lookup (stage, amount) with
  | none =>
    rw [hrow] at hoption
    cases hoption
  | some proposal =>
    have hmem : ((stage, amount), proposal) ∈ rows := by
      obtain ⟨before, after, rfl, -⟩ := List.lookup_eq_some_iff.mp hrow
      simp
    rw [hrow] at hoption
    refine h _ hmem option ?_
    cases hexhausted : budgetExhausted proposal <;> simp [present, hexhausted] at hoption
    exact hoption

/-- Two paths through two stages. The pool of the second stage of the first path is given. -/
def forkQuote (pool : String) : StageQuote := tableQuote
  [((0, 100), singleLeg "a" 100 120 [singleLeg "b" 100 110 []]), ((1, 120), singleLeg pool 120 130 []),
    ((1, 110), singleLeg "c" 110 109 [])]

theorem forkQuote_conserving {pool : String} (hpool : pool ≠ "") : ConservingQuotes (forkQuote pool) := by
  refine tableQuote_conserving fun row hrow option hoption => ?_
  simp only [List.mem_cons, List.not_mem_nil, or_false] at hrow
  rcases hrow with rfl | rfl | rfl
  · have hmem : option ∈ [(120, [legOf "a" 100 120]), (110, [legOf "b" 100 110])] := hoption
    simp only [List.mem_cons, List.not_mem_nil, or_false] at hmem
    rcases hmem with rfl | rfl
    · exact legOf_conserving (by decide) (by decide) (by decide) (by decide)
    · exact legOf_conserving (by decide) (by decide) (by decide) (by decide)
  · obtain rfl : option = (130, [legOf pool 120 130]) := List.mem_singleton.mp hoption
    exact legOf_conserving hpool (Nat.zero_lt_succ 119) (by decide) (by decide)
  · obtain rfl : option = (109, [legOf "c" 110 109]) := List.mem_singleton.mp hoption
    exact legOf_conserving (by decide) (by decide) (by decide) (by decide)

theorem exists_admissible (hcount : count ≤ 3) (h : (keptPaths quote count input count).isEmpty = false) :
    ∃ chain, AdmissibleSell quote count input chain := by
  obtain ⟨chain, hchain⟩ := List.exists_mem_of_ne_nil _ (List.isEmpty_eq_false_iff.mp h)
  exact ⟨chain, (mem_keptPaths_count hcount).mp hchain⟩

/-- A search whose paths meet no pool twice. -/
theorem sell_route_best_fork : ∃ route, chooseSell (forkQuote "d") 2 100 = .ok route ∧
    BestSell (forkQuote "d") 2 100 route.stages := by
  have hkept : ∀ k < 2, ∀ path ∈ keptPaths (forkQuote "d") 2 100 k,
      NoRepeat 2 k path (optionsAt (forkQuote "d") k (amountAt 100 path)) := by decide
  refine (sell_route_best_iff (by decide) (forkQuote_conserving (by decide))
    (exists_admissible (by decide) (by decide)) (tableQuote_capacityOnly _)).1.mpr ?_
  exact ⟨by decide, fun k hk path hpath => hkept k hk path ((mem_keptPaths (by decide) hk.le).mpr hpath),
    by decide, by decide⟩

/-- The first path meets its own pool again, and the search ends although the second path is complete. -/
theorem sell_route_repeated_pool : ConservingQuotes (forkQuote "a") ∧
    (∃ chain, AdmissibleSell (forkQuote "a") 2 100 chain) ∧ ReachesCapacityOnly (forkQuote "a") 2 100 ∧
    ¬∃ route, chooseSell (forkQuote "a") 2 100 = .ok route ∧
      BestSell (forkQuote "a") 2 100 route.stages := by
  refine ⟨forkQuote_conserving (by decide), exists_admissible (by decide) (by decide),
    tableQuote_capacityOnly _, ?_⟩
  rintro ⟨route, hroute, -⟩
  have herror : (chooseSell (forkQuote "a") 2 100).isOk = false := by decide
  rw [hroute] at herror
  cases herror

end StockMesh.Host

import StockMesh.Foundation.Coverage
import StockMesh.Host.Fair
import Mathlib.Algebra.Order.Field.Rat
import Mathlib.Tactic.Linarith

/-! # The band of `consensus`

`consensus` looks at the endpoints and the gaps between them only. Over all rational prices that is
enough: the prices that a quorum supports are one interval exactly when the scan of the endpoints does
not fail, and then the scan has found it (`scan_sound`). -/

namespace StockMesh.Host.Fair

open Coverage

/-- The prices that a quorum supports. -/
def supported (xs : List Interval) (quorum : ℕ) : Set ℚ :=
  region (fun x : Interval => (x.low : ℚ)) (fun x => (x.high : ℚ)) xs quorum

/-- The checks of `consensus` on its arguments. -/
structure Eligible (xs : List Interval) (faults maxWidthBps : ℕ) : Prop where
  three_le : 3 ≤ xs.length
  length_le : xs.length ≤ maxGroups
  faults_pos : 0 < faults
  faults_lt : 2 * faults < xs.length
  width_pos : 0 < maxWidthBps
  width_le : maxWidthBps ≤ 2000
  positive : ∀ x ∈ xs, 0 < x.low ∧ x.low ≤ x.high
  distinct : (xs.map Interval.group).Nodup

section Scan

variable {xs : List Interval} {quorum p r : ℕ} {q : ℚ}

/-- The counts of the code are counts over the rationals. -/
theorem through_eq_across (xs : List Interval) (p r : ℕ) :
    through xs p r =
      across (fun x : Interval => (x.low : ℚ)) (fun x => (x.high : ℚ)) xs (p : ℚ) (r : ℚ) := by
  unfold through across
  simp only [Nat.cast_le]

theorem mem_supported_cast : (p : ℚ) ∈ supported xs quorum ↔ quorum ≤ through xs p p := by
  rw [supported, mem_region, ← across_self, through_eq_across]

/-- What supports a gap supports its points, the endpoints included. -/
theorem mem_supported_of_through (h : quorum ≤ through xs p r) (hp : (p : ℚ) ≤ q)
    (hr : q ≤ (r : ℚ)) : q ∈ supported xs quorum := by
  rw [through_eq_across] at h
  exact h.trans (across_le_count hp hr)

/-- `p` and `r` are neighbouring endpoints. -/
def Neighbours (xs : List Interval) (p r : ℕ) : Prop :=
  ∀ x ∈ xs, (x.low ≤ p ∨ r ≤ x.low) ∧ (x.high ≤ p ∨ r ≤ x.high)

/-- Between neighbouring endpoints the support is that of the gap. -/
theorem mem_supported_of_between (hgap : Neighbours xs p r) (hp : (p : ℚ) < q) (hr : q < (r : ℚ)) :
    q ∈ supported xs quorum ↔ quorum ≤ through xs p r := by
  have hcount : Coverage.count (fun x : Interval => (x.low : ℚ)) (fun x : Interval => (x.high : ℚ)) xs q
      = Coverage.across (fun x : Interval => (x.low : ℚ)) (fun x : Interval => (x.high : ℚ)) xs p r :=
    count_eq_across (fun x hx => by simpa only [Nat.cast_le] using hgap x hx) hp hr
  rw [supported, mem_region, hcount, through_eq_across]

/-- What the scan knows of the prices it has seen, up to `p`: none is supported; or all from the first
supported one on are; or the supported ones have ended at `high`. -/
inductive Scanned (xs : List Interval) (quorum : ℕ) (seen : Set ℚ) (p : ℕ) (inner : ℕ → Prop) :
    Scan → Prop
  | before (high : ℕ) (h : ∀ q ∈ seen, q ∉ supported xs quorum) :
      Scanned xs quorum seen p inner ⟨none, high, false⟩
  | inside (low high : ℕ) (hle : low ≤ high) (hlow : (low : ℚ) ∈ supported xs quorum)
      (h : ∀ q ∈ seen, q ∈ supported xs quorum ↔ (low : ℚ) ≤ q) (hinner : inner high) :
      Scanned xs quorum seen p inner ⟨some low, high, false⟩
  | after (low high : ℕ) (hle : low ≤ high) (hlow : (low : ℚ) ∈ supported xs quorum)
      (h : ∀ q ∈ seen, q ∈ supported xs quorum ↔ (low : ℚ) ≤ q ∧ q ≤ high)
      (u : ℚ) (hu : (high : ℚ) < u) (hup : u ≤ p) (hnot : u ∉ supported xs quorum) :
      Scanned xs quorum seen p inner ⟨some low, high, true⟩

/-- Before endpoint `p`. While inside, the endpoint itself is supported. -/
abbrev Until (xs : List Interval) (quorum p : ℕ) : Scan → Prop :=
  Scanned xs quorum (Set.Iio p) p fun high => high ≤ p ∧ (p : ℚ) ∈ supported xs quorum

/-- After endpoint `p`. While inside, the band reaches it. -/
abbrev Through (xs : List Interval) (quorum p : ℕ) : Scan → Prop :=
  Scanned xs quorum (Set.Iic p) p fun high => high = p

/-- The supported prices have a gap. -/
def Split (xs : List Interval) (quorum : ℕ) : Prop :=
  ∃ a ∈ supported xs quorum, ∃ b ∈ supported xs quorum, ∃ u, a < u ∧ u < b ∧
    u ∉ supported xs quorum

/-- The scan looks at one endpoint: it goes on, or it has found a gap. -/
theorem cover_spec {s : Scan} (hs : Until xs quorum p s) :
    (∃ s', s.cover (quorum ≤ through xs p p) p = .ok s' ∧ Through xs quorum p s') ∨
      (∃ e, s.cover (quorum ≤ through xs p p) p = .error e) ∧ Split xs quorum := by
  unfold Scan.cover
  by_cases hcovered : quorum ≤ through xs p p
  · have hp : (p : ℚ) ∈ supported xs quorum := mem_supported_cast.mpr hcovered
    rw [if_pos hcovered]
    cases hs with
    | before high h =>
      left
      refine ⟨_, rfl, .inside p p le_rfl hp (fun q hq => ?_) rfl⟩
      rcases lt_or_eq_of_le (Set.mem_Iic.mp hq) with hlt | rfl
      · exact iff_of_false (h q hlt) (not_le.mpr hlt)
      · exact iff_of_true hp le_rfl
    | inside low high hle hlow h hinner =>
      left
      refine ⟨_, rfl, .inside low p (hle.trans hinner.1) hlow (fun q hq => ?_) rfl⟩
      rcases lt_or_eq_of_le (Set.mem_Iic.mp hq) with hlt | rfl
      · exact h q hlt
      · exact iff_of_true hp (by exact_mod_cast hle.trans hinner.1)
    | after low high hle hlow h u hu hup hnot =>
      right
      have hlowu : (low : ℚ) < u := lt_of_le_of_lt (by exact_mod_cast hle) hu
      refine ⟨⟨_, rfl⟩, low, hlow, p, hp, u, hlowu, lt_of_le_of_ne hup ?_, hnot⟩
      rintro rfl
      exact hnot hp
  · have hp : (p : ℚ) ∉ supported xs quorum := fun h => hcovered (mem_supported_cast.mp h)
    rw [if_neg hcovered]
    left
    cases hs with
    | before high h =>
      refine ⟨_, rfl, .before high fun q hq => ?_⟩
      rcases lt_or_eq_of_le (Set.mem_Iic.mp hq) with hlt | rfl
      · exact h q hlt
      · exact hp
    | inside low high hle hlow h hinner => exact absurd hinner.2 hp
    | after low high hle hlow h u hu hup hnot =>
      refine ⟨_, rfl, .after low high hle hlow (fun q hq => ?_) u hu hup hnot⟩
      rcases lt_or_eq_of_le (Set.mem_Iic.mp hq) with hlt | rfl
      · exact h q hlt
      · exact iff_of_false hp fun hin => absurd (hu.trans_le hup) (not_lt.mpr hin.2)

/-- Seen prices of a gap are before it or between its ends. -/
theorem seen_cases (hq : q < (r : ℚ)) : q ≤ (p : ℚ) ∨ ((p : ℚ) < q ∧ q < (r : ℚ)) :=
  (le_or_gt q p).imp_right fun hp => ⟨hp, hq⟩

/-- The scan passes on to the next endpoint. -/
theorem gap_spec {s : Scan} (hs : Through xs quorum p s) (hpr : p ≤ r)
    (hgap : Neighbours xs p r) : Until xs quorum r (s.gap xs quorum p (some r)) := by
  have hcast : (p : ℚ) ≤ (r : ℚ) := by exact_mod_cast hpr
  -- an unsupported left end leaves the gap unsupported
  have hclosed : ∀ q : ℚ, (p : ℚ) < q → q < r → q ∈ supported xs quorum →
      (p : ℚ) ∈ supported xs quorum := fun q hp hr hq =>
    mem_supported_of_through ((mem_supported_of_between hgap hp hr).mp hq) le_rfl hcast
  unfold Scan.gap
  cases hs with
  | before high h =>
    have hflag : (false || (decide (p < r) && (none : Option ℕ).isSome &&
        decide (through xs p r < quorum))) = false := by
      simp
    show Scanned xs quorum _ r _ ⟨none, high, _⟩
    rw [hflag]
    refine .before high fun q hq hin => ?_
    rcases seen_cases (p := p) hq with hle | ⟨hp, hr⟩
    · exact h q hle hin
    · exact h p (Set.mem_Iic.mpr le_rfl) (hclosed q hp hr hin)
  | after low high hle hlow h u hu hup hnot =>
    refine .after low high hle hlow (fun q hq => ?_) u hu (hup.trans hcast) hnot
    rcases seen_cases (p := p) hq with hqp | ⟨hp, hr⟩
    · exact h q hqp
    · have hhigh : (high : ℚ) < p := hu.trans_le hup
      refine iff_of_false (fun hin => ?_) fun hin => absurd (hhigh.trans hp) (not_lt.mpr hin.2)
      exact absurd hhigh (not_lt.mpr ((h p (Set.mem_Iic.mpr le_rfl)).mp (hclosed q hp hr hin)).2)
  | inside low high hle hlow h hinner =>
    subst hinner
    have hlowp : (low : ℚ) ≤ high := by exact_mod_cast hle
    have hp : (high : ℚ) ∈ supported xs quorum := (h high (Set.mem_Iic.mpr le_rfl)).mpr hlowp
    by_cases hthrough : quorum ≤ through xs high r
    · have hflag : (false || (decide (high < r) && (some low).isSome &&
          decide (through xs high r < quorum))) = false := by
        simp [hthrough]
      show Scanned xs quorum _ r _ ⟨some low, high, _⟩
      rw [hflag]
      refine .inside low high hle hlow (fun q hq => ?_)
        ⟨hpr, mem_supported_of_through hthrough hcast le_rfl⟩
      rcases seen_cases (p := high) hq with hqp | ⟨hq', hr⟩
      · exact h q hqp
      · exact iff_of_true (mem_supported_of_through hthrough hq'.le hr.le) (hlowp.trans hq'.le)
    · have hlt : high < r := by
        refine lt_of_le_of_ne hpr ?_
        rintro rfl
        exact hthrough (mem_supported_cast.mp hp)
      have hltq : (high : ℚ) < r := by exact_mod_cast hlt
      have hflag : (false || (decide (high < r) && (some low).isSome &&
          decide (through xs high r < quorum))) = true := by
        simp [hlt, not_le.mp hthrough]
      show Scanned xs quorum _ r _ ⟨some low, high, _⟩
      rw [hflag]
      -- the middle of the gap is a witness
      have hmid : (high : ℚ) < (high + r) / 2 ∧ ((high : ℚ) + r) / 2 < r := by
        constructor <;> linarith
      refine .after low high hle hlow (fun q hq => ?_) ((high + r) / 2) hmid.1 hmid.2.le ?_
      · rcases seen_cases (p := high) hq with hqp | ⟨hq', hr⟩
        · rw [h q hqp]
          exact ⟨fun hlowq => ⟨hlowq, hqp⟩, And.left⟩
        · refine iff_of_false (fun hin => ?_) fun hin => absurd hq' (not_lt.mpr hin.2)
          exact hthrough ((mem_supported_of_between hgap hq' hr).mp hin)
      · exact fun hin => hthrough ((mem_supported_of_between hgap hmid.1 hmid.2).mp hin)

/-- What the scan finds: nothing, or one interval. -/
def Found (xs : List Interval) (quorum : ℕ) (s : Scan) : Prop :=
  match s.low with
  | none => supported xs quorum = ∅
  | some low => low ≤ s.high ∧ supported xs quorum = Set.Icc (low : ℚ) s.high

/-- After the last endpoint. -/
theorem found_of_through {s : Scan} (hs : Through xs quorum p s) (hquorum : 0 < quorum)
    (hlast : ∀ x ∈ xs, x.high ≤ p) : Found xs quorum s := by
  have habove : ∀ q : ℚ, (p : ℚ) < q → q ∉ supported xs quorum := by
    intro q hq hin
    have hzero : count (fun x : Interval => (x.low : ℚ)) (fun x => (x.high : ℚ)) xs q = 0 :=
      count_eq_zero_of_above fun x hx => lt_of_le_of_lt (by exact_mod_cast hlast x hx) hq
    rw [supported, mem_region, hzero] at hin
    omega
  cases hs with
  | before high h =>
    show supported xs quorum = ∅
    ext q
    rw [Set.mem_empty_iff_false, iff_false]
    rcases le_or_gt q (p : ℚ) with hq | hq
    · exact h q hq
    · exact habove q hq
  | inside low high hle hlow h hinner =>
    subst hinner
    refine ⟨hle, ?_⟩
    ext q
    rcases le_or_gt q (high : ℚ) with hq | hq
    · rw [h q hq, Set.mem_Icc]
      exact ⟨fun hlowq => ⟨hlowq, hq⟩, And.left⟩
    · exact iff_of_false (habove q hq) fun hin => absurd hq (not_lt.mpr hin.2)
  | after low high hle hlow h u hu hup hnot =>
    refine ⟨hle, ?_⟩
    ext q
    rcases le_or_gt q (p : ℚ) with hq | hq
    · exact h q hq
    · exact iff_of_false (habove q hq) fun hin =>
        absurd ((hu.trans_le hup).trans hq) (not_lt.mpr hin.2)

/-- The scan of the endpoints from `p` on, when every endpoint below `p` was seen. -/
theorem scan_spec {rest : List ℕ} {s : Scan} (hquorum : 0 < quorum)
    (hsorted : (p :: rest).Pairwise (· ≤ ·))
    (hends : ∀ x ∈ xs, (x.low < p ∨ x.low ∈ p :: rest) ∧ (x.high < p ∨ x.high ∈ p :: rest))
    (hs : Until xs quorum p s) :
    (∃ s', scan xs quorum (p :: rest) s = .ok s' ∧ Found xs quorum s') ∨
      (∃ e, scan xs quorum (p :: rest) s = .error e) ∧ Split xs quorum := by
  induction rest generalizing p s with
  | nil =>
    rcases cover_spec hs with ⟨s', hcover, hthrough⟩ | ⟨⟨e, hcover⟩, hsplit⟩
    · refine .inl ⟨s', ?_, found_of_through hthrough hquorum fun x hx => ?_⟩
      · rw [scan, hcover]
        rfl
      · rcases (hends x hx).2 with h | h
        · exact h.le
        · exact (List.mem_singleton.mp h).le
    · refine .inr ⟨⟨e, ?_⟩, hsplit⟩
      rw [scan, hcover]
      rfl
  | cons r rest ih =>
    obtain ⟨hmin, hsorted'⟩ := List.pairwise_cons.mp hsorted
    have hpr := hmin r List.mem_cons_self
    have hrest := (List.pairwise_cons.mp hsorted').1
    -- an endpoint that is not below `p` is `p` or not below `r`
    have hnext : ∀ e, e < p ∨ e ∈ p :: r :: rest → e ≤ p ∨ r ≤ e := by
      rintro e (h | h)
      · exact .inl h.le
      · rcases List.mem_cons.mp h with rfl | h
        · exact .inl le_rfl
        · rcases List.mem_cons.mp h with rfl | h
          · exact .inr le_rfl
          · exact .inr (hrest e h)
    have hlater : ∀ e, e < p ∨ e ∈ p :: r :: rest → e < r ∨ e ∈ r :: rest := by
      rintro e (h | h)
      · exact .inl (h.trans_le hpr)
      · rcases List.mem_cons.mp h with rfl | h
        · rcases hpr.lt_or_eq with hlt | rfl
          · exact .inl hlt
          · exact .inr List.mem_cons_self
        · exact .inr h
    rcases cover_spec hs with ⟨s', hcover, hthrough⟩ | ⟨⟨e, hcover⟩, hsplit⟩
    · have hgap : Neighbours xs p r := fun x hx =>
        ⟨hnext _ (hends x hx).1, hnext _ (hends x hx).2⟩
      have hnext' := ih hsorted' (fun x hx => ⟨hlater _ (hends x hx).1, hlater _ (hends x hx).2⟩)
        (gap_spec hthrough hpr hgap)
      rw [scan, hcover]
      exact hnext'
    · refine .inr ⟨⟨e, ?_⟩, hsplit⟩
      rw [scan, hcover]
      rfl

end Scan

/-! ## The whole call -/

section Consensus

variable {xs : List Interval} {faults maxWidthBps : ℕ}

/-- The first loop accepts positive intervals of distinct groups and lists their endpoints. -/
theorem foldlM_collect_eq_ok {groups points : List ℕ} {out : List ℕ × List ℕ} :
    xs.foldlM collect (groups, points) = .ok out ↔
      (∀ x ∈ xs, 0 < x.low ∧ x.low ≤ x.high) ∧ (xs.map Interval.group).Nodup ∧
        (∀ x ∈ xs, x.group ∉ groups) ∧
        out = ((xs.map Interval.group).reverse ++ groups,
          points ++ xs.flatMap fun x => [x.low, x.high]) := by
  induction xs generalizing groups points with
  | nil =>
    constructor
    · rintro ⟨⟩
      simp
    · rintro ⟨-, -, -, rfl⟩
      simp only [List.foldlM_nil, List.map_nil, List.reverse_nil, List.nil_append, List.flatMap_nil,
        List.append_nil]
      rfl
  | cons x xs ih =>
    rw [List.foldlM_cons, bind_eq_ok]
    constructor
    · rintro ⟨state, hstep, hrest⟩
      unfold collect at hstep
      obtain ⟨_, hcheck, hstate⟩ := bind_eq_ok.mp hstep
      rw [rejectIf_eq_ok, not_or, not_or, not_lt] at hcheck
      obtain ⟨hlow, hhigh, hgroup⟩ := hcheck
      cases hstate
      obtain ⟨hpos, hnodup, hfresh, rfl⟩ := ih.mp hrest
      refine ⟨?_, ?_, ?_, ?_⟩
      · rw [List.forall_mem_cons]
        exact ⟨⟨Nat.pos_of_ne_zero hlow, hhigh⟩, hpos⟩
      · rw [List.map_cons, List.nodup_cons]
        refine ⟨fun hmem => ?_, hnodup⟩
        obtain ⟨y, hy, heq⟩ := List.mem_map.mp hmem
        exact hfresh y hy (heq ▸ List.mem_cons_self)
      · rw [List.forall_mem_cons]
        exact ⟨hgroup, fun y hy hmem => hfresh y hy (List.mem_cons_of_mem _ hmem)⟩
      · simp
    · rintro ⟨hpos, hnodup, hfresh, rfl⟩
      rw [List.forall_mem_cons] at hpos hfresh
      rw [List.map_cons, List.nodup_cons] at hnodup
      refine ⟨(x.group :: groups, points ++ [x.low, x.high]), ?_, ih.mpr ⟨hpos.2, hnodup.2, ?_, ?_⟩⟩
      · refine bind_eq_ok.mpr ⟨(), rejectIf_eq_ok.mpr ?_, rfl⟩
        rw [not_or, not_or, not_lt]
        exact ⟨hpos.1.1.ne', hpos.1.2, hfresh.1⟩
      · intro y hy hmem
        rcases List.mem_cons.mp hmem with heq | hmem
        · exact hnodup.1 (heq ▸ List.mem_map_of_mem hy)
        · exact hfresh.2 y hy hmem
      · simp

/-- The endpoints in order. -/
def endpoints (xs : List Interval) : List ℕ :=
  (xs.flatMap fun x => [x.low, x.high]).insertionSort (· ≤ ·)

theorem mem_endpoints {e : ℕ} : e ∈ endpoints xs ↔ ∃ x ∈ xs, e = x.low ∨ e = x.high := by
  rw [endpoints, List.mem_insertionSort, List.mem_flatMap]
  simp

/-- `consensus` step by step. -/
theorem consensus_eq_ok {band : Band} : consensus xs faults maxWidthBps = .ok band ↔
    Eligible xs faults maxWidthBps ∧ ∃ s low, scan xs (xs.length - faults) (endpoints xs) {} = .ok s ∧
      s.low = some low ∧ (s.high - low) * 10000 ≤ low * maxWidthBps ∧
      band = ⟨low, s.high, xs.length, xs.length - faults⟩ := by
  unfold consensus
  dsimp only
  rw [bind_eq_ok]
  constructor
  · rintro ⟨_, hbounds, h⟩
    rw [rejectIf_eq_ok] at hbounds
    obtain ⟨⟨groups, points⟩, hcollect, h⟩ := bind_eq_ok.mp h
    obtain ⟨hpos, hnodup, -, hout⟩ := foldlM_collect_eq_ok.mp hcollect
    cases hout
    obtain ⟨s, hscan, h⟩ := bind_eq_ok.mp h
    obtain ⟨low, hlow, h⟩ := bind_eq_ok.mp h
    obtain ⟨_, hwidth, h⟩ := bind_eq_ok.mp h
    rw [rejectIf_eq_ok, not_lt] at hwidth
    cases h
    exact ⟨⟨by omega, by omega, by omega, by omega, by omega, by omega, hpos, hnodup⟩, s, low,
      hscan, okOr_eq_ok.mp hlow, hwidth, rfl⟩
  · rintro ⟨heligible, s, low, hscan, hlow, hwidth, rfl⟩
    have hlen := heligible.three_le
    have hlen' := heligible.length_le
    have hfaults := heligible.faults_pos
    have hlt := heligible.faults_lt
    have hpos := heligible.width_pos
    have hle := heligible.width_le
    refine ⟨(), rejectIf_eq_ok.mpr (by omega), ?_⟩
    refine bind_eq_ok.mpr ⟨_, foldlM_collect_eq_ok.mpr ⟨heligible.positive, heligible.distinct,
      by simp, rfl⟩, ?_⟩
    refine bind_eq_ok.mpr ⟨s, hscan, ?_⟩
    refine bind_eq_ok.mpr ⟨low, okOr_eq_ok.mpr hlow, ?_⟩
    exact bind_eq_ok.mpr ⟨(), rejectIf_eq_ok.mpr (not_lt.mpr hwidth), rfl⟩

/-- The scan of all endpoints finds the supported prices, or they have a gap. -/
theorem scan_endpoints (h : Eligible xs faults maxWidthBps) :
    (∃ s, scan xs (xs.length - faults) (endpoints xs) {} = .ok s ∧ Found xs (xs.length - faults) s) ∨
      (∃ e, scan xs (xs.length - faults) (endpoints xs) {} = .error e) ∧
        Split xs (xs.length - faults) := by
  have hlen := h.three_le
  have hlt := h.faults_lt
  have hsorted : (endpoints xs).Pairwise (· ≤ ·) := List.pairwise_insertionSort _ _
  have hends : ∀ x ∈ xs, x.low ∈ endpoints xs ∧ x.high ∈ endpoints xs := fun x hx =>
    ⟨mem_endpoints.mpr ⟨x, hx, .inl rfl⟩, mem_endpoints.mpr ⟨x, hx, .inr rfl⟩⟩
  obtain ⟨x, hx⟩ := List.exists_mem_of_length_pos (show 0 < xs.length by omega)
  generalize endpoints xs = points at hsorted hends
  cases points with
  | nil => exact absurd (hends x hx).1 List.not_mem_nil
  | cons p rest =>
    refine scan_spec (by omega) hsorted (fun x hx => ⟨.inr (hends x hx).1, .inr (hends x hx).2⟩) ?_
    refine .before 0 fun q hq hin => ?_
    -- no interval reaches below the first endpoint
    have hzero : count (fun x : Interval => (x.low : ℚ)) (fun x => (x.high : ℚ)) xs q = 0 := by
      apply count_eq_zero_of_below
      intro y hy
      have hmin : p ≤ y.low := by
        rcases List.mem_cons.mp (hends y hy).1 with heq | hmem
        · exact heq.ge
        · exact (List.pairwise_cons.mp hsorted).1 _ hmem
      exact lt_of_lt_of_le hq (by exact_mod_cast hmin)
    rw [supported, mem_region, hzero] at hin
    omega

/-- No two supported prices are further apart than the width allows. -/
def Narrow (R : Set ℚ) (maxWidthBps : ℕ) : Prop :=
  ∀ a ∈ R, ∀ b ∈ R, (b - a) * 10000 ≤ a * maxWidthBps

theorem narrow_Icc_iff {low high : ℕ} (hle : low ≤ high) :
    Narrow (Set.Icc (low : ℚ) high) maxWidthBps ↔ (high - low) * 10000 ≤ low * maxWidthBps := by
  have hcast : ((high - low : ℕ) : ℚ) = (high : ℚ) - low := Nat.cast_sub hle
  have hleq : (low : ℚ) ≤ high := by exact_mod_cast hle
  constructor
  · intro h
    have hends := h low ⟨le_rfl, hleq⟩ high ⟨hleq, le_rfl⟩
    rw [← hcast] at hends
    exact_mod_cast hends
  · intro h a ha b hb
    have hends : ((high : ℚ) - low) * 10000 ≤ low * maxWidthBps := by
      rw [← hcast]
      exact_mod_cast h
    calc (b - a) * 10000 ≤ ((high : ℚ) - low) * 10000 := by linarith [ha.1, hb.2]
      _ ≤ low * maxWidthBps := hends
      _ ≤ a * maxWidthBps := mul_le_mul_of_nonneg_right ha.1 (Nat.cast_nonneg _)

/-- `consensus` returns a band exactly when it is eligible to and the prices supported by all but the
faulty groups are a nonempty interval that is narrow enough. The band is that interval; each of its
prices is held by an honest group whichever groups are faulty, and it holds every price on which the
honest groups agree. -/
theorem consensus_iff (xs : List Interval) (faults maxWidthBps : ℕ) :
    ((∃ band, consensus xs faults maxWidthBps = .ok band) ↔
      Eligible xs faults maxWidthBps ∧ (supported xs (xs.length - faults)).Nonempty ∧
        (supported xs (xs.length - faults)).OrdConnected ∧
        Narrow (supported xs (xs.length - faults)) maxWidthBps) ∧
    ∀ band, consensus xs faults maxWidthBps = .ok band →
      supported xs (xs.length - faults) = Set.Icc (band.low : ℚ) band.high ∧
      band.groups = xs.length ∧ band.quorum = xs.length - faults ∧
      ∀ faulty : Finset ℕ, faulty.card ≤ faults →
        (∀ q ∈ Set.Icc (band.low : ℚ) band.high,
          ∃ x ∈ xs, x.group ∉ faulty ∧ (x.low : ℚ) ≤ q ∧ q ≤ x.high) ∧
        ∀ v : ℚ, (∀ x ∈ xs, x.group ∉ faulty → (x.low : ℚ) ≤ v ∧ v ≤ x.high) →
          v ∈ Set.Icc (band.low : ℚ) band.high := by
  have hfound : ∀ s low, Eligible xs faults maxWidthBps →
      scan xs (xs.length - faults) (endpoints xs) {} = .ok s → s.low = some low →
      low ≤ s.high ∧ supported xs (xs.length - faults) = Set.Icc (low : ℚ) s.high := by
    intro s low heligible hscan hlow
    rcases scan_endpoints heligible with ⟨s', hscan', hfound⟩ | ⟨⟨e, herror⟩, -⟩
    · rw [hscan] at hscan'
      cases hscan'
      simpa only [Found, hlow] using hfound
    · rw [hscan] at herror
      cases herror
  constructor
  · constructor
    · rintro ⟨band, h⟩
      obtain ⟨heligible, s, low, hscan, hlow, hwidth, -⟩ := consensus_eq_ok.mp h
      obtain ⟨hle, hset⟩ := hfound s low heligible hscan hlow
      rw [hset]
      exact ⟨heligible, Set.nonempty_Icc.mpr (by exact_mod_cast hle), Set.ordConnected_Icc,
        (narrow_Icc_iff hle).mpr hwidth⟩
    · rintro ⟨heligible, hne, hconn, hnarrow⟩
      rcases scan_endpoints heligible with
        ⟨s, hscan, hset⟩ | ⟨-, a, ha, b, hb, u, hau, hub, hu⟩
      · unfold Found at hset
        cases hlow : s.low with
        | none =>
          rw [hlow] at hset
          exact absurd hset hne.ne_empty
        | some low =>
          rw [hlow] at hset
          rw [hset.2] at hnarrow
          exact ⟨_, consensus_eq_ok.mpr ⟨heligible, s, low, hscan, hlow,
            (narrow_Icc_iff hset.1).mp hnarrow, rfl⟩⟩
      · exact absurd (hconn.out ha hb ⟨hau.le, hub.le⟩) hu
  · intro band h
    obtain ⟨heligible, s, low, hscan, hlow, -, rfl⟩ := consensus_eq_ok.mp h
    obtain ⟨hle, hset⟩ := hfound s low heligible hscan hlow
    have hlt := heligible.faults_lt
    refine ⟨hset, rfl, rfl, fun faulty hcard => ⟨fun q hq => ?_, fun v hv => ?_⟩⟩
    · have hcount : q ∈ supported xs (xs.length - faults) := by
        rw [hset]
        exact hq
      rw [supported, mem_region] at hcount
      exact exists_honest heligible.distinct (by omega)
    · rw [← hset, supported, mem_region]
      exact le_trans (by omega) (le_count_of_honest heligible.distinct hv)

end Consensus

end StockMesh.Host.Fair

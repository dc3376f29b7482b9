import StockMesh.Compiler.Emit

/-! # The compiled curve encloses the venue's own quote

A book cut at the horizon quotes what the whole book quotes. A pool's chords stay below its curve and
within the tangent error of it; rounding that error, and the input atom the fee arithmetic loses,
gives the two error fields. So every quote of a compiled curve encloses the exact one, and no machine
operation of the compilation overflows. -/

namespace StockMesh

open Budgeted Stateful

/-- What compiling `s` at `horizon` promises about the curve. -/
structure Envelope (s : Snapshot) (horizon : ℕ) (c : Curve) : Prop where
  valid : c.Valid
  capacity_eq : c.capacity = min s.capacity horizon
  encloses : ∀ x ≤ c.capacity, ∃ exact, s.exactQuote x = .ok exact ∧
    Curve.integral c.bands x / scale - c.lowerErrorAtoms ≤ exact ∧
    exact ≤ Curve.integral c.bands x / scale + c.upperErrorAtoms

/-! ## Books -/

/-- The bands of the first `left` atoms. -/
def cut : List Segment → ℕ → List Segment
  | [], _ => []
  | s :: rest, left =>
    if left = 0 then []
    else
      { s with inputCapacity := min left s.inputCapacity } :: cut rest (left - min left s.inputCapacity)

attribute [local simp] cut

/-- A cut band has the rate of an original one. -/
theorem mem_cut {bs : List Segment} {left : ℕ} {s : Segment} (hs : s ∈ cut bs left) :
    ∃ t ∈ bs, s.marginalQ32 = t.marginalQ32 := by
  induction bs generalizing left with
  | nil => simp [cut] at hs
  | cons b bs ih =>
    unfold cut at hs
    split at hs
    · simp at hs
    · rcases List.mem_cons.mp hs with rfl | hs
      · exact ⟨b, List.mem_cons_self, rfl⟩
      · obtain ⟨t, ht, heq⟩ := ih hs
        exact ⟨t, List.mem_cons_of_mem b ht, heq⟩

/-- Cutting keeps the bands non-empty. -/
theorem cut_nonempty {bs : List Segment} (hbs : ∀ s ∈ bs, 0 < s.inputCapacity) (left : ℕ) :
    ∀ s ∈ cut bs left, 0 < s.inputCapacity := by
  induction bs generalizing left with
  | nil => simp [cut]
  | cons b bs ih =>
    rw [List.forall_mem_cons] at hbs
    unfold cut
    split
    · simp
    · rw [List.forall_mem_cons]
      exact ⟨by have := hbs.1; simp; omega, ih hbs.2 _⟩

/-- Cutting keeps the bands sorted. -/
theorem cut_sorted {bs : List Segment}
    (hbs : bs.Pairwise fun s t => t.marginalQ32 ≤ s.marginalQ32) (left : ℕ) :
    (cut bs left).Pairwise fun s t => t.marginalQ32 ≤ s.marginalQ32 := by
  induction bs generalizing left with
  | nil => simp [cut]
  | cons b bs ih =>
    rw [List.pairwise_cons] at hbs
    unfold cut
    split
    · simp
    · refine List.pairwise_cons.mpr ⟨fun s hs => ?_, ih hbs.2 _⟩
      obtain ⟨t, ht, heq⟩ := mem_cut hs
      rw [heq]
      exact hbs.1 t ht

/-- Cutting keeps at most `left` atoms. -/
theorem total_cut (bs : List Segment) (left : ℕ) :
    Bands.total Segment.inputCapacity (cut bs left)
      = min left (Bands.total Segment.inputCapacity bs) := by
  induction bs generalizing left with
  | nil => simp [cut]
  | cons b bs ih =>
    unfold cut
    split
    · simp_all
    · rw [Bands.total_cons, ih, Bands.total_cons]
      dsimp only
      omega

/-- The bands up to `left` atoms have the integral of the whole up to there. -/
theorem integral_cut (bs : List Segment) {left x : ℕ} (hx : x ≤ left) :
    Curve.integral (cut bs left) x = Curve.integral bs x := by
  induction bs generalizing left x with
  | nil => simp [cut]
  | cons b bs ih =>
    unfold cut
    split
    · obtain rfl : x = 0 := by omega
      simp
    · have hmin : min x (min left b.inputCapacity) = min x b.inputCapacity := by omega
      have hsub : x - min left b.inputCapacity = x - b.inputCapacity := by omega
      rw [Curve.integral, Curve.integral, Bands.area_cons, Bands.area_cons]
      dsimp only
      rw [hmin, hsub]
      exact congrArg _ (ih (by omega))

/-- Cutting a nonempty book leaves a band. -/
theorem cut_ne_nil {bs : List Segment} {left : ℕ} (hbs : bs ≠ []) (hleft : 0 < left) :
    cut bs left ≠ [] := by
  cases bs with
  | nil => exact absurd rfl hbs
  | cons b bs =>
    unfold cut
    rw [if_neg (by omega)]
    simp

theorem length_cut_le (bs : List Segment) (left : ℕ) : (cut bs left).length ≤ bs.length := by
  induction bs generalizing left with
  | nil => simp [cut]
  | cons b bs ih =>
    unfold cut
    split
    · simp
    · simpa using ih _

/-- The loop of the book branch appends the cut levels and touches nothing else. -/
theorem cutLevels_runs (levels : List Segment) (curve : Curve) (left : ℕ)
    (hlen : curve.len + levels.length ≤ maxSegments) :
    ∃ c, RunsTo (cutLevels levels curve left) levels.length (.ok c) ∧
      c.bands = curve.bands ++ cut levels left ∧
      c.len = curve.len + (cut levels left).length ∧ c.capacity = curve.capacity ∧
      c.upperErrorAtoms = curve.upperErrorAtoms ∧ c.lowerErrorAtoms = curve.lowerErrorAtoms := by
  induction levels generalizing curve left with
  | nil => exact ⟨curve, Runs.pure curve, by simp [cut], by simp [cut], rfl, rfl, rfl⟩
  | cons level rest ih =>
    rw [List.length_cons] at hlen
    unfold cutLevels cut
    by_cases hleft : left = 0
    · subst hleft
      exact ⟨curve, runsTo_charge_bind (Runs.pure curve) (by simp), by simp, by simp, rfl, rfl, rfl⟩
    · rw [if_neg hleft, if_neg hleft]
      obtain ⟨c, hrun, hbands, hclen, hcap, hupper, hlower⟩ := ih
        { curve with
          segments := curve.segments.setIfInBounds curve.len
            { level with inputCapacity := min left level.inputCapacity }
          len := curve.len + 1 } (left - min left level.inputCapacity)
        (by change curve.len + 1 + rest.length ≤ maxSegments; omega)
      refine ⟨c, runsTo_charge_bind hrun (by simp; omega), ?_, ?_, hcap, hupper, hlower⟩
      · rw [hbands, Curve.bands, take_setIfInBounds _ _ (by omega), ← Curve.bands]
        simp
      · rw [hclen, List.length_cons]
        dsimp only
        omega

/-- Levels add up to a capacity, or the sum leaves the `u64` range. -/
theorem levelCapacity_eq (levels : List Segment) :
    levelCapacity levels = .ok (Bands.total Segment.inputCapacity levels) ∨
      levelCapacity levels = .error .arithmetic := by
  suffices h : ∀ a, levels.foldlM (fun a s => checkedAdd a s.inputCapacity) a
      = .ok (a + Bands.total Segment.inputCapacity levels) ∨
      levels.foldlM (fun a s => checkedAdd a s.inputCapacity) a
        = (.error .arithmetic : Result ℕ) by
    simpa [levelCapacity] using h 0
  induction levels with
  | nil => exact fun a => Or.inl rfl
  | cons s rest ih =>
    intro a
    rw [List.foldlM_cons]
    by_cases hfit : a + s.inputCapacity < u64Size
    · rw [checkedAdd_of_lt hfit, ok_bind, Bands.total_cons, ← Nat.add_assoc]
      exact ih _
    · right
      rw [checkedAdd, fits, if_neg hfit, error_bind]

/-- A failed validation never reports an overflow. -/
theorem Curve.validate_ne_overflow (c : Curve) : c.validate ≠ .error .overflow := by
  have hscan : ∀ (bs : List Segment) (prev capacity : ℕ),
      Curve.scan bs prev capacity ≠ .error .overflow := by
    intro bs
    induction bs with
    | nil => simp [Curve.scan]
    | cons s rest ih =>
      intro prev capacity
      unfold Curve.scan rejectIf
      split
      · simp
      · rw [ok_bind, checkedAdd, fits]
        split
        · exact ih _ _
        · simp
  unfold Curve.validate
  unfold rejectIf
  split
  · simp
  · rw [ok_bind]
    rcases hres : Curve.scan c.bands maxRate 0 with e | k
    · rw [error_bind]
      intro h
      cases h
      exact hscan c.bands maxRate 0 hres
    · rw [ok_bind]
      split <;> simp

/-- The book branch: an error that is no overflow, or the cut book with its envelope. -/
theorem compileBook_runs (s : Snapshot) (horizon : ℕ) {levels : Vector Segment maxSegments} {len : ℕ}
    (hmodel : s.model = .book levels len) (hs : 0 < s.capacity) (hsle : s.capacity ≤ maxAtoms)
    (hh : 0 < horizon) :
    ∃ r, RunsTo (compileBook s levels len (min s.capacity horizon)) maxSegments r ∧
      r ≠ .error .overflow ∧ ∀ c, r = .ok c → Envelope s horizon c := by
  unfold compileBook
  rcases levelCapacity_eq (levels.toList.take len) with hcap | hcap <;> rw [hcap]
  swap
  · exact ⟨.error .arithmetic, (Runs.bind_error (Runs.lift _)).mono (by simp), by simp, by simp⟩
  rw [lift_ok, pure_bind]
  dsimp only
  obtain ⟨full, hfull⟩ : ∃ full : Curve, full =
      { segments := levels
        len := len
        capacity := Bands.total Segment.inputCapacity (levels.toList.take len) } := ⟨_, rfl⟩
  rw [← hfull]
  rcases hvalid : full.validate with e | ⟨⟩
  · refine ⟨.error e, (Runs.bind_error (Runs.lift _)).mono (by simp), fun h => ?_, by simp⟩
    cases h
    exact Curve.validate_ne_overflow _ hvalid
  rw [lift_ok, pure_bind]
  by_cases hshort : Bands.total Segment.inputCapacity (levels.toList.take len) < s.capacity
  · rw [rejectIf_of _ hshort]
    exact ⟨.error .capacity, (Runs.bind_error (Runs.lift _)).mono (by simp), by simp, by simp⟩
  rw [rejectIf_of_not _ hshort, lift_ok, pure_bind]
  -- the levels form a valid curve, and the cut inherits its shape
  have hv := Curve.validate_eq_ok.mp hvalid
  subst hfull
  have hlevels : (levels.toList.take len).length ≤ maxSegments := by simp
  obtain ⟨c, hrun, hbands, hlen, hccap, hupper, hlower⟩ := cutLevels_runs (levels.toList.take len)
    { capacity := min s.capacity horizon } (min s.capacity horizon) (by simp)
  have hcbands : c.bands = cut (levels.toList.take len) (min s.capacity horizon) := by
    simpa [Curve.bands] using hbands
  have hclen : c.len = (cut (levels.toList.take len) (min s.capacity horizon)).length := by
    simpa using hlen
  have hne : levels.toList.take len ≠ [] := by
    have hpos : 0 < len := hv.len_pos
    intro hnil
    have hlength := congrArg List.length hnil
    simp at hlength
    omega
  have hvalidc : c.Valid := by
    refine ⟨?_, ?_, ?_, ?_, ?_, ?_, ?_⟩
    · rw [hclen]
      exact List.length_pos_of_ne_nil (cut_ne_nil hne (by omega))
    · rw [hclen]
      exact (length_cut_le _ _).trans hlevels
    · rw [hcbands]
      exact cut_nonempty hv.nonempty _
    · rw [hcbands]
      exact cut_sorted hv.sorted _
    · rw [hcbands]
      intro t ht
      obtain ⟨t', ht', heq⟩ := mem_cut ht
      rw [heq]
      exact hv.rate_le t' ht'
    · rw [hcbands, hccap, total_cut]
      change min s.capacity horizon = _
      omega
    · rw [hccap]
      change min s.capacity horizon ≤ maxAtoms
      omega
  refine ⟨.ok c, hrun.mono hlevels, by simp, fun d hd => ?_⟩
  cases hd
  refine ⟨hvalidc, hccap, fun x hx => ?_⟩
  rw [hccap] at hx
  have hxle : x ≤ min s.capacity horizon := hx
  have hquote := hv.quote_eq (x := x)
    (by change x ≤ Bands.total Segment.inputCapacity (levels.toList.take len); omega)
  refine ⟨Curve.integral (levels.toList.take len) x / scale, ?_, ?_, ?_⟩
  · rw [Snapshot.exactQuote, rejectIf_of_not _ (by omega), ok_bind, hmodel]
    dsimp only
    rw [hcap, ok_bind]
    exact hquote
  · rw [hcbands, integral_cut _ hxle]
    exact Nat.sub_le _ _
  · rw [hcbands, integral_cut _ hxle]
    exact Nat.le_add_right _ _

/-! ## Pools -/

/-- Rounding the distance between bands, curve and exact quote to whole atoms. -/
theorem enclose_round {integral exact errorFp perAtom : ℕ} {p : ℚ}
    (hbelow : (integral : ℚ) ≤ p) (habove : p ≤ (integral : ℚ) + (errorFp : ℚ))
    (hexact : ((scale * exact : ℕ) : ℚ) ≤ p)
    (hlt : p < ((scale * (exact + 1 + perAtom) : ℕ) : ℚ)) :
    integral / scale - (perAtom + 1) ≤ exact ∧
      exact ≤ integral / scale + ceilQuot errorFp scale := by
  have hscale : 0 < scale := by decide
  have h1 : integral < scale * (exact + 1 + perAtom) := by exact_mod_cast hbelow.trans_lt hlt
  have h2 : scale * exact ≤ integral + errorFp := by exact_mod_cast hexact.trans habove
  have h3 := le_ceilQuot_mul errorFp hscale
  have h4 : integral / scale < exact + 1 + perAtom := Nat.div_lt_of_lt_mul h1
  have h5 : exact ≤ (integral + ceilQuot errorFp scale * scale) / scale := by
    rw [Nat.le_div_iff_mul_le hscale, Nat.mul_comm]
    omega
  rw [Nat.add_mul_div_right _ _ hscale] at h5
  exact ⟨by omega, h5⟩

/-- The constant-product branch succeeds on every pool within the domain. -/
theorem compilePool_runs (s : Snapshot) (horizon : ℕ) {r y fee : ℕ}
    (hmodel : s.model = .constantProduct r y fee) (hs : 0 < s.capacity)
    (hsle : s.capacity ≤ maxAtoms) (hh : 0 < horizon) (hcp : validateCp r y fee = .ok ())
    (hrate : tangentBound r y (1000000 - fee) 0 ≤ maxRate) :
    ∃ c, RunsTo (compilePool r y fee (min s.capacity horizon)) (maxSegments * maxSegments) (.ok c) ∧
      Envelope s horizon c := by
  obtain ⟨hb, hfee⟩ := validateCp_eq_ok.mp hcp
  obtain ⟨capacity, hcapacity⟩ : ∃ k, k = min s.capacity horizon := ⟨_, rfl⟩
  obtain ⟨f, hf⟩ : ∃ f, f = 1000000 - fee := ⟨_, rfl⟩
  rw [← hf] at hb hrate
  have h : Pool r y f capacity := ⟨hb, by omega, by omega, hrate⟩
  have hconst := constants
  obtain ⟨c₀, hinit, hc₀, hc₀n⟩ := Chords.init_ok h
  obtain ⟨c₁, hrefine, hc₁⟩ := hc₀.refine_ok h (maxSegments - 1) (by omega)
  obtain ⟨e, hemit, he⟩ := hc₁.emit_ok h
  have herror := he.error_le
  have hy := h.y_le
  have hscaled : scale * y = 4294967296 * y := by rw [scale]
  have hrange : maxRate * maxAtoms = 28147497671065600000000000000 := by norm_num [maxRate, maxAtoms]
  have hupperLe := ceilQuot_le e.errorFp scale
  have hdiv : e.errorFp / scale ≤ 7000000000000000000 := by
    rw [Nat.div_le_iff_le_mul (by decide)]
    omega
  have hlowerLe := ceilQuot_le y r
  have hdivr := Nat.div_le_self y r
  let curve : Curve :=
    { segments := e.segments
      len := c₁.n
      capacity := capacity
      upperErrorAtoms := ceilQuot e.errorFp scale
      lowerErrorAtoms := ceilQuot y r + 1 }
  have hvalid : curve.Valid :=
    ⟨hc₁.n_pos, hc₁.n_le, he.nonempty, he.sorted, he.rate_le, (he.total_eq.trans hc₁.stop).symm,
      h.capacity_le⟩
  have e1 : ceilDiv e.errorFp scale = .ok (ceilQuot e.errorFp scale) :=
    ceilDiv_eq (by decide) (by omega)
  have e2 : asU64 (ceilQuot e.errorFp scale) = .ok (ceilQuot e.errorFp scale) :=
    asU64_of_lt (by omega)
  have e3 : ceilDiv y r = .ok (ceilQuot y r) := ceilDiv_eq h.r_pos (by omega)
  have e4 : addU128 (ceilQuot y r) 1 = .ok (ceilQuot y r + 1) := addU128_of_lt (by omega)
  have e5 : asU64 (ceilQuot y r + 1) = .ok (ceilQuot y r + 1) := asU64_of_lt (by omega)
  refine ⟨curve, ?_, hvalid, hcapacity, fun x hx => ?_⟩
  · unfold compilePool
    rw [hcp, lift_ok, pure_bind]
    dsimp only
    rw [← hf, h.derivativeUpper_eq (Nat.zero_le _), lift_ok, pure_bind,
      rejectIf_of_not _ (by omega), lift_ok, pure_bind, ← hcapacity, hinit, lift_ok, pure_bind]
    refine (hrefine.bind (hemit.bind (l := 0) ?_)).mono (by decide)
    rw [e1, lift_ok, pure_bind, e2, lift_ok, pure_bind, e3, lift_ok, pure_bind, e4, lift_ok,
      pure_bind, e5, lift_ok, pure_bind, Curve.validate_eq_ok.mpr hvalid, lift_ok, pure_bind]
    exact Runs.pure curve
  · have hxle : x ≤ capacity := hx
    have hxstop : x ≤ c₁.boundaries c₁.n := hxle.trans_eq hc₁.stop.symm
    have hquote : y * PoolBounds.net f x / (r + PoolBounds.net f x) ≤ y :=
      Nat.div_le_of_le_mul
        ((Nat.mul_le_mul_left y (Nat.le_add_left _ r)).trans_eq (Nat.mul_comm _ _))
    obtain ⟨hlower, hupper⟩ := enclose_round (he.below x hxstop) (he.above x hxstop)
      (h.exact_le_poolCurve x) (h.poolCurve_lt_exact x)
    refine ⟨y * PoolBounds.net f x / (r + PoolBounds.net f x), ?_, hlower, hupper⟩
    rw [Snapshot.exactQuote, rejectIf_of_not _ (by omega), ok_bind, hmodel]
    dsimp only
    rw [hcp, ok_bind, ← hf]
    exact asU64_of_lt
      (show y * PoolBounds.net f x / (r + PoolBounds.net f x) < u64Size by omega)

/-! ## Every snapshot -/

/-- Compiling ends with an error that is no overflow, or with a curve and its envelope. -/
theorem compile_runs (s : Snapshot) (horizon : ℕ) :
    ∃ r, RunsTo (compile s horizon) (maxSegments * maxSegments) r ∧ r ≠ .error .overflow ∧
      ∀ c, r = .ok c → Envelope s horizon c := by
  have hstop : ∀ (e : Error) (f : Unit → Metered Curve), e ≠ .overflow →
      ∃ r, RunsTo (lift (.error e) >>= f) (maxSegments * maxSegments) r ∧ r ≠ .error .overflow ∧
        ∀ c, r = .ok c → Envelope s horizon c := fun e f he =>
    ⟨.error e, (Runs.bind_error (Runs.lift _)).mono (Nat.zero_le _), by simpa using he, by simp⟩
  unfold compile
  by_cases hatomic : s.atomic = false
  · rw [rejectIf_of _ hatomic]
    exact hstop _ _ (by decide)
  rw [rejectIf_of_not _ hatomic, lift_ok, pure_bind]
  by_cases henabled : s.enabled = false
  · rw [rejectIf_of _ henabled]
    exact hstop _ _ (by decide)
  rw [rejectIf_of_not _ henabled, lift_ok, pure_bind]
  by_cases hamount : s.capacity = 0 ∨ maxAtoms < s.capacity ∨ horizon = 0 ∨ maxAtoms < horizon
  · rw [rejectIf_of _ hamount]
    exact hstop _ _ (by decide)
  rw [rejectIf_of_not _ hamount, lift_ok, pure_bind]
  dsimp only
  cases hmodel : s.model with
  | book levels len =>
    obtain ⟨r, hrun, hne, henv⟩ := compileBook_runs s horizon hmodel (by omega) (by omega) (by omega)
    exact ⟨r, hrun.mono (by decide), hne, henv⟩
  | constantProduct r y fee =>
    dsimp only
    rcases hcp : validateCp r y fee with e | ⟨⟩
    · unfold compilePool
      rw [hcp]
      refine hstop _ _ fun he => ?_
      rw [validateCp, he] at hcp
      unfold rejectIf at hcp
      split at hcp <;> simp at hcp
    · by_cases hrate : tangentBound r y (1000000 - fee) 0 ≤ maxRate
      · obtain ⟨c, hrun, henv⟩ := compilePool_runs s horizon hmodel (by omega) (by omega)
          (by omega) hcp hrate
        exact ⟨.ok c, hrun, by simp, fun d hd => by cases hd; exact henv⟩
      · unfold compilePool
        rw [hcp, lift_ok, pure_bind]
        dsimp only
        rw [(validateCp_eq_ok.mp hcp).1.derivativeUpper_eq (Nat.zero_le _), lift_ok, pure_bind,
          rejectIf_of _ (by omega)]
        exact hstop _ _ (by decide)

/-- A compiled curve has its envelope. -/
theorem compile_envelope {s : Snapshot} {horizon : ℕ} {m m' : WorkMeter} {c : Curve}
    (h : compile s horizon m = (.ok c, m')) : Envelope s horizon c := by
  obtain ⟨r, hrun, -, henv⟩ := compile_runs s horizon
  exact henv c (hrun.eq_of_ok h)

/-- The curve envelope: a compiled curve is valid, covers the smaller of capacity and horizon and
encloses the exact quote of every input; the compilation never overflows a machine word; and it
succeeds on every pool that passes validation and the rate test. -/
theorem compile_encloses (s : Snapshot) (horizon : ℕ) :
    (∀ m m' c, compile s horizon m = (.ok c, m') →
      c.validate = .ok () ∧ c.capacity = min s.capacity horizon ∧
      ∀ x ≤ c.capacity, ∃ exact lower quote, s.exactQuote x = .ok exact ∧
        c.lowerQuote x = .ok lower ∧ c.quote x = .ok quote ∧
        lower ≤ exact ∧ exact ≤ quote + c.upperErrorAtoms) ∧
    (∀ m, (compile s horizon m).1 ≠ .error .overflow) ∧
    ∀ r y fee d, s.model = .constantProduct r y fee → s.atomic = true → s.enabled = true →
      0 < s.capacity → s.capacity ≤ maxAtoms → 0 < horizon → horizon ≤ maxAtoms →
      validateCp r y fee = .ok () → derivativeUpper r y (1000000 - fee) 0 = .ok d → d ≤ maxRate →
      ∀ m : WorkMeter, m.used + maxSegments * maxSegments ≤ m.limit → m.limit < u32Size →
        ∃ c m', compile s horizon m = (.ok c, m') := by
  refine ⟨fun m m' c hc => ?_, fun m hm => ?_, ?_⟩
  · have henv := compile_envelope hc
    refine ⟨Curve.validate_eq_ok.mpr henv.valid, henv.capacity_eq, fun x hx => ?_⟩
    obtain ⟨exact, hexact, hlower, hupper⟩ := henv.encloses x hx
    exact ⟨exact, _, _, hexact, henv.valid.lowerQuote_eq hx, henv.valid.quote_eq hx, hlower, hupper⟩
  · obtain ⟨r, hrun, hne, -⟩ := compile_runs s horizon
    rcases hrun.either m with h | h <;> rw [hm] at h
    · exact hne h.symm
    · cases h
  · intro r y fee d hmodel hatomic henabled hs hsle hh hhle hcp hd hrate m hm hlimit
    have hb := (validateCp_eq_ok.mp hcp).1
    rw [hb.derivativeUpper_eq (Nat.zero_le _)] at hd
    cases hd
    obtain ⟨c, hrun, -⟩ := compilePool_runs s horizon hmodel hs hsle hh hcp hrate
    obtain ⟨k, -, hk⟩ := hrun.enough m hm hlimit
    refine ⟨c, m.spend k, ?_⟩
    rw [compile, rejectIf_of_not _ (by simp [hatomic]), lift_ok, pure_bind,
      rejectIf_of_not _ (by simp [henabled]), lift_ok, pure_bind, rejectIf_of_not _ (by omega),
      lift_ok, pure_bind, hmodel]
    exact hk

/-- A pool of a thousand atoms on both sides. -/
def samplePool : Snapshot :=
  { market := .replicate 32 1
    program := .replicate 32 2
    inputMint := .replicate 32 3
    outputMint := .replicate 32 4
    liquidityId := .replicate 32 5
    writableResources := 1
    slot := 0
    generation := 0
    expiresAtSlot := 0
    capacity := 100
    atomic := true
    enabled := true
    model := .constantProduct 1000 1000 3000 }

/-- The sample pool compiles at a horizon of forty and its curve encloses every quote. -/
theorem compile_encloses_samplePool :
    ∃ c m', compile samplePool 40 ⟨0, 256⟩ = (.ok c, m') ∧ c.validate = .ok () ∧
      c.capacity = 40 ∧ ∀ x ≤ 40, ∃ exact lower quote, samplePool.exactQuote x = .ok exact ∧
        c.lowerQuote x = .ok lower ∧ c.quote x = .ok quote ∧
        lower ≤ exact ∧ exact ≤ quote + c.upperErrorAtoms := by
  obtain ⟨c, m', hc⟩ := (compile_encloses samplePool 40).2.2 1000 1000 3000 4282082395 rfl rfl rfl
    (by decide) (by decide) (by decide) (by decide) (by rfl) (by rfl) (by decide) ⟨0, 256⟩
    (by decide) (by decide)
  obtain ⟨hvalid, hcap, hquotes⟩ := (compile_encloses samplePool 40).1 _ _ c hc
  have hcap : c.capacity = 40 := hcap
  exact ⟨c, m', hc, hvalid, hcap, fun x hx => hquotes x (hx.trans_eq hcap.symm)⟩

end StockMesh

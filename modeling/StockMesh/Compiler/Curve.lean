import StockMesh.Basic
import StockMesh.Foundation.Bands

/-! # Marginal liquidity curves

A `Curve` stores at most sixteen bands of non-increasing marginal output per input atom, in Q32,
with the error bounds of its envelope. `Curve.validate` is the check every consumer makes;
`Curve.Valid` is what it establishes, and a valid curve quotes the scaled integral of its bands. -/

namespace StockMesh

/-- One band: how many input atoms it takes and its marginal output in Q32. -/
structure Segment where
  inputCapacity : ℕ
  marginalQ32 : ℕ
  deriving DecidableEq, Repr, Inhabited

/-- A compiled curve. Only the first `len` bands count. -/
structure Curve where
  segments : Vector Segment maxSegments := .replicate maxSegments ⟨0, 0⟩
  len : ℕ := 0
  capacity : ℕ := 0
  upperErrorAtoms : ℕ := 0
  lowerErrorAtoms : ℕ := 0
  deriving DecidableEq, Repr, Inhabited

namespace Curve

/-- The bands in use, `&self.segments[..self.len]`. -/
def bands (c : Curve) : List Segment := c.segments.toList.take c.len

/-- The scan of `validate`: the capacity of the bands, each checked against its predecessor's
rate. -/
def scan : List Segment → ℕ → ℕ → Result ℕ
  | [], _, capacity => .ok capacity
  | s :: rest, prev, capacity => do
    rejectIf (s.inputCapacity = 0 ∨ prev < s.marginalQ32) .invalidCurve
    let capacity ← checkedAdd capacity s.inputCapacity
    scan rest s.marginalQ32 capacity

/-- `Curve::validate`. -/
def validate (c : Curve) : Result Unit := do
  rejectIf (c.len = 0 ∨ maxSegments < c.len) .invalidCurve
  let capacity ← scan c.bands maxRate 0
  rejectIf (capacity ≠ c.capacity ∨ maxAtoms < capacity) .invalidCurve

/-- The loop of `quote`: the Q32 output of `input` atoms on top of `output`. -/
def quoteLoop : List Segment → ℕ → ℕ → ℕ
  | [], _, output => output
  | s :: rest, input, output =>
    let take := min input s.inputCapacity
    let output := output + take * s.marginalQ32
    let input := input - take
    if input = 0 then output else quoteLoop rest input output

/-- `Curve::quote`. -/
def quote (c : Curve) (input : ℕ) : Result ℕ := do
  c.validate
  rejectIf (c.capacity < input) .capacity
  asU64 (quoteLoop c.bands input 0 / scale)

/-- `Curve::lower_quote`. -/
def lowerQuote (c : Curve) (input : ℕ) : Result ℕ := do
  let output ← c.quote input
  .ok (output - c.lowerErrorAtoms)

/-! ## What validation establishes -/

/-- Q32 output of the first `x` atoms of a list of bands. -/
abbrev integral (bs : List Segment) (x : ℕ) : ℕ :=
  Bands.area Segment.inputCapacity Segment.marginalQ32 bs x

/-- A well-formed curve: between one and sixteen non-empty bands of non-increasing rate, with the
stated capacity. -/
structure Valid (c : Curve) : Prop where
  len_pos : 0 < c.len
  len_le : c.len ≤ maxSegments
  nonempty : ∀ s ∈ c.bands, 0 < s.inputCapacity
  sorted : c.bands.Pairwise fun s t => t.marginalQ32 ≤ s.marginalQ32
  rate_le : ∀ s ∈ c.bands, s.marginalQ32 ≤ maxRate
  capacity_eq : c.capacity = Bands.total Segment.inputCapacity c.bands
  capacity_le : c.capacity ≤ maxAtoms

/-- There are as many bands as `len` says, up to the storage. -/
theorem length_bands (c : Curve) : c.bands.length = min c.len maxSegments := by
  simp [bands]

theorem Valid.length_bands {c : Curve} (h : c.Valid) : c.bands.length = c.len := by
  rw [Curve.length_bands, min_eq_left h.len_le]

/-- What a successful scan says about the bands. -/
theorem scan_eq_ok {bs : List Segment} {prev capacity k : ℕ} :
    scan bs prev capacity = .ok k ↔
      (∀ s ∈ bs, 0 < s.inputCapacity) ∧ bs.Pairwise (fun s t => t.marginalQ32 ≤ s.marginalQ32) ∧
        (∀ s ∈ bs, s.marginalQ32 ≤ prev) ∧ k = capacity + Bands.total Segment.inputCapacity bs ∧
        (bs ≠ [] → capacity + Bands.total Segment.inputCapacity bs < u64Size) := by
  induction bs generalizing prev capacity with
  | nil => simp [scan, eq_comm]
  | cons s bs ih =>
    simp only [scan, bind_eq_ok, rejectIf_eq_ok, checkedAdd, fits_eq_ok, ih, exists_const,
      Bands.total_cons, List.forall_mem_cons, List.pairwise_cons]
    constructor
    · rintro ⟨hs, _, ⟨hlt, rfl⟩, hpos, hsorted, hle, rfl, hbound⟩
      refine ⟨⟨by omega, hpos⟩, ⟨hle, hsorted⟩, ⟨by omega, fun t ht => ?_⟩, by omega, fun _ => ?_⟩
      · have := hle t ht
        omega
      · rcases bs with _ | ⟨t, bs⟩
        · simpa using hlt
        · have := hbound (by simp)
          omega
    · rintro ⟨⟨hs, hpos⟩, ⟨hle, hsorted⟩, ⟨hprev, -⟩, rfl, hbound⟩
      have := hbound (by simp)
      exact ⟨by omega, _, ⟨by omega, rfl⟩, hpos, hsorted, hle, by omega, fun _ => by omega⟩

/-- Validation accepts exactly the well-formed curves. -/
theorem validate_eq_ok {c : Curve} : c.validate = .ok () ↔ c.Valid := by
  simp only [validate, bind_eq_ok, rejectIf_eq_ok, scan_eq_ok, exists_const]
  constructor
  · rintro ⟨hlen, k, ⟨hpos, hsorted, hle, rfl, -⟩, hcap⟩
    exact ⟨by omega, by omega, hpos, hsorted, hle, by omega, by omega⟩
  · intro h
    have hcap := h.capacity_eq
    have hle := h.capacity_le
    refine ⟨?_, Bands.total Segment.inputCapacity c.bands, ⟨h.nonempty, h.sorted, h.rate_le, by omega, fun _ => ?_⟩, ?_⟩
    · have := h.len_pos
      have := h.len_le
      omega
    · have := constants
      omega
    · omega

/-- The loop of `quote` accumulates the integral. -/
theorem quoteLoop_eq (bs : List Segment) (input output : ℕ) :
    quoteLoop bs input output = output + integral bs input := by
  induction bs generalizing input output with
  | nil => simp [quoteLoop]
  | cons s bs ih =>
    have hsub : input - min input s.inputCapacity = input - s.inputCapacity := by omega
    simp only [quoteLoop, hsub, Bands.area_cons]
    split
    · rename_i h
      rw [h, Bands.area_zero, Nat.add_zero]
    · rw [ih, Nat.add_assoc]

/-- The integral of a valid curve stays far below the `u64` output range. -/
theorem Valid.integral_div_lt {c : Curve} (h : c.Valid) {x : ℕ} (hx : x ≤ c.capacity) :
    integral c.bands x / scale < u64Size := by
  have harea := Bands.area_le Segment.inputCapacity Segment.marginalQ32 c.bands h.rate_le x
  have hbound : x * maxRate ≤ maxAtoms * maxRate :=
    Nat.mul_le_mul_right _ (hx.trans h.capacity_le)
  rw [Nat.div_lt_iff_lt_mul (by decide)]
  calc integral c.bands x ≤ maxAtoms * maxRate := harea.trans hbound
    _ < u64Size * scale := by decide

/-- A valid curve quotes the scaled integral of its bands. -/
theorem Valid.quote_eq {c : Curve} (h : c.Valid) {x : ℕ} (hx : x ≤ c.capacity) :
    c.quote x = .ok (integral c.bands x / scale) := by
  rw [quote, validate_eq_ok.mpr h, ok_bind, rejectIf_of_not _ (by omega), ok_bind, quoteLoop_eq,
    Nat.zero_add, asU64_of_lt (h.integral_div_lt hx)]

/-- The conservative quote of a valid curve. -/
theorem Valid.lowerQuote_eq {c : Curve} (h : c.Valid) {x : ℕ} (hx : x ≤ c.capacity) :
    c.lowerQuote x = .ok (integral c.bands x / scale - c.lowerErrorAtoms) := by
  rw [lowerQuote, h.quote_eq hx, ok_bind]

/-- A quote is only given within the capacity of a valid curve. -/
theorem quote_eq_ok {c : Curve} {x q : ℕ} (h : c.quote x = .ok q) :
    c.Valid ∧ x ≤ c.capacity ∧ q = integral c.bands x / scale := by
  have hq := h
  simp only [quote, bind_eq_ok, rejectIf_eq_ok, exists_const] at h
  obtain ⟨_, hv, hx, -⟩ := h
  have hvalid := validate_eq_ok.mp hv
  rw [hvalid.quote_eq (by omega)] at hq
  exact ⟨hvalid, by omega, by cases hq; rfl⟩

end Curve

end StockMesh

import StockMesh.Compiler.Chords

/-! # From chords to bands

`Emitted.Inv` is the invariant of the loop that turns chords into bands: the bands are well formed
and stay below the pool curve, and the curve stays within the recorded tangent error above them. No
machine operation of the loop overflows. -/

namespace StockMesh

open Budgeted Stateful Function

/-- The bands emitted so far. -/
def Emitted.bands (e : Emitted) (k : ℕ) : List Segment := e.segments.toList.take k

/-- Storing the next band appends it to the bands in use. -/
theorem take_setIfInBounds (v : Vector Segment maxSegments) (s : Segment) {k : ℕ}
    (hk : k < maxSegments) :
    (v.setIfInBounds k s).toList.take (k + 1) = v.toList.take k ++ [s] := by
  have hlen : k < v.toList.length := by rwa [Vector.length_toList]
  rw [Vector.toList_setIfInBounds, List.take_succ_eq_append_getElem (by rwa [List.length_set]),
    List.getElem_set_self, List.take_set_of_le (Nat.le_refl k)]

/-- The state after `k` bands. -/
structure Emitted.Inv (r y f : ℕ) (c : Chords) (k : ℕ) (e : Emitted) : Prop where
  nonempty : ∀ s ∈ e.bands k, 0 < s.inputCapacity
  sorted : (e.bands k).Pairwise fun s t => t.marginalQ32 ≤ s.marginalQ32
  rate_le : ∀ s ∈ e.bands k, s.marginalQ32 ≤ maxRate
  previous_le : ∀ s ∈ e.bands k, e.previous ≤ s.marginalQ32
  previous_le_maxRate : e.previous ≤ maxRate
  total_eq : Bands.total Segment.inputCapacity (e.bands k) = c.boundaries k
  integral_eq : e.integral = Curve.integral (e.bands k) (c.boundaries k)
  integral_le : e.integral ≤ c.values k
  below : ∀ x ≤ c.boundaries k, (Curve.integral (e.bands k) x : ℚ) ≤ poolCurve r y f x
  above : ∀ x ≤ c.boundaries k,
    poolCurve r y f x ≤ (Curve.integral (e.bands k) x : ℚ) + (e.errorFp : ℚ)
  error_le : e.errorFp ≤ scale * y + 1 + maxRate * maxAtoms

namespace PoolBounds

variable {r y f : ℕ} (h : PoolBounds r y f)

include h

/-- A band whose slope is at most the chord's, on top of an integral at most the left value, stays
below the curve. -/
theorem band_le_poolCurve {a w z integral slope : ℕ} (hz : z ≤ w)
    (hintegral : integral ≤ cpValue r y f a)
    (hslope : slope * w ≤ cpValue r y f (a + w) - cpValue r y f a) :
    ((integral + z * slope : ℕ) : ℚ) ≤ poolCurve r y f ((a + z : ℕ) : ℚ) := by
  rcases Nat.eq_zero_or_pos w with rfl | hw
  · obtain rfl : z = 0 := by omega
    have hvalue := cpValue_le_poolCurve r y f a
    have hle : (integral : ℚ) ≤ cpValue r y f a := by exact_mod_cast hintegral
    simpa using hle.trans hvalue
  have hmono := h.cpValue_mono (Nat.le_add_right a w)
  have hline := h.line_le_poolCurve (a := a) (b := a + w) (z := a + z) (Nat.le_add_right a z)
    (Nat.add_le_add_left hz a) (cpValue_le_poolCurve r y f a) (cpValue_le_poolCurve r y f (a + w))
  have hwq : (0 : ℚ) < w := by exact_mod_cast hw
  have hrise : (slope : ℚ) * w ≤ cpValue r y f (a + w) - cpValue r y f a := by
    rw [← Nat.cast_sub hmono]
    exact_mod_cast hslope
  have hleft : (integral : ℚ) ≤ cpValue r y f a := by exact_mod_cast hintegral
  have hzq : (0 : ℚ) ≤ z := by positivity
  have h1 := mul_le_mul_of_nonneg_left hrise hzq
  have h2 := mul_le_mul_of_nonneg_left hleft hwq.le
  refine le_of_mul_le_mul_left ?_ hwq
  push_cast at hline ⊢
  linarith

/-- The curve stays within the tangent error of such a band. -/
theorem poolCurve_le_band {a w z integral : ℕ} (slope : ℕ) (hz : z ≤ w)
    (hintegral : integral ≤ cpValue r y f a) :
    poolCurve r y f ((a + z : ℕ) : ℚ) ≤ ((integral + z * slope : ℕ) : ℚ)
      + ((cpValue r y f a + 1 - integral + (tangentBound r y f a - slope) * w : ℕ) : ℚ) := by
  have htangent := h.poolCurve_le_tangent (Nat.le_add_right a z)
  have hgap : tangentBound r y f a * z ≤ z * slope + (tangentBound r y f a - slope) * w := by
    calc tangentBound r y f a * z ≤ (slope + (tangentBound r y f a - slope)) * z :=
          Nat.mul_le_mul_right _ (by omega)
      _ = z * slope + (tangentBound r y f a - slope) * z := by ring
      _ ≤ z * slope + (tangentBound r y f a - slope) * w :=
          Nat.add_le_add_left (Nat.mul_le_mul_left _ hz) _
  have hgapq : (tangentBound r y f a : ℚ) * z
      ≤ z * slope + ((tangentBound r y f a - slope : ℕ) : ℚ) * w := by exact_mod_cast hgap
  rw [Nat.cast_add (cpValue r y f a + 1 - integral), Nat.cast_sub (by omega)]
  push_cast at htangent ⊢
  linarith

end PoolBounds

/-! ## The loop that emits the bands -/

/-- The accumulators the loop starts from. -/
def Emitted.init : Emitted := ⟨.replicate maxSegments ⟨0, 0⟩, 0, 0, maxRate⟩

section Emit

variable {r y f capacity : ℕ} {c : Chords}

/-- No band is emitted yet. -/
theorem Emitted.inv_init (h : Pool r y f capacity) (hc : c.Inv r y f capacity) :
    Emitted.Inv r y f c 0 Emitted.init := by
  have hzero : poolCurve r y f 0 = 0 := by simp [poolCurve, Hyperbola.value]
  refine ⟨by simp [bands], by simp [bands], by simp [bands], by simp [bands], le_rfl, ?_, ?_, ?_,
    fun x hx => ?_, fun x hx => ?_, ?_⟩
  · simp [bands, hc.start]
  · simp [bands, init]
  · exact Nat.zero_le _
  · obtain rfl : x = 0 := by
      rw [hc.start] at hx
      omega
    simp [bands, hzero]
  · obtain rfl : x = 0 := by
      rw [hc.start] at hx
      omega
    simp [bands, hzero, init]
  · exact Nat.zero_le _

/-- Emitting the next band succeeds and keeps the invariant. -/
theorem Emitted.Inv.emit (h : Pool r y f capacity) (hc : c.Inv r y f capacity) {k : ℕ}
    (hk : k < c.n) {e : Emitted} (he : e.Inv r y f c k) :
    ∃ e', RunsTo (c.emitStep e k) 1 (.ok e') ∧ e'.Inv r y f c (k + 1) := by
  have hcap := h.capacity_le
  have hconst := constants
  have hlt := hc.step k hk
  have hnext := hc.le_capacity (show k + 1 ≤ c.n from hk)
  have hvalue := hc.values_eq k hk.le
  have hvalue' := hc.values_eq (k + 1) hk
  have htangent := hc.tangents_eq k hk
  have hintegral := he.integral_le
  obtain ⟨w, hw⟩ : ∃ w, w = c.boundaries (k + 1) - c.boundaries k := ⟨_, rfl⟩
  have hbound : c.boundaries (k + 1) = c.boundaries k + w := by omega
  have hmono : c.values k ≤ c.values (k + 1) := by
    rw [hvalue, hvalue']
    exact h.cpValue_mono hlt.le
  obtain ⟨chord, hchord⟩ : ∃ q, q = (c.values (k + 1) - c.values k) / w := ⟨_, rfl⟩
  have hchordMul : chord * w ≤ c.values (k + 1) - c.values k := by
    rw [hchord]
    exact Nat.div_mul_le_self _ _
  -- the chord is below the left tangent, hence within the largest rate
  have hchordLe : chord ≤ maxRate := by
    have htangentChord := h.cpValue_le_tangent hlt.le
    rw [← hvalue, ← hvalue', ← hw] at htangentChord
    refine le_trans ?_ (h.tangent_le (c.boundaries k))
    refine Nat.le_of_mul_le_mul_right (hchordMul.trans ?_) (show 0 < w by omega)
    omega
  obtain ⟨slope, hslope⟩ : ∃ s, s = min chord e.previous := ⟨_, rfl⟩
  have hslopeMul : slope * w ≤ c.values (k + 1) - c.values k :=
    (Nat.mul_le_mul_right w (hslope ▸ min_le_left _ _)).trans hchordMul
  have hslopePrev : slope ≤ e.previous := hslope ▸ min_le_right _ _
  have hvalueLe : c.values (k + 1) ≤ 4294967296 * 100000000000000 := by
    rw [hvalue']
    exact (h.cpValue_le _).trans (Nat.mul_le_mul (by rw [scale]) (by have := h.y_le; omega))
  have hvalueLeY : c.values k ≤ scale * y := hvalue ▸ h.cpValue_le _
  have hgapMul : (c.tangents k - slope) * w ≤ maxRate * maxAtoms := by
    rw [htangent]
    exact Nat.mul_le_mul ((Nat.sub_le _ _).trans (h.tangent_le _)) (by omega)
  have hgapNum : (c.tangents k - slope) * w ≤ 28147497671065600000000000000 := by
    rw [htangent]
    exact h.gap_lt _ _ (by omega)
  obtain ⟨gap, hgap⟩ : ∃ g, g = c.values k + 1 - e.integral + (c.tangents k - slope) * w := ⟨_, rfl⟩
  let e' : Emitted :=
    { segments := e.segments.setIfInBounds k ⟨w, slope⟩
      integral := e.integral + slope * w
      errorFp := max e.errorFp gap
      previous := slope }
  have hbands : e'.bands (k + 1) = e.bands k ++ [⟨w, slope⟩] :=
    take_setIfInBounds _ _ (hk.trans_le hc.n_le)
  have harea : ∀ x, Curve.integral (e'.bands (k + 1)) x
      = Curve.integral (e.bands k) x + min (x - c.boundaries k) w * slope := by
    intro x
    rw [hbands, Curve.integral, Bands.area_append, he.total_eq]
    simp [Bands.area_cons]
  -- inside the new band the integral goes on from its value at the left boundary
  have hinside : ∀ z ≤ w, Curve.integral (e'.bands (k + 1)) (c.boundaries k + z)
      = e.integral + z * slope := by
    intro z hz
    rw [harea, Nat.add_sub_cancel_left, min_eq_left hz, he.integral_eq]
    congr 1
    exact (Bands.area_of_total_le _ _ _ (by rw [he.total_eq]; omega)).trans
      (Bands.area_of_total_le _ _ _ he.total_eq.le).symm
  have hbefore : ∀ x ≤ c.boundaries k, Curve.integral (e'.bands (k + 1)) x
      = Curve.integral (e.bands k) x := by
    intro x hx
    rw [harea, Nat.sub_eq_zero_of_le hx, Nat.zero_min, Nat.zero_mul, Nat.add_zero]
  refine ⟨e', ?_, ?_⟩
  · have e1 : subUint (c.boundaries (k + 1)) (c.boundaries k) = .ok w := by
      rw [subUint_of_le hlt.le, hw]
    have e2 : subUint (c.values (k + 1)) (c.values k) = .ok (c.values (k + 1) - c.values k) :=
      subUint_of_le hmono
    have e3 : divU128 (c.values (k + 1) - c.values k) w = .ok chord := by
      rw [divU128_of_pos (by omega), hchord]
    have e4 : asU64 chord = .ok chord := asU64_of_lt (by omega)
    have e5 : addU128 (c.values k) 1 = .ok (c.values k + 1) := addU128_of_lt (by omega)
    have e6 : subUint (c.values k + 1) e.integral = .ok (c.values k + 1 - e.integral) :=
      subUint_of_le (by omega)
    have e7 : mulU128 (c.tangents k - slope) w = .ok ((c.tangents k - slope) * w) :=
      mulU128_of_lt (by omega)
    have e8 : addU128 (c.values k + 1 - e.integral) ((c.tangents k - slope) * w) = .ok gap := by
      rw [hgap]
      exact addU128_of_lt (by omega)
    have e9 : mulU128 slope w = .ok (slope * w) := mulU128_of_lt (by omega)
    have e10 : addU128 e.integral (slope * w) = .ok (e.integral + slope * w) :=
      addU128_of_lt (by omega)
    unfold Chords.emitStep
    refine runsTo_charge_bind (n := 0) ?_ le_rfl
    rw [e1, lift_ok, pure_bind]
    dsimp only
    rw [e2, lift_ok, pure_bind, e3, lift_ok, pure_bind, e4, lift_ok, pure_bind, ← hslope, e5,
      lift_ok, pure_bind, e6, lift_ok, pure_bind, e7, lift_ok, pure_bind, e8, lift_ok, pure_bind,
      e9, lift_ok, pure_bind, e10, lift_ok, pure_bind]
    exact Runs.pure e'
  · refine ⟨?_, ?_, ?_, ?_, hslopePrev.trans he.previous_le_maxRate, ?_, ?_, ?_, ?_, ?_, ?_⟩
    · rw [hbands, List.forall_mem_append]
      exact ⟨he.nonempty, by simp; omega⟩
    · rw [hbands, List.pairwise_append]
      exact ⟨he.sorted, by simp, fun s hs t ht => by
        rw [List.mem_singleton.mp ht]
        exact hslopePrev.trans (he.previous_le s hs)⟩
    · rw [hbands, List.forall_mem_append]
      exact ⟨he.rate_le, by simpa using hslopePrev.trans he.previous_le_maxRate⟩
    · rw [hbands, List.forall_mem_append]
      exact ⟨fun s hs => hslopePrev.trans (he.previous_le s hs), by simp [e']⟩
    · rw [hbands, Bands.total_append, he.total_eq, hbound]
      simp
    · rw [hbound, hinside w le_rfl, Nat.mul_comm w]
    · change e.integral + slope * w ≤ c.values (k + 1)
      omega
    · intro x hx
      rcases Nat.le_total x (c.boundaries k) with hle | hge
      · rw [hbefore x hle]
        exact he.below x hle
      · obtain ⟨z, rfl⟩ := Nat.exists_eq_add_of_le hge
        rw [hinside z (by omega)]
        refine h.band_le_poolCurve (w := w) (by omega) (hvalue ▸ hintegral) ?_
        rwa [← hbound, ← hvalue, ← hvalue']
    · intro x hx
      rcases Nat.le_total x (c.boundaries k) with hle | hge
      · rw [hbefore x hle]
        have hold := he.above x hle
        have herror : (e.errorFp : ℚ) ≤ (max e.errorFp gap : ℕ) := by
          exact_mod_cast le_max_left _ _
        exact hold.trans (by linarith)
      · obtain ⟨z, rfl⟩ := Nat.exists_eq_add_of_le hge
        rw [hinside z (by omega)]
        have hband := h.poolCurve_le_band slope (show z ≤ w by omega)
          (hvalue ▸ hintegral)
        rw [← hvalue, ← htangent, ← hgap] at hband
        have herror : (gap : ℚ) ≤ (max e.errorFp gap : ℕ) := by exact_mod_cast le_max_right _ _
        exact hband.trans (by linarith)
    · exact max_le he.error_le (by omega)

/-- The whole loop succeeds and keeps the invariant. -/
theorem Chords.Inv.emit_ok (h : Pool r y f capacity) (hc : c.Inv r y f capacity) :
    ∃ e, RunsTo ((List.range c.n).foldlM c.emitStep Emitted.init) maxSegments (.ok e) ∧
      e.Inv r y f c c.n := by
  obtain ⟨e, hrun, he⟩ := Runs.foldlM_range (P := fun k e => Emitted.Inv r y f c k e)
    (fun k hk b hb => hb.emit h hc hk) (Emitted.inv_init h hc)
  exact ⟨e, hrun.mono (by have := hc.n_le; omega), he⟩

end Emit

end StockMesh

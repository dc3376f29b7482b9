import StockMesh.Foundation.Breakpoints
import StockMesh.Foundation.Frontier
import StockMesh.Native.Curves

/-! # Sampled surfaces

The surface of an opaque program: knots that were sampled in one generation, and estimates in proportion
between them. Knots are pushed behind the last one or inserted between two; the estimates and the choice of
the next sample subtract and narrow without a check, which is right as long as the knots are in order
(`Sampled`). They always are (`surface_sampled`). -/

namespace StockMesh.Native

open Breakpoints

/-- Knots that a surface has room for. -/
def maxKnots : ℕ := 129

/-- A sample: what an input gives, and what computing it costs. -/
structure Knot where
  input : ℕ
  output : ℕ
  cu : ℕ
  input_lt : input < u64Size
  output_lt : output < u64Size
  cu_lt : cu < u64Size
  deriving DecidableEq

/-- `Knot::default`. -/
def Knot.origin : Knot := ⟨0, 0, 0, by decide, by decide, by decide⟩

/-- A knot that may come before another. -/
def Knot.Before (a b : Knot) : Prop := a.input < b.input ∧ a.output ≤ b.output

instance (a b : Knot) : Decidable (a.Before b) := inferInstanceAs (Decidable (_ ∧ _))

/-- Knots in the first `len` places of an array. -/
structure Surface where
  knots : ℕ → Knot := fun _ => .origin
  len : ℕ := 1
  generation : ℕ

/-! ## Operations that panic -/

/-- An overflow-checked subtraction. -/
def less (x y : ℕ) : NativeResult ℕ := if y ≤ x then .ok (x - y) else .error .overflow

/-- An overflow-checked operation on a type of `size` values. -/
def within (size n : ℕ) : NativeResult ℕ := if n < size then .ok n else .error .overflow

/-- A division. -/
def per (x y : ℕ) : NativeResult ℕ := if y = 0 then .error .overflow else .ok (x / y)

/-- `abs_diff`. -/
def absDiff (x y : ℕ) : ℕ := max x y - min x y

/-- `(rise * part / run) as u64`, on `u128`. -/
def portion (rise part run : ℕ) : NativeResult ℕ := do
  let n ← within u128Size (rise * part)
  let q ← per n run
  .ok (q % u64Size)

/-- The secant of two knots, with 32 bits behind the point. -/
def secant (a b : Knot) : NativeResult ℕ := do
  let rise ← less b.output a.output
  let run ← less b.input a.input
  per ((rise <<< 32) % u128Size) run

/-- How far a secant is from that of a neighbouring interval, if there is one. -/
def turn (neighbour : Bool) (here : ℕ) (a b : Knot) : NativeResult ℕ :=
  if neighbour then (secant a b).map (absDiff here) else .ok 0

theorem less_of_le {x y : ℕ} (h : y ≤ x) : less x y = .ok (x - y) := if_pos h

theorem within_of_lt {size n : ℕ} (h : n < size) : within size n = .ok n := if_pos h

theorem per_of_pos {x y : ℕ} (h : 0 < y) : per x y = .ok (x / y) := if_neg (Nat.ne_of_gt h)

theorem absDiff_lt {x y n : ℕ} (hx : x < n) (hy : y < n) : absDiff x y < n :=
  Nat.lt_of_le_of_lt (Nat.sub_le _ _) (Nat.max_lt.mpr ⟨hx, hy⟩)

theorem absDiff_add_min (x y : ℕ) : min x y + absDiff x y = max x y :=
  Nat.add_sub_cancel' (Nat.le_trans (Nat.min_le_left x y) (Nat.le_max_left x y))

/-- A proportion of a rise fits, and so does the product. -/
theorem portion_eq {rise part run : ℕ} (hrise : rise < u64Size) (hpart : part ≤ run) (hrun : 0 < run)
    (hfits : run < u64Size) : portion rise part run = .ok (share rise run part) := by
  have hproduct : rise * part < u128Size :=
    calc rise * part < u64Size * u64Size := Nat.mul_lt_mul'' hrise (Nat.lt_of_le_of_lt hpart hfits)
      _ = u128Size := by decide
  have hshare : rise * part / run < u64Size := Nat.lt_of_le_of_lt (share_le hpart) hrise
  rw [portion, within_of_lt hproduct, ok_bind, per_of_pos hrun, ok_bind, Nat.mod_eq_of_lt hshare]
  rfl

/-- The secant of two knots in order. -/
theorem exists_secant {a b : Knot} (h : a.Before b) : ∃ r, secant a b = .ok r := by
  rw [secant, less_of_le h.2, ok_bind, less_of_le (Nat.le_of_lt h.1), ok_bind,
    per_of_pos (Nat.sub_pos_of_lt h.1)]
  exact ⟨_, rfl⟩

theorem exists_turn {a b : Knot} {neighbour : Bool} (h : neighbour = true → a.Before b) (here : ℕ) :
    ∃ r, turn neighbour here a b = .ok r := by
  cases neighbour with
  | false => exact ⟨0, rfl⟩
  | true =>
    obtain ⟨there, hthere⟩ := exists_secant (h rfl)
    rw [turn, if_pos rfl, hthere]
    exact ⟨_, rfl⟩

namespace Surface

/-- The place of an input: the first knot that is not before it (`partition_point`). -/
def position (s : Surface) (input : ℕ) : ℕ :=
  partitionPoint s.len fun i => decide ((s.knots i).input < input)

/-- `push`. -/
def push (s : Surface) (k : Knot) : NativeResult Unit × Surface :=
  let last := s.knots (s.len - 1)
  if s.len = maxKnots ∨ k.input ≤ last.input ∨ k.output < last.output then (.error .unsupported, s)
  else (.ok (), { s with knots := Function.update s.knots s.len k, len := s.len + 1 })

/-- One round of `refinement_input`: the interval before a knot, against the best one so far. -/
def weigh (s : Surface) (best : ℕ × ℕ) (i : ℕ) : NativeResult (ℕ × ℕ) := do
  let a := s.knots (i - 1)
  let b := s.knots i
  let width ← less b.input a.input
  if width < 2 then .ok best else
  let here ← secant a b
  let left ← turn (1 < i) here (s.knots (i - 2)) a
  let right ← turn (i + 1 < s.len) here b (s.knots (i + 1))
  -- `saturating_mul`
  let priority := min (max left right * width) (u128Size - 1)
  if best.1 < priority then do
    let point ← within u64Size (a.input + width / 2)
    .ok (priority, point)
  else .ok best

/-- `refinement_input`. -/
def refinementInput (s : Surface) : NativeResult (Option ℕ) :=
  if s.len = maxKnots ∨ s.len < 3 then .ok none
  else do
    let best ← (List.range' 1 (s.len - 1)).foldlM s.weigh (0, 0)
    .ok (if 0 < best.1 then some best.2 else none)

/-- `copy_within`: the entries of a range, at another place. -/
def copyWithin (knots : ℕ → Knot) (first last dest i : ℕ) : Knot :=
  if dest ≤ i ∧ i < dest + (last - first) then knots (first + (i - dest)) else knots i

/-- `insert_refinement`. -/
def insertRefinement (s : Surface) (k : Knot) : NativeResult Unit × Surface :=
  let i := s.position k.input
  if s.len = maxKnots ∨ i = 0 ∨ i = s.len ∨ (s.knots i).input = k.input ∨
      k.output < (s.knots (i - 1)).output ∨ (s.knots i).output < k.output then
    (.error .unsupported, s)
  else
    let moved := copyWithin s.knots i s.len (i + 1)
    (.ok (), { s with knots := Function.update moved i k, len := s.len + 1 })

/-- A cost that moves towards that of another knot, with `Arithmetic` past the bounds. -/
def moveCu (a b : Knot) (delta : ℕ) : NativeResult ℕ :=
  if a.cu ≤ b.cu then
    if a.cu + delta < u64Size then .ok (a.cu + delta) else .error .arithmetic
  else if delta ≤ a.cu then .ok (a.cu - delta) else .error .arithmetic

/-- The estimate between two knots. -/
def interpolate (a b : Knot) (input : ℕ) : NativeResult (ℕ × ℕ) := do
  let rise ← less b.output a.output
  let part ← less input a.input
  let run ← less b.input a.input
  let gain ← portion rise part run
  let output ← within u64Size (a.output + gain)
  let delta ← portion (absDiff a.cu b.cu) part run
  let cu ← moveCu a b delta
  .ok (output, cu)

/-- `estimate`: an output and a cost. -/
def estimate (s : Surface) (input generation : ℕ) : NativeResult (ℕ × ℕ) :=
  if generation ≠ s.generation then .error .stale
  else
    let i := s.position input
    if i = s.len then .error .capacity
    else
      let b := s.knots i
      if b.input = input then .ok (b.output, b.cu)
      else if i = 0 then .error .capacity
      else interpolate (s.knots (i - 1)) b input

/-! ## Knots in order -/

/-- The knots start at the origin and are in order. -/
structure Sampled (s : Surface) : Prop where
  origin : s.knots 0 = .origin
  len_pos : 0 < s.len
  len_le : s.len ≤ maxKnots
  ordered : Ordered Knot.Before s.len s.knots

variable {s : Surface} {k : Knot} {i : ℕ} {x : ℕ}

theorem sampled_new (generation : ℕ) : Sampled { generation } where
  origin := rfl
  len_pos := Nat.one_pos
  len_le := (by decide : 1 ≤ maxKnots)
  ordered := fun i j hij hj => absurd (Nat.lt_of_lt_of_le hij (Nat.le_of_lt_succ hj)) (Nat.not_lt_zero i)

/-- Knots before the place of an input are before the input. -/
theorem input_lt_of_lt_position (hi : i < s.position x) : (s.knots i).input < x :=
  of_decide_eq_true (test_of_lt hi)

theorem le_input_position (hi : s.position x < s.len) : x ≤ (s.knots (s.position x)).input :=
  Nat.le_of_not_lt (of_decide_eq_false (test_partitionPoint hi))

theorem position_le (s : Surface) (x : ℕ) : s.position x ≤ s.len := partitionPoint_le _ _

namespace Sampled

theorem input_lt (h : s.Sampled) {i j : ℕ} (hij : i < j) (hj : j < s.len) :
    (s.knots i).input < (s.knots j).input := (h.ordered i j hij hj).1

theorem output_le (h : s.Sampled) {i j : ℕ} (hij : i < j) (hj : j < s.len) :
    (s.knots i).output ≤ (s.knots j).output := (h.ordered i j hij hj).2

/-- The place of an input between two neighbours is the second one. -/
theorem position_eq (h : s.Sampled) (hi : i + 1 < s.len) (hlow : (s.knots i).input < x)
    (hhigh : x ≤ (s.knots (i + 1)).input) : s.position x = i + 1 := by
  apply partitionPoint_eq hi
  · intro j hj
    apply decide_eq_true
    rcases Nat.lt_or_eq_of_le (Nat.le_of_lt_succ hj) with hlt | rfl
    · exact Nat.lt_trans (h.input_lt hlt (Nat.lt_of_succ_lt hi)) hlow
    · exact hlow
  · exact decide_eq_false (Nat.not_lt.mpr hhigh)

/-- The place of the input of a knot is that of the knot. -/
theorem position_knot (h : s.Sampled) (hi : i < s.len) : s.position (s.knots i).input = i := by
  apply partitionPoint_eq hi
  · intro j hj
    exact decide_eq_true (h.input_lt hj hi)
  · exact decide_eq_false (Nat.lt_irrefl _)

/-- A knot and one not before it, in outputs. -/
theorem output_le_of_le (h : s.Sampled) {i j : ℕ} (hij : i ≤ j) (hj : j < s.len) :
    (s.knots i).output ≤ (s.knots j).output := by
  rcases Nat.lt_or_eq_of_le hij with hlt | rfl
  · exact h.output_le hlt hj
  · exact Nat.le_refl _

theorem input_le_of_le (h : s.Sampled) {i j : ℕ} (hij : i ≤ j) (hj : j < s.len) :
    (s.knots i).input ≤ (s.knots j).input := by
  rcases Nat.lt_or_eq_of_le hij with hlt | rfl
  · exact Nat.le_of_lt (h.input_lt hlt hj)
  · exact Nat.le_refl _

/-- One more knot at a place where it stands right. -/
theorem insertAt (h : s.Sampled) (k : Knot) (hroom : s.len ≠ maxKnots) {p : ℕ} (hpos : 0 < p) (hp : p ≤ s.len)
    (hbefore : ∀ i < p, (s.knots i).Before k) (hafter : ∀ i, p ≤ i → i < s.len → k.Before (s.knots i))
    {knots : ℕ → Knot} (hknots : ∀ i < s.len + 1, knots i = Breakpoints.insertAt s.knots p k i) :
    Sampled { s with knots := knots, len := s.len + 1 } where
  origin := calc knots 0 = Breakpoints.insertAt s.knots p k 0 := hknots 0 (Nat.succ_pos _)
    _ = s.knots 0 := insertAt_of_lt hpos
    _ = .origin := h.origin
  len_pos := Nat.succ_pos _
  len_le := Nat.lt_of_le_of_ne h.len_le hroom
  ordered := (h.ordered.insertAt hp hbefore hafter).congr hknots

/-- A push keeps the order. -/
theorem push (h : s.Sampled) (k : Knot) : (s.push k).2.Sampled := by
  unfold Surface.push
  dsimp only
  split
  · exact h
  · rename_i hfits
    simp only [not_or, not_le, not_lt] at hfits
    obtain ⟨hroom, hinput, houtput⟩ := hfits
    have hlast : s.len - 1 < s.len := Nat.sub_lt h.len_pos Nat.one_pos
    refine h.insertAt k hroom h.len_pos (Nat.le_refl _) ?_ ?_ ?_
    · intro i hi
      have hle : i ≤ s.len - 1 := Nat.le_sub_one_of_lt hi
      exact ⟨Nat.lt_of_le_of_lt (h.input_le_of_le hle hlast) hinput,
        Nat.le_trans (h.output_le_of_le hle hlast) houtput⟩
    · intro i hle hi
      exact absurd hi (Nat.not_lt.mpr hle)
    · intro i hi
      rcases Nat.lt_or_eq_of_le (Nat.le_of_lt_succ hi) with hlt | rfl
      · rw [Function.update_of_ne (Nat.ne_of_lt hlt), insertAt_of_lt hlt]
      · rw [Function.update_self, insertAt_self]

/-- An insertion keeps the order. -/
theorem insertRefinement (h : s.Sampled) (k : Knot) : (s.insertRefinement k).2.Sampled := by
  unfold Surface.insertRefinement
  dsimp only
  split
  · exact h
  · rename_i hfits
    simp only [not_or, not_lt] at hfits
    obtain ⟨hroom, hfirst, hlast, hfresh, hlow, hhigh⟩ := hfits
    have hplace : s.position k.input < s.len := Nat.lt_of_le_of_ne (s.position_le _) hlast
    have hpos : 0 < s.position k.input := Nat.pos_of_ne_zero hfirst
    refine h.insertAt k hroom hpos (s.position_le _) ?_ ?_ ?_
    · intro i hi
      refine ⟨input_lt_of_lt_position hi, Nat.le_trans (h.output_le_of_le ?_ ?_) hlow⟩
      · exact Nat.le_sub_one_of_lt hi
      · omega
    · intro i hle hi
      refine ⟨?_, Nat.le_trans hhigh (h.output_le_of_le hle hi)⟩
      have hnext : k.input < (s.knots (s.position k.input)).input :=
        Nat.lt_of_le_of_ne (le_input_position hplace) (Ne.symm hfresh)
      exact Nat.lt_of_lt_of_le hnext (h.input_le_of_le hle hi)
    · -- the knots from the place on are copied one up, and the place is overwritten
      intro i hi
      rcases Nat.lt_trichotomy i (s.position k.input) with hlt | rfl | hgt
      · rw [Function.update_of_ne (Nat.ne_of_lt hlt), insertAt_of_lt hlt, copyWithin, if_neg (by omega)]
      · rw [Function.update_self, insertAt_self]
      · rw [Function.update_of_ne (Nat.ne_of_gt hgt), insertAt_of_gt hgt, copyWithin,
          if_pos ⟨hgt, by omega⟩]
        congr 1
        omega

end Sampled

/-! ## Estimates -/

/-- The output in proportion between two knots. -/
def outputAt (a b : Knot) (x : ℕ) : ℕ :=
  a.output + share (b.output - a.output) (b.input - a.input) (x - a.input)

/-- The cost in proportion between two knots, up or down. -/
def cuAt (a b : Knot) (x : ℕ) : ℕ :=
  let delta := share (absDiff a.cu b.cu) (b.input - a.input) (x - a.input)
  if a.cu ≤ b.cu then a.cu + delta else a.cu - delta

variable {a b : Knot}

theorem outputAt_mem (h : a.output ≤ b.output) (hx : x ≤ b.input) :
    a.output ≤ outputAt a b x ∧ outputAt a b x ≤ b.output := by
  have hshare := @share_le (b.output - a.output) (b.input - a.input) (x - a.input) (by omega)
  rw [outputAt]
  omega

theorem outputAt_mono {y : ℕ} (h : x ≤ y) : outputAt a b x ≤ outputAt a b y :=
  Nat.add_le_add_left (share_mono (Nat.sub_le_sub_right h _)) _

theorem moveCu_eq {delta : ℕ} (h : delta ≤ absDiff a.cu b.cu) :
    moveCu a b delta = .ok (if a.cu ≤ b.cu then a.cu + delta else a.cu - delta) := by
  have hsplit := absDiff_add_min a.cu b.cu
  have hcu := b.cu_lt
  unfold moveCu
  split
  · rw [if_pos (by omega)]
  · rw [if_pos (by omega)]

theorem cuAt_mem (hx : x ≤ b.input) : min a.cu b.cu ≤ cuAt a b x ∧ cuAt a b x ≤ max a.cu b.cu := by
  have hdelta := @share_le (absDiff a.cu b.cu) (b.input - a.input) (x - a.input) (by omega)
  have hsplit := absDiff_add_min a.cu b.cu
  unfold cuAt
  dsimp only
  split <;> omega

/-- Between two knots in order an estimate is in proportion. -/
theorem interpolate_eq (h : a.Before b) (hlow : a.input ≤ x) (hhigh : x ≤ b.input) :
    interpolate a b x = .ok (outputAt a b x, cuAt a b x) := by
  have hpart : x - a.input ≤ b.input - a.input := Nat.sub_le_sub_right hhigh _
  have hrun : 0 < b.input - a.input := Nat.sub_pos_of_lt h.1
  have hwidth : b.input - a.input < u64Size := Nat.lt_of_le_of_lt (Nat.sub_le _ _) b.input_lt
  have hrise : b.output - a.output < u64Size := Nat.lt_of_le_of_lt (Nat.sub_le _ _) b.output_lt
  have houtput : a.output + share (b.output - a.output) (b.input - a.input) (x - a.input) < u64Size :=
    Nat.lt_of_le_of_lt (outputAt_mem h.2 hhigh).2 b.output_lt
  rw [interpolate, less_of_le h.2, ok_bind, less_of_le hlow, ok_bind, less_of_le (Nat.le_of_lt h.1), ok_bind,
    portion_eq hrise hpart hrun hwidth, ok_bind, within_of_lt houtput, ok_bind,
    portion_eq (absDiff_lt a.cu_lt b.cu_lt) hpart hrun hwidth, ok_bind, moveCu_eq (share_le hpart), ok_bind]
  rfl

namespace Sampled

/-- Between two neighbours an estimate is in proportion. -/
theorem estimate_between (h : s.Sampled) (hi : i + 1 < s.len) (hlow : (s.knots i).input < x)
    (hhigh : x < (s.knots (i + 1)).input) : s.estimate x s.generation =
      .ok (outputAt (s.knots i) (s.knots (i + 1)) x, cuAt (s.knots i) (s.knots (i + 1)) x) := by
  rw [estimate, if_neg (not_not_intro rfl), h.position_eq hi hlow (Nat.le_of_lt hhigh)]
  dsimp only
  rw [if_neg (Nat.ne_of_lt hi), if_neg (Nat.ne_of_gt hhigh), if_neg (Nat.succ_ne_zero i),
    Nat.add_sub_cancel]
  exact interpolate_eq (h.ordered i (i + 1) (Nat.lt_succ_self i) hi) (Nat.le_of_lt hlow)
    (Nat.le_of_lt hhigh)

/-- At a knot an estimate is the knot. -/
theorem estimate_knot (h : s.Sampled) (hi : i < s.len) :
    s.estimate (s.knots i).input s.generation = .ok ((s.knots i).output, (s.knots i).cu) := by
  rw [estimate, if_neg (not_not_intro rfl), h.position_knot hi]
  dsimp only
  rw [if_neg (Nat.ne_of_lt hi), if_pos rfl]

/-- An input up to the last knot is that of a knot or between two neighbours. -/
theorem located (h : s.Sampled) (hx : s.position x < s.len) :
    x = (s.knots (s.position x)).input ∨
      ∃ i, i + 1 = s.position x ∧ (s.knots i).input < x ∧ x < (s.knots (i + 1)).input := by
  rcases Nat.lt_or_eq_of_le (le_input_position hx) with hlt | heq
  · refine .inr ⟨s.position x - 1, ?_⟩
    have hpos : 0 < s.position x := by
      by_contra hzero
      have hzero : s.position x = 0 := Nat.eq_zero_of_not_pos hzero
      rw [hzero, h.origin] at hlt
      exact absurd hlt (Nat.not_lt_zero x)
    have hsucc : s.position x - 1 + 1 = s.position x := Nat.sub_add_cancel hpos
    rw [hsucc]
    exact ⟨rfl, input_lt_of_lt_position (by omega), hlt⟩
  · exact .inl heq

/-- What an estimate is: stale, beyond the last knot, that of a knot, or in proportion. -/
theorem estimate_cases (h : s.Sampled) (x generation : ℕ) :
    (generation ≠ s.generation ∧ s.estimate x generation = .error .stale) ∨
      generation = s.generation ∧
        (s.position x = s.len ∧ s.estimate x generation = .error .capacity ∨
          s.position x < s.len ∧
            (x = (s.knots (s.position x)).input ∧ s.estimate x generation =
                .ok ((s.knots (s.position x)).output, (s.knots (s.position x)).cu) ∨
              ∃ i, i + 1 = s.position x ∧ (s.knots i).input < x ∧ x < (s.knots (i + 1)).input ∧
                s.estimate x generation =
                  .ok (outputAt (s.knots i) (s.knots (i + 1)) x, cuAt (s.knots i) (s.knots (i + 1)) x))) := by
  by_cases hgeneration : generation = s.generation
  swap
  · exact .inl ⟨hgeneration, if_pos hgeneration⟩
  subst hgeneration
  refine .inr ⟨rfl, ?_⟩
  rcases Nat.lt_or_eq_of_le (s.position_le x) with hlt | heq
  · refine .inr ⟨hlt, ?_⟩
    rcases h.located hlt with hknot | ⟨i, hi, hlow, hhigh⟩
    · refine .inl ⟨hknot, ?_⟩
      have hestimate := h.estimate_knot hlt
      rwa [← hknot] at hestimate
    · exact .inr ⟨i, hi, hlow, hhigh, h.estimate_between (by omega) hlow hhigh⟩
  · refine .inl ⟨heq, ?_⟩
    rw [estimate, if_neg (not_not_intro rfl)]
    exact if_pos heq

/-- An output is between those of the knots around its input. -/
theorem output_mem (h : s.Sampled) {o c : ℕ} (hx : s.estimate x s.generation = .ok (o, c)) :
    s.position x < s.len ∧ o ≤ (s.knots (s.position x)).output ∧
      ∀ j < s.position x, (s.knots j).output ≤ o := by
  rcases h.estimate_cases x s.generation with
    ⟨hne, -⟩ | ⟨-, ⟨-, hfails⟩ | ⟨hlt, ⟨-, hknot⟩ | ⟨i, hi, -, hhigh, hbetween⟩⟩⟩
  · exact absurd rfl hne
  · rw [hfails] at hx
    cases hx
  · rw [hknot] at hx
    cases hx
    exact ⟨hlt, Nat.le_refl _, fun j hj => h.output_le hj hlt⟩
  · rw [hbetween] at hx
    cases hx
    have hmem := outputAt_mem (h.output_le (Nat.lt_succ_self i) (by omega)) (Nat.le_of_lt hhigh)
    refine ⟨hlt, ?_, fun j hj => ?_⟩
    · rw [← hi]
      exact hmem.2
    · exact Nat.le_trans (h.output_le_of_le (by omega) (by omega)) hmem.1

/-- A larger input has no smaller estimate. -/
theorem estimate_mono (h : s.Sampled) {y o c o' c' : ℕ} (hxy : x ≤ y)
    (hx : s.estimate x s.generation = .ok (o, c)) (hy : s.estimate y s.generation = .ok (o', c')) :
    o ≤ o' := by
  obtain ⟨hplace, hupper, -⟩ := h.output_mem hx
  obtain ⟨-, -, hlower⟩ := h.output_mem hy
  have hle : s.position x ≤ s.position y := by
    apply partitionPoint_mono
    intro i hi
    exact decide_eq_true (Nat.lt_of_lt_of_le (of_decide_eq_true hi) hxy)
  rcases Nat.lt_or_eq_of_le hle with hlt | heq
  · -- a knot is between the inputs
    exact Nat.le_trans hupper (hlower _ hlt)
  · rcases h.estimate_cases y s.generation with
      ⟨hne, -⟩ | ⟨-, ⟨-, hfails⟩ | ⟨-, ⟨-, hknot⟩ | ⟨i, hi, hlow, hhigh, hbetween⟩⟩⟩
    · exact absurd rfl hne
    · rw [hfails] at hy
      cases hy
    · rw [hknot] at hy
      cases hy
      rwa [← heq]
    · rw [hbetween] at hy
      cases hy
      have hlow' : (s.knots i).input < x := input_lt_of_lt_position (by omega)
      rw [h.estimate_between (by omega) hlow' (Nat.lt_of_le_of_lt hxy hhigh)] at hx
      cases hx
      exact outputAt_mono hxy

/-! ## Refinement -/

theorem before_succ (h : s.Sampled) (hi : i + 1 < s.len) : (s.knots i).Before (s.knots (i + 1)) :=
  h.ordered i (i + 1) (Nat.lt_succ_self i) hi

/-- The best interval so far, if any, has a point inside. -/
def Inside (s : Surface) (best : ℕ × ℕ) : Prop :=
  0 < best.1 → ∃ i, i + 1 < s.len ∧ (s.knots i).input < best.2 ∧ best.2 < (s.knots (i + 1)).input

/-- A round of the choice does not panic, and finds a point inside an interval. -/
theorem weigh_inside (h : s.Sampled) (hi : i + 1 < s.len) {best : ℕ × ℕ} (hbest : Inside s best) :
    ∃ best', s.weigh best (i + 1) = .ok best' ∧ Inside s best' := by
  obtain ⟨here, hhere⟩ := exists_secant (h.before_succ hi)
  obtain ⟨left, hleft⟩ := @exists_turn (s.knots (i + 1 - 2)) (s.knots i) (1 < i + 1)
    (fun hinner => h.ordered _ _ (by have := of_decide_eq_true hinner; omega) (by omega)) here
  obtain ⟨right, hright⟩ := @exists_turn (s.knots (i + 1)) (s.knots (i + 1 + 1)) (i + 1 + 1 < s.len)
    (fun hinner => h.before_succ (of_decide_eq_true hinner)) here
  have hwidth := (h.before_succ hi).1
  have hfits := (s.knots (i + 1)).input_lt
  rw [weigh, Nat.add_sub_cancel, less_of_le (Nat.le_of_lt hwidth), ok_bind]
  split
  · exact ⟨best, rfl, hbest⟩
  rw [hhere, ok_bind, hleft, ok_bind, hright, ok_bind]
  dsimp only
  split
  · rw [within_of_lt (by omega), ok_bind]
    refine ⟨_, rfl, fun _ => ⟨i, hi, ?_, ?_⟩⟩
    · dsimp only
      omega
    · dsimp only
      omega
  · exact ⟨best, rfl, hbest⟩

/-- The choice does not panic, and what it finds is inside an interval of a surface that has room. -/
theorem refinementInput_inside (h : s.Sampled) : ∃ found, s.refinementInput = .ok found ∧
    ∀ x ∈ found, s.len ≠ maxKnots ∧
      ∃ i, i + 1 < s.len ∧ (s.knots i).input < x ∧ x < (s.knots (i + 1)).input := by
  unfold refinementInput
  split
  · exact ⟨none, rfl, fun x hx => by cases hx⟩
  rename_i hroom
  obtain ⟨best, hbest, hinside⟩ :=
    @Frontier.exists_foldlM_eq_ok _ _ _ (Inside s) s.weigh (List.range' 1 (s.len - 1)) (0, 0)
      (fun hpos => absurd hpos (Nat.lt_irrefl 0)) fun i hi best hbest => by
        obtain ⟨hone, hlen⟩ : 1 ≤ i ∧ i < 1 + (s.len - 1) := List.mem_range'_1.mp hi
        obtain ⟨j, rfl⟩ := Nat.exists_eq_add_of_le' hone
        exact h.weigh_inside (by omega) hbest
  rw [hbest, ok_bind]
  refine ⟨_, rfl, fun x hx => ⟨fun hfull => hroom (.inl hfull), ?_⟩⟩
  split at hx
  · rename_i hpos
    obtain rfl := Option.mem_some.mp hx
    exact hinside hpos
  · cases hx

/-- A knot between two neighbours is accepted while there is room. -/
theorem insertRefinement_ok (h : s.Sampled) (hroom : s.len ≠ maxKnots) (hi : i + 1 < s.len)
    (hlow : (s.knots i).input < k.input) (hhigh : k.input < (s.knots (i + 1)).input)
    (houtput : (s.knots i).output ≤ k.output) (houtput' : k.output ≤ (s.knots (i + 1)).output) :
    (s.insertRefinement k).1 = .ok () := by
  rw [Surface.insertRefinement, h.position_eq hi hlow (Nat.le_of_lt hhigh)]
  dsimp only
  rw [if_neg]
  rintro (hfull | hzero | hlast | hsame | hbelow | habove)
  · exact hroom hfull
  · exact Nat.succ_ne_zero i hzero
  · exact Nat.ne_of_lt hi hlast
  · exact Nat.ne_of_gt hhigh hsame
  · rw [Nat.add_sub_cancel] at hbelow
    exact absurd hbelow (Nat.not_lt.mpr houtput)
  · exact absurd habove (Nat.not_lt.mpr houtput')

end Sampled

/-! ## What a surface promises -/

/-- Estimates are exact at the knots, monotone, between neighbouring knots in output and cost, and fail only
for another generation or beyond the last knot. -/
structure Interpolates (s : Surface) : Prop where
  exact : ∀ i < s.len,
    s.estimate (s.knots i).input s.generation = .ok ((s.knots i).output, (s.knots i).cu)
  between : ∀ i, i + 1 < s.len → ∀ x, (s.knots i).input < x → x < (s.knots (i + 1)).input →
    ∃ o c, s.estimate x s.generation = .ok (o, c) ∧
      (s.knots i).output ≤ o ∧ o ≤ (s.knots (i + 1)).output ∧
      min (s.knots i).cu (s.knots (i + 1)).cu ≤ c ∧ c ≤ max (s.knots i).cu (s.knots (i + 1)).cu
  mono : ∀ x y o c o' c', x ≤ y → s.estimate x s.generation = .ok (o, c) →
    s.estimate y s.generation = .ok (o', c') → o ≤ o'
  fails : ∀ x generation e, s.estimate x generation = .error e →
    e = .stale ∧ generation ≠ s.generation ∨
      e = .capacity ∧ generation = s.generation ∧ (s.knots (s.len - 1)).input < x

/-- The choice of the next sample does not fail. It is a point inside an interval, and a knot there whose
output is between the neighbours' is accepted. -/
structure Refines (s : Surface) : Prop where
  chooses : ∃ found, s.refinementInput = .ok found
  inside : ∀ x, s.refinementInput = .ok (some x) →
    ∃ i, i + 1 < s.len ∧ (s.knots i).input < x ∧ x < (s.knots (i + 1)).input ∧
      ∀ k : Knot, k.input = x → (s.knots i).output ≤ k.output → k.output ≤ (s.knots (i + 1)).output →
        (s.insertRefinement k).1 = .ok ()

/-- What is rejected changes nothing. -/
structure Rejects (s : Surface) : Prop where
  push : ∀ k e, (s.push k).1 = .error e → (s.push k).2 = s
  insertRefinement : ∀ k e, (s.insertRefinement k).1 = .error e → (s.insertRefinement k).2 = s

theorem Sampled.interpolates (h : s.Sampled) : s.Interpolates where
  exact := fun i hi => h.estimate_knot hi
  between := by
    intro i hi x hlow hhigh
    obtain ⟨hout, hout'⟩ := outputAt_mem (h.before_succ hi).2 (Nat.le_of_lt hhigh)
    obtain ⟨hcu, hcu'⟩ := @cuAt_mem x (s.knots i) (s.knots (i + 1)) (Nat.le_of_lt hhigh)
    exact ⟨_, _, h.estimate_between hi hlow hhigh, hout, hout', hcu, hcu'⟩
  mono := fun x y o c o' c' hxy hx hy => h.estimate_mono hxy hx hy
  fails := by
    intro x generation e he
    rcases h.estimate_cases x generation with
      ⟨hne, hstale⟩ | ⟨heq, ⟨hplace, hfails⟩ | ⟨-, ⟨-, hknot⟩ | ⟨i, -, -, -, hbetween⟩⟩⟩
    · rw [hstale] at he
      cases he
      exact .inl ⟨rfl, hne⟩
    · rw [hfails] at he
      cases he
      have hlast : s.len - 1 < s.position x := by
        have := h.len_pos
        omega
      exact .inr ⟨rfl, heq, input_lt_of_lt_position hlast⟩
    · rw [hknot] at he
      cases he
    · rw [hbetween] at he
      cases he

theorem Sampled.refines (h : s.Sampled) : s.Refines where
  chooses := by
    obtain ⟨found, hfound, -⟩ := h.refinementInput_inside
    exact ⟨found, hfound⟩
  inside := by
    intro x hx
    obtain ⟨found, hfound, hinside⟩ := h.refinementInput_inside
    rw [hfound] at hx
    cases hx
    obtain ⟨hroom, i, hi, hlow, hhigh⟩ := hinside x rfl
    refine ⟨i, hi, hlow, hhigh, ?_⟩
    rintro k rfl houtput houtput'
    exact h.insertRefinement_ok hroom hi hlow hhigh houtput houtput'

theorem rejects (s : Surface) : s.Rejects where
  push := by
    intro k e he
    unfold push at he ⊢
    dsimp only at he ⊢
    split
    · rfl
    · rename_i hfits
      rw [if_neg hfits] at he
      cases he
  insertRefinement := by
    intro k e he
    unfold insertRefinement at he ⊢
    dsimp only at he ⊢
    split
    · rfl
    · rename_i hfits
      rw [if_neg hfits] at he
      cases he

end Surface

/-! ## Runs -/

/-- A call on a surface. -/
inductive SurfaceCall
  | push (k : Knot)
  | insertRefinement (k : Knot)
  | estimate (input generation : ℕ)

namespace Surface

/-- The surface after a call. -/
def step (s : Surface) : SurfaceCall → Surface
  | .push k => (s.push k).2
  | .insertRefinement k => (s.insertRefinement k).2
  | .estimate _ _ => s

/-- The surface after a run. -/
def run (s : Surface) (calls : List SurfaceCall) : Surface := calls.foldl step s

variable {s : Surface}

theorem Sampled.step (h : s.Sampled) (call : SurfaceCall) : (s.step call).Sampled := by
  cases call with
  | push k => exact h.push k
  | insertRefinement k => exact h.insertRefinement k
  | estimate input generation => exact h

theorem Sampled.run (h : s.Sampled) (calls : List SurfaceCall) : (s.run calls).Sampled := by
  induction calls generalizing s with
  | nil => exact h
  | cons call rest ih => exact ih (h.step call)

end Surface

/-- After any run the knots of a surface are in order from the origin, its estimates interpolate, its next
sample will be accepted between its neighbours, and what it rejects changes nothing. -/
theorem surface_sampled (generation : ℕ) (calls : List SurfaceCall) :
    (Surface.run { generation } calls).Sampled ∧ (Surface.run { generation } calls).Interpolates ∧
      (Surface.run { generation } calls).Refines ∧ (Surface.run { generation } calls).Rejects := by
  have hrun : (Surface.run { generation } calls).Sampled := (Surface.sampled_new generation).run calls
  exact ⟨hrun, hrun.interpolates, hrun.refines, Surface.rejects _⟩

end StockMesh.Native

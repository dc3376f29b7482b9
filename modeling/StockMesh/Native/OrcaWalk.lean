import StockMesh.Native.Orca

/-! # A table answers what a walk does

A walk swaps step by step from the pool head: a step whose need is covered is taken whole, the first one
that is not covered ends the walk (`Course.walk`). The table of a direction gives the output of the walk for
every admissible input (`quote_eq_walk`). The induction is on the rounds that are left, for any amount
already spent; a step is covered exactly when its end lies at or before the input, because the rounded-down
fee of the walk and the rounded-up fee of the table agree on that. -/

namespace StockMesh.Native.Orca

/-- Swap from a spot with `remain` left and `output` bought, in as many rounds as `decode` plans. -/
def Course.walk (c : Course) : ℕ → Spot → (remain output : ℕ) → NativeResult ℕ
  | 0, _, _, _ => .error .capacity
  | fuel + 1, s, remain, output => do
    match ← c.plan s with
    | none => .error .capacity
    | some p =>
      if p.need ≤ Rounding.net feeUnit p.rate remain then do
        let out ← word p.out
        let output ← wordAdd output out
        if 0 < p.debit ∧ remain = p.debit then .ok output else
        let next ← c.after s p
        if p.target = c.boundary then .error .capacity
        else walk c fuel next (remain - p.debit) output
      else lastStep c.zero s.sqrt s.liquidity p.rate remain output

/-- The quote of a walk. -/
def Course.walkQuote (c : Course) (s : Spot) (fees : TransferFee × TransferFee) (input : ℕ) :
    NativeResult ℕ := do
  if input = 0 ∨ maxInput < input then .error .capacity else
  let available ← fees.1.net input
  let result ← c.walk 2048 s available 0
  fees.2.net result

section Plan

variable {c : Course} {s : Spot} {p : Plan}

/-- The rates of a direction are below the whole. -/
structure Course.Bounded (c : Course) : Prop where
  fee_lt : c.fee < feeUnit

theorem rate_lt {a : Adaptive} {index : ℤ} {base rate : ℕ} {maxed : Bool}
    (h : a.rate index base = .ok (rate, maxed)) : rate < feeUnit := by
  obtain ⟨_, -, h⟩ := bind_eq_ok.mp h
  obtain ⟨_, -, h⟩ := bind_eq_ok.mp h
  obtain ⟨_, -, h⟩ := bind_eq_ok.mp h
  obtain ⟨_, -, h⟩ := bind_eq_ok.mp h
  cases h
  exact (Nat.min_le_right _ _).trans_lt (by decide)

theorem pace_rate_lt (hc : c.Bounded) {index target : ℤ} {rate : ℕ}
    (h : c.pace s index = .ok (rate, target)) : rate < feeUnit := by
  rw [Course.pace] at h
  split at h
  · cases h
    exact hc.fee_lt
  · obtain ⟨⟨r, maxed⟩, hr, h⟩ := bind_eq_ok.mp h
    dsimp only at h
    split at h <;> cases h <;> exact rate_lt hr

/-- What a plan says about its step. -/
structure Planned (c : Course) (s : Spot) (p : Plan) : Prop where
  rate_lt : p.rate < feeUnit
  need : needed c.zero s.sqrt p.price s.liquidity = .ok p.need
  debit : p.debit = Rounding.gross feeUnit p.rate p.need
  out : payout c.zero s.sqrt p.price s.liquidity = .ok p.out

theorem planned_of_plan (hc : c.Bounded) (h : c.plan s = .ok (some p)) : Planned c s p := by
  rw [Course.plan] at h
  split at h
  · cases h
  · obtain ⟨⟨rate, target⟩, hpace, h⟩ := bind_eq_ok.mp h
    have hrate := pace_rate_lt hc hpace
    obtain ⟨price, -, h⟩ := bind_eq_ok.mp h
    split at h
    · cases h
    obtain ⟨need, hneed, h⟩ := bind_eq_ok.mp h
    obtain ⟨charged, hcharged, h⟩ := bind_eq_ok.mp h
    obtain ⟨hlt, rfl⟩ := mul_eq_ok.mp hcharged
    obtain ⟨fee, hfee, h⟩ := bind_eq_ok.mp h
    obtain ⟨-, rfl⟩ := (div_eq_ok hlt).mp hfee
    obtain ⟨debit, hdebit, h⟩ := bind_eq_ok.mp h
    obtain ⟨-, rfl⟩ := wideAdd_eq_ok.mp hdebit
    obtain ⟨out, hout, h⟩ := bind_eq_ok.mp h
    cases h
    refine ⟨hrate, hneed, ?_, hout⟩
    rw [rounded_up, Rounding.gross]

/-- A step is covered exactly when its debit is there. -/
theorem Planned.covered_iff (h : Planned c s p) (remain : ℕ) :
    p.need ≤ Rounding.net feeUnit p.rate remain ↔ p.debit ≤ remain := by
  rw [h.debit]
  exact Rounding.le_net_iff h.rate_lt

/-- A step that costs or pays something has liquidity. -/
theorem Planned.liquidity_pos (h : Planned c s p) (hp : 0 < p.debit ∨ 0 < p.out) : 0 < s.liquidity := by
  rcases Nat.eq_zero_or_pos s.liquidity with hzero | hpos
  · have hneed := h.need
    have hout := h.out
    rw [hzero] at hneed hout
    have hdebit := h.debit
    rw [needed_of_zero hneed, Rounding.gross, Nat.zero_mul, Nat.zero_add] at hdebit
    rw [payout_of_zero hout] at hp
    simp only [Nat.lt_irrefl, or_false, hdebit] at hp
    rw [Rounding.lt_ceilDiv_iff (by have := h.rate_lt; omega)] at hp
    omega
  · exact hpos

/-- An amount that covers the need of a price pays out at least what the price pays out. -/
theorem payout_of_covered {zero : Bool} {sqrt price l need out a next out' : ℕ} (hl : 0 < l)
    (hneed : needed zero sqrt price l = .ok need) (hout : payout zero sqrt price l = .ok out)
    (hcovered : need ≤ a) (hnext : partialPrice zero sqrt l a = .ok next)
    (hout' : payout zero sqrt next l = .ok out') : out ≤ out' := by
  have hl' : 0 < l * q64 := Nat.mul_pos hl (by decide)
  cases zero
  · obtain ⟨hle, -, rfl⟩ := needed_up.mp hneed
    obtain ⟨-, hs, -, rfl⟩ := payout_up.mp hout
    obtain ⟨-, -, -, rfl⟩ := payout_up.mp hout'
    obtain ⟨-, rfl⟩ := (partialPrice_up hl).mp hnext
    exact Rounding.payUp_mono hs hle ((Rounding.le_up_iff hl (by decide)).mpr hcovered)
  · obtain ⟨hle, hp, -, rfl⟩ := needed_down.mp hneed
    obtain ⟨-, -, rfl⟩ := payout_down.mp hout
    obtain ⟨-, -, rfl⟩ := payout_down.mp hout'
    obtain ⟨-, -, -, rfl⟩ := (partialPrice_down hl).mp hnext
    exact Rounding.payDown_anti ((Rounding.down_le_iff hl' hp hle).mpr hcovered)

/-- Where the end of a step overflows, a step past the end overflows as well. -/
theorem lastStep_of_overflow (h : Planned c s p) {remain output : ℕ}
    (hcovered : p.need ≤ Rounding.net feeUnit p.rate remain) (hover : u64Size ≤ output + p.out)
    (hoverflow : u64Size - 1 - output < p.out) :
    lastStep c.zero s.sqrt s.liquidity p.rate remain output = .error .arithmetic := by
  have hl : 0 < s.liquidity := h.liquidity_pos (.inr (by omega))
  rw [lastStep]
  rcases hnext : partialPrice c.zero s.sqrt s.liquidity (Rounding.net feeUnit p.rate remain) with e | next
  · rw [partialPrice_error hl hnext]
    rfl
  rw [ok_bind]
  rcases hout : payout c.zero s.sqrt next s.liquidity with e | out
  · rw [payout_error hout]
    rfl
  have hle := payout_of_covered hl h.need h.out hcovered hnext hout
  rw [ok_bind, word]
  by_cases hword : out < u64Size
  · rw [if_pos hword, ok_bind, wordAdd, word, if_neg (by omega)]
    rfl
  · rw [if_neg hword]
    rfl

end Plan

/-! ## The table -/

section Lookup

variable {c : Course} {s : Spot} {fees : TransferFee × TransferFee}

/-- Segments that end before an input are passed over. -/
theorem lookup_cons_of_lt {segment : Segment} {rest : List Segment} {zero : Bool} {a : ℕ}
    (h : segment.endInput < a) :
    (⟨segment :: rest, zero, fees⟩ : Table).lookup a = (⟨rest, zero, fees⟩ : Table).lookup a := by
  simp only [Table.lookup, List.takeWhile_cons, h, decide_true, if_true, List.length_cons,
    List.getElem?_cons_succ]

/-- The first segment that ends at or after an input answers it. -/
theorem lookup_cons_of_le {segment : Segment} {rest : List Segment} {zero : Bool} {a : ℕ}
    (h : a ≤ segment.endInput) :
    (⟨segment :: rest, zero, fees⟩ : Table).lookup a =
      if segment.endInput = a then .ok segment.endOutput else
      if a < segment.beforeInput ∨ segment.liquidity = 0 then .error .capacity else
      lastStep zero segment.sqrt segment.liquidity segment.fee (a - segment.beforeInput)
        segment.beforeOutput := by
  have hnot : ¬segment.endInput < a := not_lt.mpr h
  simp only [Table.lookup, List.takeWhile_cons, hnot, decide_false, Bool.false_eq_true, if_false,
    List.length_nil, List.getElem?_cons_zero, okOr, ok_bind]

/-- The segments from a spot on answer what a walk from the spot does. -/
theorem lookup_compile (hc : c.Bounded) (fuel : ℕ) {spent output a : ℕ} {segments : List Segment}
    (h : c.compile fuel s spent output = .ok segments) (houtput : output < u64Size) (hspent : spent ≤ a)
    (ha : a ≤ maxInput) :
    (⟨segments, c.zero, fees⟩ : Table).lookup a = c.walk fuel s (a - spent) output := by
  have hmax : maxInput < u64Size - 1 := by decide
  induction fuel generalizing s spent output segments with
  | zero =>
    cases h
    rfl
  | succ fuel ih =>
    obtain ⟨plan, hplan, h⟩ := bind_eq_ok.mp h
    rw [Course.walk, hplan, ok_bind]
    rcases plan with - | p
    · cases h
      rfl
    have hp := planned_of_plan hc hplan
    have hcovered := hp.covered_iff (a - spent)
    dsimp only at h ⊢
    split at h
    · -- the end of the step is out of reach
      next hover =>
      cases h
      rw [lookup_cons_of_le (by dsimp only; omega)]
      have hpos : 0 < s.liquidity := hp.liquidity_pos (by omega)
      rw [if_neg (by dsimp only; omega), if_neg (by dsimp only; omega)]
      dsimp only
      by_cases hle : p.debit ≤ a - spent
      · rw [if_pos (hcovered.mpr hle)]
        have hout : u64Size - 1 - output < p.out := hover.resolve_left (by omega)
        rw [lastStep_of_overflow hp (hcovered.mpr hle) (by omega) hout]
        rcases hword : word p.out with e | out
        · rw [word_error hword]
          rfl
        · obtain ⟨-, rfl⟩ := word_eq_ok.mp hword
          rw [ok_bind, wordAdd, word, if_neg (by omega)]
          rfl
      · rw [if_neg (mt hcovered.mp hle)]
    · next hfits =>
      simp only [not_or, not_lt] at hfits
      obtain ⟨next, hnext, h⟩ := bind_eq_ok.mp h
      obtain ⟨rest, hrest, h⟩ := bind_eq_ok.mp h
      cases h
      have hout : output + p.out < u64Size := by omega
      -- what the walk does after the step, the rest of the table answers
      have hafter : spent + p.debit ≤ a → (⟨rest, c.zero, fees⟩ : Table).lookup a =
          if p.target = c.boundary then .error .capacity
          else c.walk fuel next (a - spent - p.debit) (output + p.out) := by
        intro hle
        by_cases hboundary : p.target = c.boundary
        · rw [if_pos (.inl hboundary)] at hrest
          cases hrest
          rw [if_pos hboundary]
          rfl
        · rw [if_neg (by omega)] at hrest
          rw [if_neg hboundary, Nat.sub_sub]
          exact ih hrest hout hle
      by_cases hle : p.debit ≤ a - spent
      · rw [if_pos (hcovered.mpr hle), word_of_lt (by omega), ok_bind, wordAdd_of_lt hout, ok_bind, hnext]
        by_cases hpos : 0 < p.debit
        · rw [if_pos hpos]
          by_cases hend : a - spent = p.debit
          · rw [if_pos ⟨hpos, hend⟩, lookup_cons_of_le (by dsimp only; omega)]
            exact if_pos (by dsimp only; omega)
          · rw [if_neg fun hboth => hend hboth.2, lookup_cons_of_lt (by dsimp only; omega)]
            exact hafter (by omega)
        · rw [if_neg hpos, if_neg fun hboth => hpos hboth.1]
          exact hafter (by omega)
      · have hpos : 0 < p.debit := by omega
        rw [if_neg (mt hcovered.mp hle), if_pos hpos, lookup_cons_of_le (by dsimp only; omega)]
        have hliquidity := hp.liquidity_pos (.inl hpos)
        rw [if_neg (by dsimp only; omega), if_neg (by dsimp only; omega)]

/-- A rate of two bytes is below the whole. -/
theorem bounded_of_course {key : Key} {pool : Buffer} {arrays : List Buffer} {oracle : Option Buffer}
    {time : ℕ} {zero : Bool} (h : course key pool arrays oracle time zero = .ok (c, s)) :
    c.Bounded ∧ c.zero = zero := by
  obtain ⟨-, h⟩ := ite_error_eq_ok.mp h
  obtain ⟨_, -, h⟩ := bind_eq_ok.mp h
  obtain ⟨fee, hfee, h⟩ := bind_eq_ok.mp h
  obtain ⟨_, -, h⟩ := bind_eq_ok.mp h
  obtain ⟨_, -, h⟩ := bind_eq_ok.mp h
  obtain ⟨_, -, h⟩ := bind_eq_ok.mp h
  obtain ⟨-, h⟩ := ite_error_eq_ok.mp h
  obtain ⟨_, -, h⟩ := bind_eq_ok.mp h
  obtain ⟨-, h⟩ := ite_error_eq_ok.mp h
  obtain ⟨_, -, h⟩ := bind_eq_ok.mp h
  obtain ⟨-, h⟩ := ite_error_eq_ok.mp h
  obtain ⟨_, -, h⟩ := bind_eq_ok.mp h
  obtain ⟨_, -, h⟩ := bind_eq_ok.mp h
  obtain ⟨_, -, h⟩ := bind_eq_ok.mp h
  obtain ⟨_, -, h⟩ := bind_eq_ok.mp h
  obtain ⟨-, h⟩ := ite_error_eq_ok.mp h
  cases h
  have hlt : fee < 256 ^ 2 := Buffer.number_lt (okOr_eq_ok.mp hfee)
  exact ⟨⟨hlt.trans (by decide)⟩, rfl⟩

end Lookup

/-- The quote of a compiled direction is the quote of the walk from the pool head. -/
theorem quote_eq_walk {key : Key} {pool : Buffer} {arrays : List Buffer} {oracle : Option Buffer}
    {fees : TransferFee × TransferFee} {time : ℕ} {zero : Bool} {t : Table}
    (h : Table.decode key pool arrays oracle fees time zero = .ok t) :
    ∃ c s, course key pool arrays oracle time zero = .ok (c, s) ∧
      ∀ input, t.quote input = c.walkQuote s fees input := by
  obtain ⟨⟨c, s⟩, hcourse, h⟩ := bind_eq_ok.mp h
  obtain ⟨segments, hsegments, h⟩ := bind_eq_ok.mp h
  obtain ⟨-, h⟩ := ite_error_eq_ok.mp h
  cases h
  obtain ⟨hbounded, rfl⟩ := bounded_of_course hcourse
  refine ⟨c, s, hcourse, fun input => ?_⟩
  rw [Table.quote, Course.walkQuote]
  by_cases hbad : input = 0 ∨ maxInput < input
  · rw [if_pos hbad, if_pos hbad]
  rw [if_neg hbad, if_neg hbad]
  rcases hnet : fees.1.net input with e | available
  · rfl
  rw [ok_bind, ok_bind, lookup_compile hbounded 2048 hsegments (by decide) (Nat.zero_le _)
    ((net_le hnet).trans (not_lt.mp fun h => hbad (.inr h))), Nat.sub_zero]

/-- A pool at price one with liquidity `2 ^ 40`. -/
def flatPool : Buffer := sparse 653
  [(0, [63, 149, 209, 12, 225, 128, 99, 9]), (41, [1]), (43, [1]), (45, [196, 9]), (54, [1]), (73, [1])]

/-- An array with one initialized tick, of index ten. -/
def flatArray : Buffer := sparse 9988
  [(0, [69, 97, 189, 190, 110, 7, 66, 187]), (1142, [1, 5]), (1159, [5])]

/-- Across the tick the table answers what the walk does. -/
theorem quote_eq_walk_example : ∃ t c s,
    Table.decode (.replicate 32 0) flatPool [flatArray] none ({}, {}) 0 false = .ok t ∧
    course (.replicate 32 0) flatPool [flatArray] none 0 false = .ok (c, s) ∧
    (t.quote 900000000).isOk = true ∧ ∀ input, t.quote input = c.walkQuote s ({}, {}) input := by
  obtain ⟨t, ht⟩ := exists_of_isOk (x := Table.decode (.replicate 32 0) flatPool [flatArray] none
    ({}, {}) 0 false) (by decide)
  obtain ⟨c, s, hcourse, hquote⟩ := quote_eq_walk ht
  have hok : (Table.decode (.replicate 32 0) flatPool [flatArray] none ({}, {}) 0 false >>=
      fun t => t.quote 900000000).isOk = true := by decide
  rw [ht] at hok
  exact ⟨t, c, s, ht, hcourse, hok, hquote⟩

end StockMesh.Native.Orca

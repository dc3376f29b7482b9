import Mathlib.Algebra.Order.Floor.Div
import Mathlib.Tactic.Linarith
import Mathlib.Tactic.Ring

/-! # Rounded fees and rounded price moves

Exact facts about chains of floors and ceilings of natural numbers.

* A fee of `fee / unit` on what is paid: the floor of what is left covers a need exactly when the payment
  covers the need grossed up with a ceiling (`le_net_iff`).
* A price moved by an amount through constant liquidity: downwards with the price rounded up, upwards with
  the move rounded down. The rounded move never uses more than the amount, and it stays before a target
  exactly as long as the amount is below the rounded need of the target. -/

namespace Rounding

/-- What a ceiling is at least. -/
theorem le_ceilDiv_mul (n : ℕ) {d : ℕ} (hd : 0 < d) : n ≤ d * (n ⌈/⌉ d) :=
  (ceilDiv_le_iff_le_mul hd).mp le_rfl

theorem lt_ceilDiv_iff {n d k : ℕ} (hd : 0 < d) : k < n ⌈/⌉ d ↔ d * k < n := by
  rw [← not_le, ceilDiv_le_iff_le_mul hd, not_le]

/-- Two ceilings in a row are one. -/
theorem ceilDiv_ceilDiv (n : ℕ) {d e : ℕ} (hd : 0 < d) (he : 0 < e) :
    n ⌈/⌉ d ⌈/⌉ e = n ⌈/⌉ (d * e) := by
  refine eq_of_forall_ge_iff fun k => ?_
  rw [ceilDiv_le_iff_le_mul he, ceilDiv_le_iff_le_mul hd,
    ceilDiv_le_iff_le_mul (Nat.mul_pos hd he), Nat.mul_assoc]

/-- A ceiling is the floor, plus one if something is left. -/
theorem ceilDiv_eq_div_add (n : ℕ) {d : ℕ} (hd : 0 < d) :
    n ⌈/⌉ d = n / d + if n % d = 0 then 0 else 1 := by
  refine eq_of_forall_ge_iff fun k => ?_
  have hsplit := Nat.div_add_mod n d
  have hmod := Nat.mod_lt n hd
  rw [ceilDiv_le_iff_le_mul hd]
  by_cases h : n % d = 0
  · rw [if_pos h, Nat.add_zero]
    constructor
    · exact fun hle => Nat.div_le_of_le_mul hle
    · intro hle
      have := Nat.mul_le_mul_left d hle
      omega
  · rw [if_neg h]
    constructor
    · intro hle
      refine Nat.lt_of_mul_lt_mul_left (a := d) ?_
      omega
    · intro hle
      have := Nat.mul_le_mul_left d hle
      rw [Nat.mul_add, Nat.mul_one] at this
      omega

theorem ceilDiv_mono {m n : ℕ} (h : m ≤ n) (d : ℕ) : m ⌈/⌉ d ≤ n ⌈/⌉ d := by
  rw [Nat.ceilDiv_eq_add_pred_div, Nat.ceilDiv_eq_add_pred_div]
  exact Nat.div_le_div_right (by omega)

/-- What a ceiling is at most. -/
theorem ceilDiv_mul_lt (n : ℕ) {d : ℕ} (hd : 0 < d) : d * (n ⌈/⌉ d) < n + d := by
  rw [Nat.ceilDiv_eq_add_pred_div]
  have := Nat.mul_div_le (n + d - 1) d
  omega

theorem ceilDiv_eq_of_dvd {n d : ℕ} (hd : 0 < d) (h : d ∣ n) : d * (n ⌈/⌉ d) = n := by
  rw [ceilDiv_eq_div_add n hd, Nat.mod_eq_zero_of_dvd h, if_pos rfl, Nat.add_zero, Nat.mul_div_cancel' h]

/-! ## Fees -/

/-- A price and its fee, each rounded up to whole lots: together they exceed the lots that cover both by
less than two, and not at all if the price is a number of lots. -/
theorem ceilDiv_add_ceilDiv_le {price fee unit lot lots : ℕ} (hunit : 0 < unit) (hlot : 0 < lot)
    (h : price * (unit + fee) ≤ unit * (lots * lot)) :
    price ⌈/⌉ lot + (price * fee) ⌈/⌉ (unit * lot) ≤ lots + 1 ∧
      (lot ∣ price → price ⌈/⌉ lot + (price * fee) ⌈/⌉ (unit * lot) ≤ lots) := by
  have hpos : 0 < unit * lot := Nat.mul_pos hunit hlot
  have hfee := ceilDiv_mul_lt (price * fee) hpos
  have hbudget : unit * price + price * fee ≤ unit * lot * lots := by
    calc unit * price + price * fee = price * (unit + fee) := by ring
      _ ≤ unit * (lots * lot) := h
      _ = unit * lot * lots := by ring
  constructor
  · have hprice : unit * lot * (price ⌈/⌉ lot) < unit * price + unit * lot := by
      calc unit * lot * (price ⌈/⌉ lot) = unit * (lot * (price ⌈/⌉ lot)) := Nat.mul_assoc ..
        _ < unit * (price + lot) := Nat.mul_lt_mul_of_pos_left (ceilDiv_mul_lt price hlot) hunit
        _ = unit * price + unit * lot := Nat.mul_add ..
    refine Nat.lt_succ_iff.mp (Nat.lt_of_mul_lt_mul_left (a := unit * lot) ?_)
    calc unit * lot * (price ⌈/⌉ lot + (price * fee) ⌈/⌉ (unit * lot))
        = unit * lot * (price ⌈/⌉ lot) + unit * lot * ((price * fee) ⌈/⌉ (unit * lot)) := Nat.mul_add ..
      _ < (unit * price + unit * lot) + (price * fee + unit * lot) := Nat.add_lt_add hprice hfee
      _ ≤ unit * lot * lots + 2 * (unit * lot) := by omega
      _ = unit * lot * (lots + 1 + 1) := by ring
  · intro hdvd
    have hprice : unit * lot * (price ⌈/⌉ lot) = unit * price := by
      rw [Nat.mul_assoc, ceilDiv_eq_of_dvd hlot hdvd]
    refine Nat.lt_succ_iff.mp (Nat.lt_of_mul_lt_mul_left (a := unit * lot) ?_)
    calc unit * lot * (price ⌈/⌉ lot + (price * fee) ⌈/⌉ (unit * lot))
        = unit * price + unit * lot * ((price * fee) ⌈/⌉ (unit * lot)) := by rw [Nat.mul_add, hprice]
      _ < unit * lot * lots + unit * lot := by omega
      _ = unit * lot * (lots + 1) := by ring

/-- A budget that is cut by the fee on it covers a price with its fee. -/
theorem mul_le_of_le_cut {price fee unit whole budget premium : ℕ} (hwhole : 0 < whole)
    (hpremium : whole * fee ≤ unit * premium) (h : price ≤ budget * whole / (whole + premium)) :
    price * (unit + fee) ≤ unit * budget := by
  have hcut : price * (whole + premium) ≤ budget * whole :=
    (Nat.le_div_iff_mul_le (by omega)).mp h
  refine Nat.le_of_mul_le_mul_left ?_ hwhole
  calc whole * (price * (unit + fee)) = price * (unit * whole) + price * (whole * fee) := by ring
    _ ≤ price * (unit * whole) + price * (unit * premium) :=
        Nat.add_le_add_left (Nat.mul_le_mul_left _ hpremium) _
    _ = unit * (price * (whole + premium)) := by ring
    _ ≤ unit * (budget * whole) := Nat.mul_le_mul_left _ hcut
    _ = whole * (unit * budget) := by ring

section Fees

variable {unit fee need paid : ℕ}

/-- What a fee on the payment leaves. -/
def net (unit fee paid : ℕ) : ℕ := paid * (unit - fee) / unit

/-- The need with the fee on top. -/
def gross (unit fee need : ℕ) : ℕ := need + need * fee ⌈/⌉ (unit - fee)

/-- What the fee leaves covers a need exactly when the payment covers the need grossed up. -/
theorem le_net_iff (h : fee < unit) : need ≤ net unit fee paid ↔ gross unit fee need ≤ paid := by
  have hleft : 0 < unit - fee := by omega
  have hsum : need * unit = need * (unit - fee) + need * fee := by
    rw [← Nat.mul_add, Nat.sub_add_cancel h.le]
  rw [net, gross, Nat.le_div_iff_mul_le (by omega)]
  constructor
  · intro hle
    have hneed : need ≤ paid := Nat.le_of_mul_le_mul_right
      (by omega : need * (unit - fee) ≤ paid * (unit - fee)) hleft
    have hceil : need * fee ⌈/⌉ (unit - fee) ≤ paid - need := by
      rw [ceilDiv_le_iff_le_mul hleft, Nat.mul_comm (unit - fee), Nat.sub_mul]
      omega
    omega
  · intro hle
    have hceil := le_ceilDiv_mul (need * fee) hleft
    have hmul := Nat.mul_le_mul_right (unit - fee) hle
    rw [Nat.add_mul, Nat.mul_comm (need * fee ⌈/⌉ (unit - fee))] at hmul
    omega

theorem net_le (unit fee paid : ℕ) : net unit fee paid ≤ paid := by
  rcases Nat.eq_zero_or_pos unit with rfl | hunit
  · simp [net]
  · rw [net]
    refine Nat.div_le_of_le_mul ?_
    rw [Nat.mul_comm unit]
    exact Nat.mul_le_mul_left paid (Nat.sub_le unit fee)

theorem net_mono {paid' : ℕ} (h : paid ≤ paid') : net unit fee paid ≤ net unit fee paid' :=
  Nat.div_le_div_right (Nat.mul_le_mul_right _ h)

theorem le_gross (unit fee need : ℕ) : need ≤ gross unit fee need := Nat.le_add_right _ _

/-- A fee of the amount itself, rounded up, stays within the amount. -/
theorem ceilDiv_fee_le (hunit : 0 < unit) (h : fee ≤ unit) (paid : ℕ) :
    paid * fee ⌈/⌉ unit ≤ paid := by
  rw [ceilDiv_le_iff_le_mul hunit, Nat.mul_comm unit]
  exact Nat.mul_le_mul_left paid h

/-- Withholding a rounded-up fee leaves the rounded-down rest. -/
theorem sub_ceilDiv_fee (hunit : 0 < unit) (h : fee ≤ unit) (paid : ℕ) :
    paid - paid * fee ⌈/⌉ unit = net unit fee paid := by
  have hle := ceilDiv_fee_le hunit h paid
  have hsplit : paid * unit = paid * (unit - fee) + paid * fee := by
    rw [← Nat.mul_add, Nat.sub_add_cancel h]
  refine eq_of_forall_le_iff fun k => ?_
  rw [net, Nat.le_div_iff_mul_le hunit, Nat.le_sub_iff_add_le hle]
  constructor
  · intro hk
    have hceil := le_ceilDiv_mul (paid * fee) hunit
    have hmul := Nat.mul_le_mul_right unit hk
    rw [Nat.add_mul, Nat.mul_comm (paid * fee ⌈/⌉ unit)] at hmul
    omega
  · intro hk
    have hkle : k ≤ paid := by
      refine Nat.le_of_mul_le_mul_right (hk.trans ?_) hunit
      exact Nat.mul_le_mul_left paid (Nat.sub_le unit fee)
    have hceil : paid * fee ⌈/⌉ unit ≤ paid - k := by
      rw [ceilDiv_le_iff_le_mul hunit, Nat.mul_comm unit, Nat.sub_mul]
      omega
    omega

end Fees

/-! ## Moves of a price -/

section Moves

variable {l s p a b unit : ℕ}

/-- The price after `a` has pushed it down, rounded up. -/
def down (l s a : ℕ) : ℕ := l * s ⌈/⌉ (l + a * s)

/-- What moves the price down from `s` to `p`, rounded up. -/
def needDown (l p s : ℕ) : ℕ := l * (s - p) ⌈/⌉ (s * p)

theorem down_le (h : 0 < l) : down l s a ≤ s := by
  rw [down, ceilDiv_le_iff_le_mul (by omega)]
  exact Nat.mul_le_mul_right s (Nat.le_add_right l _)

theorem down_anti (h : 0 < l) (hab : a ≤ b) : down l s b ≤ down l s a := by
  rw [down, ceilDiv_le_iff_le_mul (by omega)]
  refine (le_ceilDiv_mul (l * s) (by omega : 0 < l + a * s)).trans ?_
  exact Nat.mul_le_mul_right _ (Nat.add_le_add_left (Nat.mul_le_mul_right s hab) l)

/-- Whether an amount covers a need, without a division. -/
theorem needDown_le_iff (hp : 0 < p) (hs : p ≤ s) :
    needDown l p s ≤ a ↔ l * s ≤ (l + a * s) * p := by
  have hsplit : l * s = l * (s - p) + l * p := by rw [← Nat.mul_add, Nat.sub_add_cancel hs]
  rw [needDown, ceilDiv_le_iff_le_mul (Nat.mul_pos (by omega) hp), hsplit, Nat.add_mul,
    Nat.mul_comm (s * p) a, Nat.mul_assoc a s p, Nat.add_comm (l * p), Nat.add_le_add_iff_right]

/-- An amount that covers the need of a price reaches it, and only such an amount does. -/
theorem down_le_iff (h : 0 < l) (hp : 0 < p) (hs : p ≤ s) :
    down l s a ≤ p ↔ needDown l p s ≤ a := by
  rw [down, ceilDiv_le_iff_le_mul (by omega), needDown_le_iff hp hs]

theorem down_pos (h : 0 < l) (hs : 0 < s) : 0 < down l s a := by
  rw [down, lt_ceilDiv_iff (by omega), Nat.mul_zero]
  exact Nat.mul_pos h hs

/-- A move never needs more than its amount. -/
theorem needDown_down_le (h : 0 < l) (hs : 0 < s) : needDown l (down l s a) s ≤ a :=
  (down_le_iff h (down_pos h hs) (down_le h)).mp le_rfl

/-- The price after `a` has pushed it up, the move rounded down. -/
def up (unit l s a : ℕ) : ℕ := s + a * unit / l

/-- What moves the price up from `s` to `p`, rounded up. -/
def needUp (unit l s p : ℕ) : ℕ := l * (p - s) ⌈/⌉ unit

theorem up_mono (hab : a ≤ b) : up unit l s a ≤ up unit l s b :=
  Nat.add_le_add_left (Nat.div_le_div_right (Nat.mul_le_mul_right unit hab)) s

/-- An amount that covers the need of a price reaches it, and only such an amount does. -/
theorem le_up_iff (h : 0 < l) (hunit : 0 < unit) :
    p ≤ up unit l s a ↔ needUp unit l s p ≤ a := by
  rw [up, needUp, ceilDiv_le_iff_le_mul hunit, ← Nat.sub_le_iff_le_add', Nat.le_div_iff_mul_le h,
    Nat.mul_comm l, Nat.mul_comm unit]

/-- A move never needs more than its amount. -/
theorem needUp_up_le (h : 0 < l) (hunit : 0 < unit) : needUp unit l s (up unit l s a) ≤ a :=
  (le_up_iff h hunit).mp le_rfl

/-- What moving up from `s` to `p` pays out, rounded down. -/
def payUp (l s p : ℕ) : ℕ := l * (p - s) / (p * s)

/-- What moving down from `s` to `p` pays out, rounded down. -/
def payDown (unit l p s : ℕ) : ℕ := l * (s - p) / unit

theorem payDown_anti {p' : ℕ} (h : p ≤ p') : payDown unit l p' s ≤ payDown unit l p s :=
  Nat.div_le_div_right (Nat.mul_le_mul_left l (by omega))

theorem payUp_mono {p' : ℕ} (hs : 0 < s) (hsp : s ≤ p) (h : p ≤ p') :
    payUp l s p ≤ payUp l s p' := by
  have hp : 0 < p * s := Nat.mul_pos (by omega) hs
  have hp' : 0 < p' * s := Nat.mul_pos (by omega) hs
  -- the span grows faster than the price
  have hcross : (p - s) * p' ≤ (p' - s) * p := by
    obtain ⟨d, rfl⟩ := Nat.exists_eq_add_of_le hsp
    obtain ⟨e, rfl⟩ := Nat.exists_eq_add_of_le h
    have hd : s + d - s = d := by omega
    have he : s + d + e - s = d + e := by omega
    rw [hd, he]
    nlinarith
  rw [payUp, payUp, Nat.le_div_iff_mul_le hp']
  refine Nat.le_of_mul_le_mul_right ?_ hp
  calc l * (p - s) / (p * s) * (p' * s) * (p * s)
      = l * (p - s) / (p * s) * (p * s) * (p' * s) := by ring
    _ ≤ l * (p - s) * (p' * s) := Nat.mul_le_mul_right _ (Nat.div_mul_le_self _ _)
    _ = l * s * ((p - s) * p') := by ring
    _ ≤ l * s * ((p' - s) * p) := Nat.mul_le_mul_left _ hcross
    _ = l * (p' - s) * (p * s) := by ring

end Moves

end Rounding

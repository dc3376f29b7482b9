import Mathlib.Algebra.Order.Floor.Div
import Mathlib.Tactic.Ring

/-! # A total paid in capped instalments against a pro-rata floor

A plan pays a total in instalments of at most a cap. After each instalment what was received so far has
to reach the same share of the floor as was paid of the total, rounded up. Receiving more in one
instalment is credited to the next. Every state of a plan is determined by its number of instalments up
to the amount received (`OnTrack`). -/

namespace Instalments

/-- The total, the floor for it, and the largest instalment. -/
structure Terms where
  total : ℕ
  floor : ℕ
  cap : ℕ
  total_pos : 0 < total
  cap_pos : 0 < cap

/-- The instalments made, what they paid and what was received. -/
@[ext] structure Standing where
  count : ℕ
  paid : ℕ
  received : ℕ

/-- Before the first instalment. -/
def Standing.start : Standing := ⟨0, 0, 0⟩

/-- A rounded-up quotient is the quotient, plus one for a remainder. -/
theorem ceilDiv_eq_div_add {n d : ℕ} (hd : 0 < d) :
    n ⌈/⌉ d = n / d + if n % d ≠ 0 then 1 else 0 := by
  rw [Nat.ceilDiv_eq_add_pred_div]
  have hn := Nat.div_add_mod n d
  have hlt := Nat.mod_lt n hd
  generalize n / d = q at hn ⊢
  generalize n % d = r at hn hlt ⊢
  subst hn
  split
  · next hr =>
    rw [show d * q + r + d - 1 = r - 1 + d * (q + 1) by rw [Nat.mul_add]; omega,
      Nat.add_mul_div_left _ _ hd, Nat.div_eq_of_lt (by omega), Nat.zero_add]
  · next hr =>
    obtain rfl : r = 0 := not_not.mp hr
    rw [show d * q + 0 + d - 1 = d - 1 + d * q by omega, Nat.add_mul_div_left _ _ hd,
      Nat.div_eq_of_lt (by omega), Nat.zero_add, Nat.add_zero]

namespace Terms

variable (terms : Terms)

/-- The number of instalments of the plan. -/
def instalments : ℕ := terms.total ⌈/⌉ terms.cap

/-- The next instalment. -/
def due (paid : ℕ) : ℕ := min (terms.total - paid) terms.cap

/-- What has to be received for an amount paid. -/
def share (paid : ℕ) : ℕ := paid * terms.floor ⌈/⌉ terms.total

/-- The least that the next instalment has to receive. -/
def minimum (p : Standing) : ℕ := max (terms.share (p.paid + terms.due p.paid) - p.received) 1

/-- Pay the next instalment. -/
def pay (p : Standing) (received : ℕ) : Standing :=
  ⟨p.count + 1, p.paid + terms.due p.paid, p.received + received⟩

/-- The number of instalments determines what was paid, and the floor is met. -/
structure OnTrack (p : Standing) : Prop where
  paid_eq : p.paid = min (p.count * terms.cap) terms.total
  share_le : terms.share p.paid ≤ p.received
  count_le : p.count ≤ terms.instalments

variable {terms} {p : Standing}

theorem instalments_le_iff {k : ℕ} : terms.instalments ≤ k ↔ terms.total ≤ k * terms.cap := by
  rw [instalments, ceilDiv_le_iff_le_mul terms.cap_pos, Nat.mul_comm]

@[simp] theorem share_zero : terms.share 0 = 0 := by
  rw [share, Nat.zero_mul, zero_ceilDiv]

/-- The whole floor is due for the whole total. -/
@[simp] theorem share_total : terms.share terms.total = terms.floor := by
  apply le_antisymm
  · exact (ceilDiv_le_iff_le_mul terms.total_pos).mpr le_rfl
  · have h : terms.total * terms.floor ≤ terms.total * terms.share terms.total :=
      (ceilDiv_le_iff_le_mul terms.total_pos).mp le_rfl
    exact Nat.le_of_mul_le_mul_left h terms.total_pos

/-- No more than the floor is ever due. -/
theorem share_le_floor {paid : ℕ} (h : paid ≤ terms.total) : terms.share paid ≤ terms.floor :=
  (ceilDiv_le_iff_le_mul terms.total_pos).mpr (Nat.mul_le_mul_right _ h)

theorem due_le (paid : ℕ) : terms.due paid ≤ terms.total - paid := Nat.min_le_left _ _

theorem due_pos {paid : ℕ} (h : paid < terms.total) : 0 < terms.due paid :=
  lt_min (Nat.sub_pos_of_lt h) terms.cap_pos

theorem onTrack_start : terms.OnTrack .start where
  paid_eq := by
    show 0 = min (0 * terms.cap) terms.total
    rw [Nat.zero_mul, Nat.zero_min]
  share_le := by
    show terms.share 0 ≤ 0
    rw [share_zero]
  count_le := Nat.zero_le _

/-- A plan is complete after its number of instalments and not before. -/
theorem OnTrack.paid_lt_iff (h : terms.OnTrack p) :
    p.paid < terms.total ↔ p.count < terms.instalments := by
  have hpaid := h.paid_eq
  rw [← not_le, ← not_le, not_iff_not, instalments_le_iff]
  omega

theorem OnTrack.paid_le (h : terms.OnTrack p) : p.paid ≤ terms.total :=
  h.paid_eq.le.trans (Nat.min_le_right _ _)

/-- A complete plan has received its floor. -/
theorem OnTrack.floor_le (h : terms.OnTrack p) (hpaid : p.paid = terms.total) :
    terms.floor ≤ p.received := by
  have hshare := h.share_le
  rwa [hpaid, share_total] at hshare

/-- An instalment that receives its minimum reaches the share that is due after it. -/
theorem share_le_of_minimum {received : ℕ} (h : terms.minimum p ≤ received) :
    terms.share (p.paid + terms.due p.paid) ≤ p.received + received := by
  have hmin := (Nat.le_max_left _ _).trans h
  omega

/-- An instalment that receives its minimum stays on track. -/
theorem OnTrack.pay (h : terms.OnTrack p) (hlt : p.paid < terms.total) {received : ℕ}
    (hreceived : terms.minimum p ≤ received) : terms.OnTrack (terms.pay p received) where
  paid_eq := by
    show p.paid + min (terms.total - p.paid) terms.cap = min ((p.count + 1) * terms.cap) terms.total
    have hpaid := h.paid_eq
    rw [Nat.add_mul, Nat.one_mul]
    omega
  share_le := share_le_of_minimum hreceived
  count_le := h.paid_lt_iff.mp hlt

end Terms

end Instalments

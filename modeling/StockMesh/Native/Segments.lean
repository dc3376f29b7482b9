import StockMesh.Native.Curves
import StockMesh.Foundation.Rounding

/-! # Checked arithmetic of one price segment

The wide integers of the native crate and the moves of a price inside one liquidity segment, which the
concentrated pools share. `mul`, `div` and the rest are checked against 256 bits; their values are the
rounded moves of `Rounding`. -/

namespace StockMesh.Native

/-- Largest value of a `U256`, plus one. -/
def u256Size : ℕ := 115792089237316195423570985008687907853269984665640564039457584007913129639936

/-- One in Q64 (`Q`). -/
def q64 : ℕ := 18446744073709551616

/-- A fee rate is a part of this (`1_000_000`). -/
def feeUnit : ℕ := 1000000

/-- `U256::checked_mul(..).ok_or(Error::Arithmetic)`. -/
def mul (a b : ℕ) : NativeResult ℕ := if a * b < u256Size then .ok (a * b) else .error .arithmetic

/-- `U256::checked_add(..).ok_or(Error::Arithmetic)`. -/
def wideAdd (a b : ℕ) : NativeResult ℕ :=
  if a + b < u256Size then .ok (a + b) else .error .arithmetic

/-- `div`. -/
def div (n d : ℕ) (up : Bool) : NativeResult ℕ :=
  if d = 0 then .error .arithmetic
  else if up = true ∧ n % d ≠ 0 then wideAdd (n / d) 1
  else .ok (n / d)

/-- `small`. -/
def small (x : ℕ) : NativeResult ℕ := if x < u128Size then .ok x else .error .arithmetic

/-- `u64::try_from(..).map_err(|_| Error::Arithmetic)`. -/
def word (x : ℕ) : NativeResult ℕ := if x < u64Size then .ok x else .error .arithmetic

/-- `u64::checked_add(..).ok_or(Error::Arithmetic)`. -/
def wordAdd (a b : ℕ) : NativeResult ℕ := word (a + b)

/-- `checked_sub(..).ok_or(Error::Arithmetic)`. -/
def sub (a b : ℕ) : NativeResult ℕ := if b ≤ a then .ok (a - b) else .error .arithmetic

/-- An overflow-checked `i32` operation. -/
def i32Op (n : ℤ) : NativeResult ℤ :=
  if -2147483648 ≤ n ∧ n ≤ 2147483647 then .ok n else .error .overflow

/-- `i32::checked_add` and `checked_mul`, with `Arithmetic` for an overflow. -/
def i32Fits (n : ℤ) : NativeResult ℤ :=
  if -2147483648 ≤ n ∧ n ≤ 2147483647 then .ok n else .error .arithmetic

/-- `delta0`. -/
def delta0 (lo hi l : ℕ) (up : Bool) : NativeResult ℕ := do
  let span ← sub hi lo
  let n ← mul (l * q64) span
  let quotient ← div n hi up
  div quotient lo up

/-- `delta1`. -/
def delta1 (lo hi l : ℕ) (up : Bool) : NativeResult ℕ := do
  let span ← sub hi lo
  let n ← mul l span
  div n q64 up

/-- `change`. -/
def change (l : ℕ) (net : ℤ) (zero : Bool) : NativeResult ℕ :=
  if xor (decide (net < 0)) zero = true then sub l net.natAbs else small (l + net.natAbs)

/-- What the move between two prices takes in, rounded up. -/
def needed (zero : Bool) (sqrt target liquidity : ℕ) : NativeResult ℕ :=
  if zero = true then delta0 target sqrt liquidity true else delta1 sqrt target liquidity true

/-- What the move between two prices pays out, rounded down. -/
def payout (zero : Bool) (sqrt next liquidity : ℕ) : NativeResult ℕ :=
  if zero = true then delta1 next sqrt liquidity false else delta0 sqrt next liquidity false

/-- The price after an amount that does not reach the end of the segment. -/
def partialPrice (zero : Bool) (sqrt liquidity amount : ℕ) : NativeResult ℕ :=
  if zero = true then do
    let l := liquidity * q64
    let n ← mul l sqrt
    let moved ← mul amount sqrt
    let d ← wideAdd l moved
    let price ← div n d true
    small price
  else if liquidity = 0 then .error .overflow
  else small (sqrt + amount * q64 / liquidity)

/-- A check that was passed. -/
theorem ite_error_eq_ok {ε α : Type} {p : Prop} [Decidable p] {e : ε} {x : Except ε α} {a : α} :
    (if p then .error e else x) = .ok a ↔ ¬p ∧ x = .ok a := by
  by_cases h : p <;> simp [h]

/-- A transfer never delivers more than was sent. -/
theorem net_le {fee : TransferFee} {amount n : ℕ} (h : fee.net amount = .ok n) : n ≤ amount := by
  rw [TransferFee.net] at h
  split at h
  · cases h
    exact Nat.sub_le _ _
  · cases h

/-! ## Values -/

section Values

variable {a b c n d l lo hi : ℕ} {up : Bool}

@[simp] theorem mul_eq_ok : mul a b = .ok c ↔ a * b < u256Size ∧ a * b = c := by
  by_cases h : a * b < u256Size <;> simp [mul, h]

@[simp] theorem wideAdd_eq_ok : wideAdd a b = .ok c ↔ a + b < u256Size ∧ a + b = c := by
  by_cases h : a + b < u256Size <;> simp [wideAdd, h]

@[simp] theorem small_eq_ok : small a = .ok b ↔ a < u128Size ∧ a = b := by
  by_cases h : a < u128Size <;> simp [small, h]

@[simp] theorem word_eq_ok : word a = .ok b ↔ a < u64Size ∧ a = b := by
  by_cases h : a < u64Size <;> simp [word, h]

@[simp] theorem wordAdd_eq_ok : wordAdd a b = .ok c ↔ a + b < u64Size ∧ a + b = c := word_eq_ok

theorem word_of_lt (h : a < u64Size) : word a = .ok a := if_pos h

theorem wordAdd_of_lt (h : a + b < u64Size) : wordAdd a b = .ok (a + b) := if_pos h

@[simp] theorem sub_eq_ok : sub a b = .ok c ↔ b ≤ a ∧ a - b = c := by
  by_cases h : b ≤ a <;> simp [sub, h]

/-- A quotient of wide integers, rounded as asked. -/
def rounded (n d : ℕ) (up : Bool) : ℕ := if up = true then n ⌈/⌉ d else n / d

theorem rounded_up : rounded n d true = n ⌈/⌉ d := if_pos rfl

theorem rounded_down : rounded n d false = n / d := if_neg Bool.false_ne_true

theorem div_of_pos (hn : n < u256Size) (hd : 0 < d) : div n d up = .ok (rounded n d up) := by
  rw [div, if_neg (by omega)]
  by_cases h : up = true ∧ n % d ≠ 0
  · have hlt : n / d + 1 < u256Size := by
      have hsplit := Nat.div_add_mod n d
      -- something is left, so the divisor is above one
      have hd2 : 2 ≤ d := by
        rcases Nat.lt_or_ge d 2 with h2 | h2
        · have hone : d = 1 := by omega
          rw [hone, Nat.mod_one] at h
          exact absurd rfl h.2
        · exact h2
      have hmul := Nat.mul_le_mul_right (n / d) hd2
      have hbig : 4 < u256Size := by decide
      omega
    rw [if_pos h, wideAdd, if_pos hlt, rounded, if_pos h.1, Rounding.ceilDiv_eq_div_add n hd, if_neg h.2]
  · rw [if_neg h, rounded]
    by_cases hup : up = true
    · have hzero : n % d = 0 := by
        by_contra hne
        exact h ⟨hup, hne⟩
      rw [if_pos hup, Rounding.ceilDiv_eq_div_add n hd, if_pos hzero, Nat.add_zero]
    · rw [if_neg hup]

theorem div_eq_ok (hn : n < u256Size) : div n d up = .ok c ↔ 0 < d ∧ rounded n d up = c := by
  rcases Nat.eq_zero_or_pos d with rfl | hd
  · simp [div]
  · rw [div_of_pos hn hd, Except.ok.injEq]
    simp [hd]

theorem rounded_le (hd : 0 < d) : rounded n d up ≤ n := by
  rw [rounded]
  split
  · rw [ceilDiv_le_iff_le_mul hd]
    exact Nat.le_mul_of_pos_left n hd
  · exact Nat.div_le_self n d

/-- Two divisions in a row round as one. -/
theorem rounded_rounded {e : ℕ} (hd : 0 < d) (he : 0 < e) :
    rounded (rounded n d up) e up = rounded n (d * e) up := by
  cases up
  · exact Nat.div_div_eq_div_mul n d e
  · exact Rounding.ceilDiv_ceilDiv n hd he

theorem delta0_eq_ok : delta0 lo hi l up = .ok c ↔
    lo ≤ hi ∧ 0 < lo ∧ l * q64 * (hi - lo) < u256Size ∧
      rounded (l * q64 * (hi - lo)) (hi * lo) up = c := by
  rw [delta0, bind_eq_ok]
  constructor
  · rintro ⟨span, hspan, h⟩
    obtain ⟨hle, rfl⟩ := sub_eq_ok.mp hspan
    obtain ⟨n, hn, h⟩ := bind_eq_ok.mp h
    obtain ⟨hlt, rfl⟩ := mul_eq_ok.mp hn
    obtain ⟨quotient, hquotient, h⟩ := bind_eq_ok.mp h
    obtain ⟨hhi, rfl⟩ := (div_eq_ok hlt).mp hquotient
    obtain ⟨hlo, rfl⟩ := (div_eq_ok ((rounded_le hhi).trans_lt hlt)).mp h
    exact ⟨hle, hlo, hlt, (rounded_rounded hhi hlo).symm⟩
  · rintro ⟨hle, hlo, hlt, rfl⟩
    have hhi : 0 < hi := by omega
    refine ⟨hi - lo, sub_eq_ok.mpr ⟨hle, rfl⟩, ?_⟩
    rw [mul, if_pos hlt, ok_bind, div_of_pos hlt hhi, ok_bind,
      div_of_pos ((rounded_le hhi).trans_lt hlt) hlo, rounded_rounded hhi hlo]

theorem delta1_eq_ok : delta1 lo hi l up = .ok c ↔
    lo ≤ hi ∧ l * (hi - lo) < u256Size ∧ rounded (l * (hi - lo)) q64 up = c := by
  have hq : 0 < q64 := by decide
  rw [delta1, bind_eq_ok]
  constructor
  · rintro ⟨span, hspan, h⟩
    obtain ⟨hle, rfl⟩ := sub_eq_ok.mp hspan
    obtain ⟨n, hn, h⟩ := bind_eq_ok.mp h
    obtain ⟨hlt, rfl⟩ := mul_eq_ok.mp hn
    obtain ⟨-, rfl⟩ := (div_eq_ok hlt).mp h
    exact ⟨hle, hlt, rfl⟩
  · rintro ⟨hle, hlt, rfl⟩
    refine ⟨hi - lo, sub_eq_ok.mpr ⟨hle, rfl⟩, ?_⟩
    rw [mul, if_pos hlt, ok_bind, div_of_pos hlt hq]

end Values

/-! ## Moves -/

section Moves

variable {zero : Bool} {s p l a n : ℕ}

theorem needed_down : needed true s p l = .ok n ↔
    p ≤ s ∧ 0 < p ∧ l * q64 * (s - p) < u256Size ∧ Rounding.needDown (l * q64) p s = n := by
  rw [needed, if_pos rfl, delta0_eq_ok, rounded_up, Rounding.needDown]

theorem needed_up : needed false s p l = .ok n ↔
    s ≤ p ∧ l * (p - s) < u256Size ∧ Rounding.needUp q64 l s p = n := by
  rw [needed, if_neg Bool.false_ne_true, delta1_eq_ok, rounded_up, Rounding.needUp]

theorem payout_down : payout true s p l = .ok n ↔
    p ≤ s ∧ l * (s - p) < u256Size ∧ Rounding.payDown q64 l p s = n := by
  rw [payout, if_pos rfl, delta1_eq_ok, rounded_down, Rounding.payDown]

theorem payout_up : payout false s p l = .ok n ↔
    s ≤ p ∧ 0 < s ∧ l * q64 * (p - s) < u256Size ∧ Rounding.payUp (l * q64) s p = n := by
  rw [payout, if_neg Bool.false_ne_true, delta0_eq_ok, rounded_down, Rounding.payUp]

theorem partialPrice_down (hl : 0 < l) : partialPrice true s l a = .ok n ↔
    l * q64 * s < u256Size ∧ l * q64 + a * s < u256Size ∧ Rounding.down (l * q64) s a < u128Size ∧
      Rounding.down (l * q64) s a = n := by
  have hq : 0 < l * q64 := Nat.mul_pos hl (by decide)
  rw [partialPrice, if_pos rfl, Rounding.down]
  constructor
  · intro h
    obtain ⟨_, hn, h⟩ := bind_eq_ok.mp h
    obtain ⟨hlt, rfl⟩ := mul_eq_ok.mp hn
    obtain ⟨_, hmoved, h⟩ := bind_eq_ok.mp h
    obtain ⟨-, rfl⟩ := mul_eq_ok.mp hmoved
    obtain ⟨_, hd, h⟩ := bind_eq_ok.mp h
    obtain ⟨hsum, rfl⟩ := wideAdd_eq_ok.mp hd
    obtain ⟨_, hprice, h⟩ := bind_eq_ok.mp h
    obtain ⟨-, rfl⟩ := (div_eq_ok hlt).mp hprice
    rw [rounded_up] at h
    exact ⟨hlt, hsum, small_eq_ok.mp h⟩
  · rintro ⟨hlt, hsum, hsmall, rfl⟩
    have hmoved : a * s < u256Size := by omega
    dsimp only
    rw [mul, if_pos hlt, ok_bind, mul, if_pos hmoved, ok_bind, wideAdd, if_pos hsum, ok_bind,
      div_of_pos hlt (by omega), ok_bind, rounded_up]
    exact small_eq_ok.mpr ⟨hsmall, rfl⟩

theorem partialPrice_up (hl : 0 < l) : partialPrice false s l a = .ok n ↔
    Rounding.up q64 l s a < u128Size ∧ Rounding.up q64 l s a = n := by
  rw [partialPrice, if_neg Bool.false_ne_true, if_neg (by omega), Rounding.up]
  exact small_eq_ok

/-- Without liquidity nothing moves. -/
theorem needed_of_zero (h : needed zero s p 0 = .ok n) : n = 0 := by
  cases zero
  · obtain ⟨-, -, rfl⟩ := needed_up.mp h
    simp [Rounding.needUp]
  · obtain ⟨-, -, -, rfl⟩ := needed_down.mp h
    simp [Rounding.needDown]

theorem payout_of_zero (h : payout zero s p 0 = .ok n) : n = 0 := by
  cases zero
  · obtain ⟨-, -, -, rfl⟩ := payout_up.mp h
    simp [Rounding.payUp]
  · obtain ⟨-, -, rfl⟩ := payout_down.mp h
    simp [Rounding.payDown]

end Moves

/-! ## Errors -/

section Errors

variable {zero : Bool} {a b n d s p l lo hi : ℕ} {up : Bool} {e : NativeError}

theorem mul_error (h : mul a b = .error e) : e = .arithmetic := by
  rw [mul] at h
  split at h <;> cases h
  rfl

theorem wideAdd_error (h : wideAdd a b = .error e) : e = .arithmetic := by
  rw [wideAdd] at h
  split at h <;> cases h
  rfl

theorem small_error (h : small a = .error e) : e = .arithmetic := by
  rw [small] at h
  split at h <;> cases h
  rfl

theorem word_error (h : word a = .error e) : e = .arithmetic := by
  rw [word] at h
  split at h <;> cases h
  rfl

theorem sub_error (h : sub a b = .error e) : e = .arithmetic := by
  rw [sub] at h
  split at h <;> cases h
  rfl

theorem div_error (h : div n d up = .error e) : e = .arithmetic := by
  rw [div] at h
  split at h
  · cases h
    rfl
  split at h
  · exact wideAdd_error h
  · cases h

/-- A sequence ends with an error of one of its parts. -/
theorem bind_error {α β : Type} {x : NativeResult α} {f : α → NativeResult β}
    (h : (x >>= f) = .error e) : x = .error e ∨ ∃ a, x = .ok a ∧ f a = .error e := by
  rcases x with e' | a
  · cases h
    exact .inl rfl
  · exact .inr ⟨a, rfl, h⟩

theorem delta0_error (h : delta0 lo hi l up = .error e) : e = .arithmetic := by
  rcases bind_error h with h | ⟨_, -, h⟩
  · exact sub_error h
  rcases bind_error h with h | ⟨_, -, h⟩
  · exact mul_error h
  rcases bind_error h with h | ⟨_, -, h⟩ <;> exact div_error h

theorem delta1_error (h : delta1 lo hi l up = .error e) : e = .arithmetic := by
  rcases bind_error h with h | ⟨_, -, h⟩
  · exact sub_error h
  rcases bind_error h with h | ⟨_, -, h⟩
  · exact mul_error h
  · exact div_error h

theorem payout_error (h : payout zero s p l = .error e) : e = .arithmetic := by
  cases zero
  · exact delta0_error h
  · exact delta1_error h

theorem needed_error (h : needed zero s p l = .error e) : e = .arithmetic := by
  cases zero
  · exact delta1_error h
  · exact delta0_error h

theorem partialPrice_error (hl : 0 < l) (h : partialPrice zero s l a = .error e) : e = .arithmetic := by
  cases zero
  · rw [partialPrice, if_neg Bool.false_ne_true, if_neg (by omega)] at h
    exact small_error h
  · rcases bind_error h with h | ⟨_, -, h⟩
    · exact mul_error h
    rcases bind_error h with h | ⟨_, -, h⟩
    · exact mul_error h
    rcases bind_error h with h | ⟨_, -, h⟩
    · exact wideAdd_error h
    rcases bind_error h with h | ⟨_, -, h⟩
    · exact div_error h
    · exact small_error h

end Errors

end StockMesh.Native

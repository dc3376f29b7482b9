import StockMesh.Native.Clmm

/-! # One step of a concentrated pool

A step reaches its target exactly when what the fee leaves covers the need, and then it does not depend on
what remains (`segment_of_le`). So a full step that was taken once is taken again whenever its debit is
there (`segment_repeat`). -/

namespace StockMesh.Native

variable {zero feeInput : Bool} {fee target sqrt liquidity remain n : ℕ} {s : Step}

/-- A need that is covered. -/
theorem segment_of_le (hneed : needed zero sqrt target liquidity = .ok n)
    (hle : n ≤ available feeInput fee remain) :
    segment zero feeInput fee target sqrt liquidity remain =
      fullStep zero feeInput fee target sqrt liquidity n := by
  rw [segment, hneed, ok_bind, if_pos hle]

/-- A need that is not covered. -/
theorem segment_of_lt (hneed : needed zero sqrt target liquidity = .ok n)
    (hlt : available feeInput fee remain < n) :
    segment zero feeInput fee target sqrt liquidity remain =
      partialStep zero feeInput fee sqrt liquidity remain := by
  rw [segment, hneed, ok_bind, if_neg (not_le.mpr hlt)]

/-- Every step has a need. -/
theorem needed_of_segment (h : segment zero feeInput fee target sqrt liquidity remain = .ok s) :
    ∃ n, needed zero sqrt target liquidity = .ok n := by
  obtain ⟨n, hneed, -⟩ := bind_eq_ok.mp h
  exact ⟨n, hneed⟩

theorem reached_of_fullStep (h : fullStep zero feeInput fee target sqrt liquidity n = .ok s) :
    s.reached = true ∧ s.next = target := by
  obtain ⟨_, -, h⟩ := bind_eq_ok.mp h
  obtain ⟨_, -, h⟩ := bind_eq_ok.mp h
  obtain ⟨_, -, h⟩ := bind_eq_ok.mp h
  obtain ⟨_, -, h⟩ := bind_eq_ok.mp h
  obtain ⟨_, -, h⟩ := bind_eq_ok.mp h
  cases h
  exact ⟨rfl, rfl⟩

theorem reached_of_partialStep (h : partialStep zero feeInput fee sqrt liquidity remain = .ok s) :
    s.reached = false ∧ s.debit = remain := by
  obtain ⟨_, -, h⟩ := bind_eq_ok.mp h
  obtain ⟨_, -, h⟩ := bind_eq_ok.mp h
  obtain ⟨_, -, h⟩ := bind_eq_ok.mp h
  obtain ⟨_, -, h⟩ := bind_eq_ok.mp h
  obtain ⟨_, -, h⟩ := bind_eq_ok.mp h
  obtain ⟨_, -, h⟩ := bind_eq_ok.mp h
  cases h
  exact ⟨rfl, rfl⟩

/-- Whether a step reached its target. -/
theorem reached_iff (hneed : needed zero sqrt target liquidity = .ok n)
    (h : segment zero feeInput fee target sqrt liquidity remain = .ok s) :
    s.reached = true ↔ n ≤ available feeInput fee remain := by
  rcases Nat.lt_or_ge (available feeInput fee remain) n with hlt | hle
  · rw [segment_of_lt hneed hlt] at h
    simp [(reached_of_partialStep h).1, hlt]
  · rw [segment_of_le hneed hle] at h
    simp [(reached_of_fullStep h).1, hle]

/-- A step that reached its target ends there. -/
theorem next_of_reached (h : segment zero feeInput fee target sqrt liquidity remain = .ok s)
    (hs : s.reached = true) : s.next = target := by
  obtain ⟨n, hneed⟩ := needed_of_segment h
  rw [segment_of_le hneed ((reached_iff hneed h).mp hs)] at h
  exact (reached_of_fullStep h).2

/-- A step that does not reach its target uses everything up. -/
theorem debit_of_not_reached (h : segment zero feeInput fee target sqrt liquidity remain = .ok s)
    (hs : ¬s.reached = true) : s.debit = remain := by
  obtain ⟨n, hneed⟩ := needed_of_segment h
  rw [segment_of_lt hneed (not_le.mp (mt (reached_iff hneed h).mpr hs))] at h
  exact (reached_of_partialStep h).2

/-- What a step that was reached costs, as long as amounts are words. -/
theorem debit_of_fullStep (hfee : fee < feeUnit) (hle : n ≤ available feeInput fee remain)
    (hremain : remain < u64Size) (h : fullStep zero feeInput fee target sqrt liquidity n = .ok s) :
    s.debit = if feeInput = true then Rounding.gross feeUnit fee n else n := by
  obtain ⟨_, hspent, h⟩ := bind_eq_ok.mp h
  obtain ⟨-, rfl⟩ := word_eq_ok.mp hspent
  obtain ⟨_, -, h⟩ := bind_eq_ok.mp h
  obtain ⟨_, -, h⟩ := bind_eq_ok.mp h
  obtain ⟨_, -, h⟩ := bind_eq_ok.mp h
  obtain ⟨debit, hdebit, h⟩ := bind_eq_ok.mp h
  cases h
  cases feeInput with
  | false => exact (Except.ok.inj hdebit).symm
  | true =>
    rw [debitOf, if_pos rfl] at hdebit
    obtain ⟨-, rfl⟩ := wordAdd_eq_ok.mp hdebit
    -- the gross need is at most what remained, so the cast is exact
    have hgross : Rounding.gross feeUnit fee n ≤ remain := (Rounding.le_net_iff hfee).mp hle
    rw [Rounding.gross] at hgross
    rw [if_pos rfl, Rounding.gross, Nat.mod_eq_of_lt (by omega)]

/-- The debit of a full step covers its need exactly when the need is covered. -/
theorem debit_le_iff (hfee : fee < feeUnit) (hle : n ≤ available feeInput fee remain)
    (hremain : remain < u64Size) (h : fullStep zero feeInput fee target sqrt liquidity n = .ok s)
    (r : ℕ) : s.debit ≤ r ↔ n ≤ available feeInput fee r := by
  rw [debit_of_fullStep hfee hle hremain h]
  cases feeInput with
  | false => exact Iff.rfl
  | true => exact (Rounding.le_net_iff hfee).symm

/-- A full step is repeated by whatever covers its debit. -/
theorem segment_repeat (hfee : fee < feeUnit) (hremain : remain < u64Size)
    (h : segment zero feeInput fee target sqrt liquidity remain = .ok s) (hs : s.reached = true)
    {r : ℕ} (hr : s.debit ≤ r) : segment zero feeInput fee target sqrt liquidity r = .ok s := by
  obtain ⟨n, hneed⟩ := needed_of_segment h
  have hle := (reached_iff hneed h).mp hs
  rw [segment_of_le hneed hle] at h
  rw [segment_of_le hneed ((debit_le_iff hfee hle hremain h r).mp hr), h]

/-- A step costs at most what remains. -/
theorem debit_le (hfee : fee < feeUnit) (hremain : remain < u64Size)
    (h : segment zero feeInput fee target sqrt liquidity remain = .ok s) : s.debit ≤ remain := by
  obtain ⟨n, hneed⟩ := needed_of_segment h
  rcases Nat.lt_or_ge (available feeInput fee remain) n with hlt | hle
  · rw [segment_of_lt hneed hlt] at h
    exact (reached_of_partialStep h).2.le
  · rw [segment_of_le hneed hle] at h
    exact (debit_le_iff hfee hle hremain h remain).mpr hle

end StockMesh.Native

import StockMesh.Native.Clmm

/-! # What decoding a concentrated pool gives

The head of a decoded curve is what its bytes say (`readHead`), and its ticks are made by the build. -/

namespace StockMesh.Native

/-- Every element of a traversal comes from one that was traversed. -/
theorem exists_of_mapM {ε α β : Type} {f : α → Except ε β} {xs : List α} {ys : List β}
    (h : xs.mapM f = .ok ys) {y : β} (hy : y ∈ ys) : ∃ x ∈ xs, f x = .ok y := by
  have hforall := mapM_eq_ok.mp h
  clear h
  induction hforall with
  | nil => cases hy
  | cons hx _ ih =>
    rcases List.mem_cons.mp hy with rfl | hy
    · exact ⟨_, List.mem_cons_self, hx⟩
    · obtain ⟨x, hmem, hfx⟩ := ih hy
      exact ⟨x, List.mem_cons_of_mem _ hmem, hfx⟩

/-! ## What the bytes say -/

/-- What a quote reads of a curve besides its ticks. -/
structure Head where
  sqrt : ℕ
  liquidity : ℕ
  current : ℤ
  fee : ℕ
  feeOn : ℕ
  inputFee : TransferFee
  outputFee : TransferFee
  byreal : Bool
  spacing : ℤ
  dynamic : Option DynamicFee

/-- The head of a curve. -/
def ClmmCurve.head {τ : Type} (c : ClmmCurve τ) : Head where
  sqrt := c.sqrt
  liquidity := c.liquidity
  current := c.current
  fee := c.fee
  feeOn := c.feeOn
  inputFee := c.inputFee
  outputFee := c.outputFee
  byreal := c.byreal
  spacing := c.spacing
  dynamic := c.dynamic

/-- The head in the bytes of a pool and its configuration. -/
def readHead (pool config : Buffer) (fees : TransferFee × TransferFee) (byreal : Bool) (timestamp : ℕ) :
    NativeResult Head := do
  let fee ← tradeFee byreal pool config
  let spacing ← uintAt pool 235 2
  let current ← intAt pool 269 4
  let dynamic ← dynamicFee byreal pool spacing current timestamp
  let sqrt ← uintAt pool 253 16
  let liquidity ← uintAt pool 237 16
  .ok
    { sqrt, liquidity, current, fee
      feeOn := (pool.byte 390).toNat
      inputFee := fees.1
      outputFee := fees.2
      byreal
      spacing := spacing
      dynamic }

section Decode

variable {τ : Type} {build : TickBuild τ} {poolKey : Key} {pool config : Buffer} {arrays : List Buffer}
  {fees : TransferFee × TransferFee} {byreal : Bool} {timestamp : ℕ} {c : ClmmCurve τ}

/-- The steps of a decoding that succeeded. -/
theorem decode_eq_ok (h : decodeInner build poolKey pool config arrays fees byreal timestamp = .ok c) :
    ∃ (spacing : ℕ) (decoded : List (ℤ × List τ)),
      uintAt pool 235 2 = .ok spacing ∧
      arrays.mapM (decodeArray build byreal poolKey spacing) = .ok decoded ∧
      c.ticks = (decoded.flatMap Prod.snd).insertionSort (fun a b => build.index a ≤ build.index b) ∧
      readHead pool config fees byreal timestamp = .ok c.head ∧
      c.fee < feeUnit ∧ c.byreal = byreal ∧ -443636 ≤ c.lower ∧ c.upper ≤ 443636 ∧
      c.lower ≤ c.current ∧ c.current < c.upper ∧ 0 < c.spacing := by
  obtain ⟨-, h⟩ := ite_error_eq_ok.mp h
  obtain ⟨-, h⟩ := ite_error_eq_ok.mp h
  obtain ⟨refused, -, h⟩ := bind_eq_ok.mp h
  obtain ⟨-, h⟩ := ite_error_eq_ok.mp h
  obtain ⟨fee, hfee, h⟩ := bind_eq_ok.mp h
  obtain ⟨spacing, hspacing, h⟩ := bind_eq_ok.mp h
  obtain ⟨hbounds, h⟩ := ite_error_eq_ok.mp h
  obtain ⟨decoded, hdecoded, h⟩ := bind_eq_ok.mp h
  obtain ⟨_, -, h⟩ := bind_eq_ok.mp h
  obtain ⟨current, hcurrent, h⟩ := bind_eq_ok.mp h
  obtain ⟨dynamic, hdynamic, h⟩ := bind_eq_ok.mp h
  obtain ⟨upper, -, h⟩ := bind_eq_ok.mp h
  obtain ⟨hrange, h⟩ := ite_error_eq_ok.mp h
  obtain ⟨sqrt, hsqrt, h⟩ := bind_eq_ok.mp h
  obtain ⟨liquidity, hliquidity, h⟩ := bind_eq_ok.mp h
  obtain ⟨_, -, h⟩ := bind_eq_ok.mp h
  cases h
  simp only [not_or, not_le, not_lt] at hbounds hrange
  refine ⟨spacing, decoded, hspacing, hdecoded, rfl, ?_, hbounds.1, rfl, hrange.2.2.1, hrange.2.2.2,
    hrange.1, hrange.2.1, ?_⟩
  · simp only [readHead, hfee, hspacing, hcurrent, hdynamic, hsqrt, hliquidity, ok_bind]
    rfl
  · show (0 : ℤ) < spacing
    have := hbounds.2.1
    omega

/-- The ticks of an array are made by the build. -/
theorem made_of_decodeArray {spacing : ℤ} {d : Buffer} {start : ℤ} {ticks : List τ}
    (h : decodeArray build byreal poolKey spacing d = .ok (start, ticks)) :
    ∀ t ∈ ticks, ∃ index net, build.make index net = .ok t := by
  obtain ⟨dynamic, -, h⟩ := bind_eq_ok.mp h
  obtain ⟨count, -, h⟩ := bind_eq_ok.mp h
  obtain ⟨-, h⟩ := ite_error_eq_ok.mp h
  obtain ⟨-, h⟩ := ite_error_eq_ok.mp h
  obtain ⟨_, -, h⟩ := bind_eq_ok.mp h
  obtain ⟨-, h⟩ := ite_error_eq_ok.mp h
  obtain ⟨start', -, h⟩ := bind_eq_ok.mp h
  obtain ⟨-, h⟩ := ite_error_eq_ok.mp h
  obtain ⟨⟨used, made⟩, hmade, h⟩ := bind_eq_ok.mp h
  obtain ⟨-, h⟩ := ite_error_eq_ok.mp h
  cases h
  refine foldlM_inv
    (P := fun scan : ℕ × List τ => ∀ t ∈ scan.2, ∃ index net, build.make index net = .ok t)
    (fun scan i scan' hscan hstep => ?_) (by simp) hmade
  obtain ⟨used, ticks⟩ := scan
  dsimp only [scanTick] at hstep
  split at hstep
  · cases hstep
    exact hscan
  obtain ⟨-, hstep⟩ := ite_error_eq_ok.mp hstep
  obtain ⟨_, -, hstep⟩ := bind_eq_ok.mp hstep
  obtain ⟨-, hstep⟩ := ite_error_eq_ok.mp hstep
  obtain ⟨_, -, hstep⟩ := bind_eq_ok.mp hstep
  obtain ⟨-, hstep⟩ := ite_error_eq_ok.mp hstep
  obtain ⟨_, -, hstep⟩ := bind_eq_ok.mp hstep
  split at hstep
  · cases hstep
    exact hscan
  obtain ⟨index, -, hstep⟩ := bind_eq_ok.mp hstep
  obtain ⟨_, -, hstep⟩ := bind_eq_ok.mp hstep
  obtain ⟨-, hstep⟩ := ite_error_eq_ok.mp hstep
  obtain ⟨net, -, hstep⟩ := bind_eq_ok.mp hstep
  obtain ⟨tick, htick, hstep⟩ := bind_eq_ok.mp hstep
  cases hstep
  intro t ht
  rcases List.mem_append.mp ht with ht | ht
  · exact hscan t ht
  · obtain rfl := List.mem_singleton.mp ht
    exact ⟨index, net, htick⟩

/-- The ticks of a decoded curve are made by the build. -/
theorem made_of_decode (h : decodeInner build poolKey pool config arrays fees byreal timestamp = .ok c) :
    ∀ t ∈ c.ticks, ∃ index net, build.make index net = .ok t := by
  obtain ⟨spacing, decoded, -, hdecoded, hticks, -⟩ := decode_eq_ok h
  intro t ht
  rw [hticks, (List.perm_insertionSort _ _).mem_iff, List.mem_flatMap] at ht
  obtain ⟨⟨start, ticks⟩, hmem, ht⟩ := ht
  obtain ⟨d, -, hd⟩ := exists_of_mapM hdecoded hmem
  exact made_of_decodeArray hd t ht

end Decode

end StockMesh.Native

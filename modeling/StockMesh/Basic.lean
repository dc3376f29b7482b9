import StockMesh.Foundation.Budgeted
import Mathlib.Tactic.DeriveFintype

/-! # Constants, errors and checked arithmetic of the engine

The crate root: the bounds shared by every module, the error type, the work meter and the integer
helpers. Machine integers are natural numbers. An operation the source checks returns the error the
source names; an operation it leaves to the overflow-checked build goes through `addU64`, `mulU128`
and their siblings wherever a result depends on the machine width, and panics as `overflow`. -/

namespace StockMesh

open Budgeted Stateful

/-- Most candidate edges of one problem (`MAX_EDGES`). -/
abbrev maxEdges : ℕ := 8

/-- Most bands of one curve (`MAX_SEGMENTS`). -/
abbrev maxSegments : ℕ := 16

/-- Most executed legs (`MAX_LEGS`). -/
abbrev maxLegs : ℕ := 4

/-- Most reallocations of one execution (`MAX_REFLOWS`). -/
abbrev maxReflows : ℕ := 3

/-- The Q32 scale (`SCALE`). -/
def scale : ℕ := 4294967296

/-- Domain bound on amounts (`MAX_ATOMS`). -/
def maxAtoms : ℕ := 100000000000000

/-- Largest marginal rate in Q32 (`MAX_RATE`). -/
def maxRate : ℕ := 281474976710656

/-- Largest value of a `u32`, plus one. -/
def u32Size : ℕ := 4294967296

/-- Largest value of a `u64`, plus one. -/
def u64Size : ℕ := 18446744073709551616

/-- Largest value of a `u128`, plus one. -/
def u128Size : ℕ := 340282366920938463463374607431768211456

/-- The numeric constants, in the form linear arithmetic reads. -/
theorem constants : maxEdges = 8 ∧ maxSegments = 16 ∧ maxLegs = 4 ∧ maxReflows = 3 ∧
    scale = 4294967296 ∧ maxAtoms = 100000000000000 ∧ maxRate = 281474976710656 ∧
    u32Size = 4294967296 ∧ u64Size = 18446744073709551616 ∧
    u128Size = 340282366920938463463374607431768211456 :=
  ⟨rfl, rfl, rfl, rfl, rfl, rfl, rfl, rfl, rfl, rfl⟩

/-- A 32-byte identity: mint, market, program or owner. -/
abbrev Key := Vector UInt8 32

/-- Bytes of one length are told by their big-endian number. -/
theorem bigEndian_inj {xs ys : List UInt8} (hlen : xs.length = ys.length) {n m : ℕ}
    (h : xs.foldl (fun n b => 256 * n + b.toNat) n = ys.foldl (fun n b => 256 * n + b.toNat) m) :
    n = m ∧ xs = ys := by
  induction xs generalizing ys n m with
  | nil =>
    obtain rfl : ys = [] := List.eq_nil_of_length_eq_zero hlen.symm
    exact ⟨h, rfl⟩
  | cons x xs ih =>
    obtain ⟨y, ys, rfl⟩ := List.exists_cons_of_length_eq_add_one hlen.symm
    obtain ⟨hhead, rfl⟩ := ih (Nat.succ.inj hlen) h
    have hhead : 256 * n + x.toNat = 256 * m + y.toNat := hhead
    have hx : x.toNat < 256 := x.toNat_lt
    have hy : y.toNat < 256 := y.toNat_lt
    obtain rfl : x = y := UInt8.toNat_inj.mp (by omega)
    exact ⟨by omega, rfl⟩

/-- The big-endian number of a key: keys are ordered by it. -/
def Key.number (key : Key) : ℕ := key.toList.foldl (fun n b => 256 * n + b.toNat) 0

theorem Key.number_injective : Function.Injective Key.number := fun _ _ h =>
  Vector.toList_inj.mp (bigEndian_inj (by simp) h).2

/-- Bytes are compared from the last, where most keys differ. -/
def sameBytes : List UInt8 → List UInt8 → Bool
  | [], [] => true
  | x :: xs, y :: ys => sameBytes xs ys && Nat.beq x.toNat y.toNat
  | _, _ => false

theorem sameBytes_iff {xs ys : List UInt8} : sameBytes xs ys = true ↔ xs = ys := by
  induction xs generalizing ys with
  | nil => cases ys <;> simp [sameBytes]
  | cons x xs ih =>
    cases ys with
    | nil => simp [sameBytes]
    | cons y ys =>
      rw [sameBytes, Bool.and_eq_true, ih, Nat.beq_eq, UInt8.toNat_inj, List.cons.injEq, and_comm]

/-- The general comparisons of lists and vectors are slow to evaluate on bytes. -/
instance decidableEqBytes : DecidableEq (List UInt8) := fun _ _ => decidable_of_iff _ sameBytes_iff

instance decidableEqKey : DecidableEq Key := fun _ _ =>
  decidable_of_iff _ (sameBytes_iff.trans Vector.toList_inj)

instance lawfulBEqKey : LawfulBEq Key := inferInstance

/-- A property of all bytes of a list is tested on the list, not on all bytes. -/
instance decidableAllBytes (p : UInt8 → Prop) [DecidablePred p] (bytes : List UInt8) :
    Decidable (∀ b ∈ bytes, p b) := List.decidableBAll p bytes

/-- The index types that definitions take literals of. -/
instance neZeroTwo : @NeZero ℕ Zero.ofOfNat0 2 := ⟨by decide⟩

instance neZeroEight : @NeZero ℕ Zero.ofOfNat0 8 := ⟨by decide⟩

instance neZeroBytes : @NeZero ℕ Zero.ofOfNat0 256 := ⟨by decide⟩

/-- The errors of the engine. The last one is not a value of the source's enumeration: it reports
the panic of an overflow-checked operation. -/
inductive Error
  | invalidAmount
  | invalidCurve
  | arithmetic
  | capacity
  | bounds
  | workLimit
  | stale
  | expired
  | identity
  | aliasedLiquidity
  | unsupported
  | venueUnavailable
  | fatalCpi
  | balanceInvariant
  | minOut
  | queueFull
  | duplicate
  | ownerLimit
  | invalidTicket
  | overflow
  deriving DecidableEq, Repr

/-- Results of the engine. -/
abbrev Result (α : Type) := Except Error α

/-! ## Sequencing results -/

/-- `if bad { return Err(e) }`. -/
def rejectIf (bad : Prop) [Decidable bad] (e : Error) : Result Unit :=
  if bad then .error e else .ok ()

theorem rejectIf_of {bad : Prop} [Decidable bad] (e : Error) (h : bad) :
    rejectIf bad e = .error e := if_pos h

theorem rejectIf_of_not {bad : Prop} [Decidable bad] (e : Error) (h : ¬bad) :
    rejectIf bad e = .ok () := if_neg h

@[simp] theorem rejectIf_eq_ok {bad : Prop} [Decidable bad] {e : Error} {u : Unit} :
    rejectIf bad e = .ok u ↔ ¬bad := by
  by_cases h : bad <;> simp [rejectIf, h]

/-- A sequence succeeds exactly when both parts do. -/
theorem bind_eq_ok {ε α β : Type} {x : Except ε α} {f : α → Except ε β} {b : β} :
    (x >>= f) = .ok b ↔ ∃ a, x = .ok a ∧ f a = .ok b := by
  cases x with
  | error e => exact ⟨fun h => (by cases h), fun ⟨_, h, _⟩ => (by cases h)⟩
  | ok a => exact ⟨fun h => ⟨a, rfl, h⟩, fun ⟨_, h, hb⟩ => by cases h; exact hb⟩

/-- A value passes to its continuation. -/
@[simp] theorem ok_bind {ε α β : Type} (a : α) (f : α → Except ε β) :
    ((.ok a : Except ε α) >>= f) = f a := rfl

/-- An error ends a sequence. -/
@[simp] theorem error_bind {ε α β : Type} (e : ε) (f : α → Except ε β) :
    ((.error e : Except ε α) >>= f) = .error e := rfl

/-- Continuations matter only at the value they receive. -/
theorem bind_congr_ok {ε α β : Type} {x : Except ε α} {f g : α → Except ε β}
    (h : ∀ a, x = .ok a → f a = g a) : (x >>= f) = (x >>= g) := by
  cases x with
  | error e => rfl
  | ok a => exact h a rfl

/-- A result that can be seen to be a value. -/
theorem exists_of_isOk {ε α : Type} {x : Except ε α} (h : x.isOk = true) : ∃ a, x = .ok a := by
  rcases x with e | a
  · cases h
  · exact ⟨a, rfl⟩

/-- A sequence ends only with the errors of its parts. -/
theorem bind_ne_error {ε α β : Type} {x : Except ε α} {f : α → Except ε β} {e : ε}
    (hx : x ≠ .error e) (hf : ∀ a, f a ≠ .error e) : (x >>= f) ≠ .error e := by
  cases x with
  | error e' => exact fun h => hx (by cases h; rfl)
  | ok a => exact hf a

theorem rejectIf_ne_error {bad : Prop} [Decidable bad] {e e' : Error} (h : e ≠ e') :
    rejectIf bad e ≠ .error e' := by
  unfold rejectIf
  split
  · exact fun heq => h (by cases heq; rfl)
  · exact fun heq => by cases heq

/-- A loop keeps every invariant that its steps keep. -/
theorem foldlM_inv {ε α β : Type} {P : β → Prop} {f : β → α → Except ε β}
    (hstep : ∀ b a b', P b → f b a = .ok b' → P b') {xs : List α} {b b' : β} (hb : P b)
    (h : xs.foldlM f b = .ok b') : P b' := by
  induction xs generalizing b with
  | nil =>
    cases h
    exact hb
  | cons x xs ih =>
    rw [List.foldlM_cons, bind_eq_ok] at h
    obtain ⟨c, hc, hrest⟩ := h
    exact ih (hstep b x c hb hc) hrest

/-- A counted loop whose steps succeed keeps an invariant on the iterations done. -/
theorem foldlM_range_ok {ε β : Type} {P : ℕ → β → Prop} {f : β → ℕ → Except ε β} {n : ℕ}
    (hstep : ∀ k < n, ∀ b, P k b → ∃ b', f b k = .ok b' ∧ P (k + 1) b') {b : β} (hb : P 0 b) :
    ∃ b', (List.range n).foldlM f b = .ok b' ∧ P n b' := by
  induction n with
  | zero => exact ⟨b, rfl, hb⟩
  | succ n ih =>
    obtain ⟨c, hc, hPc⟩ := ih fun k hk => hstep k (by omega)
    obtain ⟨d, hd, hPd⟩ := hstep n (by omega) c hPc
    refine ⟨d, ?_, hPd⟩
    rw [List.range_succ, List.foldlM_append, hc, ok_bind, List.foldlM_cons, hd, ok_bind]
    rfl

/-- A counted loop that succeeds keeps every invariant that its steps keep. -/
theorem foldlM_range_inv {ε β : Type} {P : ℕ → β → Prop} {f : β → ℕ → Except ε β} {n : ℕ}
    (hstep : ∀ k < n, ∀ b b', P k b → f b k = .ok b' → P (k + 1) b') {b b' : β} (hb : P 0 b)
    (h : (List.range n).foldlM f b = .ok b') : P n b' := by
  induction n generalizing b' with
  | zero =>
    cases h
    exact hb
  | succ n ih =>
    rw [List.range_succ, List.foldlM_append, bind_eq_ok] at h
    obtain ⟨c, hc, hlast⟩ := h
    rw [List.foldlM_cons, bind_eq_ok] at hlast
    obtain ⟨d, hd, hend⟩ := hlast
    cases hend
    exact hstep n (by omega) c _ (ih (fun k hk => hstep k (by omega)) hc) hd

/-- In a loop that succeeds every step has succeeded. -/
theorem foldlM_step_ok {ε α β : Type} {f : β → α → Except ε β} {xs : List α} {b c : β}
    (h : xs.foldlM f b = .ok c) {a : α} (ha : a ∈ xs) : ∃ b₁ b₂, f b₁ a = .ok b₂ := by
  induction xs generalizing b with
  | nil => cases ha
  | cons x xs ih =>
    rw [List.foldlM_cons, bind_eq_ok] at h
    obtain ⟨b₂, hstep, hrest⟩ := h
    rcases List.mem_cons.mp ha with rfl | ha
    · exact ⟨b, b₂, hstep⟩
    · exact ih hrest ha

/-- A loop ends only with the errors of its steps. -/
theorem foldlM_ne_error {ε α β : Type} {f : β → α → Except ε β} {e : ε}
    (hstep : ∀ b a, f b a ≠ .error e) (xs : List α) (b : β) : xs.foldlM f b ≠ .error e := by
  induction xs generalizing b with
  | nil => exact fun h => by cases h
  | cons x xs ih =>
    rw [List.foldlM_cons]
    rcases hx : f b x with e' | c
    · intro h
      cases h
      exact hstep b x hx
    · exact ih c

/-- A traversal succeeds with the values of its elements. -/
theorem mapM_eq_ok {ε α β : Type} {f : α → Except ε β} {xs : List α} {ys : List β} :
    xs.mapM f = .ok ys ↔ List.Forall₂ (fun x y => f x = .ok y) xs ys := by
  induction xs generalizing ys with
  | nil =>
    rw [List.mapM_nil, List.forall₂_nil_left_iff]
    exact ⟨fun h => (Except.ok.inj h).symm, fun h => h ▸ rfl⟩
  | cons x xs ih =>
    rw [List.mapM_cons, bind_eq_ok, List.forall₂_cons_left_iff]
    constructor
    · rintro ⟨y, hy, h⟩
      obtain ⟨zs, hzs, h⟩ := bind_eq_ok.mp h
      exact ⟨y, zs, hy, ih.mp hzs, (Except.ok.inj h).symm⟩
    · rintro ⟨y, zs, hy, hzs, rfl⟩
      exact ⟨y, hy, bind_eq_ok.mpr ⟨zs, ih.mpr hzs, rfl⟩⟩

/-- An element of the first list has a partner in the second. -/
theorem exists_of_forall₂ {α β : Type} {R : α → β → Prop} {as : List α} {bs : List β}
    (h : List.Forall₂ R as bs) {a : α} (ha : a ∈ as) : ∃ b ∈ bs, R a b := by
  induction h with
  | nil => cases ha
  | cons hab _ ih =>
    obtain rfl | ha := List.mem_cons.mp ha
    · exact ⟨_, List.mem_cons_self, hab⟩
    · obtain ⟨b, hb, hR⟩ := ih ha
      exact ⟨b, List.mem_cons_of_mem _ hb, hR⟩

/-- A traversal ends only with the errors of its elements. -/
theorem mapM_ne_error {ε α β : Type} {f : α → Except ε β} {e : ε} (hf : ∀ a, f a ≠ .error e)
    (xs : List α) : xs.mapM f ≠ .error e := by
  induction xs with
  | nil =>
    rw [List.mapM_nil]
    exact fun h => by cases h
  | cons x xs ih =>
    rw [List.mapM_cons]
    exact bind_ne_error (hf x) fun _ => bind_ne_error ih fun _ h => by cases h

/-- Checks pass exactly when each of them does. -/
theorem forM_eq_ok {ε α : Type} {f : α → Except ε Unit} {xs : List α} :
    xs.forM f = .ok () ↔ ∀ x ∈ xs, f x = .ok () := by
  induction xs with
  | nil => exact ⟨fun _ _ h => absurd h List.not_mem_nil, fun _ => rfl⟩
  | cons x xs ih =>
    show (f x >>= fun _ => xs.forM f) = .ok () ↔ _
    rw [bind_eq_ok, List.forall_mem_cons]
    exact ⟨fun ⟨_, hx, h⟩ => ⟨hx, ih.mp h⟩, fun ⟨hx, h⟩ => ⟨(), hx, ih.mpr h⟩⟩

/-! ## Machine arithmetic -/

/-- `n` when it fits below `size`, otherwise the given error. -/
def fits (size : ℕ) (e : Error) (n : ℕ) : Result ℕ := if n < size then .ok n else .error e

theorem fits_of_lt {size n : ℕ} (e : Error) (h : n < size) : fits size e n = .ok n := if_pos h

theorem fits_eq_ok {size n k : ℕ} {e : Error} : fits size e n = .ok k ↔ n < size ∧ n = k := by
  unfold fits
  split <;> simp_all

theorem fits_ne_error {size n : ℕ} {e e' : Error} (h : e ≠ e') : fits size e n ≠ .error e' := by
  unfold fits
  split
  · exact fun heq => by cases heq
  · exact fun heq => h (by cases heq; rfl)

/-- Addition on `u64`. -/
def addU64 (a b : ℕ) : Result ℕ := fits u64Size .overflow (a + b)

/-- Subtraction on machine integers of any width. -/
def subUint (a b : ℕ) : Result ℕ := if b ≤ a then .ok (a - b) else .error .overflow

/-- Addition on `u128`. -/
def addU128 (a b : ℕ) : Result ℕ := fits u128Size .overflow (a + b)

/-- Multiplication on `u128`. -/
def mulU128 (a b : ℕ) : Result ℕ := fits u128Size .overflow (a * b)

/-- Division on `u128`, panicking on zero. -/
def divU128 (a b : ℕ) : Result ℕ := if b = 0 then .error .overflow else .ok (a / b)

/-- Remainder on `u128`, panicking on zero. -/
def remU128 (a b : ℕ) : Result ℕ := if b = 0 then .error .overflow else .ok (a % b)

/-- `u64::checked_add(..).ok_or(Error::Arithmetic)`. -/
def checkedAdd (a b : ℕ) : Result ℕ := fits u64Size .arithmetic (a + b)

theorem addU64_of_lt {a b : ℕ} (h : a + b < u64Size) : addU64 a b = .ok (a + b) := if_pos h

theorem subUint_of_le {a b : ℕ} (h : b ≤ a) : subUint a b = .ok (a - b) := if_pos h

theorem addU128_of_lt {a b : ℕ} (h : a + b < u128Size) : addU128 a b = .ok (a + b) := if_pos h

theorem mulU128_of_lt {a b : ℕ} (h : a * b < u128Size) : mulU128 a b = .ok (a * b) := if_pos h

theorem divU128_of_pos {a b : ℕ} (h : 0 < b) : divU128 a b = .ok (a / b) := if_neg (by omega)

theorem remU128_of_pos {a b : ℕ} (h : 0 < b) : remU128 a b = .ok (a % b) := if_neg (by omega)

theorem checkedAdd_of_lt {a b : ℕ} (h : a + b < u64Size) : checkedAdd a b = .ok (a + b) := if_pos h

/-- `ceil_div`: quotient rounded up, `Arithmetic` on a zero divisor. -/
def ceilDiv (n d : ℕ) : Result ℕ := do
  rejectIf (d = 0) .arithmetic
  addU128 (n / d) (if n % d ≠ 0 then 1 else 0)

/-- `as_u64`: narrowing of a `u128`. -/
def asU64 (n : ℕ) : Result ℕ := fits u64Size .arithmetic n

theorem asU64_of_lt {n : ℕ} (h : n < u64Size) : asU64 n = .ok n := if_pos h

/-! ## The work meter -/

/-- The deterministic operation budget (`WorkMeter`). -/
abbrev WorkMeter := Meter

/-- Metered computations of the engine. -/
abbrev Metered (α : Type) := Work Error α

/-- `WorkMeter::new`. -/
def WorkMeter.new (limit : ℕ) : WorkMeter := ⟨0, limit⟩

/-- `WorkMeter::charge`. -/
def charge (units : ℕ) : Metered Unit := Budgeted.charge .workLimit u32Size units

/-- With `n` units at hand the metered computation ends with `r`. -/
abbrev RunsTo {α : Type} (x : Metered α) (n : ℕ) (r : Result α) : Prop :=
  Runs Error.workLimit u32Size x n r

theorem runsTo_charge (units : ℕ) : RunsTo (charge units) units (.ok ()) := Runs.charge units

/-- A charge adds its units to the budget of what follows. -/
theorem runsTo_charge_bind {α : Type} {units n total : ℕ} {f : Unit → Metered α} {r : Result α}
    (h : RunsTo (f ()) n r) (htotal : units + n ≤ total) : RunsTo (charge units >>= f) total r :=
  ((runsTo_charge units).bind h).mono htotal

end StockMesh

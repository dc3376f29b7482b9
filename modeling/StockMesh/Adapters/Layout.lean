import StockMesh.Basic
import StockMesh.Foundation.Buffer
import Mathlib.Algebra.Order.Floor.Div

/-! # Byte-level adapters

The adapter crate reads pinned account layouts. Every read is checked against the length of the data
and every failure is one of five errors. -/

namespace StockMesh

/-- Most orders one Phoenix match may visit (`MAX_MATCHES`). -/
def maxMatches : ℕ := 16

/-- Largest input of one swap (`MAX_INPUT`). -/
def maxInput : ℕ := 100000000000000

/-- The errors of the adapter crate. The last one is the panic of an overflow-checked operation. -/
inductive AdapterError
  | layout
  | status
  | arithmetic
  | amount
  | unsupported
  | overflow
  deriving DecidableEq, Repr

/-- Results of the adapter crate. -/
abbrev AdapterResult (α : Type) := Except AdapterError α

/-- `if !ok { return Err(e) }`. -/
def accept (ok : Prop) [Decidable ok] (e : AdapterError) : AdapterResult Unit :=
  if ok then .ok () else .error e

@[simp] theorem accept_eq_ok {ok : Prop} [Decidable ok] {e : AdapterError} {u : Unit} :
    accept ok e = .ok u ↔ ok := by
  by_cases h : ok <;> simp [accept, h]

/-- `option.ok_or(e)`. -/
def okOr {ε α : Type} (x : Option α) (e : ε) : Except ε α :=
  match x with
  | some a => .ok a
  | none => .error e

@[simp] theorem okOr_eq_ok {ε α : Type} {x : Option α} {e : ε} {a : α} :
    okOr x e = .ok a ↔ x = some a := by
  cases x <;> simp [okOr]

/-- The key of 32 bytes. -/
def Key.ofBytes (bytes : List UInt8) : Key := Vector.ofFn fun i => bytes.getD i 0

/-- The key with the given big-endian value. -/
def Key.ofNat (n : ℕ) : Key := Vector.ofFn fun i => UInt8.ofNat (n / 256 ^ (31 - i.val))

/-- The number of `k` big-endian digits. -/
theorem foldl_digits (k m acc : ℕ) :
    (List.ofFn fun i : Fin k => UInt8.ofNat (m / 256 ^ (k - 1 - i.val))).foldl
      (fun n b => 256 * n + b.toNat) acc = acc * 256 ^ k + m % 256 ^ k := by
  induction k generalizing acc with
  | zero => simp [Nat.mod_one]
  | succ k ih =>
    have htail : ∀ i : Fin k, k + 1 - 1 - i.succ.val = k - 1 - i.val := fun i => by
      rw [Fin.val_succ]
      omega
    have hhead : (UInt8.ofNat (m / 256 ^ k)).toNat = m / 256 ^ k % 256 := by simp
    rw [List.ofFn_succ, List.foldl_cons]
    simp only [htail]
    rw [ih, Nat.mod_pow_succ, pow_succ]
    simp only [Fin.val_zero, Nat.add_sub_cancel, Nat.sub_zero, hhead]
    ring

/-- The number of a key given by its number. -/
theorem Key.number_ofNat {m : ℕ} (h : m < 256 ^ 32) : (Key.ofNat m).number = m := by
  have hlist : (Key.ofNat m).toList =
      List.ofFn fun i : Fin 32 => UInt8.ofNat (m / 256 ^ (32 - 1 - i.val)) := by
    rw [Key.ofNat, Vector.toList_ofFn]
  rw [Key.number, hlist, foldl_digits, Nat.mod_eq_of_lt h, Nat.zero_mul, Nat.zero_add]

/-- Whether a key is in a list can be told by its number, which is quicker to evaluate. -/
theorem contains_ofNat (ms : List ℕ) (h : ∀ m ∈ ms, m < 256 ^ 32) :
    (fun key : Key => (ms.map Key.ofNat).contains key) = fun key => decide (key.number ∈ ms) := by
  funext key
  rw [Bool.eq_iff_iff, List.contains_iff_mem, List.mem_map, decide_eq_true_iff]
  constructor
  · rintro ⟨m, hm, rfl⟩
    rwa [Key.number_ofNat (h m hm)]
  · intro hkey
    exact ⟨key.number, hkey, Key.number_injective (Key.number_ofNat (h _ hkey))⟩

/-- `key(data, offset)`. -/
def keyAt (data : Buffer) (offset : ℕ) : AdapterResult Key :=
  okOr ((data.slice offset 32).map Key.ofBytes) .layout

/-- `u64_at(data, offset)`. -/
def u64At (data : Buffer) (offset : ℕ) : AdapterResult ℕ := okOr (data.number offset 8) .layout

/-- `u32_at(data, offset)`. -/
def u32At (data : Buffer) (offset : ℕ) : AdapterResult ℕ := okOr (data.number offset 4) .layout

/-- A field read is a machine word. -/
theorem u64At_lt {data : Buffer} {offset n : ℕ} (h : u64At data offset = .ok n) : n < u64Size :=
  Buffer.number_lt (okOr_eq_ok.mp h)

/-- Fields that a write does not touch keep their value. -/
theorem u64At_splice_of_disjoint {data data' : Buffer} {offset other : ℕ} {bytes : List UInt8}
    (h : data.splice offset bytes = some data')
    (hdisj : other + 8 ≤ offset ∨ offset + bytes.length ≤ other) :
    u64At data' other = u64At data other := by
  rw [u64At, u64At, Buffer.number_splice_of_disjoint h hdisj]

/-- A written field is read back. -/
theorem u64At_splice {data data' : Buffer} {offset n : ℕ} {rest : List UInt8}
    (h : data.splice offset (Buffer.toBytes 8 n ++ rest) = some data') (hn : n < u64Size) :
    u64At data' offset = .ok n :=
  okOr_eq_ok.mpr (Buffer.number_splice h hn)

theorem keyAt_splice_of_disjoint {data data' : Buffer} {offset other : ℕ} {bytes : List UInt8}
    (h : data.splice offset bytes = some data')
    (hdisj : other + 32 ≤ offset ∨ offset + bytes.length ≤ other) :
    keyAt data' other = keyAt data other := by
  rw [keyAt, keyAt, Buffer.slice_splice_of_disjoint h hdisj]

/-- `u64::checked_add(..).ok_or(Error::Arithmetic)`. -/
def addChecked (a b : ℕ) : AdapterResult ℕ :=
  if a + b < u64Size then .ok (a + b) else .error .arithmetic

/-- `u64::checked_sub(..).ok_or(Error::Arithmetic)`. -/
def subChecked (a b : ℕ) : AdapterResult ℕ := if b ≤ a then .ok (a - b) else .error .arithmetic

/-- `u64::checked_mul(..).ok_or(Error::Arithmetic)`. -/
def mulChecked (a b : ℕ) : AdapterResult ℕ :=
  if a * b < u64Size then .ok (a * b) else .error .arithmetic

/-- `u64::try_from(..)` of a wider integer, `Arithmetic` when it does not fit. -/
def narrow (n : ℕ) : AdapterResult ℕ := if n < u64Size then .ok n else .error .arithmetic

/-- An overflow-checked `u64` operation. -/
def wordOp (n : ℕ) : AdapterResult ℕ := if n < u64Size then .ok n else .error .overflow

/-- `u64::div_ceil` and `u128::div_ceil`, panicking on zero. -/
def divCeil (n d : ℕ) : AdapterResult ℕ :=
  if d = 0 then .error .overflow else .ok ((n + d - 1) / d)

@[simp] theorem addChecked_eq_ok {a b c : ℕ} : addChecked a b = .ok c ↔ a + b < u64Size ∧ a + b = c := by
  by_cases h : a + b < u64Size <;> simp [addChecked, h]

@[simp] theorem mulChecked_eq_ok {a b c : ℕ} : mulChecked a b = .ok c ↔ a * b < u64Size ∧ a * b = c := by
  by_cases h : a * b < u64Size <;> simp [mulChecked, h]

@[simp] theorem narrow_eq_ok {n m : ℕ} : narrow n = .ok m ↔ n < u64Size ∧ n = m := by
  by_cases h : n < u64Size <;> simp [narrow, h]

@[simp] theorem divCeil_eq_ok {n d q : ℕ} : divCeil n d = .ok q ↔ d ≠ 0 ∧ n ⌈/⌉ d = q := by
  by_cases h : d = 0 <;> simp [divCeil, h, Nat.ceilDiv_eq_add_pred_div]

end StockMesh

import Mathlib.Data.Nat.Basic
import Mathlib.Tactic.Common
import Mathlib.Tactic.Ring

/-! # Byte buffers with little-endian fields

A `Buffer` is a size and the bytes below it. `slice` reads a window and fails past the end, `number`
reads a window as a little-endian number, `splice` overwrites a window. A write changes the bytes of
its own window only (`slice_splice_of_disjoint`) and is read back there (`number_splice`). -/

/-- Bytes of a known size. Bytes past the size are never read. -/
structure Buffer where
  size : ℕ
  byte : ℕ → UInt8

namespace Buffer

/-- The number with the given little-endian bytes. -/
def ofBytes : List UInt8 → ℕ
  | [] => 0
  | b :: bytes => b.toNat + 256 * ofBytes bytes

/-- The `k` little-endian bytes of a number. -/
def toBytes : ℕ → ℕ → List UInt8
  | 0, _ => []
  | k + 1, n => UInt8.ofNat (n % 256) :: toBytes k (n / 256)

@[simp] theorem length_toBytes (k n : ℕ) : (toBytes k n).length = k := by
  induction k generalizing n with
  | zero => rfl
  | succ k ih => simp [toBytes, ih]

theorem ofBytes_toBytes (k n : ℕ) : ofBytes (toBytes k n) = n % 256 ^ k := by
  induction k generalizing n with
  | zero => simp [toBytes, ofBytes, Nat.mod_one]
  | succ k ih =>
    have hbyte : (UInt8.ofNat (n % 256)).toNat = n % 256 := by simp
    rw [toBytes, ofBytes, ih, hbyte, pow_succ', Nat.mod_mul]

theorem ofBytes_lt (bytes : List UInt8) : ofBytes bytes < 256 ^ bytes.length := by
  induction bytes with
  | nil => simp [ofBytes]
  | cons b bytes ih =>
    have hb : b.toNat < 256 := b.toNat_lt
    rw [ofBytes, List.length_cons, pow_succ]
    omega

theorem toBytes_ofBytes (bytes : List UInt8) : toBytes bytes.length (ofBytes bytes) = bytes := by
  induction bytes with
  | nil => rfl
  | cons b bytes ih =>
    have hb : b.toNat < 256 := b.toNat_lt
    have hhead : (b.toNat + 256 * ofBytes bytes) % 256 = b.toNat := by omega
    have htail : (b.toNat + 256 * ofBytes bytes) / 256 = ofBytes bytes := by omega
    rw [List.length_cons, ofBytes, toBytes, hhead, htail, ih, UInt8.ofNat_toNat]

/-- Numbers that fit are told by their bytes. -/
theorem toBytes_inj {k m n : ℕ} (hm : m < 256 ^ k) (hn : n < 256 ^ k)
    (h : toBytes k m = toBytes k n) : m = n := by
  rw [← Nat.mod_eq_of_lt hm, ← Nat.mod_eq_of_lt hn, ← ofBytes_toBytes, ← ofBytes_toBytes, h]

/-- The buffer of a list of bytes. -/
def ofList (bytes : List UInt8) : Buffer := ⟨bytes.length, fun i => bytes.getD i 0⟩

variable (b : Buffer) (offset : ℕ)

/-- The bytes of a window, if it lies inside the buffer. -/
def slice (length : ℕ) : Option (List UInt8) :=
  if offset + length ≤ b.size then some ((List.range length).map fun i => b.byte (offset + i))
  else none

/-- The little-endian number of a window. -/
def number (length : ℕ) : Option ℕ := (b.slice offset length).map ofBytes

/-- Overwrite a window, if it lies inside the buffer. -/
def splice (bytes : List UInt8) : Option Buffer :=
  if offset + bytes.length ≤ b.size then
    some ⟨b.size, fun i =>
      if offset ≤ i ∧ i < offset + bytes.length then bytes.getD (i - offset) 0 else b.byte i⟩
  else none

/-- The buffer without its first bytes. -/
def drop : Buffer := ⟨b.size - offset, fun i => b.byte (offset + i)⟩

/-- The buffer behind the given bytes. -/
def prepend (bytes : List UInt8) : Buffer where
  size := bytes.length + b.size
  byte i := if i < bytes.length then bytes.getD i 0 else b.byte (i - bytes.length)

/-- Overwrite windows in order. -/
def spliceAll : List (ℕ × List UInt8) → Buffer → Option Buffer
  | [], b => some b
  | (offset, bytes) :: fields, b => (b.splice offset bytes).bind (spliceAll fields)

variable {b offset}

/-- Dropping what was put in front gives the buffer back. -/
theorem drop_prepend (bytes : List UInt8) : (b.prepend bytes).drop bytes.length = b := by
  rw [drop, prepend, Nat.add_sub_cancel_left]
  congr 1
  funext i
  show (if bytes.length + i < bytes.length then _ else b.byte (bytes.length + i - bytes.length)) = _
  rw [if_neg (by omega), Nat.add_sub_cancel_left]

/-- Two windows side by side. -/
theorem slice_append {j k : ℕ} {x y : List UInt8} (hx : b.slice offset j = some x)
    (hy : b.slice (offset + j) k = some y) : b.slice offset (j + k) = some (x ++ y) := by
  by_cases hk : offset + j + k ≤ b.size
  · have hj : offset + j ≤ b.size := by omega
    rw [slice, if_pos hj, Option.some.injEq] at hx
    rw [slice, if_pos hk, Option.some.injEq] at hy
    rw [slice, if_pos (by omega), List.range_add, List.map_append, List.map_map, ← hx, ← hy]
    simp only [Function.comp_def, Nat.add_assoc]
  · rw [slice, if_neg hk] at hy
    cases hy

/-- The bytes of a window, one by one. -/
theorem slice_eq_some {length : ℕ} {bytes : List UInt8} (h : b.slice offset length = some bytes) :
    offset + length ≤ b.size ∧ bytes = (List.range length).map fun i => b.byte (offset + i) := by
  rw [slice] at h
  split at h
  · next hle => exact ⟨hle, (Option.some.inj h).symm⟩
  · cases h

/-- The bytes of a number that was read. -/
theorem slice_of_number {k n : ℕ} (h : b.number offset k = some n) :
    b.slice offset k = some (toBytes k n) := by
  obtain ⟨bytes, hbytes, rfl⟩ := Option.map_eq_some_iff.mp h
  have hlen : bytes.length = k := by simp [(slice_eq_some hbytes).2]
  rw [hbytes, ← hlen, toBytes_ofBytes]

/-- A window of a list of bytes. -/
theorem slice_ofList {bytes : List UInt8} {length : ℕ} (h : offset + length ≤ bytes.length) :
    (ofList bytes).slice offset length = some ((bytes.drop offset).take length) := by
  rw [slice, if_pos (show offset + length ≤ (ofList bytes).size from h)]
  congr 1
  apply List.ext_getElem
  · simp
    omega
  · intro j hj hj'
    rw [List.length_map, List.length_range] at hj
    have hlt : offset + j < bytes.length := by omega
    simp [ofList, hlt]

/-- A window of the bytes put in front. -/
theorem slice_prepend {bytes : List UInt8} {length : ℕ} (h : offset + length ≤ bytes.length) :
    (b.prepend bytes).slice offset length = some ((bytes.drop offset).take length) := by
  have hsize : offset + length ≤ (b.prepend bytes).size := h.trans (Nat.le_add_right _ _)
  rw [← slice_ofList h, slice, slice, if_pos hsize,
    if_pos (show offset + length ≤ (ofList bytes).size from h)]
  congr 1
  apply List.map_congr_left
  intro i hi
  rw [List.mem_range] at hi
  exact if_pos (by omega)

theorem length_slice {length : ℕ} {bytes : List UInt8} (h : b.slice offset length = some bytes) :
    bytes.length = length := by
  unfold slice at h
  split at h
  · cases h
    simp
  · cases h

/-- A number read from a window fits the window. -/
theorem number_lt {length n : ℕ} (h : b.number offset length = some n) : n < 256 ^ length := by
  obtain ⟨bytes, hbytes, rfl⟩ := Option.map_eq_some_iff.mp h
  have hlt := ofBytes_lt bytes
  rwa [length_slice hbytes] at hlt

theorem number_isSome {length : ℕ} : (b.number offset length).isSome ↔ offset + length ≤ b.size := by
  unfold number slice
  split <;> simp_all

/-- A write keeps the size. -/
theorem size_splice {bytes : List UInt8} {c : Buffer} (h : b.splice offset bytes = some c) :
    c.size = b.size := by
  unfold splice at h
  split at h
  · cases h
    rfl
  · cases h

/-- A write inside the buffer succeeds. -/
theorem exists_splice {bytes : List UInt8} (h : offset + bytes.length ≤ b.size) :
    ∃ c, b.splice offset bytes = some c := ⟨_, if_pos h⟩

/-- A part of a write is read back. -/
theorem slice_splice {bytes : List UInt8} {c : Buffer} (h : b.splice offset bytes = some c)
    {i length : ℕ} (hle : i + length ≤ bytes.length) :
    c.slice (offset + i) length = some ((bytes.drop i).take length) := by
  unfold splice at h
  split at h
  · next hsize =>
    cases h
    have hin : offset + i + length ≤ b.size := by omega
    rw [slice, if_pos hin]
    congr 1
    apply List.ext_getElem
    · simp
      omega
    · intro j hj hj'
      rw [List.length_map, List.length_range] at hj
      have hwritten : offset ≤ offset + i + j ∧ offset + i + j < offset + bytes.length := by omega
      have hindex : offset + i + j - offset = i + j := by omega
      have hlt : i + j < bytes.length := by omega
      simp [hwritten, hindex, hlt]
  · cases h

/-- A number at the head of a write is read back. -/
theorem number_splice {length n : ℕ} {rest : List UInt8} {c : Buffer}
    (h : b.splice offset (toBytes length n ++ rest) = some c) (hn : n < 256 ^ length) :
    c.number offset length = some n := by
  have hread := slice_splice h (i := 0) (by simp : 0 + length ≤ _)
  rw [Nat.add_zero, List.drop_zero, List.take_left' (length_toBytes length n)] at hread
  rw [number, hread, Option.map_some, ofBytes_toBytes, Nat.mod_eq_of_lt hn]

/-- A window that a write does not touch keeps its bytes. -/
theorem slice_splice_of_disjoint {bytes : List UInt8} {c : Buffer} {other length : ℕ}
    (h : b.splice offset bytes = some c)
    (hdisj : other + length ≤ offset ∨ offset + bytes.length ≤ other) :
    c.slice other length = b.slice other length := by
  unfold splice at h
  split at h
  · cases h
    unfold slice
    split
    · congr 1
      apply List.map_congr_left
      intro i hi
      rw [List.mem_range] at hi
      exact if_neg (by omega)
    · rfl
  · cases h

theorem number_splice_of_disjoint {bytes : List UInt8} {c : Buffer} {other length : ℕ}
    (h : b.splice offset bytes = some c)
    (hdisj : other + length ≤ offset ∨ offset + bytes.length ≤ other) :
    c.number other length = b.number other length := by
  rw [number, number, slice_splice_of_disjoint h hdisj]

/-- Windows that do not overlap. -/
def Apart (f g : ℕ × List UInt8) : Prop := f.1 + f.2.length ≤ g.1 ∨ g.1 + g.2.length ≤ f.1

theorem size_spliceAll {fields : List (ℕ × List UInt8)} {c : Buffer}
    (h : spliceAll fields b = some c) : c.size = b.size := by
  induction fields generalizing b with
  | nil =>
    cases h
    rfl
  | cons f fields ih =>
    obtain ⟨b', hb, h⟩ := Option.bind_eq_some_iff.mp h
    rw [ih h, size_splice hb]

/-- Writes inside the buffer succeed. -/
theorem exists_spliceAll {fields : List (ℕ × List UInt8)}
    (h : ∀ f ∈ fields, f.1 + f.2.length ≤ b.size) : ∃ c, spliceAll fields b = some c := by
  induction fields generalizing b with
  | nil => exact ⟨b, rfl⟩
  | cons f fields ih =>
    obtain ⟨b', hb⟩ := exists_splice (h f List.mem_cons_self)
    obtain ⟨c, hc⟩ := ih fun g hg => (size_splice hb).symm ▸ h g (List.mem_cons_of_mem _ hg)
    exact ⟨c, Option.bind_eq_some_iff.mpr ⟨b', hb, hc⟩⟩

/-- A window that no write touches keeps its bytes. -/
theorem slice_spliceAll_of_disjoint {fields : List (ℕ × List UInt8)} {c : Buffer}
    {other length : ℕ} (h : spliceAll fields b = some c)
    (hdisj : ∀ f ∈ fields, other + length ≤ f.1 ∨ f.1 + f.2.length ≤ other) :
    c.slice other length = b.slice other length := by
  induction fields generalizing b with
  | nil =>
    cases h
    rfl
  | cons f fields ih =>
    obtain ⟨b', hb, h⟩ := Option.bind_eq_some_iff.mp h
    rw [ih h fun g hg => hdisj g (List.mem_cons_of_mem _ hg),
      slice_splice_of_disjoint hb (hdisj f List.mem_cons_self)]

/-- Windows written apart from each other are all read back. -/
theorem slice_spliceAll {fields : List (ℕ × List UInt8)} {c : Buffer}
    (h : spliceAll fields b = some c) (hapart : fields.Pairwise Apart) {f : ℕ × List UInt8}
    (hf : f ∈ fields) : c.slice f.1 f.2.length = some f.2 := by
  induction fields generalizing b with
  | nil => cases hf
  | cons g fields ih =>
    obtain ⟨b', hb, hrest⟩ := Option.bind_eq_some_iff.mp h
    obtain ⟨hhead, htail⟩ := List.pairwise_cons.mp hapart
    rcases List.mem_cons.mp hf with rfl | hf
    · -- the later windows leave the first one alone
      rw [slice_spliceAll_of_disjoint hrest hhead]
      have hread := slice_splice hb (i := 0) (Nat.zero_add f.2.length).le
      rwa [Nat.add_zero, List.drop_zero, List.take_length] at hread
    · exact ih hrest htail hf

/-- A number written to a window apart from the others is read back. -/
theorem number_spliceAll {fields : List (ℕ × List UInt8)} {c : Buffer} {length n : ℕ}
    (h : spliceAll fields b = some c) (hapart : fields.Pairwise Apart)
    (hf : (offset, toBytes length n) ∈ fields) (hn : n < 256 ^ length) :
    c.number offset length = some n := by
  have hread := slice_spliceAll h hapart hf
  dsimp only at hread
  rw [length_toBytes] at hread
  rw [number, hread, Option.map_some, ofBytes_toBytes, Nat.mod_eq_of_lt hn]

theorem number_spliceAll_of_disjoint {fields : List (ℕ × List UInt8)} {c : Buffer}
    {other length : ℕ} (h : spliceAll fields b = some c)
    (hdisj : ∀ f ∈ fields, other + length ≤ f.1 ∨ f.1 + f.2.length ≤ other) :
    c.number other length = b.number other length := by
  rw [number, number, slice_spliceAll_of_disjoint h hdisj]

/-! ## Longer buffers -/

/-- A buffer with the same bytes and possibly more after them. -/
structure Extends (longer b : Buffer) : Prop where
  size_le : b.size ≤ longer.size
  byte_eq : ∀ i < b.size, longer.byte i = b.byte i

/-- A window inside a buffer reads the same whatever follows the buffer. -/
theorem Extends.slice_eq {longer b : Buffer} (h : longer.Extends b) {offset length : ℕ}
    (hin : offset + length ≤ b.size) : longer.slice offset length = b.slice offset length := by
  rw [slice, slice, if_pos hin, if_pos (hin.trans h.size_le), Option.some.injEq]
  refine List.map_congr_left fun i hi => h.byte_eq _ ?_
  have := List.mem_range.mp hi
  omega

theorem Extends.number_eq {longer b : Buffer} (h : longer.Extends b) {offset length : ℕ}
    (hin : offset + length ≤ b.size) : longer.number offset length = b.number offset length := by
  rw [number, number, h.slice_eq hin]

end Buffer

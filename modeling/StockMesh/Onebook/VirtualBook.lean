import StockMesh.Foundation.Insertion
import StockMesh.Foundation.Instalments
import StockMesh.Onebook.Book
import Mathlib.Algebra.Order.BigOperators.Group.List
import Mathlib.Data.List.Lex
import Mathlib.Tactic.NormNum

/-! # The virtual book

`compileVirtualBook` turns executable slices of one state into price levels. A price is a 64-bit number,
so a slice that pays at least one atom for each unit of its exposure has none, and the whole book is
refused (`virtual_book`). -/

namespace StockMesh.Onebook

open Stateful Budgeted Insertion

/-- `MAX_VIRTUAL_LEVELS`. -/
abbrev maxVirtualLevels : ℕ := 32

/-- A quote of a source, bound to a state. -/
structure ExecutableSlice where
  claim : Key
  source : Key
  stateHash : Key
  inputUsdcAtoms : ℕ
  exposureQ32 : ℕ
  conversionBps : ℕ
  expiresAtSlot : ℕ
  deriving DecidableEq

/-- A level of the book. -/
structure VirtualLevel where
  claim : Key := noKey
  source : Key := noKey
  stateHash : Key := noKey
  priceQ32 : ℕ := 0
  exposureQ32 : ℕ := 0
  inputUsdcAtoms : ℕ := 0
  conversionBps : ℕ := 0
  expiresAtSlot : ℕ := 0
  deriving DecidableEq

structure VirtualBook where
  levels : ℕ → VirtualLevel := fun _ => {}
  levelCount : ℕ := 0
  totalExposureQ32 : ℕ := 0
  stateHash : Key

/-- Levels are in the order of the price, the claim and the source. -/
def levelKey (l : VirtualLevel) : ℕ ×ₗ List ℕ ×ₗ List ℕ :=
  toLex (l.priceQ32, toLex (l.claim.toList.map UInt8.toNat, l.source.toList.map UInt8.toNat))

/-- What the loop of `compile_virtual_book` rejects. -/
def BadSlice (stateHash : Key) (slot : ℕ) (s : ExecutableSlice) : Prop :=
  s.claim = noKey ∨ s.source = noKey ∨ s.stateHash ≠ stateHash ∨ s.inputUsdcAtoms = 0 ∨
    maxAtoms < s.inputUsdcAtoms ∨ s.exposureQ32 = 0 ∨ maxAtoms < s.exposureQ32 ∨
    10000 < s.conversionBps ∨ s.expiresAtSlot < slot

instance (stateHash : Key) (slot : ℕ) (s : ExecutableSlice) : Decidable (BadSlice stateHash slot s) :=
  inferInstanceAs (Decidable (_ ∨ _ ∨ _ ∨ _ ∨ _ ∨ _ ∨ _ ∨ _ ∨ _))

/-- The price of a slice. -/
def slicePrice (s : ExecutableSlice) : Result ℕ := do
  let numerator ← fits u128Size .arithmetic (s.inputUsdcAtoms * scale)
  let numerator ← fits u128Size .arithmetic (numerator * scale)
  let price ← ceilDiv numerator s.exposureQ32
  asU64 price

/-- The level of a slice at a price. -/
def levelAt (stateHash : Key) (s : ExecutableSlice) (price : ℕ) : VirtualLevel where
  claim := s.claim
  source := s.source
  stateHash := stateHash
  priceQ32 := price
  exposureQ32 := s.exposureQ32
  inputUsdcAtoms := s.inputUsdcAtoms
  conversionBps := s.conversionBps
  expiresAtSlot := s.expiresAtSlot

/-- One slice of the loop of `compile_virtual_book`. -/
def addSlice (slot : ℕ) (book : VirtualBook) (s : ExecutableSlice) : Metered VirtualBook := do
  charge 1
  lift (rejectIf (BadSlice book.stateHash slot s) .invalidAmount)
  let price ← lift (slicePrice s)
  let levels := insert levelKey (levelAt book.stateHash s price) book.levelCount book.levels
  let total ← lift (fits u128Size .arithmetic (book.totalExposureQ32 + s.exposureQ32))
  pure { book with
    levels := levels, levelCount := book.levelCount + 1, totalExposureQ32 := total }

/-- `compile_virtual_book`. -/
def compileVirtualBook (slices : List ExecutableSlice) (slot : ℕ) : Metered VirtualBook := do
  lift (rejectIf (maxVirtualLevels < slices.length) .bounds)
  let first ← lift (okOr slices.head? .bounds)
  lift (rejectIf (first.stateHash = noKey) .identity)
  slices.foldlM (addSlice slot) { stateHash := first.stateHash }

/-! ## Prices -/

/-- The price of a slice, rounded up. -/
def ExecutableSlice.price (s : ExecutableSlice) : ℕ := (s.inputUsdcAtoms * 2 ^ 64) ⌈/⌉ s.exposureQ32

/-- The level of a slice. -/
def ExecutableSlice.level (s : ExecutableSlice) : VirtualLevel := levelAt s.stateHash s s.price

/-- The levels in use. -/
def VirtualBook.list (book : VirtualBook) : List VirtualLevel := listing book.levels book.levelCount

section Slices

variable {stateHash : Key} {slot : ℕ} {s : ExecutableSlice}

/-- The bounds of a slice that is not rejected. -/
theorem bounds_of_good (h : ¬BadSlice stateHash slot s) : s.stateHash = stateHash ∧
    s.inputUsdcAtoms ≤ maxAtoms ∧ 0 < s.exposureQ32 ∧ s.exposureQ32 ≤ maxAtoms := by
  simp only [BadSlice, not_or, not_lt] at h
  obtain ⟨-, -, hhash, -, hinput, hexposure, hle, -⟩ := h
  exact ⟨not_not.mp hhash, hinput, Nat.pos_of_ne_zero hexposure, hle⟩

/-- The price fits exactly when the slice pays less than one atom for each unit of exposure. -/
theorem price_lt_iff (hpos : 0 < s.exposureQ32) (hle : s.exposureQ32 ≤ maxAtoms) :
    s.price < u64Size ↔ s.inputUsdcAtoms < s.exposureQ32 := by
  have hatoms : maxAtoms < 2 ^ 64 := by decide
  have hfits : s.price < u64Size ↔ s.inputUsdcAtoms * 2 ^ 64 ≤ s.exposureQ32 * (2 ^ 64 - 1) := by
    rw [ExecutableSlice.price, ← ceilDiv_le_iff_le_mul hpos, u64Size]
    omega
  rw [hfits]
  omega

/-- The checked arithmetic computes the price, or refuses one that does not fit. -/
theorem slicePrice_eq (h : ¬BadSlice stateHash slot s) : slicePrice s =
    if s.inputUsdcAtoms < s.exposureQ32 then .ok s.price else .error .arithmetic := by
  obtain ⟨-, hinput, hpos, hle⟩ := bounds_of_good h
  have hatoms : maxAtoms * 2 ^ 64 + 1 < u128Size := by decide
  obtain ⟨numerator, hnumerator⟩ : ∃ n, n = s.inputUsdcAtoms * 2 ^ 64 := ⟨_, rfl⟩
  have hscale : s.inputUsdcAtoms * scale * scale = numerator := by
    rw [hnumerator, Nat.mul_assoc]
    norm_num [scale]
  have hsquare : numerator ≤ maxAtoms * 2 ^ 64 := by
    rw [hnumerator]
    exact Nat.mul_le_mul_right _ hinput
  have hpow : scale ≤ 2 ^ 64 := by norm_num [scale]
  have hfirst : s.inputUsdcAtoms * scale ≤ maxAtoms * 2 ^ 64 := Nat.mul_le_mul hinput hpow
  have hdiv : numerator / s.exposureQ32 ≤ numerator := Nat.div_le_self _ _
  have hceil : ceilDiv numerator s.exposureQ32 = .ok s.price := by
    rw [ceilDiv, rejectIf_of_not _ hpos.ne', ok_bind, addU128_of_lt (by split <;> omega),
      ExecutableSlice.price, ← hnumerator, Instalments.ceilDiv_eq_div_add hpos]
  rw [slicePrice, fits_of_lt _ (by omega), ok_bind, hscale, fits_of_lt _ (by omega), ok_bind, hceil,
    ok_bind]
  by_cases hlt : s.inputUsdcAtoms < s.exposureQ32
  · rw [if_pos hlt]
    exact asU64_of_lt ((price_lt_iff hpos hle).mpr hlt)
  · rw [if_neg hlt]
    exact if_neg fun hfits => hlt ((price_lt_iff hpos hle).mp hfits)

/-- A slice that has a price is inserted. -/
theorem addSlice_runs {book : VirtualBook} (h : ¬BadSlice book.stateHash slot s)
    (hlt : s.inputUsdcAtoms < s.exposureQ32)
    (htotal : book.totalExposureQ32 + s.exposureQ32 < u128Size) :
    RunsTo (addSlice slot book s) 1 (.ok { book with
      levels := insert levelKey s.level book.levelCount book.levels
      levelCount := book.levelCount + 1
      totalExposureQ32 := book.totalExposureQ32 + s.exposureQ32 }) := by
  refine runsTo_charge_bind (n := 0) ?_ le_rfl
  rw [rejectIf_of_not _ h, slicePrice_eq h, if_pos hlt, fits_of_lt _ htotal]
  have hlevel : levelAt book.stateHash s s.price = s.level := by
    rw [ExecutableSlice.level, (bounds_of_good h).1]
  simp only [lift_ok, pure_bind, hlevel]
  exact Runs.pure _

/-- A slice that has none ends the loop. -/
theorem addSlice_refused {book : VirtualBook} (h : ¬BadSlice book.stateHash slot s)
    (hge : s.exposureQ32 ≤ s.inputUsdcAtoms) :
    RunsTo (addSlice slot book s) 1 (.error .arithmetic) := by
  refine runsTo_charge_bind (n := 0) ?_ le_rfl
  rw [rejectIf_of_not _ h, slicePrice_eq h, if_neg (not_lt.mpr hge), lift_ok, pure_bind]
  exact (Runs.fail Error.arithmetic).bind_error

end Slices

/-! ## Books -/

/-- The book holds the slices `done`. -/
structure Holds (stateHash : Key) (done : List ExecutableSlice) (book : VirtualBook) : Prop where
  stateHash_eq : book.stateHash = stateHash
  count_eq : book.levelCount = done.length
  sorts : Sorts levelKey (done.map ExecutableSlice.level) book.list
  total_eq : book.totalExposureQ32 = (done.map ExecutableSlice.exposureQ32).sum

/-- The slices pass the validation. -/
structure Admitted (slices : List ExecutableSlice) (slot : ℕ) : Prop where
  ne_nil : slices ≠ []
  length_le : slices.length ≤ maxVirtualLevels
  good : ∃ stateHash, stateHash ≠ noKey ∧ ∀ s ∈ slices, ¬BadSlice stateHash slot s

section Books

variable {stateHash : Key} {slot : ℕ} {slices : List ExecutableSlice}

/-- The exposures of good slices sum to little. -/
theorem sum_exposure_le (h : ∀ s ∈ slices, ¬BadSlice stateHash slot s) :
    (slices.map ExecutableSlice.exposureQ32).sum ≤ slices.length * maxAtoms := by
  rw [← List.length_map ExecutableSlice.exposureQ32, ← smul_eq_mul]
  apply List.sum_le_card_nsmul
  intro x hx
  obtain ⟨s, hs, rfl⟩ := List.mem_map.mp hx
  exact (bounds_of_good (h s hs)).2.2.2

/-- Slices that have prices are all inserted. -/
theorem addSlices_run {done rest : List ExecutableSlice} {book : VirtualBook}
    (hbook : Holds stateHash done book) (hlength : (done ++ rest).length ≤ maxVirtualLevels)
    (hgood : ∀ s ∈ done ++ rest, ¬BadSlice stateHash slot s)
    (hprice : ∀ s ∈ rest, s.inputUsdcAtoms < s.exposureQ32) :
    ∃ book', RunsTo (rest.foldlM (addSlice slot) book) rest.length (.ok book') ∧
      Holds stateHash (done ++ rest) book' := by
  induction rest generalizing done book with
  | nil => exact ⟨book, Runs.pure book, by rwa [List.append_nil]⟩
  | cons s rest ih =>
    have hassoc : done ++ s :: rest = done ++ [s] ++ rest := by simp
    rw [hassoc] at hlength hgood ⊢
    have hsmall : done.length + 1 ≤ maxVirtualLevels := by
      simp only [List.length_append, List.length_singleton] at hlength
      omega
    have hdone : ∀ x ∈ done ++ [s], ¬BadSlice stateHash slot x := fun x hx =>
      hgood x (List.mem_append_left _ hx)
    have htotal : book.totalExposureQ32 + s.exposureQ32 < u128Size := by
      have hsum := sum_exposure_le hdone
      rw [List.map_append, List.sum_append, List.length_append] at hsum
      have hbound : (done.length + 1) * maxAtoms ≤ maxVirtualLevels * maxAtoms :=
        Nat.mul_le_mul_right _ hsmall
      have hroom : maxVirtualLevels * maxAtoms < u128Size := by decide
      rw [hbook.total_eq]
      simp only [List.map_cons, List.map_nil, List.sum_singleton, List.length_singleton] at hsum
      omega
    have hs : ¬BadSlice book.stateHash slot s := by
      rw [hbook.stateHash_eq]
      exact hdone s (by simp)
    have hstep := addSlice_runs hs (hprice s List.mem_cons_self) htotal
    have hnext : Holds stateHash (done ++ [s]) { book with
        levels := insert levelKey s.level book.levelCount book.levels
        levelCount := book.levelCount + 1
        totalExposureQ32 := book.totalExposureQ32 + s.exposureQ32 } := by
      constructor
      · exact hbook.stateHash_eq
      · simp [hbook.count_eq]
      · rw [List.map_append]
        exact hbook.sorts.listing s.level
      · simp [hbook.total_eq]
    obtain ⟨book', hrun, hholds⟩ := ih hnext hlength hgood fun x hx => hprice x (List.mem_cons_of_mem _ hx)
    refine ⟨book', ?_, hholds⟩
    rw [List.foldlM_cons, List.length_cons, Nat.add_comm]
    exact hstep.bind hrun

/-- The first slice that has no price ends the loop. -/
theorem addSlices_refused {done rest : List ExecutableSlice} {book : VirtualBook}
    (hbook : Holds stateHash done book) (hlength : (done ++ rest).length ≤ maxVirtualLevels)
    (hgood : ∀ s ∈ done ++ rest, ¬BadSlice stateHash slot s)
    (hprice : ∃ s ∈ rest, s.exposureQ32 ≤ s.inputUsdcAtoms) :
    RunsTo (rest.foldlM (addSlice slot) book) rest.length (.error .arithmetic) := by
  obtain ⟨before, s, after, rfl, hbefore, hs⟩ : ∃ before s after, rest = before ++ s :: after ∧
      (∀ x ∈ before, x.inputUsdcAtoms < x.exposureQ32) ∧ s.exposureQ32 ≤ s.inputUsdcAtoms := by
    have hsome : (rest.find? fun s => decide (s.exposureQ32 ≤ s.inputUsdcAtoms)).isSome = true := by
      rw [List.find?_isSome]
      simpa using hprice
    obtain ⟨s, hfind⟩ := Option.isSome_iff_exists.mp hsome
    obtain ⟨hs, before, after, heq, hbefore⟩ := List.find?_eq_some_iff_append.mp hfind
    exact ⟨before, s, after, heq, by simpa using hbefore, by simpa using hs⟩
  have hbeforeLength : (done ++ before).length ≤ maxVirtualLevels := by
    simp only [List.length_append, List.length_cons] at hlength ⊢
    omega
  obtain ⟨book', hrun, hbook'⟩ := addSlices_run hbook hbeforeLength
    (fun x hx => hgood x (by rw [← List.append_assoc]; exact List.mem_append_left _ hx)) hbefore
  have hbad : ¬BadSlice book'.stateHash slot s := by
    rw [hbook'.stateHash_eq]
    exact hgood s (by simp)
  have hlast : RunsTo ((s :: after).foldlM (addSlice slot) book') 1 (.error .arithmetic) := by
    rw [List.foldlM_cons]
    exact (addSlice_refused hbad hs).bind_error
  rw [List.foldlM_append]
  refine (hrun.bind hlast).mono ?_
  simp

/-- An admitted list is refused or compiled as its loop is. -/
theorem compile_eq_loop {hash : Key} (hne : slices ≠ []) (hlength : slices.length ≤ maxVirtualLevels)
    (hhash : hash ≠ noKey) (hgood : ∀ s ∈ slices, ¬BadSlice hash slot s) :
    compileVirtualBook slices slot = slices.foldlM (addSlice slot) { stateHash := hash } := by
  obtain ⟨first, rest, rfl⟩ := List.exists_cons_of_ne_nil hne
  obtain rfl : first.stateHash = hash := (bounds_of_good (hgood first List.mem_cons_self)).1
  rw [compileVirtualBook, rejectIf_of_not _ (not_lt.mpr hlength), List.head?_cons, okOr]
  simp only [lift_ok, pure_bind]
  rw [rejectIf_of_not _ hhash, lift_ok, pure_bind]

/-- An empty book holds nothing. -/
theorem Holds.start (hash : Key) : Holds hash [] { stateHash := hash } :=
  ⟨rfl, rfl, Sorts.nil, rfl⟩

end Books

/-- An admitted list of slices is compiled exactly when each of them pays less than one atom for each unit
of its exposure. The levels are then its slices, by price, claim and source. -/
theorem virtual_book {slices : List ExecutableSlice} {slot : ℕ} (h : Admitted slices slot) :
    ((∀ s ∈ slices, s.inputUsdcAtoms < s.exposureQ32) →
      ∃ book, RunsTo (compileVirtualBook slices slot) slices.length (.ok book) ∧
        Sorts levelKey (slices.map ExecutableSlice.level) book.list ∧
        book.totalExposureQ32 = (slices.map ExecutableSlice.exposureQ32).sum ∧
        ∀ slices', slices'.Perm slices → ∃ book',
          RunsTo (compileVirtualBook slices' slot) slices'.length (.ok book') ∧
          book'.list.map levelKey = book.list.map levelKey) ∧
    ((∃ s ∈ slices, s.exposureQ32 ≤ s.inputUsdcAtoms) →
      RunsTo (compileVirtualBook slices slot) slices.length (.error .arithmetic)) := by
  obtain ⟨hash, hhash, hgood⟩ := h.good
  have hcompile : ∀ xs : List ExecutableSlice, xs.Perm slices →
      (∀ s ∈ xs, s.inputUsdcAtoms < s.exposureQ32) → ∃ book,
        RunsTo (compileVirtualBook xs slot) xs.length (.ok book) ∧ Holds hash xs book := by
    intro xs hperm hprice
    have hgood' : ∀ s ∈ xs, ¬BadSlice hash slot s := fun s hs => hgood s (hperm.mem_iff.mp hs)
    have hlength : xs.length ≤ maxVirtualLevels := hperm.length_eq.trans_le h.length_le
    have hne : xs ≠ [] := fun heq => h.ne_nil (List.nil_perm.mp (heq ▸ hperm))
    rw [compile_eq_loop hne hlength hhash hgood']
    exact addSlices_run (Holds.start hash) hlength hgood' hprice
  constructor
  · intro hprice
    obtain ⟨book, hrun, hbook⟩ := hcompile slices (.refl _) hprice
    refine ⟨book, hrun, hbook.sorts, hbook.total_eq, fun slices' hperm => ?_⟩
    obtain ⟨book', hrun', hbook'⟩ := hcompile slices' hperm fun s hs => hprice s (hperm.mem_iff.mp hs)
    exact ⟨book', hrun', hbook.sorts.keys_eq hbook'.sorts (hperm.map _)⟩
  · intro hprice
    rw [compile_eq_loop h.ne_nil h.length_le hhash hgood]
    exact addSlices_refused (Holds.start hash) h.length_le hgood hprice

/-- A slice of a source. -/
def exampleSlice (source input exposure : ℕ) : ExecutableSlice where
  claim := Key.ofNat 1
  source := Key.ofNat source
  stateHash := Key.ofNat 9
  inputUsdcAtoms := input
  exposureQ32 := exposure
  conversionBps := 0
  expiresAtSlot := 5

/-- Two slices whose order is that of their prices. -/
theorem virtual_book_example : ∃ book,
    RunsTo (compileVirtualBook [exampleSlice 3 2 4, exampleSlice 4 1 4] 5) 2 (.ok book) ∧
      Sorts levelKey ([exampleSlice 3 2 4, exampleSlice 4 1 4].map ExecutableSlice.level) book.list := by
  obtain ⟨book, hrun, hsorts, -⟩ := (@virtual_book [exampleSlice 3 2 4, exampleSlice 4 1 4] 5
    ⟨by decide, by decide, Key.ofNat 9, by decide, by decide⟩).1 (by decide)
  exact ⟨book, hrun, hsorts⟩

/-- One atom for one unit of exposure passes the validation and is refused. -/
theorem virtual_book_refused : Admitted [exampleSlice 3 1 1] 5 ∧
    RunsTo (compileVirtualBook [exampleSlice 3 1 1] 5) 1 (.error .arithmetic) := by
  have hgood : ∀ s ∈ [exampleSlice 3 1 1], ¬BadSlice (Key.ofNat 9) 5 s := by decide
  have hhash : Key.ofNat 9 ≠ noKey := by decide
  have hlength : [exampleSlice 3 1 1].length ≤ maxVirtualLevels := by decide
  refine ⟨⟨by decide, hlength, Key.ofNat 9, hhash, hgood⟩, ?_⟩
  rw [compile_eq_loop (List.cons_ne_nil _ _) hlength hhash hgood]
  exact addSlices_refused (Holds.start _) hlength hgood ⟨_, List.mem_singleton_self _, le_rfl⟩

end StockMesh.Onebook

import Mathlib.Data.List.Sort
import Mathlib.Data.List.Nodup

/-! # Tables sorted by a key

A `Table key` lists rows in strictly increasing order of `key`, as an ordered map from keys to rows
iterates over them. `insert` replaces the row of the same key. A table is determined by its rows
(`ext_mem`), and inserting its rows into the empty table gives it back (`insertAll_rows`). -/

/-- Rows in strictly increasing order of their keys. -/
@[ext] structure Table {α κ : Type} [LinearOrder κ] (key : α → κ) where
  rows : List α
  sorted : rows.Pairwise fun a b => key a < key b

namespace Table

variable {α κ : Type} [LinearOrder κ] {key : α → κ}

instance : Membership α (Table key) := ⟨fun t a => a ∈ t.rows⟩

theorem mem_rows {t : Table key} {a : α} : a ∈ t.rows ↔ a ∈ t := Iff.rfl

/-- The table without rows. -/
def empty : Table key := ⟨[], .nil⟩

@[simp] theorem rows_empty : (empty : Table key).rows = [] := rfl

@[simp] theorem notMem_empty (a : α) : a ∉ (empty : Table key) := List.not_mem_nil

/-- The row of a key. -/
def find (t : Table key) (k : κ) : Option α := t.rows.find? fun a => key a = k

@[simp] theorem find_empty (k : κ) : (empty : Table key).find k = none := rfl

/-- Two rows of one key are one row. -/
theorem eq_of_key {t : Table key} {a b : α} (ha : a ∈ t) (hb : b ∈ t) (h : key a = key b) :
    a = b := by
  have hkeys : (t.rows.map key).Nodup := List.pairwise_map.mpr (t.sorted.imp fun h => h.ne)
  exact List.inj_on_of_nodup_map hkeys ha hb h

theorem nodup_rows (t : Table key) : t.rows.Nodup :=
  t.sorted.imp fun h heq => (congrArg key heq ▸ h).false

theorem nodup_keys (t : Table key) : (t.rows.map key).Nodup :=
  List.pairwise_map.mpr (t.sorted.imp fun h => h.ne)

theorem find_eq_some {t : Table key} {k : κ} {a : α} :
    t.find k = some a ↔ a ∈ t ∧ key a = k := by
  constructor
  · intro h
    exact ⟨List.mem_of_find?_eq_some h, by simpa using List.find?_some h⟩
  · rintro ⟨ha, rfl⟩
    cases hfind : t.find (key a) with
    | none =>
      have hno := List.find?_eq_none.mp hfind a ha
      simp at hno
    | some b =>
      have hkey : key b = key a := by simpa using List.find?_some hfind
      rw [eq_of_key (List.mem_of_find?_eq_some hfind) ha hkey]

theorem find_eq_none {t : Table key} {k : κ} : t.find k = none ↔ ∀ a ∈ t, key a ≠ k := by
  simp [find, List.find?_eq_none, mem_rows]

theorem find_key {t : Table key} {a : α} (h : a ∈ t) : t.find (key a) = some a :=
  find_eq_some.mpr ⟨h, rfl⟩

/-- A table is determined by its rows. -/
theorem ext_mem {t u : Table key} (h : ∀ a, a ∈ t ↔ a ∈ u) : t = u := by
  refine Table.ext (List.Perm.eq_of_pairwise ?_ t.sorted u.sorted ?_)
  · exact fun a b _ _ hab hba => absurd hab hba.asymm
  · exact (List.perm_ext_iff_of_nodup t.nodup_rows u.nodup_rows).mpr h

/-- Two tables of the same rows in any order are equal. -/
theorem ext_perm {t u : Table key} (h : t.rows.Perm u.rows) : t = u :=
  ext_mem fun _ => h.mem_iff

/-- A table is determined by the rows of the keys. -/
theorem ext_find {t u : Table key} (h : ∀ k, t.find k = u.find k) : t = u := by
  refine ext_mem fun a => ?_
  constructor
  · intro ha
    exact (find_eq_some.mp ((h (key a)).symm.trans (find_key ha))).1
  · intro ha
    exact (find_eq_some.mp ((h (key a)).trans (find_key ha))).1

/-- Insert a row in place of the row of its key. -/
def insert (t : Table key) (a : α) : Table key where
  rows := (t.rows.filter fun b => key b ≠ key a).orderedInsert (fun x y => key x ≤ key y) a
  sorted := by
    have hle : (t.rows.filter fun b => key b ≠ key a).Pairwise fun x y => key x ≤ key y :=
      (t.sorted.filter _).imp fun h => h.le
    have hins : ((t.rows.filter fun b => key b ≠ key a).orderedInsert
        (fun x y => key x ≤ key y) a).Pairwise fun x y => key x ≤ key y := by
      have : Std.Total (fun x y : α => key x ≤ key y) := ⟨fun x y => le_total _ _⟩
      have : IsTrans α (fun x y : α => key x ≤ key y) := ⟨fun _ _ _ => le_trans⟩
      exact hle.orderedInsert _ _
    have hperm := List.perm_orderedInsert (fun x y : α => key x ≤ key y) a
      (t.rows.filter fun b => key b ≠ key a)
    have hne : (a :: t.rows.filter fun b => key b ≠ key a).Pairwise fun x y => key x ≠ key y := by
      refine List.pairwise_cons.mpr ⟨fun b hb => ?_, (t.sorted.filter _).imp fun h => h.ne⟩
      have hkey := (List.mem_filter.mp hb).2
      simp only [ne_eq, decide_not, Bool.not_eq_true', decide_eq_false_iff_not] at hkey
      exact fun h => hkey h.symm
    have hne' := (hperm.pairwise_iff fun h => h.symm).mpr hne
    exact hins.imp₂ (fun _ _ hle hne => lt_of_le_of_ne hle hne) hne'

/-- The rows after an insertion, up to order. -/
theorem rows_insert_perm (t : Table key) (a : α) :
    (t.insert a).rows.Perm (a :: t.rows.filter fun b => key b ≠ key a) :=
  List.perm_orderedInsert _ _ _

theorem mem_insert {t : Table key} {a b : α} :
    b ∈ t.insert a ↔ b = a ∨ b ∈ t ∧ key b ≠ key a := by
  rw [← mem_rows, (t.rows_insert_perm a).mem_iff, List.mem_cons, List.mem_filter]
  simp [mem_rows]

theorem mem_insert_self (t : Table key) (a : α) : a ∈ t.insert a := mem_insert.mpr (.inl rfl)

theorem find_insert (t : Table key) (a : α) (k : κ) :
    (t.insert a).find k = if key a = k then some a else t.find k := by
  apply Option.ext
  intro b
  rw [find_eq_some, mem_insert]
  by_cases hk : key a = k
  · rw [if_pos hk]
    grind
  · rw [if_neg hk, find_eq_some]
    grind

/-- A new key adds a row at the front, up to order. -/
theorem rows_insert_perm_of_new {t : Table key} {a : α} (h : t.find (key a) = none) :
    (t.insert a).rows.Perm (a :: t.rows) := by
  have hall : (t.rows.filter fun b => key b ≠ key a) = t.rows :=
    List.filter_eq_self.mpr fun b hb => by simpa using find_eq_none.mp h b hb
  simpa only [hall] using t.rows_insert_perm a

/-- The row of a key stands before the others, up to order. -/
theorem rows_perm_of_mem {t : Table key} {a : α} (h : a ∈ t) :
    t.rows.Perm (a :: t.rows.filter fun b => key b ≠ key a) := by
  have hself : t.insert a = t := by
    apply ext_mem
    intro b
    rw [mem_insert]
    constructor
    · rintro (rfl | ⟨hb, -⟩)
      · exact h
      · exact hb
    · intro hb
      by_cases hkey : key b = key a
      · exact .inl (eq_of_key hb h hkey)
      · exact .inr ⟨hb, hkey⟩
  simpa only [hself] using t.rows_insert_perm a

theorem length_insert_le (t : Table key) (a : α) :
    (t.insert a).rows.length ≤ t.rows.length + 1 := by
  rw [(t.rows_insert_perm a).length_eq, List.length_cons]
  exact Nat.succ_le_succ (List.length_filter_le _ _)

theorem length_le_insert (t : Table key) (a : α) : t.rows.length ≤ (t.insert a).rows.length := by
  have hsub : t.rows.map key ⊆ (t.insert a).rows.map key := by
    intro k hk
    obtain ⟨b, hb, rfl⟩ := List.mem_map.mp hk
    by_cases hkey : key b = key a
    · exact List.mem_map.mpr ⟨a, t.mem_insert_self a, hkey.symm⟩
    · exact List.mem_map.mpr ⟨b, mem_insert.mpr (.inr ⟨hb, hkey⟩), rfl⟩
  simpa using (List.subperm_of_subset t.nodup_keys hsub).length_le

/-- Replacing a row keeps the length. -/
theorem length_insert_of_mem {t : Table key} {a b : α} (hb : b ∈ t) (h : key b = key a) :
    (t.insert a).rows.length = t.rows.length := by
  have hsub : (t.insert a).rows.map key ⊆ t.rows.map key := by
    intro k hk
    obtain ⟨x, hx, rfl⟩ := List.mem_map.mp hk
    obtain rfl | ⟨hx, -⟩ := mem_insert.mp hx
    · exact List.mem_map.mpr ⟨b, hb, h⟩
    · exact List.mem_map.mpr ⟨x, hx, rfl⟩
  refine le_antisymm ?_ (t.length_le_insert a)
  simpa using (List.subperm_of_subset (t.insert a).nodup_keys hsub).length_le

/-- Insert rows in order. -/
def insertAll (t : Table key) (l : List α) : Table key := l.foldl insert t

@[simp] theorem insertAll_nil (t : Table key) : t.insertAll [] = t := rfl

@[simp] theorem insertAll_cons (t : Table key) (a : α) (l : List α) :
    t.insertAll (a :: l) = (t.insert a).insertAll l := rfl

theorem insertAll_append (t : Table key) (l m : List α) :
    t.insertAll (l ++ m) = (t.insertAll l).insertAll m := List.foldl_append ..

/-- A key that no inserted row has keeps its row. -/
theorem find_insertAll_of_forall {t : Table key} {l : List α} {k : κ} (h : ∀ a ∈ l, key a ≠ k) :
    (t.insertAll l).find k = t.find k := by
  induction l generalizing t with
  | nil => rfl
  | cons a l ih =>
    rw [insertAll_cons, ih fun b hb => h b (List.mem_cons_of_mem _ hb), find_insert,
      if_neg (h a List.mem_cons_self)]

theorem mem_of_mem_insertAll {t : Table key} {l : List α} {a : α} (h : a ∈ t.insertAll l) :
    a ∈ t ∨ a ∈ l := by
  induction l generalizing t with
  | nil => exact .inl h
  | cons b l ih =>
    obtain hins | hmem := ih h
    · obtain rfl | ⟨ht, -⟩ := mem_insert.mp hins
      · exact .inr List.mem_cons_self
      · exact .inl ht
    · exact .inr (List.mem_cons_of_mem _ hmem)

/-- A row of a list with different keys is there after the list is inserted. -/
theorem mem_insertAll_of_mem {t : Table key} {l : List α} {a : α} (hl : (l.map key).Nodup)
    (ha : a ∈ l) : a ∈ t.insertAll l := by
  induction l generalizing t with
  | nil => cases ha
  | cons b l ih =>
    obtain ⟨hhead, htail⟩ := List.nodup_cons.mp hl
    rw [insertAll_cons]
    obtain rfl | hrest := List.mem_cons.mp ha
    · have hkeep : ((t.insert a).insertAll l).find (key a) = (t.insert a).find (key a) :=
        find_insertAll_of_forall fun c hc hkey => hhead (List.mem_map.mpr ⟨c, hc, hkey⟩)
      rw [find_insert, if_pos rfl] at hkeep
      exact (find_eq_some.mp hkeep).1
    · exact ih htail hrest

theorem length_le_insertAll (t : Table key) (l : List α) :
    t.rows.length ≤ (t.insertAll l).rows.length := by
  induction l generalizing t with
  | nil => exact le_rfl
  | cons a l ih => exact (t.length_le_insert a).trans (ih _)

theorem length_insertAll_le (t : Table key) (l : List α) :
    (t.insertAll l).rows.length ≤ t.rows.length + l.length := by
  induction l generalizing t with
  | nil => exact le_rfl
  | cons a l ih =>
    have hrest := ih (t.insert a)
    have hone := t.length_insert_le a
    rw [insertAll_cons, List.length_cons]
    omega

/-- Replacing rows keeps the length. -/
theorem length_insertAll_of_forall {t : Table key} {l : List α}
    (h : ∀ a ∈ l, ∃ b ∈ t, key b = key a) : (t.insertAll l).rows.length = t.rows.length := by
  induction l generalizing t with
  | nil => rfl
  | cons a l ih =>
    obtain ⟨b, hb, hkey⟩ := h a List.mem_cons_self
    rw [insertAll_cons, ih, length_insert_of_mem hb hkey]
    intro c hc
    obtain ⟨d, hd, hdc⟩ := h c (List.mem_cons_of_mem _ hc)
    by_cases hda : key d = key a
    · exact ⟨a, t.mem_insert_self a, hda.symm.trans hdc⟩
    · exact ⟨d, mem_insert.mpr (.inr ⟨hd, hda⟩), hdc⟩

/-- Rows of different keys that a table does not have are added up to order. -/
theorem rows_insertAll_perm {t : Table key} {l : List α} (hnew : ∀ a ∈ l, t.find (key a) = none)
    (hl : (l.map key).Nodup) : (t.insertAll l).rows.Perm (t.rows ++ l) := by
  induction l generalizing t with
  | nil => simp
  | cons a l ih =>
    obtain ⟨hhead, htail⟩ := List.nodup_cons.mp hl
    have hnext : ∀ b ∈ l, (t.insert a).find (key b) = none := by
      intro b hb
      have hne : key a ≠ key b := fun h => hhead (List.mem_map.mpr ⟨b, hb, h.symm⟩)
      rw [find_insert, if_neg hne]
      exact hnew b (List.mem_cons_of_mem _ hb)
    have hone := rows_insert_perm_of_new (hnew a List.mem_cons_self)
    calc (t.insertAll (a :: l)).rows.Perm ((t.insert a).rows ++ l) := ih hnext htail
      _ |>.Perm (a :: t.rows ++ l) := hone.append_right l
      _ |>.Perm (t.rows ++ a :: l) := List.perm_middle.symm

/-- Inserting the rows of a table into the empty table gives it back. -/
theorem insertAll_rows (t : Table key) : empty.insertAll t.rows = t := by
  apply ext_perm
  have hperm := rows_insertAll_perm (fun a _ => find_empty (key a)) t.nodup_keys
  simpa using hperm

end Table

import Mathlib.Data.Nat.Basic
import Mathlib.Data.List.Basic
import Mathlib.Tactic.Common

/-! # Text formats

A `Format` writes values as text and reads them back in front of every continuation that cannot belong to
them (`Ends`). Numbers, quoted strings, lists and fields are formats, and formats compose, so that a
whole record is read back by construction. -/

/-- Text that ends a number before it. -/
def Ends (rest : List Char) : Prop := ∀ c ∈ rest.head?, c.isDigit = false

/-- Values as text, with a reader that inverts the writer. -/
structure Format (α : Type) where
  write : α → List Char
  read : List Char → Option (α × List Char)
  read_write : ∀ a rest, Ends rest → read (write a ++ rest) = some (a, rest)

namespace Format

variable {α β : Type}

theorem ends_cons {c : Char} (h : c.isDigit = false) (rest : List Char) : Ends (c :: rest) := by
  intro d hd
  obtain rfl : c = d := by simpa using hd
  exact h

/-! ## Fixed text -/

/-- Fixed text at the front. -/
def expect : List Char → List Char → Option (List Char)
  | [], rest => some rest
  | _ :: _, [] => none
  | c :: s, d :: rest => if c = d then expect s rest else none

@[simp] theorem expect_append (s rest : List Char) : expect s (s ++ rest) = some rest := by
  induction s with
  | nil => rfl
  | cons c s ih => simp [expect, ih]

@[simp] theorem expect_cons_append (c : Char) (s rest : List Char) :
    expect (c :: s) (c :: (s ++ rest)) = some rest := expect_append (c :: s) rest

theorem expect_eq_none {s t : List Char} (h : ¬s <+: t) : expect s t = none := by
  induction s generalizing t with
  | nil => exact absurd (List.nil_prefix) h
  | cons c s ih =>
    cases t with
    | nil => rfl
    | cons d t =>
      by_cases hcd : c = d
      · subst hcd
        rw [expect, if_pos rfl]
        exact ih fun hs => h (List.cons_prefix_cons.mpr ⟨rfl, hs⟩)
      · rw [expect, if_neg hcd]

/-- Different texts of which neither starts the other have no common continuation. -/
theorem not_prefix_append {s t : List Char} (h : ¬s <+: t) (h' : ¬t <+: s) (rest : List Char) :
    ¬s <+: t ++ rest := by
  intro hs
  rcases List.prefix_or_prefix_of_prefix hs (List.prefix_append t rest) with hst | hts
  · exact h hst
  · exact h' hts

/-! ## Numbers -/

/-- Decimal numbers. -/
def number : Format ℕ where
  write n := Nat.toDigits 10 n
  read cs :=
    if cs.takeWhile Char.isDigit = [] then none
    else some (Nat.ofDigitChars 10 (cs.takeWhile Char.isDigit) 0, cs.dropWhile Char.isDigit)
  read_write n rest hrest := by
    have hdigits : ∀ c ∈ Nat.toDigits 10 n, c.isDigit = true := fun c hc =>
      Nat.isDigit_of_mem_toDigits (by decide) le_rfl hc
    have htake : rest.takeWhile Char.isDigit = [] := by
      cases rest with
      | nil => rfl
      | cons c rest => simp [hrest c rfl]
    have hdrop : rest.dropWhile Char.isDigit = rest := by
      cases rest with
      | nil => rfl
      | cons c rest => simp [hrest c rfl]
    rw [List.takeWhile_append_of_pos hdigits, List.dropWhile_append_of_pos hdigits, htake, hdrop,
      List.append_nil, if_neg Nat.toDigits_ne_nil,
      Nat.ofDigitChars_toDigits (by decide) le_rfl]

/-- A number does not start like a list ends. -/
theorem number_head (n : ℕ) (rest : List Char) : ∀ c ∈ (number.write n ++ rest).head?, c ≠ ']' := by
  intro c hc hbracket
  have hne : Nat.toDigits 10 n ≠ [] := Nat.toDigits_ne_nil
  have hmem : c ∈ Nat.toDigits 10 n := by
    cases hwrite : Nat.toDigits 10 n with
    | nil => exact absurd hwrite hne
    | cons d ds =>
      have hd : d = c := by simpa [number, hwrite] using hc
      simp [hd]
  have hdigit := Nat.isDigit_of_mem_toDigits (by decide) le_rfl hmem
  subst hbracket
  simp at hdigit

/-! ## Strings -/

/-- A character between quotes. -/
def escape (c : Char) : List Char :=
  if c = '"' then ['\\', '"']
  else if c = '\\' then ['\\', '\\']
  else if c = '\x08' then ['\\', 'b']
  else if c = '\x0c' then ['\\', 'f']
  else if c = '\n' then ['\\', 'n']
  else if c = '\r' then ['\\', 'r']
  else if c = '\t' then ['\\', 't']
  else if c.toNat < 32 then
    ['\\', 'u', '0', '0', Nat.digitChar (c.toNat / 16), Nat.digitChar (c.toNat % 16)]
  else [c]

/-- The value of a hexadecimal digit. -/
def hexValue (c : Char) : ℕ := if c.isDigit then c.toNat - '0'.toNat else c.toNat - 'a'.toNat + 10

theorem hexValue_digitChar : ∀ d < 16, hexValue (Nat.digitChar d) = d := by decide

/-- The text up to the closing quote. -/
def readString : List Char → Option (List Char × List Char)
  | [] => none
  | '"' :: rest => some ([], rest)
  | '\\' :: 'u' :: '0' :: '0' :: a :: b :: rest =>
    (readString rest).map fun p => (Char.ofNat (16 * hexValue a + hexValue b) :: p.1, p.2)
  | '\\' :: '"' :: rest => (readString rest).map fun p => ('"' :: p.1, p.2)
  | '\\' :: '\\' :: rest => (readString rest).map fun p => ('\\' :: p.1, p.2)
  | '\\' :: 'b' :: rest => (readString rest).map fun p => ('\x08' :: p.1, p.2)
  | '\\' :: 'f' :: rest => (readString rest).map fun p => ('\x0c' :: p.1, p.2)
  | '\\' :: 'n' :: rest => (readString rest).map fun p => ('\n' :: p.1, p.2)
  | '\\' :: 'r' :: rest => (readString rest).map fun p => ('\r' :: p.1, p.2)
  | '\\' :: 't' :: rest => (readString rest).map fun p => ('\t' :: p.1, p.2)
  | '\\' :: _ => none
  | c :: rest => (readString rest).map fun p => (c :: p.1, p.2)

theorem readString_escape (c : Char) (rest : List Char) :
    readString (escape c ++ rest) = (readString rest).map fun p => (c :: p.1, p.2) := by
  unfold escape
  split
  · subst_vars; rfl
  split
  · subst_vars; rfl
  split
  · subst_vars; rfl
  split
  · subst_vars; rfl
  split
  · subst_vars; rfl
  split
  · subst_vars; rfl
  split
  · subst_vars; rfl
  split
  · rename_i hcontrol
    have hvalue : Char.ofNat (16 * hexValue (Nat.digitChar (c.toNat / 16)) +
        hexValue (Nat.digitChar (c.toNat % 16))) = c := by
      rw [hexValue_digitChar _ (by omega), hexValue_digitChar _ (by omega), Nat.div_add_mod,
        Char.ofNat_toNat]
    simp [readString, hvalue]
  · rename_i hquote hbackslash _ _ _ _ _ _
    simp [readString, hbackslash]

theorem readString_flatMap (s rest : List Char) :
    readString (s.flatMap escape ++ '"' :: rest) = some (s, rest) := by
  induction s with
  | nil => rfl
  | cons c s ih => rw [List.flatMap_cons, List.append_assoc, readString_escape, ih]; rfl

/-- Quoted strings. -/
def string : Format String where
  write s := '"' :: (s.toList.flatMap escape ++ ['"'])
  read cs :=
    match cs with
    | '"' :: rest => (readString rest).map fun p => (String.ofList p.1, p.2)
    | _ => none
  read_write s rest _ := by
    simp [readString_flatMap]

/-! ## Composition -/

/-- Values that are read as others. -/
def map (f : Format α) (into : β → α) (of : α → Option β) (h : ∀ b, of (into b) = some b) : Format β where
  write b := f.write (into b)
  read cs := (f.read cs).bind fun p => (of p.1).map fun b => (b, p.2)
  read_write b rest hrest := by
    simp [f.read_write _ _ hrest, h]

/-- Fixed text before a value. -/
def after (s : List Char) (f : Format α) : Format α where
  write a := s ++ f.write a
  read cs := (expect s cs).bind f.read
  read_write a rest hrest := by
    simp [f.read_write _ _ hrest]

/-- Marks that end a number. -/
theorem isDigit_comma : ','.isDigit = false := rfl

theorem isDigit_brace : '\x7d'.isDigit = false := rfl

theorem isDigit_bracket : ']'.isDigit = false := rfl

/-- Fixed text after a value. -/
def before (f : Format α) (c : Char) (s : List Char) (hc : c.isDigit = false) : Format α where
  write a := f.write a ++ c :: s
  read cs := (f.read cs).bind fun p => (expect (c :: s) p.2).map fun rest => (p.1, rest)
  read_write a rest _ := by
    have hread := f.read_write a (c :: s ++ rest) (ends_cons hc _)
    rw [List.append_assoc, hread]
    simp

/-- Two values with fixed text between them. -/
def follow (f : Format α) (c : Char) (s : List Char) (hc : c.isDigit = false) (g : Format β) :
    Format (α × β) where
  write p := f.write p.1 ++ (c :: s ++ g.write p.2)
  read cs := (f.read cs).bind fun p => (expect (c :: s) p.2).bind fun rest =>
    (g.read rest).map fun q => ((p.1, q.1), q.2)
  read_write p rest hrest := by
    have hread := f.read_write p.1 (c :: s ++ (g.write p.2 ++ rest)) (ends_cons hc _)
    rw [List.append_assoc, List.append_assoc, hread]
    simp [g.read_write _ _ hrest]

/-- Two values with a field between them that may be absent, where the fixed text before the second
value does not look like that of the field. -/
def optional {γ : Type} (f : Format α) (d c : Char) (name s : List Char) (hd : d.isDigit = false)
    (hc : c.isDigit = false) (hname : ¬d :: name <+: c :: s) (hname' : ¬c :: s <+: d :: name)
    (g : Format γ) (h : Format β) : Format (α × Option γ × β) where
  write p := f.write p.1 ++ ((match p.2.1 with
    | some x => d :: name ++ g.write x
    | none => []) ++ (c :: s ++ h.write p.2.2))
  read cs := (f.read cs).bind fun p =>
    match expect (d :: name) p.2 with
    | some cs => (g.read cs).bind fun x => (expect (c :: s) x.2).bind fun rest =>
      (h.read rest).map fun q => ((p.1, some x.1, q.1), q.2)
    | none => (expect (c :: s) p.2).bind fun rest => (h.read rest).map fun q => ((p.1, none, q.1), q.2)
  read_write p rest hrest := by
    obtain ⟨a, o, b⟩ := p
    cases o with
    | none =>
      have hread := f.read_write a (c :: s ++ (h.write b ++ rest)) (ends_cons hc _)
      have hno := expect_eq_none (not_prefix_append hname hname' (h.write b ++ rest))
      rw [List.nil_append, List.append_assoc, List.append_assoc, hread, Option.bind_some, hno]
      simp [h.read_write _ _ hrest]
    | some x =>
      have hread := f.read_write a (d :: name ++ (g.write x ++ (c :: s ++ (h.write b ++ rest))))
        (ends_cons hd _)
      have hfield := g.read_write x (c :: s ++ (h.write b ++ rest)) (ends_cons hc _)
      simp only [List.append_assoc] at hread hfield ⊢
      rw [hread, Option.bind_some, expect_append]
      dsimp only
      rw [hfield]
      simp [h.read_write _ _ hrest]

/-- A value that may be `null`. -/
def nullable (f : Format α) (hf : ∀ a rest, ∀ c ∈ (f.write a ++ rest).head?, c ≠ 'n') :
    Format (Option α) where
  write
    | none => "null".toList
    | some a => f.write a
  read cs :=
    match expect "null".toList cs with
    | some rest => some (none, rest)
    | none => (f.read cs).map fun p => (some p.1, p.2)
  read_write o rest hrest := by
    cases o with
    | none =>
      dsimp only
      rw [expect_append]
    | some a =>
      have hno : expect "null".toList (f.write a ++ rest) = none := by
        refine expect_eq_none fun hprefix => ?_
        obtain ⟨more, hmore⟩ := hprefix
        exact hf a rest 'n' (by rw [← hmore]; rfl) rfl
      dsimp only
      rw [hno, f.read_write _ _ hrest]
      rfl

/-! ## Lists -/

/-- The elements after the first one. -/
def writeMore (f : Format α) : List α → List Char
  | [] => [']']
  | a :: l => ',' :: f.write a ++ writeMore f l

/-- Read the elements after the first one. -/
def readMore (f : Format α) : ℕ → List Char → Option (List α × List Char)
  | _, ']' :: rest => some ([], rest)
  | fuel + 1, ',' :: cs => (f.read cs).bind fun p =>
    (readMore f fuel p.2).map fun q => (p.1 :: q.1, q.2)
  | _, _ => none

theorem ends_writeMore (f : Format α) (l : List α) (rest : List Char) :
    Ends (writeMore f l ++ rest) := by
  cases l with
  | nil => exact ends_cons (by decide) _
  | cons a l => exact ends_cons (by decide) _

theorem length_le_writeMore (f : Format α) (l : List α) : l.length ≤ (writeMore f l).length := by
  induction l with
  | nil => exact Nat.zero_le _
  | cons a l ih =>
    rw [writeMore, List.length_append, List.length_cons, List.length_cons]
    omega

/-- Every element takes a comma, so the length of the text is fuel enough. -/
theorem readMore_writeMore (f : Format α) (l : List α) (rest : List Char) {fuel : ℕ}
    (hfuel : l.length ≤ fuel) : readMore f fuel (writeMore f l ++ rest) = some (l, rest) := by
  induction l generalizing fuel with
  | nil =>
    cases fuel <;> rfl
  | cons a l ih =>
    obtain ⟨fuel, rfl⟩ : ∃ k, fuel = k + 1 := ⟨fuel - 1, by rw [List.length_cons] at hfuel; omega⟩
    have hread := f.read_write a (writeMore f l ++ rest) (ends_writeMore f l rest)
    have hrest := @ih fuel (by rw [List.length_cons] at hfuel; omega)
    rw [writeMore, List.append_assoc, List.cons_append, readMore, hread]
    simp [hrest]

/-- Lists in brackets. -/
def list (f : Format α) (hf : ∀ a rest, ∀ c ∈ (f.write a ++ rest).head?, c ≠ ']') :
    Format (List α) where
  write l :=
    match l with
    | [] => ['[', ']']
    | a :: l => '[' :: f.write a ++ writeMore f l
  read cs :=
    match cs with
    | '[' :: ']' :: rest => some ([], rest)
    | '[' :: cs => (f.read cs).bind fun p =>
      (readMore f p.2.length p.2).map fun q => (p.1 :: q.1, q.2)
    | _ => none
  read_write l rest _ := by
    cases l with
    | nil => rfl
    | cons a l =>
      have hread := f.read_write a (writeMore f l ++ rest) (ends_writeMore f l rest)
      have hfuel : l.length ≤ (writeMore f l ++ rest).length := by
        have hlen := length_le_writeMore f l
        rw [List.length_append]
        omega
      have hmore := readMore_writeMore f l rest hfuel
      rw [List.length_append] at hmore
      have hhead := hf a (writeMore f l ++ rest)
      rw [List.append_assoc, List.cons_append]
      generalize htext : f.write a ++ (writeMore f l ++ rest) = text at hread hhead
      cases text with
      | nil => simp [hread, hmore]
      | cons c text =>
        have hc : c ≠ ']' := hhead c rfl
        simp [hc, hread, hmore]

/-! ## Objects -/

/-- The entries of an object after the first one. -/
def writeEntries (f : Format α) : List α → List Char
  | [] => ['}']
  | a :: l => ',' :: f.write a ++ writeEntries f l

/-- Read the entries after the first one. -/
def readEntries (f : Format α) : ℕ → List Char → Option (List α × List Char)
  | _, '}' :: rest => some ([], rest)
  | fuel + 1, ',' :: cs => (f.read cs).bind fun p =>
    (readEntries f fuel p.2).map fun q => (p.1 :: q.1, q.2)
  | _, _ => none

/-- Every entry takes a comma, so the length of the text is fuel enough. -/
theorem readEntries_writeEntries (f : Format α) (l : List α) (rest : List Char) {fuel : ℕ}
    (hfuel : (writeEntries f l ++ rest).length ≤ fuel) :
    readEntries f fuel (writeEntries f l ++ rest) = some (l, rest) := by
  induction l generalizing fuel with
  | nil => cases fuel <;> rfl
  | cons a l ih =>
    have hends : Ends (writeEntries f l ++ rest) := by
      cases l with
      | nil => exact ends_cons (by decide) _
      | cons b l => exact ends_cons (by decide) _
    have hread := f.read_write a (writeEntries f l ++ rest) hends
    simp only [writeEntries, List.append_assoc, List.cons_append, List.length_cons, List.length_append]
      at hfuel
    obtain ⟨fuel, rfl⟩ : ∃ k, fuel = k + 1 := ⟨fuel - 1, by omega⟩
    have hrest := @ih fuel (by rw [List.length_append]; omega)
    rw [writeEntries, List.append_assoc, List.cons_append, readEntries, hread]
    simp [hrest]

/-- Objects of entries that are quoted. -/
def object (f : Format α) (hf : ∀ a rest, (f.write a ++ rest).head? = some '"') : Format (List α) where
  write l :=
    match l with
    | [] => ['{', '}']
    | a :: l => '{' :: f.write a ++ writeEntries f l
  read cs :=
    match cs with
    | '{' :: '}' :: rest => some ([], rest)
    | '{' :: cs => (f.read cs).bind fun p =>
      (readEntries f p.2.length p.2).map fun q => (p.1 :: q.1, q.2)
    | _ => none
  read_write l rest _ := by
    cases l with
    | nil => rfl
    | cons a l =>
      have hends : Ends (writeEntries f l ++ rest) := by
        cases l with
        | nil => exact ends_cons (by decide) _
        | cons b l => exact ends_cons (by decide) _
      have hread := f.read_write a (writeEntries f l ++ rest) hends
      have hmore := readEntries_writeEntries f l rest le_rfl
      rw [List.length_append] at hmore
      have hhead := hf a (writeEntries f l ++ rest)
      rw [List.append_assoc, List.cons_append]
      generalize htext : f.write a ++ (writeEntries f l ++ rest) = text at hread hhead
      cases text with
      | nil => cases hhead
      | cons c text =>
        cases hhead
        simp [hread, hmore]

end Format

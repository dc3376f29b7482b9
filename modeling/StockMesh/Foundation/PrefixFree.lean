import Mathlib.Data.List.Basic
import Mathlib.Tactic.Common

/-! # Prefix-free codes

A code is prefix-free on some values when a text tells the value at its front and the rest behind it.
Runs of equally many values are then told apart as well (`PrefixFreeOn.flatMap`). -/

variable {α β : Type}

/-- The front of a text tells the value and the rest. -/
def PrefixFreeOn (P : α → Prop) (code : α → List β) : Prop :=
  ∀ a b rest rest', P a → P b → code a ++ rest = code b ++ rest' → a = b ∧ rest = rest'

namespace PrefixFreeOn

variable {P : α → Prop} {code : α → List β}

/-- Texts of one length for distinct values are prefix-free. -/
theorem of_length {k : ℕ} (hlen : ∀ a, (code a).length = k)
    (hinj : ∀ a b, P a → P b → code a = code b → a = b) : PrefixFreeOn P code := by
  intro a b rest rest' ha hb h
  obtain ⟨hcode, hrest⟩ := List.append_inj h ((hlen a).trans (hlen b).symm)
  exact ⟨hinj a b ha hb hcode, hrest⟩

/-- The texts of two lists of one length tell the lists. -/
theorem flatMap (h : PrefixFreeOn P code) {l l' : List α} {rest rest' : List β}
    (hl : ∀ a ∈ l, P a) (hl' : ∀ a ∈ l', P a) (hlen : l.length = l'.length)
    (heq : l.flatMap code ++ rest = l'.flatMap code ++ rest') : l = l' ∧ rest = rest' := by
  induction l generalizing l' with
  | nil =>
    obtain rfl : l' = [] := List.eq_nil_of_length_eq_zero hlen.symm
    exact ⟨rfl, heq⟩
  | cons a l ih =>
    obtain ⟨b, l', rfl⟩ := List.exists_cons_of_length_eq_add_one hlen.symm
    obtain ⟨ha, has⟩ := List.forall_mem_cons.mp hl
    obtain ⟨hb, hbs⟩ := List.forall_mem_cons.mp hl'
    rw [List.flatMap_cons, List.flatMap_cons, List.append_assoc, List.append_assoc] at heq
    obtain ⟨rfl, htail⟩ := h a b _ _ ha hb heq
    obtain ⟨rfl, hrest⟩ := ih has hbs (by simpa using hlen) htail
    exact ⟨rfl, hrest⟩

/-- Texts up to the first mark are prefix-free. -/
theorem terminated (c : β) : PrefixFreeOn (c ∉ ·) fun text => text ++ [c] := by
  intro a b rest rest' ha hb h
  induction a generalizing b with
  | nil =>
    cases b with
    | nil => exact ⟨rfl, List.cons_injective h⟩
    | cons y b =>
      obtain ⟨rfl, -⟩ := List.cons.inj h
      exact absurd List.mem_cons_self hb
  | cons x a ih =>
    cases b with
    | nil =>
      obtain ⟨rfl, -⟩ := List.cons.inj h
      exact absurd List.mem_cons_self ha
    | cons y b =>
      obtain ⟨rfl, htail⟩ := List.cons.inj h
      obtain ⟨rfl, hrest⟩ := ih b (List.not_mem_of_not_mem_cons ha) (List.not_mem_of_not_mem_cons hb) htail
      exact ⟨rfl, hrest⟩

/-- Codes of values that a prefix-free code tells. -/
theorem comp {γ : Type} {Q : γ → Prop} {f : γ → α} (h : PrefixFreeOn P code) (hf : ∀ a, Q a → P (f a))
    (hinj : ∀ a b, Q a → Q b → f a = f b → a = b) : PrefixFreeOn Q fun a => code (f a) := by
  intro a b rest rest' ha hb heq
  obtain ⟨hab, hrest⟩ := h _ _ rest rest' (hf a ha) (hf b hb) heq
  exact ⟨hinj a b ha hb hab, hrest⟩

/-- A text that no code starts like tells where a list ends. -/
theorem flatMap_closed (h : PrefixFreeOn P code) {close : List β}
    (hclose : ∀ a text text', P a → code a ++ text ≠ close ++ text') {l l' : List α} {rest rest' : List β}
    (hl : ∀ a ∈ l, P a) (hl' : ∀ a ∈ l', P a)
    (heq : l.flatMap code ++ (close ++ rest) = l'.flatMap code ++ (close ++ rest')) :
    l = l' ∧ rest = rest' := by
  induction l generalizing l' with
  | nil =>
    cases l' with
    | nil => exact ⟨rfl, List.append_cancel_left heq⟩
    | cons b l' =>
      rw [List.flatMap_cons, List.append_assoc] at heq
      exact absurd heq.symm (hclose b _ _ (hl' b List.mem_cons_self))
  | cons a l ih =>
    obtain ⟨ha, has⟩ := List.forall_mem_cons.mp hl
    rw [List.flatMap_cons, List.append_assoc] at heq
    cases l' with
    | nil => exact absurd heq (hclose a _ _ ha)
    | cons b l' =>
      obtain ⟨hb, hbs⟩ := List.forall_mem_cons.mp hl'
      rw [List.flatMap_cons, List.append_assoc] at heq
      obtain ⟨rfl, htail⟩ := h a b _ _ ha hb heq
      obtain ⟨rfl, hrest⟩ := ih has hbs htail
      exact ⟨rfl, hrest⟩

end PrefixFreeOn

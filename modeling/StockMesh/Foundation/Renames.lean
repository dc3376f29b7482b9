import Mathlib.Data.List.Basic
import Mathlib.Tactic.Common

/-! # Names that are replaced

A name in a directory is replaced at once by a rename, but until the directory is synchronised a crash may
undo renames. A `Directory` is what the name shows and what a crash may leave of it; what it shows is among
the latter. -/

/-- What a name shows, and what it may show after a crash. -/
structure Directory (α : Type*) where
  shown : α
  left : List α
  shown_mem : shown ∈ left

namespace Directory

variable {α : Type*} {d : Directory α} {a b : α}

/-- A name that a crash does not change. -/
def settled (a : α) : Directory α := ⟨a, [a], List.mem_singleton_self a⟩

/-- The name shows something else. A crash may undo that. -/
def rename (d : Directory α) (a : α) : Directory α :=
  ⟨a, d.left ++ [a], List.mem_append_right _ (List.mem_singleton_self a)⟩

/-- A crash does not change what the name shows now. -/
def sync (d : Directory α) : Directory α := settled d.shown

@[simp] theorem shown_rename : (d.rename a).shown = a := rfl

@[simp] theorem shown_sync : d.sync.shown = d.shown := rfl

theorem mem_left_settled : b ∈ (settled a).left ↔ b = a := List.mem_singleton

theorem mem_left_rename : b ∈ (d.rename a).left ↔ b ∈ d.left ∨ b = a := by
  rw [rename, List.mem_append, List.mem_singleton]

theorem mem_left_sync : b ∈ d.sync.left ↔ b = d.shown := mem_left_settled

end Directory

import StockMesh.Basic

/-! # Results of the host

The host reports failures by a message. -/

namespace StockMesh.Host

/-- Results of the host, with their messages. -/
abbrev Answer (α : Type) := Except String α

/-- `if bad { return Err(message) }`. -/
def refuse (bad : Prop) [Decidable bad] (message : String) : Answer Unit :=
  if bad then .error message else .ok ()

theorem refuse_of_not {bad : Prop} [Decidable bad] {message : String} (h : ¬bad) :
    refuse bad message = .ok () := if_neg h

/-- A value below a machine bound, or the message. -/
def bounded (size n : ℕ) (message : String) : Answer ℕ := if n < size then .ok n else .error message

@[simp] theorem bounded_eq_ok {size n k : ℕ} {message : String} :
    bounded size n message = .ok k ↔ n < size ∧ n = k := by
  by_cases h : n < size <;> simp [bounded, h]

end StockMesh.Host

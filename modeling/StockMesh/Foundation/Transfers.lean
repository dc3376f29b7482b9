import Mathlib.Data.List.Basic
import Mathlib.Algebra.BigOperators.Group.List.Basic
import Mathlib.Algebra.Ring.Nat
import Mathlib.Tactic.Common

/-! # Transfers between pots

A transfer takes at most its cap out of one pot, or all that is there, and puts any amount into another
one. `Flow ts pot pot'` runs a list of them, with whatever amounts are put in. A pot is empty at the end
when a transfer takes all of it behind the last one that fills it (`Flow.drained`), or when it is never
filled and the caps add up to it (`Flow.paid`). -/

namespace StockMesh

variable {ι : Type} [DecidableEq ι]

/-- A transfer with its cap; without one it takes all. -/
structure Transfer (ι : Type) where
  source : ι
  destination : ι
  cap : Option ℕ

namespace Transfer

/-- What is taken out. -/
def spend (t : Transfer ι) (pot : ι → ℕ) : ℕ :=
  match t.cap with
  | some cap => min (pot t.source) cap
  | none => pot t.source

/-- The pots after a transfer that puts `out` in. -/
def apply (t : Transfer ι) (pot : ι → ℕ) (out : ℕ) (i : ι) : ℕ :=
  if i = t.source then pot i - t.spend pot
  else if i = t.destination then pot i + out
  else pot i

theorem apply_source (t : Transfer ι) (pot : ι → ℕ) (out : ℕ) :
    t.apply pot out t.source = pot t.source - t.spend pot := if_pos rfl

theorem apply_destination (t : Transfer ι) (pot : ι → ℕ) (out : ℕ) (hne : t.destination ≠ t.source) :
    t.apply pot out t.destination = pot t.destination + out := by
  rw [apply, if_neg hne, if_pos rfl]

theorem apply_of_ne (t : Transfer ι) (pot : ι → ℕ) (out : ℕ) {i : ι} (hs : i ≠ t.source)
    (hd : i ≠ t.destination) : t.apply pot out i = pot i := by
  rw [apply, if_neg hs, if_neg hd]

/-- A pot that is not filled does not grow. -/
theorem apply_le (t : Transfer ι) (pot : ι → ℕ) (out : ℕ) {i : ι} (hd : t.destination ≠ i) :
    t.apply pot out i ≤ pot i := by
  by_cases hs : i = t.source
  · rw [hs, t.apply_source]
    exact Nat.sub_le _ _
  · exact Nat.le_of_eq (t.apply_of_ne pot out hs (Ne.symm hd))

/-- The cap, where there is one. -/
def amount (t : Transfer ι) : ℕ := t.cap.getD 0

end Transfer

/-- The pots after a list of transfers. -/
inductive Flow : List (Transfer ι) → (ι → ℕ) → (ι → ℕ) → Prop
  | nil (pot : ι → ℕ) : Flow [] pot pot
  | cons {t : Transfer ι} {ts : List (Transfer ι)} {pot pot' : ι → ℕ} (out : ℕ)
      (rest : Flow ts (t.apply pot out) pot') : Flow (t :: ts) pot pot'

/-- The last of the transfers that take from a pot takes all, and none after it fills the pot. -/
def Drained (i : ι) (ts : List (Transfer ι)) : Prop :=
  ∃ before t after, ts = before ++ t :: after ∧ t.source = i ∧ t.cap = none ∧
    ∀ later ∈ after, later.destination ≠ i

namespace Flow

variable {ts us : List (Transfer ι)} {pot pot' : ι → ℕ}

theorem snoc (h : Flow ts pot pot') (t : Transfer ι) (out : ℕ) :
    Flow (ts ++ [t]) pot (t.apply pot' out) := by
  induction h with
  | nil pot => exact .cons out (.nil _)
  | cons out' _ ih => exact .cons out' ih

theorem split (h : Flow (ts ++ us) pot pot') : ∃ middle, Flow ts pot middle ∧ Flow us middle pot' := by
  induction ts generalizing pot with
  | nil => exact ⟨pot, .nil pot, h⟩
  | cons t ts ih =>
    obtain _ | ⟨out, rest⟩ := h
    obtain ⟨middle, hts, hus⟩ := ih rest
    exact ⟨middle, .cons out hts, hus⟩

/-- An empty pot that is not filled stays empty. -/
theorem eq_zero {i : ι} (h : Flow ts pot pot') (hd : ∀ t ∈ ts, t.destination ≠ i) (hzero : pot i = 0) :
    pot' i = 0 := by
  induction h with
  | nil => exact hzero
  | @cons t ts pot pot' out _ ih =>
    obtain ⟨ht, hts⟩ := List.forall_mem_cons.mp hd
    exact ih hts (Nat.le_zero.mp (hzero ▸ t.apply_le pot out ht))

/-- A drained pot is empty. -/
theorem drained {i : ι} (h : Flow ts pot pot') (hdrained : Drained i ts) : pot' i = 0 := by
  obtain ⟨before, t, after, rfl, rfl, hcap, hafter⟩ := hdrained
  obtain ⟨middle, -, hrest⟩ := h.split
  obtain _ | ⟨out, hrest⟩ := hrest
  apply hrest.eq_zero hafter
  rw [t.apply_source, Transfer.spend, hcap]
  exact Nat.sub_self _

/-- A pot that is never filled pays the caps of the transfers that take from it. -/
theorem paid {i : ι} (h : Flow ts pot pot') (hd : ∀ t ∈ ts, t.destination ≠ i)
    (hcap : ∀ t ∈ ts, t.source = i → t.cap.isSome = true) :
    pot' i = pot i - ((ts.filter fun t => t.source = i).map Transfer.amount).sum := by
  induction h with
  | nil => simp
  | @cons t ts pot pot' out _ ih =>
    obtain ⟨ht, hts⟩ := List.forall_mem_cons.mp hd
    obtain ⟨hc, hcs⟩ := List.forall_mem_cons.mp hcap
    rw [ih hts hcs]
    by_cases hs : t.source = i
    · subst hs
      obtain ⟨cap, hsome⟩ := Option.isSome_iff_exists.mp (hc rfl)
      have hspend : t.spend pot = min (pot t.source) t.amount := by
        rw [Transfer.spend, Transfer.amount, hsome]
        rfl
      rw [t.apply_source, hspend, List.filter_cons_of_pos (by simp), List.map_cons, List.sum_cons]
      omega
    · rw [t.apply_of_ne pot out (Ne.symm hs) (Ne.symm ht), List.filter_cons_of_neg (by simpa using hs)]

end Flow

end StockMesh

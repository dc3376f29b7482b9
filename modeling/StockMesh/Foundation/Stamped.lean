import Mathlib.Data.Nat.Basic
import Mathlib.Logic.Function.Basic
import Mathlib.Tactic.Common

/-! # Entries with a stamp

Entries that are kept in slots count only while their stamp is the current one. Moving the stamp on
forgets all of them at once, without a write, as long as no entry has the new stamp already. What holds of
the entries that count (`Current`) survives a write of a good entry into any slot, and a search that goes
through some slots (`probe`) meets only such entries. -/

namespace Stamped

variable {ι ε : Type*}

/-- What a search along some slots ends at: a slot whose entry does not count, an entry that matches, or
neither. -/
inductive Probe (ι ε : Type*)
  | free (i : ι)
  | hit (e : ε)
  | full

/-- Search along slots, to the first one whose entry is stale or matches. -/
def probe (entries : ι → ε) (stale found : ε → Bool) : List ι → Probe ι ε
  | [] => .full
  | i :: rest =>
    if stale (entries i) then .free i
    else if found (entries i) then .hit (entries i)
    else probe entries stale found rest

variable {entries : ι → ε} {stale found : ε → Bool}

/-- An entry that a search ends at is in a slot, counts and matches. -/
theorem probe_eq_hit {slots : List ι} {e : ε} (h : probe entries stale found slots = .hit e) :
    (∃ i, entries i = e) ∧ stale e = false ∧ found e = true := by
  induction slots with
  | nil => cases h
  | cons i rest ih =>
    rw [probe] at h
    split at h
    · cases h
    · rename_i hstale
      split at h
      · rename_i hfound
        cases h
        exact ⟨⟨i, rfl⟩, Bool.eq_false_iff.mpr hstale, hfound⟩
      · exact ih h

/-- No stamp is past the current one, and the entries with the current stamp are good. -/
structure Current (stamp : ε → ℕ) (good : ε → Prop) (now : ℕ) (entries : ι → ε) : Prop where
  stamp_le : ∀ i, stamp (entries i) ≤ now
  good : ∀ i, stamp (entries i) = now → good (entries i)

variable {stamp : ε → ℕ} {good good' : ε → Prop} {now now' : ℕ}

/-- Under a new stamp no entry counts, so anything holds of those that do. -/
theorem Current.advance (h : ∀ i, stamp (entries i) < now) : Current stamp good now entries where
  stamp_le := fun i => Nat.le_of_lt (h i)
  good := fun i heq => absurd heq (Nat.ne_of_lt (h i))

/-- Moving the stamp on forgets what is there. -/
theorem Current.next (h : Current stamp good now entries) (hlt : now < now') :
    Current stamp good' now' entries :=
  .advance fun i => Nat.lt_of_le_of_lt (h.stamp_le i) hlt

/-- A good entry may be written into any slot. -/
theorem Current.write [DecidableEq ι] (h : Current stamp good now entries) {e : ε} (hstamp : stamp e = now)
    (hgood : good e) (i : ι) : Current stamp good now (Function.update entries i e) := by
  constructor
  · intro j
    by_cases hj : j = i
    · rw [hj, Function.update_self]
      exact Nat.le_of_eq hstamp
    · rw [Function.update_of_ne hj]
      exact h.stamp_le j
  · intro j
    by_cases hj : j = i
    · rw [hj, Function.update_self]
      exact fun _ => hgood
    · rw [Function.update_of_ne hj]
      exact h.good j

/-- A search for a current entry meets a good one. -/
theorem Current.of_hit (h : Current stamp good now entries) {slots : List ι} {e : ε}
    (hstale : ∀ e, stale e = false → stamp e = now) (hprobe : probe entries stale found slots = .hit e) :
    good e ∧ found e = true := by
  obtain ⟨⟨i, rfl⟩, hcounts, hfound⟩ := probe_eq_hit hprobe
  exact ⟨h.good i (hstale _ hcounts), hfound⟩

end Stamped

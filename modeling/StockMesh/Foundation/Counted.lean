import StockMesh.Foundation.History
import Mathlib.Data.List.Basic
import Mathlib.Data.List.Nodup

/-! # Cells that count their uses

A state with cells, some of which carry a counter. A step uses some cells, each once, and each use names the
counter that it moves past by one. Over any run the uses of one cell are then consecutive
(`Tells.consecutive`): none is missing, none comes twice, and a cell that was not used is where it was. -/

namespace StockMesh

variable {σ κ ε : Type} {count : σ → κ → Option ℕ}

/-- A step uses some cells at their counters, and the other counters stand. -/
structure Uses (count : σ → κ → Option ℕ) (s : σ) (uses : List (κ × ℕ)) (s' : σ) : Prop where
  kept : ∀ k ∉ uses.map Prod.fst, ∀ q, count s k = some q → count s' k = some q
  used : ∀ e ∈ uses, count s e.1 = some e.2 ∧ count s' e.1 = some (e.2 + 1)
  nodup : (uses.map Prod.fst).Nodup

/-- Of different keys, a key has one entry or none. -/
theorem filter_of_nodup_keys {β : Type} [DecidableEq κ] {entries : List (κ × β)}
    (h : (entries.map Prod.fst).Nodup) (k : κ) :
    (entries.filter (fun e => e.1 = k) = [] ∧ k ∉ entries.map Prod.fst) ∨
    ∃ v, entries.filter (fun e => e.1 = k) = [(k, v)] ∧ (k, v) ∈ entries := by
  induction entries with
  | nil => exact .inl ⟨rfl, List.not_mem_nil⟩
  | cons e entries ih =>
    obtain ⟨hnew, hnodup⟩ := List.nodup_cons.mp h
    by_cases hkey : e.1 = k
    · subst hkey
      have hrest : entries.filter (fun x => x.1 = e.1) = [] := by
        refine List.filter_eq_nil_iff.mpr fun x hx heq => hnew ?_
        rw [← of_decide_eq_true heq]
        exact List.mem_map_of_mem hx
      refine .inr ⟨e.2, ?_, List.mem_cons_self⟩
      rw [List.filter_cons_of_pos (by simp), hrest]
    · rw [List.filter_cons_of_neg (by simpa using hkey)]
      rcases ih hnodup with ⟨hnil, hnot⟩ | ⟨v, hv, hmem⟩
      · refine .inl ⟨hnil, ?_⟩
        rw [List.map_cons, List.mem_cons, not_or]
        exact ⟨fun heq => hkey heq.symm, hnot⟩
      · exact .inr ⟨v, hv, List.mem_cons_of_mem _ hmem⟩

namespace Tells

variable {step : σ → List ε → σ → Prop} {name : ε → κ × ℕ} {s s' : σ} {log : List ε}

section Nodup

/-- No run has two uses of a cell at the same count. -/
theorem nodup (h : Tells step s log s')
    (hstep : ∀ s₁ events s₂, step s₁ events s₂ → Uses count s₁ (events.map name) s₂) :
    (log.map name).Nodup := by
  suffices (log.map name).Nodup ∧ ∀ e ∈ log.map name, ∃ q, count s' e.1 = some q ∧ e.2 < q from this.1
  refine h.invariant (I := fun log s =>
    (log.map name).Nodup ∧ ∀ e ∈ log.map name, ∃ q, count s e.1 = some q ∧ e.2 < q) ?_ ?_
  · exact ⟨List.nodup_nil, fun e he => absurd he List.not_mem_nil⟩
  · intro log s₁ events s₂ hlog hlast
    have huses := hstep _ _ _ hlast
    have hevents : (events.map name).Nodup := .of_map Prod.fst huses.nodup
    rw [List.map_append]
    constructor
    · -- what was used before lies below the count, what is used now is the count
      refine List.nodup_append'.mpr ⟨hlog.1, hevents, ?_⟩
      intro e he he'
      obtain ⟨q, hq, hlt⟩ := hlog.2 e he
      rw [(huses.used e he').1] at hq
      cases hq
      exact Nat.lt_irrefl _ hlt
    · intro e he
      rcases List.mem_append.mp he with he | he
      · obtain ⟨q, hq, hlt⟩ := hlog.2 e he
        by_cases hmem : e.1 ∈ (events.map name).map Prod.fst
        · obtain ⟨x, hx, hkey⟩ := List.mem_map.mp hmem
          obtain ⟨hbefore, hafter⟩ := huses.used x hx
          rw [hkey] at hbefore hafter
          rw [hbefore] at hq
          cases hq
          exact ⟨_, hafter, by omega⟩
        · exact ⟨q, huses.kept _ hmem q hq, hlt⟩
      · exact ⟨_, (huses.used e he).2, by omega⟩

end Nodup

section Consecutive

variable [DecidableEq κ]

/-- The counts at which some events use a cell. -/
def countsAt (name : ε → κ × ℕ) (log : List ε) (k : κ) : List ℕ :=
  ((log.map name).filter fun e => e.1 = k).map Prod.snd

theorem countsAt_append (log more : List ε) (k : κ) :
    countsAt name (log ++ more) k = countsAt name log k ++ countsAt name more k := by
  simp [countsAt]

/-- A step uses a cell at most once. -/
theorem countsAt_of_uses {events : List ε} {s₁ s₂ : σ} (h : Uses count s₁ (events.map name) s₂) (k : κ) :
    (countsAt name events k = [] ∧ k ∉ (events.map name).map Prod.fst) ∨
    ∃ q, countsAt name events k = [q] ∧ (k, q) ∈ events.map name := by
  rw [countsAt]
  rcases filter_of_nodup_keys h.nodup k with ⟨hnil, hnot⟩ | ⟨q, hq, hmem⟩
  · exact .inl ⟨congrArg (List.map Prod.snd) hnil, hnot⟩
  · exact .inr ⟨q, congrArg (List.map Prod.snd) hq, hmem⟩

/-- The uses of one cell are consecutive, beginning with the counter that it had. -/
theorem consecutive (h : Tells step s log s')
    (hstep : ∀ s₁ events s₂, step s₁ events s₂ → Uses count s₁ (events.map name) s₂) {k : κ} {q : ℕ}
    (hcount : count s k = some q) :
    ∃ n, countsAt name log k = List.range' q n ∧ count s' k = some (q + n) := by
  refine h.invariant (I := fun log s =>
    ∃ n, countsAt name log k = List.range' q n ∧ count s k = some (q + n)) ⟨0, rfl, hcount⟩ ?_
  rintro log s₁ events s₂ ⟨n, hlog, hcount⟩ hlast
  have huses := hstep _ _ _ hlast
  rw [countsAt_append, hlog]
  rcases countsAt_of_uses huses k with ⟨hnil, hnot⟩ | ⟨r, hr, hmem⟩
  · exact ⟨n, by rw [hnil, List.append_nil], huses.kept k hnot _ hcount⟩
  · obtain ⟨hbefore, hafter⟩ := huses.used _ hmem
    dsimp only at hbefore hafter
    rw [hcount] at hbefore
    cases hbefore
    refine ⟨n + 1, ?_, hafter⟩
    rw [hr, List.range'_concat, Nat.one_mul]

end Consecutive

end Tells

end StockMesh

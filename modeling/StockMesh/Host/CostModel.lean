import StockMesh.Host.Feed
import StockMesh.Foundation.Table
import StockMesh.Journal.Progress
import Mathlib.Data.String.Basic
import Mathlib.Data.Finset.Dedup
import Mathlib.Data.Finset.Card
import Mathlib.Order.Bounds.Basic

/-! # Execution-cost feedback

`CostModel` keeps, for every route, how many verified fills it has seen and the worst shortfall among them.
`observe` takes a fill once, by its signature, and `restore` reads a snapshot back.

A run that starts with the fresh model ends in the model of the set of receipts it has seen (`Reflects`), so
that order and repetition do not matter. A model that is reached by any calls is `Sound`, and a sound model
is read back from its own snapshot. -/

namespace StockMesh.Host

open Journal (refuse_eq_ok)

/-! ## Receipts -/

/-- A verified fill (`Verified`), as far as the cost model reads it. `verify` compares the signature with a
base58 text, and it rejects an expectation without a quoted output. -/
structure Verified where
  signature : String
  route : Key
  output : ℕ
  quoted : ℕ
  signature_ascii : ∀ c ∈ signature.toList, c.toNat < 128
  quoted_pos : 0 < quoted

/-- `shortfall_bps`. -/
def Verified.shortfallBps (r : Verified) : ℕ := (r.quoted - r.output) * 10000 / r.quoted

theorem Verified.shortfallBps_le (r : Verified) : r.shortfallBps ≤ 10000 := by
  refine Nat.div_le_of_le_mul ?_
  exact Nat.mul_le_mul_right _ (Nat.sub_le _ _)

/-- A text of ASCII has as many bytes as characters. -/
theorem utf8ByteSize_of_ascii {s : String} (h : ∀ c ∈ s.toList, c.toNat < 128) :
    s.utf8ByteSize = s.length := by
  have hlist : ∀ cs : List Char, (∀ c ∈ cs, c.toNat < 128) →
      (String.ofList cs).utf8ByteSize = cs.length := by
    intro cs hcs
    induction cs with
    | nil => rfl
    | cons c cs ih =>
      obtain ⟨hc, hcs⟩ := List.forall_mem_cons.mp hcs
      have hsize : c.utf8Size = 1 := by
        have hval : c.val ≤ 0x7f := UInt32.le_iff_toNat_le.mpr (Nat.le_of_lt_succ hc)
        exact if_pos hval
      rw [← List.singleton_append, String.ofList_append, String.utf8ByteSize_append, ih hcs,
        List.length_append, List.length_singleton, ← hsize]
      congr 1
      exact String.utf8ByteSize_singleton
  have := hlist s.toList h
  rwa [String.ofList_toList, String.length_toList] at this

/-! ## The model -/

/-- What the model knows of a route: how many fills, and the worst shortfall. -/
structure RouteCost where
  route : Key
  count : ℕ
  penaltyBps : ℕ
  deriving DecidableEq

/-- Where the model files a route. -/
abbrev RouteCost.slot (cost : RouteCost) : ℕ := cost.route.number

/-- `CostModel`. -/
@[ext] structure CostModel where
  epoch : ℕ := 1
  seen : Table (id : String → String) := .empty
  routes : Table RouteCost.slot := .empty

/-- A snapshot (`CostState`). -/
structure CostState where
  epoch : ℕ
  seen : Table (id : String → String)
  routes : List RouteCost

namespace CostModel

/-- The count and the penalty of a route, zero for a new one. -/
def old (m : CostModel) (route : Key) : RouteCost :=
  (m.routes.find route.number).getD ⟨route, 0, 0⟩

/-- The model after one more fill. -/
def record (m : CostModel) (r : Verified) : CostModel where
  epoch := m.epoch
  seen := m.seen.insert r.signature
  routes := m.routes.insert
    ⟨r.route, (m.old r.route).count + 1, max (m.old r.route).penaltyBps r.shortfallBps⟩

/-- `CostModel::observe`, with the model that it leaves. -/
def observe (m : CostModel) (r : Verified) : Answer Bool × CostModel :=
  if (m.seen.find r.signature).isSome then (.ok false, m)
  else if m.seen.rows.length = 4096 ∨
      (m.routes.rows.length = 64 ∧ (m.routes.find r.route.number).isNone) then
    (.error "feedback capacity; rotate a durable evaluation epoch", m)
  else if u64Size ≤ (m.old r.route).count + 1 then (.error "feedback count overflow", m)
  else (.ok true, m.record r)

/-- `CostModel::penalty_bps`. -/
def penaltyBps (m : CostModel) (route : Key) : Option ℕ :=
  (m.routes.find route.number).map RouteCost.penaltyBps

/-- `CostModel::state`. -/
def state (m : CostModel) : CostState := ⟨m.epoch, m.seen, m.routes.rows⟩

/-- One route of a snapshot. -/
def addRoute (routes : Table RouteCost.slot) (cost : RouteCost) : Answer (Table RouteCost.slot) := do
  refuse (cost.count = 0 ∨ 10000 < cost.penaltyBps ∨ (routes.find cost.slot).isSome)
    "cost model snapshot route"
  .ok (routes.insert cost)

/-- The model of a snapshot. -/
def ofState (s : CostState) : Answer CostModel := do
  refuse (s.epoch = 0 ∨ 4096 < s.seen.rows.length ∨ 64 < s.routes.length ∨
    ∃ signature ∈ s.seen.rows, signature = "" ∨ 128 < signature.utf8ByteSize) "cost model snapshot bounds"
  let routes ← s.routes.foldlM addRoute .empty
  .ok ⟨s.epoch, s.seen, routes⟩

/-- `CostModel::restore`, with the model that it leaves. -/
def restore (m : CostModel) (s : CostState) : Answer Unit × CostModel :=
  match ofState s with
  | .ok restored => (.ok (), restored)
  | .error e => (.error e, m)

/-! ## One observation -/

/-- What an observation does: it knows the signature, it has no room, or it records the fill. -/
theorem observe_cases (m : CostModel) (r : Verified) :
    (r.signature ∈ m.seen ∧ m.observe r = (.ok false, m)) ∨
    (r.signature ∉ m.seen ∧ (m.seen.rows.length = 4096 ∨
        (m.routes.rows.length = 64 ∧ m.routes.find r.route.number = none) ∨
        u64Size ≤ (m.old r.route).count + 1) ∧ ∃ e, m.observe r = (.error e, m)) ∨
    (r.signature ∉ m.seen ∧ m.seen.rows.length ≠ 4096 ∧
      (m.routes.rows.length = 64 → m.routes.find r.route.number ≠ none) ∧
      m.observe r = (.ok true, m.record r)) := by
  have hseen : (m.seen.find r.signature).isSome = true ↔ r.signature ∈ m.seen := by
    rw [Option.isSome_iff_exists]
    constructor
    · rintro ⟨s, hs⟩
      obtain ⟨hmem, heq⟩ := Table.find_eq_some.mp hs
      exact heq ▸ hmem
    · exact fun h => ⟨_, Table.find_key h⟩
  unfold observe
  by_cases hknown : r.signature ∈ m.seen
  · exact .inl ⟨hknown, if_pos (hseen.mpr hknown)⟩
  rw [if_neg (mt hseen.mp hknown)]
  by_cases hfull : m.seen.rows.length = 4096 ∨
      (m.routes.rows.length = 64 ∧ (m.routes.find r.route.number).isNone)
  · refine .inr (.inl ⟨hknown, ?_, _, if_pos hfull⟩)
    rcases hfull with h | ⟨h, hnone⟩
    · exact .inl h
    · exact .inr (.inl ⟨h, Option.isNone_iff_eq_none.mp hnone⟩)
  rw [if_neg hfull]
  by_cases hcount : u64Size ≤ (m.old r.route).count + 1
  · exact .inr (.inl ⟨hknown, .inr (.inr hcount), _, if_pos hcount⟩)
  · rw [not_or] at hfull
    refine .inr (.inr ⟨hknown, hfull.1, fun h hnone => hfull.2 ⟨h, ?_⟩, if_neg hcount⟩)
    rw [hnone]
    rfl

/-- An observation that is not recorded changes nothing. -/
theorem observe_unchanged {m : CostModel} {r : Verified} (h : (m.observe r).1 ≠ .ok true) :
    (m.observe r).2 = m := by
  obtain ⟨-, heq⟩ | ⟨-, -, e, heq⟩ | ⟨-, -, -, heq⟩ := m.observe_cases r
  · rw [heq]
  · rw [heq]
  · rw [heq] at h
    exact absurd rfl h

/-- The penalty of a route only grows. -/
theorem le_penaltyBps_observe {m : CostModel} (r : Verified) {route : Key} {p : ℕ}
    (h : m.penaltyBps route = some p) :
    ∃ p', (m.observe r).2.penaltyBps route = some p' ∧ p ≤ p' := by
  obtain ⟨-, heq⟩ | ⟨-, -, e, heq⟩ | ⟨-, -, -, heq⟩ := m.observe_cases r
  · exact ⟨p, heq ▸ h, le_rfl⟩
  · exact ⟨p, heq ▸ h, le_rfl⟩
  · obtain ⟨cost, hfind, rfl⟩ := Option.map_eq_some_iff.mp h
    rw [heq, penaltyBps, record, Table.find_insert]
    by_cases hroute : r.route.number = route.number
    · rw [if_pos hroute]
      refine ⟨_, rfl, ?_⟩
      rw [old, hroute, hfind]
      exact le_max_left _ _
    · rw [if_neg hroute, hfind]
      exact ⟨_, rfl, le_rfl⟩

/-! ## What a model reflects -/

/-- The row of a route after a list of fills. -/
def tally (fills : List Verified) (route : Key) : RouteCost where
  route
  count := (fills.filter fun r => r.route = route).length
  penaltyBps := ((fills.filter fun r => r.route = route).map Verified.shortfallBps).foldr max 0

/-- The order of the fills does not matter. -/
theorem tally_perm {fills fills' : List Verified} (h : fills.Perm fills') (route : Key) :
    tally fills route = tally fills' route := by
  have hfilter := h.filter fun r => decide (r.route = route)
  rw [tally, tally, hfilter.length_eq, (hfilter.map Verified.shortfallBps).foldr_eq 0]

theorem tally_cons_of_ne {r : Verified} {route : Key} (fills : List Verified) (h : r.route ≠ route) :
    tally (r :: fills) route = tally fills route := by
  rw [tally, tally, List.filter_cons_of_neg (by simpa using h)]

theorem tally_cons_self (r : Verified) (fills : List Verified) :
    tally (r :: fills) r.route = ⟨r.route, (tally fills r.route).count + 1,
      max (tally fills r.route).penaltyBps r.shortfallBps⟩ := by
  rw [tally, tally, List.filter_cons_of_pos (by simp), List.length_cons, List.map_cons, List.foldr_cons,
    max_comm]

theorem tally_of_new {fills : List Verified} {route : Key} (h : ∀ r ∈ fills, r.route ≠ route) :
    tally fills route = ⟨route, 0, 0⟩ := by
  have hnone : (fills.filter fun r => r.route = route) = [] :=
    List.filter_eq_nil_iff.mpr fun r hr => by simpa using h r hr
  rw [tally, hnone]
  rfl

/-- The penalty of a route is its worst shortfall. -/
theorem penaltyBps_tally {fills : List Verified} {route : Key} (h : ∃ r ∈ fills, r.route = route) :
    IsGreatest {p | ∃ r ∈ fills, r.route = route ∧ r.shortfallBps = p} (tally fills route).penaltyBps := by
  induction fills with
  | nil =>
    obtain ⟨r, hr, -⟩ := h
    exact absurd hr List.not_mem_nil
  | cons r fills ih =>
    by_cases hroute : r.route = route
    · subst hroute
      rw [tally_cons_self]
      refine ⟨?_, ?_⟩
      · by_cases hrest : ∃ r' ∈ fills, r'.route = r.route
        · obtain ⟨r', hr', hroute, heq⟩ := (ih hrest).1
          rcases le_total (tally fills r.route).penaltyBps r.shortfallBps with hle | hle
          · exact ⟨r, List.mem_cons_self, rfl, (max_eq_right hle).symm⟩
          · exact ⟨r', List.mem_cons_of_mem _ hr', hroute, heq.trans (max_eq_left hle).symm⟩
        · rw [not_exists] at hrest
          rw [tally_of_new fun r' hr' heq => hrest r' ⟨hr', heq⟩]
          exact ⟨r, List.mem_cons_self, rfl, (max_eq_right (Nat.zero_le _)).symm⟩
      · rintro p ⟨r', hr', hroute, rfl⟩
        rcases List.mem_cons.mp hr' with rfl | hr'
        · exact le_max_right _ _
        · exact ((ih ⟨r', hr', hroute⟩).2 ⟨r', hr', hroute, rfl⟩).trans (le_max_left _ _)
    · rw [tally_cons_of_ne fills hroute]
      have hmem : ∀ r', (r' ∈ r :: fills ∧ r'.route = route) ↔ r' ∈ fills ∧ r'.route = route := by
        intro r'
        rw [List.mem_cons]
        constructor
        · rintro ⟨rfl | hr', heq⟩
          · exact absurd heq hroute
          · exact ⟨hr', heq⟩
        · rintro ⟨hr', heq⟩
          exact ⟨.inr hr', heq⟩
      have hrest : ∃ r' ∈ fills, r'.route = route := by
        obtain ⟨r', hr', heq⟩ := h
        exact ⟨r', (hmem r').mp ⟨hr', heq⟩⟩
      have hset : {p | ∃ r' ∈ r :: fills, r'.route = route ∧ r'.shortfallBps = p} =
          {p | ∃ r' ∈ fills, r'.route = route ∧ r'.shortfallBps = p} := by
        ext p
        simp only [Set.mem_ofPred_eq, ← and_assoc, hmem]
      rw [hset]
      exact ih hrest

/-- A fresh model after fills of different signatures, in any order. -/
structure Reflects (m : CostModel) (fills : List Verified) : Prop where
  epoch : m.epoch = 1
  nodup : (fills.map Verified.signature).Nodup
  mem_seen : ∀ s, s ∈ m.seen ↔ s ∈ fills.map Verified.signature
  mem_routes : ∀ cost, cost ∈ m.routes ↔
    (∃ r ∈ fills, r.route = cost.route) ∧ cost = tally fills cost.route

namespace Reflects

variable {m m' : CostModel} {fills fills' : List Verified}

theorem start : Reflects {} [] :=
  ⟨rfl, List.nodup_nil, fun _ => iff_of_false (Table.notMem_empty _) List.not_mem_nil,
    fun _ => iff_of_false (Table.notMem_empty _) fun ⟨⟨_, h, _⟩, _⟩ => List.not_mem_nil h⟩

/-- The fills determine the model. -/
theorem unique (h : Reflects m fills) (h' : Reflects m' fills') (hperm : fills.Perm fills') : m = m' := by
  refine CostModel.ext (h.epoch.trans h'.epoch.symm) (Table.ext_mem fun s => ?_)
    (Table.ext_mem fun cost => ?_)
  · rw [h.mem_seen, h'.mem_seen, (hperm.map _).mem_iff]
  · rw [h.mem_routes, h'.mem_routes, tally_perm hperm]
    simp only [hperm.mem_iff]

/-- The row of a route that was seen. -/
theorem find_of_mem (h : Reflects m fills) {route : Key} (hroute : ∃ r ∈ fills, r.route = route) :
    m.routes.find route.number = some (tally fills route) :=
  Table.find_eq_some.mpr ⟨(h.mem_routes (tally fills route)).mpr ⟨hroute, rfl⟩, rfl⟩

theorem find_of_new (h : Reflects m fills) {route : Key} (hroute : ∀ r ∈ fills, r.route ≠ route) :
    m.routes.find route.number = none := by
  refine Table.find_eq_none.mpr fun cost hcost heq => ?_
  obtain ⟨⟨r, hr, hrow⟩, -⟩ := (h.mem_routes cost).mp hcost
  exact hroute r hr (hrow.trans (Key.number_injective heq))

theorem old_eq (h : Reflects m fills) (route : Key) : m.old route = tally fills route := by
  by_cases hroute : ∃ r ∈ fills, r.route = route
  · rw [old, h.find_of_mem hroute, Option.getD_some]
  · rw [not_exists] at hroute
    have hnew : ∀ r ∈ fills, r.route ≠ route := fun r hr heq => hroute r ⟨hr, heq⟩
    rw [old, h.find_of_new hnew, Option.getD_none, tally_of_new hnew]

/-- A new fill is added to what the model reflects. -/
theorem record (h : Reflects m fills) {r : Verified} (hnew : r.signature ∉ fills.map Verified.signature) :
    Reflects (m.record r) (r :: fills) where
  epoch := h.epoch
  nodup := List.nodup_cons.mpr ⟨hnew, h.nodup⟩
  mem_seen s := by
    rw [CostModel.record, Table.mem_insert, List.map_cons, List.mem_cons, h.mem_seen]
    constructor
    · rintro (rfl | ⟨hs, -⟩)
      · exact .inl rfl
      · exact .inr hs
    · rintro (rfl | hs)
      · exact .inl rfl
      · exact .inr ⟨hs, fun heq : s = r.signature => hnew (heq ▸ hs)⟩
  mem_routes cost := by
    rw [CostModel.record, Table.mem_insert, h.old_eq, ← tally_cons_self, h.mem_routes]
    by_cases hroute : r.route = cost.route
    · -- the row of the fill's own route
      rw [← hroute]
      constructor
      · rintro (heq | ⟨-, hne⟩)
        · exact ⟨⟨r, List.mem_cons_self, rfl⟩, heq⟩
        · exact absurd (congrArg Key.number hroute.symm) hne
      · rintro ⟨-, heq⟩
        exact .inl heq
    · rw [tally_cons_of_ne fills hroute]
      constructor
      · rintro (heq | ⟨⟨⟨r', hr', hrow⟩, heq⟩, -⟩)
        · exact absurd (congrArg RouteCost.route heq).symm hroute
        · exact ⟨⟨r', List.mem_cons_of_mem _ hr', hrow⟩, heq⟩
      · rintro ⟨⟨r', hr', hrow⟩, heq⟩
        rcases List.mem_cons.mp hr' with rfl | hr'
        · exact absurd hrow hroute
        · exact .inr ⟨⟨⟨r', hr', hrow⟩, heq⟩, fun hnumber =>
            hroute (Key.number_injective hnumber).symm⟩

/-- As many signatures as fills. -/
theorem length_seen (h : Reflects m fills) : m.seen.rows.length = fills.length := by
  have hperm : m.seen.rows.Perm (fills.map Verified.signature) :=
    (List.perm_ext_iff_of_nodup m.seen.nodup_rows h.nodup).mpr h.mem_seen
  rw [hperm.length_eq, List.length_map]

end Reflects

/-! ## Runs -/

/-- Receipts that a fresh model can hold: equal signatures mean equal receipts, and neither the signatures
nor the routes are too many. -/
structure WithinCapacity (receipts : List Verified) : Prop where
  consistent : ∀ r ∈ receipts, ∀ r' ∈ receipts, r.signature = r'.signature → r = r'
  signatures_le : (receipts.map Verified.signature).toFinset.card ≤ 4096
  routes_le : (receipts.map fun r => r.route.number).toFinset.card ≤ 64
  text : ∀ r ∈ receipts, r.signature ≠ "" ∧ r.signature.length ≤ 128

/-- The model after observations in order. -/
def observeAll (m : CostModel) (receipts : List Verified) : CostModel :=
  receipts.foldl (fun m r => (m.observe r).2) m

section
variable {all : List Verified} {m : CostModel} {fills : List Verified}

/-- Different texts of the receipts are at most as many as the capacity. -/
private theorem length_le_card {α : Type} [DecidableEq α] {f : Verified → α} {n : ℕ} (xs : List α)
    (hcard : (all.map f).toFinset.card ≤ n) (hnodup : xs.Nodup) (hsub : ∀ x ∈ xs, ∃ r ∈ all, f r = x) :
    xs.length ≤ n := by
  rw [← List.toFinset_card_of_nodup hnodup]
  refine (Finset.card_le_card fun x hx => ?_).trans hcard
  obtain ⟨r, hr, rfl⟩ := hsub x (List.mem_toFinset.mp hx)
  exact List.mem_toFinset.mpr (List.mem_map_of_mem hr)

/-- Within the capacity every receipt is observed, and the model reflects it afterwards. -/
theorem Reflects.observe (h : Reflects m fills) (hall : WithinCapacity all) (hfills : ∀ r ∈ fills, r ∈ all)
    {r : Verified} (hr : r ∈ all) : ∃ fresh fills', (m.observe r).1 = .ok fresh ∧
      Reflects (m.observe r).2 fills' ∧ ∀ x, x ∈ fills' ↔ x = r ∨ x ∈ fills := by
  -- a fill of its signature is the receipt itself
  have hknown : r.signature ∈ fills.map Verified.signature → r ∈ fills := by
    intro hmem
    obtain ⟨r', hr', heq⟩ := List.mem_map.mp hmem
    exact hall.consistent r' (hfills r' hr') r hr heq ▸ hr'
  have hlength (hnew : r.signature ∉ m.seen) : fills.length + 1 ≤ 4096 := by
    rw [h.mem_seen] at hnew
    have hle := length_le_card ((r :: fills).map Verified.signature) hall.signatures_le
      (List.nodup_cons.mpr ⟨hnew, h.nodup⟩) fun s hs => by
        obtain ⟨r', hr', rfl⟩ := List.mem_map.mp hs
        rcases List.mem_cons.mp hr' with rfl | hr'
        · exact ⟨_, hr, rfl⟩
        · exact ⟨r', hfills r' hr', rfl⟩
    simpa using hle
  obtain ⟨hseen, heq⟩ | ⟨hnew, hfull, -⟩ | ⟨hnew, -, -, heq⟩ := m.observe_cases r
  · refine ⟨false, fills, by rw [heq], by rw [heq]; exact h, fun x => ?_⟩
    have hmem := hknown ((h.mem_seen _).mp hseen)
    exact ⟨.inr, fun hx => hx.elim (fun hx => hx ▸ hmem) fun hx => hx⟩
  · exfalso
    have hroom := hlength hnew
    rcases hfull with hfull | ⟨hfull, hnone⟩ | hcount
    · rw [h.length_seen] at hfull
      omega
    · -- the routes of the model and the new one are too many
      have hle := length_le_card (r.route.number :: m.routes.rows.map RouteCost.slot) hall.routes_le
        (List.nodup_cons.mpr ⟨fun hmem => ?_, m.routes.nodup_keys⟩) fun k hk => ?_
      · rw [List.length_cons, List.length_map, hfull] at hle
        omega
      · obtain ⟨cost, hcost, heq⟩ := List.mem_map.mp hmem
        exact Table.find_eq_none.mp hnone cost hcost heq
      · rcases List.mem_cons.mp hk with rfl | hk
        · exact ⟨r, hr, rfl⟩
        · obtain ⟨cost, hcost, rfl⟩ := List.mem_map.mp hk
          obtain ⟨⟨r', hr', hroute⟩, -⟩ := (h.mem_routes cost).mp hcost
          exact ⟨r', hfills r' hr', congrArg Key.number hroute⟩
    · rw [h.old_eq] at hcount
      have hfilter := List.length_filter_le (fun r' => decide (r'.route = r.route)) fills
      have hsize := constants
      change u64Size ≤ (fills.filter fun r' => r'.route = r.route).length + 1 at hcount
      omega
  · rw [h.mem_seen] at hnew
    exact ⟨true, r :: fills, by rw [heq], by rw [heq]; exact h.record hnew, fun x => List.mem_cons⟩

/-- A run within the capacity ends in the model of the receipts it has seen. -/
theorem Reflects.observeAll (hall : WithinCapacity all) (receipts : List Verified) (h : Reflects m fills)
    (hfills : ∀ r ∈ fills, r ∈ all) (hreceipts : ∀ r ∈ receipts, r ∈ all) :
    ∃ fills', Reflects (m.observeAll receipts) fills' ∧ ∀ x, x ∈ fills' ↔ x ∈ fills ∨ x ∈ receipts := by
  induction receipts generalizing m fills with
  | nil => exact ⟨fills, h, fun x => by simp⟩
  | cons r receipts ih =>
    obtain ⟨hr, hrest⟩ := List.forall_mem_cons.mp hreceipts
    obtain ⟨_, mid, -, hmid, hmem⟩ := h.observe hall hfills hr
    have hmidall : ∀ x ∈ mid, x ∈ all := fun x hx =>
      ((hmem x).mp hx).elim (fun heq => heq ▸ hr) (hfills x)
    obtain ⟨fills', hfills', hmem'⟩ := ih hmid hmidall hrest
    refine ⟨fills', hfills', fun x => ?_⟩
    rw [hmem', hmem, List.mem_cons]
    tauto

end

/-- Order and repetition do not matter. -/
theorem observeAll_congr {receipts receipts' : List Verified} (h : WithinCapacity receipts)
    (hsame : ∀ r, r ∈ receipts ↔ r ∈ receipts') :
    observeAll {} receipts = observeAll {} receipts' := by
  obtain ⟨fills, hfills, hmem⟩ := Reflects.start.observeAll h receipts (by simp) fun r hr => hr
  obtain ⟨fills', hfills', hmem'⟩ := Reflects.start.observeAll h receipts' (by simp)
    fun r hr => (hsame r).mpr hr
  refine hfills.unique hfills' ((List.perm_ext_iff_of_nodup (.of_map _ hfills.nodup)
    (.of_map _ hfills'.nodup)).mpr fun r => ?_)
  rw [hmem, hmem', hsame]

/-- The penalty of a route is the worst shortfall of the receipts of the route. -/
theorem penaltyBps_observeAll {receipts : List Verified} (h : WithinCapacity receipts) (route : Key) :
    ((∀ r ∈ receipts, r.route ≠ route) → (observeAll {} receipts).penaltyBps route = none) ∧
    ((∃ r ∈ receipts, r.route = route) → ∃ p, (observeAll {} receipts).penaltyBps route = some p ∧
      IsGreatest {p | ∃ r ∈ receipts, r.route = route ∧ r.shortfallBps = p} p) := by
  obtain ⟨fills, hfills, hmem⟩ := Reflects.start.observeAll h receipts (by simp) fun r hr => hr
  have hmem : ∀ r, r ∈ fills ↔ r ∈ receipts := fun r => by rw [hmem]; simp
  constructor
  · intro hnew
    rw [penaltyBps, hfills.find_of_new fun r hr => hnew r ((hmem r).mp hr)]
    rfl
  · rintro ⟨r, hr, hroute⟩
    have hseen : ∃ r ∈ fills, r.route = route := ⟨r, (hmem r).mpr hr, hroute⟩
    refine ⟨(tally fills route).penaltyBps, ?_, ?_⟩
    · rw [penaltyBps, hfills.find_of_mem hseen]
      rfl
    · simp only [← hmem]
      exact penaltyBps_tally hseen

/-! ## Snapshots -/

/-- A model that passes the bounds of a snapshot. -/
structure Sound (m : CostModel) : Prop where
  epoch : m.epoch ≠ 0
  seen_le : m.seen.rows.length ≤ 4096
  routes_le : m.routes.rows.length ≤ 64
  text : ∀ s ∈ m.seen.rows, s ≠ "" ∧ s.utf8ByteSize ≤ 128
  rows : ∀ cost ∈ m.routes, cost.count ≠ 0 ∧ cost.penaltyBps ≤ 10000

theorem sound_start : Sound {} :=
  ⟨by decide, by decide, by decide, fun _ h => absurd h List.not_mem_nil, fun _ h => absurd h List.not_mem_nil⟩

/-- One route of a snapshot is inserted if it is in bounds and new. -/
theorem addRoute_eq_ok {routes routes' : Table RouteCost.slot} {cost : RouteCost} :
    addRoute routes cost = .ok routes' ↔ (cost.count ≠ 0 ∧ cost.penaltyBps ≤ 10000) ∧
      routes.find cost.slot = none ∧ routes' = routes.insert cost := by
  simp only [addRoute, bind_eq_ok, refuse_eq_ok, not_or, not_lt, Option.isSome_iff_ne_none, not_not]
  constructor
  · rintro ⟨_, ⟨hcount, hpenalty, hnew⟩, h⟩
    exact ⟨⟨hcount, hpenalty⟩, hnew, (Except.ok.inj h).symm⟩
  · rintro ⟨⟨hcount, hpenalty⟩, hnew, rfl⟩
    exact ⟨(), ⟨hcount, hpenalty, hnew⟩, rfl⟩

/-- The routes that a snapshot brings in are in bounds, and at most as many as it has. -/
theorem foldlM_addRoute {rows : List RouteCost} {routes routes' : Table RouteCost.slot}
    (h : rows.foldlM addRoute routes = .ok routes')
    (hrows : ∀ cost ∈ routes, cost.count ≠ 0 ∧ cost.penaltyBps ≤ 10000) :
    (∀ cost ∈ routes', cost.count ≠ 0 ∧ cost.penaltyBps ≤ 10000) ∧
      routes'.rows.length ≤ routes.rows.length + rows.length := by
  induction rows generalizing routes with
  | nil =>
    cases h
    exact ⟨hrows, Nat.le_refl _⟩
  | cons cost rows ih =>
    rw [List.foldlM_cons, bind_eq_ok] at h
    obtain ⟨mid, hmid, hrest⟩ := h
    obtain ⟨hcost, -, rfl⟩ := addRoute_eq_ok.mp hmid
    obtain ⟨hall, hlength⟩ := ih hrest fun other hother => by
      rcases Table.mem_insert.mp hother with rfl | ⟨hother, -⟩
      · exact hcost
      · exact hrows other hother
    have hinsert := routes.length_insert_le cost
    refine ⟨hall, ?_⟩
    rw [List.length_cons]
    omega

/-- Different routes in bounds are all inserted. -/
theorem foldlM_addRoute_of_nodup {rows : List RouteCost} {routes : Table RouteCost.slot}
    (hrows : ∀ cost ∈ rows, cost.count ≠ 0 ∧ cost.penaltyBps ≤ 10000)
    (hnodup : (rows.map RouteCost.slot).Nodup) (hnew : ∀ cost ∈ rows, routes.find cost.slot = none) :
    rows.foldlM addRoute routes = .ok (routes.insertAll rows) := by
  induction rows generalizing routes with
  | nil => rfl
  | cons cost rows ih =>
    obtain ⟨hcost, hrest⟩ := List.forall_mem_cons.mp hrows
    obtain ⟨hfresh, hnew⟩ := List.forall_mem_cons.mp hnew
    rw [List.map_cons, List.nodup_cons] at hnodup
    rw [List.foldlM_cons, addRoute_eq_ok.mpr ⟨hcost, hfresh, rfl⟩, ok_bind, Table.insertAll_cons]
    refine ih hrest hnodup.2 fun other hother => ?_
    have hne : cost.slot ≠ other.slot := fun heq => hnodup.1 (heq ▸ List.mem_map_of_mem hother)
    rw [Table.find_insert, if_neg hne]
    exact hnew other hother

/-- Every model that a snapshot is read to is sound. -/
theorem sound_of_ofState {s : CostState} {m : CostModel} (h : ofState s = .ok m) : Sound m := by
  simp only [ofState, bind_eq_ok, refuse_eq_ok, not_or, not_lt, not_exists, not_and] at h
  obtain ⟨_, ⟨hepoch, hseen, hroutes, htext⟩, routes, hfold, hm⟩ := h
  cases hm
  obtain ⟨hrows, hlength⟩ := foldlM_addRoute hfold fun _ hcost => absurd hcost List.not_mem_nil
  exact ⟨hepoch, hseen, hlength.trans (by simpa using hroutes), htext, hrows⟩

/-- A sound model is read back from its snapshot. -/
theorem Sound.ofState_state {m : CostModel} (h : Sound m) : ofState m.state = .ok m := by
  have hfold : m.routes.rows.foldlM addRoute .empty = .ok (Table.empty.insertAll m.routes.rows) :=
    foldlM_addRoute_of_nodup h.rows m.routes.nodup_keys fun _ _ => rfl
  rw [Table.insertAll_rows] at hfold
  simp only [ofState, bind_eq_ok, refuse_eq_ok, not_or, not_lt, not_exists, not_and]
  exact ⟨(), ⟨h.epoch, h.seen_le, h.routes_le, h.text⟩, m.routes, hfold, rfl⟩

/-- Observations keep a model sound. -/
theorem Sound.observe {m : CostModel} (h : Sound m) {r : Verified}
    (htext : r.signature ≠ "" ∧ r.signature.length ≤ 128) : Sound (m.observe r).2 := by
  obtain ⟨-, heq⟩ | ⟨-, -, e, heq⟩ | ⟨hnew, hroom, hroutes, heq⟩ := m.observe_cases r
  · exact heq ▸ h
  · exact heq ▸ h
  rw [heq]
  have hseen := m.seen.length_insert_le r.signature
  have hle := h.seen_le
  refine ⟨h.epoch, ?_, ?_, ?_, ?_⟩
  · change (m.seen.insert r.signature).rows.length ≤ 4096
    omega
  · change (m.routes.insert _).rows.length ≤ 64
    cases hfind : m.routes.find r.route.number with
    | none =>
      have hinsert := m.routes.length_insert_le
        ⟨r.route, (m.old r.route).count + 1, max (m.old r.route).penaltyBps r.shortfallBps⟩
      have hne : m.routes.rows.length ≠ 64 := fun hfull => hroutes hfull hfind
      have hle := h.routes_le
      omega
    | some cost =>
      obtain ⟨hmem, hslot⟩ := Table.find_eq_some.mp hfind
      rw [Table.length_insert_of_mem hmem hslot]
      exact h.routes_le
  · intro s hs
    obtain rfl | ⟨hs, -⟩ := Table.mem_insert.mp hs
    · exact ⟨htext.1, (utf8ByteSize_of_ascii r.signature_ascii).trans_le htext.2⟩
    · exact h.text s hs
  · intro cost hcost
    obtain rfl | ⟨hcost, -⟩ := Table.mem_insert.mp hcost
    · refine ⟨Nat.succ_ne_zero _, max_le ?_ r.shortfallBps_le⟩
      rw [old]
      cases hfind : m.routes.find r.route.number with
      | none => exact Nat.zero_le _
      | some cost => exact (h.rows cost (Table.find_eq_some.mp hfind).1).2
    · exact h.rows cost hcost

/-- The models that calls lead to: observations of receipts with signatures in bounds, and snapshots, also
those that are refused. -/
inductive Reachable : CostModel → Prop
  | start : Reachable {}
  | observe {m : CostModel} (h : Reachable m) (r : Verified)
      (htext : r.signature ≠ "" ∧ r.signature.length ≤ 128) : Reachable (m.observe r).2
  | restore {m : CostModel} (h : Reachable m) (s : CostState) : Reachable (m.restore s).2

theorem Reachable.sound {m : CostModel} (h : Reachable m) : Sound m := by
  induction h with
  | start => exact sound_start
  | observe _ r htext ih => exact ih.observe htext
  | @restore m _ s ih =>
    rw [CostModel.restore]
    cases hs : ofState s with
    | error e => exact ih
    | ok restored => exact sound_of_ofState hs

end CostModel

open CostModel

/-- Feedback on costs. Within the capacity, runs over the same receipts in any order and with any repetition
observe every one of them and end in the same model, in which the penalty of a route is the worst shortfall
of its receipts. No observation lowers a penalty, and one that is not recorded changes nothing. The snapshot
of a model that calls have led to is accepted by a fresh model and gives the model back. -/
theorem cost_feedback :
    (∀ receipts receipts' : List Verified, WithinCapacity receipts →
      (∀ r, r ∈ receipts ↔ r ∈ receipts') →
      observeAll {} receipts = observeAll {} receipts' ∧
      (∀ before r after, receipts = before ++ r :: after →
        ∃ fresh, ((observeAll {} before).observe r).1 = .ok fresh) ∧
      ∀ route, ((∀ r ∈ receipts, r.route ≠ route) →
          (observeAll {} receipts).penaltyBps route = none) ∧
        ((∃ r ∈ receipts, r.route = route) → ∃ p, (observeAll {} receipts).penaltyBps route = some p ∧
          IsGreatest {p | ∃ r ∈ receipts, r.route = route ∧ r.shortfallBps = p} p)) ∧
    (∀ (m : CostModel) (r : Verified), ((m.observe r).1 ≠ .ok true → (m.observe r).2 = m) ∧
      ∀ route p, m.penaltyBps route = some p → ∃ p', (m.observe r).2.penaltyBps route = some p' ∧ p ≤ p') ∧
    ∀ m : CostModel, Reachable m → CostModel.restore {} m.state = (.ok (), m) := by
  refine ⟨fun receipts receipts' h hsame => ⟨observeAll_congr h hsame, ?_, penaltyBps_observeAll h⟩,
    fun m r => ⟨observe_unchanged, fun route p hp => le_penaltyBps_observe r hp⟩, fun m hm => ?_⟩
  · rintro before r after rfl
    obtain ⟨fills, hfills, hmem⟩ := Reflects.start.observeAll h before (by simp)
      fun x hx => List.mem_append_left _ hx
    obtain ⟨fresh, -, hfresh, -⟩ := hfills.observe h
      (fun x hx => List.mem_append_left _ (by simpa using (hmem x).mp hx))
      (List.mem_append_right _ List.mem_cons_self)
    exact ⟨fresh, hfresh⟩
  · rw [CostModel.restore, hm.sound.ofState_state]

/-- A fill with a shortfall of ten percent. -/
def exampleFill : Verified where
  signature := "5"
  route := .ofNat 7
  output := 90
  quoted := 100
  signature_ascii := by simp
  quoted_pos := by decide

/-- The fill seen twice counts once, and its model is read back. -/
theorem cost_feedback_example :
    observeAll {} [exampleFill, exampleFill] = observeAll {} [exampleFill] ∧
    CostModel.restore {} (({} : CostModel).observe exampleFill).2.state =
      (.ok (), (({} : CostModel).observe exampleFill).2) := by
  have hcapacity : WithinCapacity [exampleFill, exampleFill] := by
    refine ⟨fun r hr r' hr' _ => ?_, by decide, by decide, fun r hr => ?_⟩
    · simp only [List.mem_cons, List.not_mem_nil, or_false, or_self] at hr hr'
      rw [hr, hr']
    · simp only [List.mem_cons, List.not_mem_nil, or_false, or_self] at hr
      rw [hr]
      decide
  exact ⟨(cost_feedback.1 _ _ hcapacity fun r => by simp).1,
    cost_feedback.2.2 _ (.observe .start exampleFill (by decide))⟩

end StockMesh.Host

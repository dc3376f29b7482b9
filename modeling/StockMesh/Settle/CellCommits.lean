import StockMesh.Settle.Commits
import StockMesh.Settle.FlowCell
import StockMesh.Settle.MeshCell

/-! # What a cell does to the records

Instructions over several parties write several records, each once: the nonces of the signed intents, of the
buyer and of the sellers, and the orders that rest. A loop over different records changes each of them by
what its pass does (`Each.edits`). -/

namespace StockMesh.Settle

open Stateful

/-! ## Loops over records -/

section Edits

variable {program : ProgramId} {before after : Ledger}

/-- One record is edited, and the other accounts of the program are left alone. -/
structure Edits (program : ProgramId) (key : Key) (W : Buffer → Buffer → Prop) (before after : Ledger) :
    Prop where
  kept : ∀ other, other ≠ key → (before other).owner = program →
    (after other).owner = program ∧ (after other).data = (before other).data
  edited : (before key).owner = program →
    (after key).owner = program ∧ W (before key).data (after key).data

/-- Records of a list are edited, each in its way, and the others are left alone. -/
structure EditsEach {ι : Type} (program : ProgramId) (key : ι → Key) (W : ι → Buffer → Buffer → Prop)
    (items : List ι) (before after : Ledger) : Prop where
  kept : ∀ other ∉ items.map key, (before other).owner = program →
    (after other).owner = program ∧ (after other).data = (before other).data
  edited : ∀ e ∈ items, (before (key e)).owner = program →
    (after (key e)).owner = program ∧ W e (before (key e)).data (after (key e)).data

theorem Edits.of_writeData {key : Key} {offset : ℕ} {bytes : List UInt8} {s s' : Chain}
    (h : writeData key offset bytes s = (.ok (), s')) :
    Edits program key (fun d d' => d.splice offset bytes = some d') s.ledger s'.ledger := by
  obtain ⟨data, hdata, rfl⟩ := writeData_eq_ok h
  constructor
  · intro other hother howner
    dsimp only
    rw [Function.update_of_ne hother]
    exact ⟨howner, rfl⟩
  · intro howner
    dsimp only
    rw [Function.update_self]
    exact ⟨howner, hdata⟩

theorem Edits.mono {key : Key} {W W' : Buffer → Buffer → Prop} (h : Edits program key W before after)
    (hW : ∀ d d', W d d' → W' d d') : Edits program key W' before after :=
  ⟨h.kept, fun howner => ⟨(h.edited howner).1, hW _ _ (h.edited howner).2⟩⟩

/-- A change of one record edits it. -/
theorem Commits.edits {key : Key} {c : Change} (h : Commits program [(key, c)] before after) :
    Edits program key c.Applies before after := by
  constructor
  · intro other hother howner
    exact h.kept other (fun hmem => hother (List.mem_singleton.mp hmem)) howner
  · intro _
    exact (h.changed _ (List.mem_singleton_self _)).2

/-- A loop over different records edits each of them. -/
theorem Each.edits {ι : Type} {step : ι → Chain → Chain → Prop} {key : ι → Key}
    {W : ι → Buffer → Buffer → Prop} {items : List ι} {s s' : Chain}
    (hstep : ∀ e ∈ items, ∀ s s', step e s s' → Edits program (key e) (W e) s.ledger s'.ledger)
    (hnodup : (items.map key).Nodup) (h : Each step items s s') :
    EditsEach program key W items s.ledger s'.ledger := by
  induction h with
  | nil s => exact ⟨fun _ _ howner => ⟨howner, rfl⟩, fun _ he => absurd he List.not_mem_nil⟩
  | @cons e items s s₁ s' head tail ih =>
    obtain ⟨hnew, hnodup⟩ := List.nodup_cons.mp hnodup
    have hhead := hstep e List.mem_cons_self _ _ head
    have hrest := ih (fun e he => hstep e (List.mem_cons_of_mem _ he)) hnodup
    constructor
    · intro other hother howner
      rw [List.map_cons, List.mem_cons, not_or] at hother
      obtain ⟨howner₁, hdata₁⟩ := hhead.kept other hother.1 howner
      obtain ⟨howner', hdata'⟩ := hrest.kept other hother.2 howner₁
      exact ⟨howner', hdata'.trans hdata₁⟩
    · intro x hx howner
      rcases List.mem_cons.mp hx with rfl | hx
      · -- the later passes leave this record alone
        obtain ⟨howner₁, hedit⟩ := hhead.edited howner
        obtain ⟨howner', hdata'⟩ := hrest.kept _ hnew howner₁
        exact ⟨howner', hdata' ▸ hedit⟩
      · have hne : key x ≠ key e := fun heq => hnew (heq ▸ List.mem_map_of_mem hx)
        obtain ⟨howner₁, hdata₁⟩ := hhead.kept _ hne howner
        obtain ⟨howner', hedit⟩ := hrest.edited x hx howner₁
        exact ⟨howner', hdata₁ ▸ hedit⟩

namespace EditsEach

variable {ι : Type} {key : ι → Key} {W W' : ι → Buffer → Buffer → Prop} {items : List ι} {between : Ledger}

theorem trans (h : EditsEach program key W items before between)
    (h' : EditsEach program key W' items between after) :
    EditsEach program key (fun e d d' => ∃ d₁, W e d d₁ ∧ W' e d₁ d') items before after := by
  constructor
  · intro other hother howner
    obtain ⟨howner₁, hdata₁⟩ := h.kept other hother howner
    obtain ⟨howner', hdata'⟩ := h'.kept other hother howner₁
    exact ⟨howner', hdata'.trans hdata₁⟩
  · intro e he howner
    obtain ⟨howner₁, hedit⟩ := h.edited e he howner
    obtain ⟨howner', hedit'⟩ := h'.edited e he howner₁
    exact ⟨howner', _, hedit, hedit'⟩

/-- Nothing happens to the records before. -/
theorem after_nil (h : Commits program [] before between) (h' : EditsEach program key W items between after) :
    EditsEach program key W items before after := by
  have hnil : ∀ other, (before other).owner = program →
      (between other).owner = program ∧ (between other).data = (before other).data :=
    fun other => h.kept other List.not_mem_nil
  constructor
  · intro other hother howner
    obtain ⟨howner₁, hdata₁⟩ := hnil other howner
    obtain ⟨howner', hdata'⟩ := h'.kept other hother howner₁
    exact ⟨howner', hdata'.trans hdata₁⟩
  · intro e he howner
    obtain ⟨howner₁, hdata₁⟩ := hnil _ howner
    rw [← hdata₁]
    exact h'.edited e he howner₁

/-- Changes of some of the records are edits of all of them. -/
theorem of_commits {changes : List (Key × Change)} (h : Commits program changes before after)
    (hkeys : ∀ e ∈ changes, e.1 ∈ items.map key) :
    EditsEach program key (fun e d d' => d' = d ∨ ∃ c, (key e, c) ∈ changes ∧ c.Applies d d') items
      before after := by
  constructor
  · intro other hother howner
    refine h.kept other (fun hmem => ?_) howner
    obtain ⟨e, he, rfl⟩ := List.mem_map.mp hmem
    exact hother (hkeys e he)
  · intro e he howner
    by_cases hmem : key e ∈ changes.map Prod.fst
    · obtain ⟨⟨other, c⟩, hc, heq⟩ := List.mem_map.mp hmem
      dsimp only at heq
      subst heq
      obtain ⟨-, howner', happly⟩ := h.changed _ hc
      exact ⟨howner', .inr ⟨c, hc, happly⟩⟩
    · obtain ⟨howner', hdata⟩ := h.kept _ hmem howner
      exact ⟨howner', .inl hdata⟩

/-- Edits that are changes. -/
theorem commits (h : EditsEach program key W items before after) (hnodup : (items.map key).Nodup)
    {change : ι → Change} (hitems : ∀ e ∈ items, (before (key e)).owner = program ∧
      ∀ d', W e (before (key e)).data d' → (change e).Applies (before (key e)).data d') :
    Commits program (items.map fun e => (key e, change e)) before after := by
  have hmap : (items.map fun e => (key e, change e)).map Prod.fst = items.map key := by
    rw [List.map_map]
    rfl
  constructor
  · rw [hmap]
    exact hnodup
  · rw [hmap]
    exact h.kept
  · intro x hx
    obtain ⟨e, he, rfl⟩ := List.mem_map.mp hx
    obtain ⟨howner, happly⟩ := hitems e he
    obtain ⟨howner', hedit⟩ := h.edited e he howner
    exact ⟨howner, howner', happly _ hedit⟩

end EditsEach

end Edits

/-! ## Intents -/

section Intents

variable {program : ProgramId} {n : ℕ} {ledger : Ledger} {a : Accounts n} {d : Buffer}

/-- What an intent asks: the next sequence of its nonce. -/
def Intent.change (a : Accounts n) (i : Intent n) : Key × Change := (a.key i.nonce, .advance i.sequence)

/-- What the intents of a payload ask. -/
def intentChanges (a : Accounts n) (d : Buffer) : List (Key × Change) :=
  (List.range (d.byte 1).toNat).flatMap fun j =>
    changesOf (intentRow d n (12 + j * intentLen)) fun i => [i.change a]

/-- An intent that was read has its row and a nonce at its sequence. -/
theorem readIntent_eq_ok {cursor : ℕ} {i : Intent n} (h : readIntent program ledger a d cursor = .ok i) :
    (∃ row, intentRow d n cursor = .ok row ∧ i.change a = row.change a) ∧
    Ready program a ledger (a.key i.nonce) i.sequence ∧ i.sequence + 1 < u64Size := by
  rw [readIntent, bind_eq_ok] at h
  obtain ⟨row, hrow, h⟩ := h
  obtain ⟨_, hneed, h⟩ := bind_eq_ok.mp h
  obtain ⟨_, hnonce, h⟩ := bind_eq_ok.mp h
  obtain ⟨beforeIn, -, h⟩ := bind_eq_ok.mp h
  obtain ⟨beforeOut, -, h⟩ := bind_eq_ok.mp h
  obtain ⟨_, -, h⟩ := bind_eq_ok.mp h
  cases h
  obtain ⟨hsigner, -, howner, -, -, -, -, hlt⟩ := need_eq_ok.mp hneed
  refine ⟨⟨row, hrow, rfl⟩, .of_checkNonce howner hsigner hnonce, ?_⟩
  show row.sequence + 1 < u64Size
  omega

theorem readIntents_changes {intents : List (Intent n)}
    (h : readIntents program ledger a d (d.byte 1).toNat = .ok intents) :
    intentChanges a d = intents.map (Intent.change a) := by
  have hrows := mapM_eq_ok.mp h
  clear h
  rw [intentChanges]
  generalize List.range (d.byte 1).toNat = positions at hrows
  induction hrows with
  | nil => rfl
  | @cons j i positions intents hhead htail ih =>
    obtain ⟨⟨row, hrow, hchange⟩, -⟩ := readIntent_eq_ok hhead
    rw [List.flatMap_cons, changesOf_of_ok hrow, List.map_cons, hchange, ih]
    rfl

/-- A payload with intents asks something. -/
theorem intentChanges_ne_nil {intents : List (Intent n)}
    (h : readIntents program ledger a d (d.byte 1).toNat = .ok intents) (hcount : 2 ≤ (d.byte 1).toNat) :
    intentChanges a d ≠ [] := by
  have hlength := (mapM_eq_ok.mp h).length_eq
  rw [List.length_range] at hlength
  rw [readIntents_changes h]
  intro hnil
  rw [List.map_eq_nil_iff.mp hnil] at hlength
  rw [hlength] at hcount
  contradiction

theorem readIntents_ready {count : ℕ} {intents : List (Intent n)}
    (h : readIntents program ledger a d count = .ok intents) :
    ∀ i ∈ intents, Ready program a ledger (a.key i.nonce) i.sequence ∧ i.sequence + 1 < u64Size := by
  have hrows := mapM_eq_ok.mp h
  clear h
  generalize List.range count = positions at hrows
  induction hrows with
  | nil => exact fun i hi => absurd hi List.not_mem_nil
  | cons hhead _ ih =>
    intro i hi
    rcases List.mem_cons.mp hi with rfl | hi
    · exact (readIntent_eq_ok hhead).2
    · exact ih i hi

/-- The owners of the intents have signed. -/
theorem authorized_intents {intents : List (Intent n)} (h : ∀ i ∈ intents,
    Ready program a ledger (a.key i.nonce) i.sequence ∧ i.sequence + 1 < u64Size) :
    Authorized a (intents.map (Intent.change a)) ledger := by
  intro e he
  obtain ⟨i, hi, rfl⟩ := List.mem_map.mp he
  exact (h i hi).1.signed

end Intents

/-! ## Crossing -/

section Crossing

variable {natives : Natives} {n : ℕ} {a : Accounts n} {clock : Clock} {program : ProgramId}
  {venues : Venues program} {ledger : Ledger} {d : Buffer} {s s' : Chain}

theorem spares_crossTransfer (intents : List (Intent n)) (t : Crossed) :
    Keeps (Spares program []) (crossTransfer a intents venues t) :=
  .lift_bind fun _ _ => .lift_bind fun _ _ => spares_transferChecked _ _ _ _ _ _

/-- A checked residual graph settles under the sequence of the first intent, whose nonce is the second
account. -/
theorem checkResidual_eq_ok {deadline : ℕ} {intents : List (Intent n)} {crossings : Crossings}
    (h : checkResidual a d deadline intents crossings = .ok ()) :
    ∃ g first, Graph.decode d n = .ok g ∧ intents[0]? = some first ∧ (first.nonce : ℕ) = 1 ∧
      g.sequence = first.sequence := by
  rw [checkResidual, bind_eq_ok] at h
  obtain ⟨g, hg, h⟩ := h
  obtain ⟨first, hfirst, h⟩ := bind_eq_ok.mp h
  obtain ⟨_, hform, -⟩ := bind_eq_ok.mp h
  obtain ⟨-, hnonce, -, hsequence, -⟩ := need_eq_ok.mp hform
  exact ⟨g, first, ad_eq_ok.mp hg, okOr_eq_ok.mp hfirst, hnonce, hsequence⟩

/-- What is checked before the first transfer. -/
theorem checkCross_eq_ok {cross : Cross n} (h : checkCross program ledger a clock d = .ok cross) :
    readIntents program ledger a d (d.byte 1).toNat = .ok cross.intents ∧ 2 ≤ (d.byte 1).toNat ∧
    SeparateIntents a cross.intents ∧
    (cross.external = true → ∃ g first, Graph.decode cross.residual n = .ok g ∧
      cross.intents[0]? = some first ∧ (first.nonce : ℕ) = 1 ∧ g.sequence = first.sequence) := by
  rw [checkCross, bind_eq_ok] at h
  obtain ⟨_, -, h⟩ := h
  dsimp only at h
  obtain ⟨_, hcount, h⟩ := bind_eq_ok.mp h
  obtain ⟨deadline, -, h⟩ := bind_eq_ok.mp h
  obtain ⟨_, -, h⟩ := bind_eq_ok.mp h
  obtain ⟨intents, hintents, h⟩ := bind_eq_ok.mp h
  obtain ⟨_, hseparate, h⟩ := bind_eq_ok.mp h
  obtain ⟨transfers, -, h⟩ := bind_eq_ok.mp h
  obtain ⟨crossings, -, h⟩ := bind_eq_ok.mp h
  obtain ⟨_, -, h⟩ := bind_eq_ok.mp h
  have hcount := (need_eq_ok.mp hcount).1.1
  have hseparate := need_eq_ok.mp hseparate
  split at h
  · obtain ⟨length, -, h⟩ := bind_eq_ok.mp h
    obtain ⟨_, -, h⟩ := bind_eq_ok.mp h
    obtain ⟨_, hresidual, h⟩ := bind_eq_ok.mp h
    cases h
    exact ⟨hintents, hcount, hseparate, fun _ => checkResidual_eq_ok hresidual⟩
  · next hexternal =>
    obtain ⟨_, -, h⟩ := bind_eq_ok.mp h
    cases h
    exact ⟨hintents, hcount, hseparate, fun htrue => absurd htrue hexternal⟩

/-- The keys of the nonces are different. -/
theorem SeparateIntents.nodup {intents : List (Intent n)} (h : SeparateIntents a intents) :
    (intents.map fun i => a.key i.nonce).Nodup :=
  List.pairwise_map.mpr (h.1.imp fun hpair => hpair.2.1)

/-- Recording an intent writes its nonce. -/
theorem recordIntent_edits {i : Intent n} (h : Returns (recordIntent a i) s s') :
    Edits program (a.key i.nonce) (fun d d' => ∃ rest,
      d.splice 40 (Buffer.toBytes 8 (i.sequence + 1) ++ rest) = some d') s.ledger s'.ledger := by
  obtain ⟨row, h⟩ := h
  rw [recordIntent, get_bind] at h
  obtain ⟨⟨input, output⟩, -, h⟩ := lift_bind_eq_ok.mp h
  obtain ⟨_, s₁, hwrite, h⟩ := Comp.bind_eq_ok.mp h
  obtain ⟨-, rfl⟩ := pure_eq_ok.mp h
  rw [List.append_assoc] at hwrite
  exact (Edits.of_writeData hwrite).mono fun d d' hdata => ⟨_, hdata⟩

/-- A crossing advances the nonce of every intent and changes no other record. -/
theorem clearCrossing_commits (h : clearCrossing natives a clock venues d s = (.ok (), s')) :
    PerformsSome program a (intentChanges a d) s.ledger s'.ledger := by
  rw [clearCrossing, get_bind, lift_bind_eq_ok] at h
  obtain ⟨cross, hcheck, h⟩ := h
  obtain ⟨_, s₁, htransfers, h⟩ := Comp.bind_eq_ok.mp h
  obtain ⟨hread, hcount, hseparate, hresidual⟩ := checkCross_eq_ok hcheck
  have hready := readIntents_ready hread
  have hspares : Commits program [] s.ledger s₁.ledger :=
    commits_nil.mpr (Keeps.forM (fun t _ => spares_crossTransfer cross.intents t) _ _ _ htransfers)
  -- the residual graph has advanced the first nonce, if there is one
  obtain ⟨changes, s₂, hfirst, hmiddle, h⟩ : ∃ changes s₂,
      (∀ e ∈ changes, e ∈ cross.intents.map (Intent.change a)) ∧
      Commits program changes s.ledger s₂.ledger ∧
      (do
        let rows ← cross.intents.mapM (recordIntent a)
        setReturnData ((if cross.external then [83, 75, 69, 87, 78, 69, 84, 49]
          else [83, 75, 69, 87, 67, 79, 87, 49]) ++ Buffer.toBytes 8 cross.intents.length ++
          rows.flatten)) s₂ = (.ok (), s') := by
    split at h
    · next hexternal =>
      obtain ⟨_, s₂, hsettle, h⟩ := Comp.bind_eq_ok.mp h
      obtain ⟨g, first, hg, hfirst, hone, hsequence⟩ := hresidual hexternal
      have hsettled := (settleGraph_commits hsettle).commits
      rw [settlementChanges, changesOf_of_ok (accountIndex_eq_ok.mpr hone), graphChanges_of_ok hg, hsequence]
        at hsettled
      have hmem := List.mem_of_getElem? hfirst
      refine ⟨_, s₂, ?_, hspares.after_nil hsettled ?_, ?_⟩
      · intro e he
        rw [List.mem_singleton.mp he]
        exact List.mem_map_of_mem hmem
      · intro e he
        rw [List.mem_singleton.mp he]
        exact (hready first hmem).1.owner
      · rw [if_pos hexternal]
        exact h
    · next hexternal =>
      refine ⟨[], s₁, fun e he => absurd he List.not_mem_nil, hspares, ?_⟩
      rw [if_neg hexternal]
      exact h
  obtain ⟨rows, s₃, hrows, h⟩ := Comp.bind_eq_ok.mp h
  refine ⟨?_, intentChanges_ne_nil hread hcount⟩
  rw [readIntents_changes hread]
  refine ⟨?_, authorized_intents hready⟩
  have hedits : EditsEach program (fun i : Intent n => a.key i.nonce) _ cross.intents s₂.ledger s₃.ledger :=
    Each.edits (fun i _ _ _ hrun => recordIntent_edits hrun) hseparate.nodup (Each.of_mapM hrows)
  refine Commits.then_nil ?_ (commits_nil.mpr (spares_setReturnData _ _ _ _ h))
  have hkeys : ∀ e ∈ changes, e.1 ∈ cross.intents.map fun i : Intent n => a.key i.nonce := by
    intro e he
    obtain ⟨i, hi, rfl⟩ := List.mem_map.mp (hfirst e he)
    exact List.mem_map_of_mem hi
  refine ((EditsEach.of_commits hmiddle hkeys).trans hedits).commits hseparate.nodup fun i hi => ?_
  · obtain ⟨hnonce, hlt⟩ := hready i hi
    refine ⟨hnonce.owner, ?_⟩
    rintro d' ⟨d₁, hbefore, rest, hdata⟩
    refine ⟨by rw [hnonce.size]; exact nonceLen_ne, ?_⟩
    -- the nonce of the residual graph is written twice, with the same sequence
    rcases hbefore with rfl | ⟨c, -, happly⟩
    · exact Tick.of_nonce hnonce.size hnonce.sequence hlt hdata
    · exact Tick.of_sequence hnonce.size hnonce.sequence hlt happly.tick.size_eq happly.tick.head_eq hdata

end Crossing

/-! ## Exposure -/

section Exposure

variable {natives : Natives} {rt : Runtime} {n : ℕ} {a : Accounts n} {clock : Clock} {program : ProgramId}
  {venues : Venues program} {ledger : Ledger} {d : Buffer} {s s' : Chain}

/-- The nonce of a preflighted graph holds its sequence. -/
theorem preflightGraph_ready {bytes : Buffer} {g : Graph n} {nonce : Fin n} {wallet : ℕ}
    {aggregate : List ℕ} {pending : ℕ} (hg : Graph.decode bytes n = .ok g)
    (h : preflightGraph program ledger a clock bytes wallet nonce aggregate pending = .ok ()) :
    Ready program a ledger (a.key nonce) g.sequence := by
  rw [preflightGraph, bind_eq_ok] at h
  obtain ⟨g', hg', h⟩ := h
  obtain ⟨wallet', -, h⟩ := bind_eq_ok.mp h
  obtain ⟨nonce', hnonce, hdecoded⟩ := bind_eq_ok.mp h
  obtain rfl : nonce' = nonce := Fin.ext (accountIndex_eq_ok.mp hnonce)
  obtain rfl : g' = g := Except.ok.inj ((ad_eq_ok.mp hg').symm.trans hg)
  exact preflightDecoded_ready hdecoded

/-- What a settlement of several products asks: the next sequence of the nonce, which is the second account.
All products are under the sequence of the first. -/
def exposureChanges (a : Accounts n) (d : Buffer) : List (Key × Change) :=
  changesOf (accountIndex n 1 .overflow) fun nonce =>
    changesOf (readProductGraph d n exposureHeaderLen) fun p => [(a.key nonce, .advance p.1.graph.sequence)]

theorem readProductGraph_decode {cursor : ℕ} {p : ProductGraph n × ℕ}
    (h : readProductGraph d n cursor = .ok p) : Graph.decode p.1.bytes n = .ok p.1.graph := by
  rw [readProductGraph, bind_eq_ok] at h
  obtain ⟨descriptor, -, h⟩ := h
  obtain ⟨_, -, h⟩ := bind_eq_ok.mp h
  obtain ⟨length, -, h⟩ := bind_eq_ok.mp h
  obtain ⟨bytes, -, h⟩ := bind_eq_ok.mp h
  obtain ⟨graph, hgraph, h⟩ := bind_eq_ok.mp h
  obtain ⟨conservativeBps, -, h⟩ := bind_eq_ok.mp h
  obtain ⟨policyVersion, -, h⟩ := bind_eq_ok.mp h
  obtain ⟨numerator, -, h⟩ := bind_eq_ok.mp h
  obtain ⟨denominator, -, h⟩ := bind_eq_ok.mp h
  cases h
  exact ad_eq_ok.mp hgraph

/-- A product more is the one at the cursor. -/
theorem scanProduct_eq_ok {call : ExposureCall} {scan next : ProductScan n}
    (h : scanProduct rt program ledger a clock call d scan = .ok next) :
    ∃ p, readProductGraph d n scan.cursor = .ok p ∧ next.products = scan.products ++ [p.1] := by
  rw [scanProduct, bind_eq_ok] at h
  obtain ⟨⟨p, cursor⟩, hread, h⟩ := h
  dsimp only at h
  obtain ⟨_, -, h⟩ := bind_eq_ok.mp h
  obtain ⟨_, -, h⟩ := bind_eq_ok.mp h
  obtain ⟨_, -, h⟩ := bind_eq_ok.mp h
  obtain ⟨totalInput, -, h⟩ := bind_eq_ok.mp h
  obtain ⟨_, -, h⟩ := bind_eq_ok.mp h
  obtain ⟨_, -, h⟩ := bind_eq_ok.mp h
  obtain ⟨_, -, h⟩ := bind_eq_ok.mp h
  obtain ⟨_, -, h⟩ := bind_eq_ok.mp h
  cases h
  exact ⟨(p, cursor), hread, rfl⟩

/-- What is checked before the first CPI. -/
theorem checkExposure_eq_ok {plan : ExposurePlan n}
    (h : checkExposure rt program ledger a clock d = .ok plan) :
    (plan.nonce : ℕ) = 1 ∧ Ready program a ledger (a.key plan.nonce) plan.first.graph.sequence ∧
    ∃ p, readProductGraph d n exposureHeaderLen = .ok p ∧ plan.first = p.1 := by
  rw [checkExposure, bind_eq_ok] at h
  obtain ⟨⟨call, count⟩, -, h⟩ := h
  dsimp only at h
  obtain ⟨_, -, h⟩ := bind_eq_ok.mp h
  obtain ⟨wallet, -, h⟩ := bind_eq_ok.mp h
  obtain ⟨nonce, hnonce, h⟩ := bind_eq_ok.mp h
  obtain ⟨_, -, h⟩ := bind_eq_ok.mp h
  obtain ⟨scan, hscan, h⟩ := bind_eq_ok.mp h
  obtain ⟨_, -, h⟩ := bind_eq_ok.mp h
  obtain ⟨_, hpreflight, h⟩ := bind_eq_ok.mp h
  obtain ⟨first, hfirst, h⟩ := bind_eq_ok.mp h
  obtain ⟨beforeInput, -, h⟩ := bind_eq_ok.mp h
  obtain ⟨_, -, h⟩ := bind_eq_ok.mp h
  cases h
  have hone := accountIndex_eq_ok.mp hnonce
  -- the first product stands behind the header
  have hhead : (scan.products = [] ∧ scan.cursor = exposureHeaderLen) ∨
      ∃ p, readProductGraph d n exposureHeaderLen = .ok p ∧ scan.products.head? = some p.1 := by
    refine foldlM_inv (P := fun scan : ProductScan n =>
      (scan.products = [] ∧ scan.cursor = exposureHeaderLen) ∨
      ∃ p, readProductGraph d n exposureHeaderLen = .ok p ∧ scan.products.head? = some p.1) ?_ ?_ hscan
    · intro scan _ next hscan hstep
      obtain ⟨p, hread, hproducts⟩ := scanProduct_eq_ok hstep
      rcases hscan with ⟨hnil, hcursor⟩ | ⟨p₀, hread₀, hhead⟩
      · refine .inr ⟨p, hcursor ▸ hread, ?_⟩
        rw [hproducts, hnil]
        rfl
      · refine .inr ⟨p₀, hread₀, ?_⟩
        rw [hproducts, List.head?_append, hhead]
        rfl
    · exact .inl ⟨rfl, rfl⟩
  have hfirst := okOr_eq_ok.mp hfirst
  rcases hhead with ⟨hnil, -⟩ | ⟨p, hread, hhead⟩
  · rw [hnil] at hfirst
    cases hfirst
  · rw [hfirst] at hhead
    cases hhead
    have hready : preflightGraph program ledger a clock p.1.bytes 0 nonce (productTokens scan.products) 0
        = .ok () := by
      rw [hone]
      exact forM_eq_ok.mp hpreflight _ (List.mem_of_mem_head? hfirst)
    exact ⟨hone, preflightGraph_ready (readProductGraph_decode hread) hready, p, hread, rfl⟩

theorem spares_executeProduct (wallet : Fin n) (sequence : ℕ) (p : ProductGraph n) :
    Keeps (Spares program []) (executeProduct natives a clock venues wallet sequence p) :=
  (spares_executePreflighted _ _).bind fun _ => .lift_bind fun _ _ => .get_bind fun _ =>
    .lift_bind fun _ _ => .pure

/-- The graphs of all products write no account of the program. -/
theorem spares_executeProducts (wallet : Fin n) (sequence : ℕ) (products : List (ProductGraph n))
    (total : ℕ) :
    Keeps (Spares program []) (executeProducts natives a clock venues wallet sequence products total) := by
  induction products generalizing total with
  | nil => exact .pure
  | cons p rest ih =>
    exact (spares_executeProduct wallet sequence p).bind fun _ => .lift_bind fun _ _ =>
      (ih _).bind fun _ => .pure

/-- A settlement of several products changes the nonce alone. -/
theorem executeExposure_commits (h : executeExposure natives rt a clock venues d s = (.ok (), s')) :
    PerformsSome program a (exposureChanges a d) s.ledger s'.ledger := by
  rw [executeExposure, get_bind, lift_bind_eq_ok] at h
  obtain ⟨plan, hplan, h⟩ := h
  obtain ⟨⟨rows, total⟩, s₁, hproducts, h⟩ := Comp.bind_eq_ok.mp h
  dsimp only at h
  rw [get_bind] at h
  obtain ⟨afterInput, -, h⟩ := lift_bind_eq_ok.mp h
  obtain ⟨_, -, h⟩ := lift_bind_eq_ok.mp h
  obtain ⟨_, -, h⟩ := lift_bind_eq_ok.mp h
  obtain ⟨next, hnext, h⟩ := lift_bind_eq_ok.mp h
  obtain ⟨hlt, rfl⟩ := checkedSum_eq_ok.mp hnext
  obtain ⟨_, s₂, hwrite, h⟩ := Comp.bind_eq_ok.mp h
  obtain ⟨hone, hready, p, hread, hfirst⟩ := checkExposure_eq_ok hplan
  rw [List.append_assoc] at hwrite
  rw [exposureChanges, changesOf_of_ok (accountIndex_eq_ok.mpr hone), changesOf_of_ok hread, ← hfirst]
  exact ⟨⟨(hready.commits (spares_executeProducts _ _ _ _ _ _ _ hproducts) hlt hwrite).then_nil
    (commits_nil.mpr (spares_setReturnData _ _ _ _ h)), hready.authorized⟩, List.cons_ne_nil _ _⟩

end Exposure

/-! ## Cells of signed intents -/

section FlowCell

variable {natives : Natives} {n : ℕ} {a : Accounts n} {clock : Clock} {program : ProgramId}
  {venues : Venues program} {ledger : Ledger} {d : Buffer} {s s' : Chain}

/-- A residual graph stands for an intent of the cell. -/
structure ResidualFor (intents : List (Intent n)) (r : Residual n) : Prop where
  decode_eq : Graph.decode r.bytes n = .ok r.graph
  intent : ∃ i, intents[r.slot]? = some i ∧ r.graph.sequence = i.sequence

theorem scanResidual_eq_ok {deadline : ℕ} {intents : List (Intent n)} {crossings : Crossings}
    {scan next : ResidualScan n} (hscan : ∀ r ∈ scan.residuals, ResidualFor intents r)
    (h : scanResidual program ledger a clock deadline d intents crossings scan = .ok next) :
    ∀ r ∈ next.residuals, ResidualFor intents r := by
  rw [scanResidual, bind_eq_ok] at h
  obtain ⟨header, -, h⟩ := h
  dsimp only at h
  obtain ⟨length, -, h⟩ := bind_eq_ok.mp h
  obtain ⟨bytes, -, h⟩ := bind_eq_ok.mp h
  obtain ⟨_, -, h⟩ := bind_eq_ok.mp h
  obtain ⟨i, hi, h⟩ := bind_eq_ok.mp h
  obtain ⟨left, -, h⟩ := bind_eq_ok.mp h
  obtain ⟨_, -, h⟩ := bind_eq_ok.mp h
  obtain ⟨g, hg, h⟩ := bind_eq_ok.mp h
  obtain ⟨_, hresidual, h⟩ := bind_eq_ok.mp h
  obtain ⟨_, -, h⟩ := bind_eq_ok.mp h
  obtain ⟨_, -, h⟩ := bind_eq_ok.mp h
  obtain ⟨_, -, h⟩ := bind_eq_ok.mp h
  cases h
  intro r hr
  rcases List.mem_append.mp hr with hr | hr
  · exact hscan r hr
  · rw [List.mem_singleton.mp hr]
    exact ⟨ad_eq_ok.mp hg, i, okOr_eq_ok.mp hi, (need_eq_ok.mp hresidual).1⟩

/-- What is checked before the first transfer. -/
theorem checkFlowCell_eq_ok {cell : FlowCell n} (h : checkFlowCell program ledger a clock d = .ok cell) :
    readIntents program ledger a d (d.byte 1).toNat = .ok cell.intents ∧ 2 ≤ (d.byte 1).toNat ∧
    (cell.intents.flatMap (Intent.financial a)).Nodup ∧
    ∀ r ∈ cell.residuals, ResidualFor cell.intents r := by
  rw [checkFlowCell, bind_eq_ok] at h
  obtain ⟨_, -, h⟩ := h
  dsimp only at h
  obtain ⟨_, hcount, h⟩ := bind_eq_ok.mp h
  obtain ⟨deadline, -, h⟩ := bind_eq_ok.mp h
  obtain ⟨_, -, h⟩ := bind_eq_ok.mp h
  obtain ⟨_, -, h⟩ := bind_eq_ok.mp h
  obtain ⟨intents, hintents, h⟩ := bind_eq_ok.mp h
  obtain ⟨_, hseparate, h⟩ := bind_eq_ok.mp h
  obtain ⟨transfers, -, h⟩ := bind_eq_ok.mp h
  obtain ⟨crossings, -, h⟩ := bind_eq_ok.mp h
  obtain ⟨scan, hscan, h⟩ := bind_eq_ok.mp h
  obtain ⟨_, -, h⟩ := bind_eq_ok.mp h
  obtain ⟨_, -, h⟩ := bind_eq_ok.mp h
  obtain ⟨_, -, h⟩ := bind_eq_ok.mp h
  cases h
  refine ⟨hintents, (need_eq_ok.mp hcount).1.1, need_eq_ok.mp hseparate, ?_⟩
  exact foldlM_inv (P := fun scan : ResidualScan n => ∀ r ∈ scan.residuals, ResidualFor intents r)
    (fun _ _ _ hscan hstep => scanResidual_eq_ok hscan hstep)
    (fun r hr => absurd hr List.not_mem_nil) hscan

/-- Accounts of different intents are different. -/
theorem nodup_nonces {intents : List (Intent n)} (h : (intents.flatMap (Intent.financial a)).Nodup) :
    (intents.map fun i => a.key i.nonce).Nodup := by
  obtain ⟨-, hpairs⟩ := List.nodup_flatMap.mp h
  have hmem : ∀ i : Intent n, a.key i.nonce ∈ i.financial a := fun i => by simp [Intent.financial]
  refine List.pairwise_map.mpr (hpairs.imp ?_)
  intro x y hdisjoint heq
  exact hdisjoint (hmem x) (heq ▸ hmem y)

theorem residualOf_eq_some {residuals : List (Residual n)} {slot : ℕ} {r : Residual n}
    (h : residualOf residuals slot = some r) : r ∈ residuals ∧ r.slot = slot :=
  ⟨List.mem_of_find?_eq_some h, by simpa using List.find?_some h⟩

/-- Settling a residual graph advances the nonce of its intent. -/
theorem settleResidual_edits {cell : FlowCell n}
    (hresiduals : ∀ r ∈ cell.residuals, ResidualFor cell.intents r)
    {p : Intent n × ℕ} (hp : p ∈ cell.intents.zipIdx)
    (h : Returns (settleResidual natives a clock venues cell p) s s') :
    Edits program (a.key p.1.nonce) (fun d d' => if (residualOf cell.residuals p.2).isSome
      then (Change.advance p.1.sequence).Applies d d' else d' = d) s.ledger s'.ledger := by
  obtain ⟨_, h⟩ := h
  rw [settleResidual] at h
  rcases hr : residualOf cell.residuals p.2 with _ | r
  · rw [hr] at h
    obtain ⟨-, rfl⟩ := pure_eq_ok.mp h
    exact ⟨fun _ _ howner => ⟨howner, rfl⟩, fun howner => ⟨howner, rfl⟩⟩
  · rw [hr] at h
    obtain ⟨hmem, hslot⟩ := residualOf_eq_some hr
    obtain ⟨hdecode, i, hi, hsequence⟩ := hresiduals r hmem
    have hindex : cell.intents[p.2]? = some p.1 := List.mk_mem_zipIdx_iff_getElem?.mp hp
    rw [hslot, hindex] at hi
    cases hi
    have hsettled := settleGraphFor_commits h
    rw [graphChanges_of_ok hdecode, hsequence] at hsettled
    exact hsettled.edits.mono fun d d' happly => happly

/-- Recording an intent writes its nonce behind the sequence that its residual graph left, or the sequence
itself. -/
theorem recordResidual_edits {cell : FlowCell n} {p : Intent n × ℕ}
    (h : Returns (recordResidual a cell p) s s') :
    Edits program (a.key p.1.nonce) (fun d d' => ∃ rest, if (residualOf cell.residuals p.2).isSome
      then d.splice 48 rest = some d'
      else d.splice 40 (Buffer.toBytes 8 (p.1.sequence + 1) ++ rest) = some d') s.ledger s'.ledger := by
  obtain ⟨row, h⟩ := h
  rw [recordResidual, get_bind] at h
  obtain ⟨⟨input, output⟩, -, h⟩ := lift_bind_eq_ok.mp h
  obtain ⟨_, s₁, hwrite, h⟩ := Comp.bind_eq_ok.mp h
  obtain ⟨-, rfl⟩ := pure_eq_ok.mp h
  rw [writeIntent, get_bind] at hwrite
  split at hwrite
  · next hsome =>
    obtain ⟨stored, -, hwrite⟩ := lift_bind_eq_ok.mp hwrite
    obtain ⟨_, -, hwrite⟩ := lift_bind_eq_ok.mp hwrite
    refine (Edits.of_writeData hwrite).mono fun d d' hdata =>
      ⟨Buffer.toBytes 8 input ++ Buffer.toBytes 8 output, ?_⟩
    rw [if_pos hsome]
    exact hdata
  · next hnone =>
    refine (Edits.of_writeData hwrite).mono fun d d' hdata =>
      ⟨Buffer.toBytes 8 input ++ Buffer.toBytes 8 output, ?_⟩
    rw [if_neg hnone]
    exact hdata

theorem zipIdx_nonces (intents : List (Intent n)) :
    (intents.zipIdx.map fun p => a.key p.1.nonce) = intents.map fun i => a.key i.nonce := by
  conv_rhs => rw [← List.zipIdx_map_fst 0 intents, List.map_map]
  rfl

/-- A cell advances the nonce of every intent, whether by its residual graph or after it, and changes no
other record. -/
theorem clearFlowCell_commits (h : clearFlowCell natives a clock venues d s = (.ok (), s')) :
    PerformsSome program a (intentChanges a d) s.ledger s'.ledger := by
  rw [clearFlowCell, get_bind, lift_bind_eq_ok] at h
  obtain ⟨cell, hcheck, h⟩ := h
  obtain ⟨_, s₁, htransfers, h⟩ := Comp.bind_eq_ok.mp h
  obtain ⟨_, s₂, hsettle, h⟩ := Comp.bind_eq_ok.mp h
  obtain ⟨rows, s₃, hrecord, h⟩ := Comp.bind_eq_ok.mp h
  obtain ⟨hread, hcount, hfinancial, hresiduals⟩ := checkFlowCell_eq_ok hcheck
  have hready := readIntents_ready hread
  have hnodup : (cell.intents.zipIdx.map fun p => a.key p.1.nonce).Nodup := by
    rw [zipIdx_nonces]
    exact nodup_nonces hfinancial
  have hspares : Commits program [] s.ledger s₁.ledger :=
    commits_nil.mpr (Keeps.forM (fun t _ => spares_crossTransfer cell.intents t) _ _ _ htransfers)
  have hsettled := Each.edits (fun p hp _ _ hrun => settleResidual_edits hresiduals hp hrun) hnodup
    (Each.of_forM hsettle)
  have hcommits : Commits program (cell.intents.zipIdx.map fun p : Intent n × ℕ =>
      (a.key p.1.nonce, Change.advance p.1.sequence)) s.ledger s₃.ledger := by
    refine ((hsettled.after_nil hspares).trans (Each.edits (fun p _ _ _ hrun => recordResidual_edits hrun)
      hnodup (Each.of_mapM hrecord))).commits hnodup fun p hp => ?_
    obtain ⟨hnonce, hlt⟩ := hready p.1 (List.fst_mem_of_mem_zipIdx hp)
    refine ⟨hnonce.owner, ?_⟩
    rintro d' ⟨d₁, hsettle, rest, hdata⟩
    refine ⟨by rw [hnonce.size]; exact nonceLen_ne, ?_⟩
    split at hdata
    · -- the residual graph has advanced the nonce, and the record adds the outcome
      next hsome =>
      rw [if_pos hsome] at hsettle
      exact hsettle.tick.splice hnonce.size le_rfl hdata
    · next hnone =>
      rw [if_neg hnone] at hsettle
      subst hsettle
      exact Tick.of_nonce hnonce.size hnonce.sequence hlt hdata
  have hmap : (cell.intents.zipIdx.map fun p : Intent n × ℕ => (a.key p.1.nonce, Change.advance p.1.sequence))
      = cell.intents.map (Intent.change a) := by
    conv_rhs => rw [← List.zipIdx_map_fst 0 cell.intents, List.map_map]
    rfl
  refine ⟨?_, ?_⟩
  · rw [readIntents_changes hread]
    refine ⟨?_, authorized_intents hready⟩
    rw [← hmap]
    exact hcommits.then_nil (commits_nil.mpr (spares_setReturnData _ _ _ _ h))
  · exact intentChanges_ne_nil hread hcount

end FlowCell

/-! ## Mesh cells -/

section Economic

variable {natives : Natives} {n : ℕ} {a : Accounts n} {clock : Clock} {program : ProgramId}
  {venues : Venues program}

theorem spares_invokeEconomicLeg {g : Graph n} (wallet : Fin n) (index budget : ℕ) :
    Keeps (Spares program []) (invokeEconomicLeg a g clock venues wallet index budget) :=
  .lift_bind fun _ _ => .get_bind fun _ => .lift_bind fun _ _ => spares_invokeLeg _ _

theorem spares_executeSecond {g : Graph n} (wallet : Fin n) (lamports maximum : ℕ)
    (terminal : Fin g.assetCount) (leg : Leg n g.assetCount) (received : ℕ)
    (previous : Fin g.assetCount → ℕ) (run : EconomicRun natives g.assetCount) (second : Option ℕ) :
    Keeps (Spares program []) (executeSecond a g clock venues wallet lamports maximum terminal leg received
      previous run second) := by
  cases second with
  | none => exact .pure
  | some index =>
    exact .lift_bind fun _ _ => .lift_bind fun _ _ => (spares_invokeEconomicLeg _ _ _).bind fun _ =>
      .get_bind fun _ => .lift

theorem spares_economicRound {g : Graph n} (wallet : Fin n) (lamports maximum : ℕ)
    (converters : ℕ → Option Converter) (paths : List (EconomicPath g.assetCount))
    (before : Fin g.assetCount → ℕ) (run : EconomicRun natives g.assetCount) :
    Keeps (Spares program [])
      (economicRound a g clock venues wallet lamports maximum converters paths before run) := by
  refine .lift_bind fun _ _ => .ite (fun _ => .pure) fun _ => .get_bind fun _ => .lift_bind fun _ _ => ?_
  refine .lift_bind fun _ _ => ?_
  dsimp only
  refine .lift_bind fun _ _ => .lift_bind fun _ _ => (spares_invokeEconomicLeg _ _ _).bind fun _ => ?_
  refine .get_bind fun _ => .lift_bind fun _ _ => ?_
  exact (spares_executeSecond _ _ _ _ _ _ _ _ _).bind fun _ => .pure

theorem spares_runEconomic {g : Graph n} (wallet : Fin n) (lamports maximum : ℕ)
    (converters : ℕ → Option Converter) (paths : List (EconomicPath g.assetCount))
    (before : Fin g.assetCount → ℕ) (fuel : ℕ) (run : EconomicRun natives g.assetCount) :
    Keeps (Spares program [])
      (runEconomic a g clock venues wallet lamports maximum converters paths before fuel run) := by
  induction fuel generalizing run with
  | zero => exact .pure
  | succ fuel ih =>
    refine (spares_economicRound _ _ _ _ _ _ _).bind fun next => ?_
    cases next with
    | none => exact .pure
    | some run => exact ih run

/-- An economic reflow writes no account of the program. -/
theorem spares_executeEconomic (d : Buffer) (wallet : Fin n) (converters : ℕ → Option Converter)
    (maximum : ℕ) : Keeps (Spares program [])
      (executeEconomicReflowFor natives a clock venues d wallet converters maximum) :=
  .lift_bind fun _ _ => .lift_bind fun _ _ => .lift_bind fun _ _ => .get_bind fun _ => .lift_bind fun _ _ =>
    .lift_bind fun _ _ => .lift_bind fun _ _ => (spares_runEconomic _ _ _ _ _ _ _ _).bind fun _ =>
      .get_bind fun _ => .lift

end Economic

section MeshCell

variable {natives : Natives} {rt : Runtime} {n : ℕ} {a : Accounts n} {clock : Clock} {program : ProgramId}
  {venues : Venues program} {ledger : Ledger} {d : Buffer} {s s' : Chain}

/-- What a seller asks: a fill of its resting order, or the next sequence of its nonce. -/
def CellSeller.change (a : Accounts n) (seller : CellSeller n) : Key × Change :=
  (a.key seller.nonce, if seller.resting then .fill seller.sequence seller.stockInput seller.cashOutput
    else .advance seller.sequence)

/-- What the row of a seller asks. -/
def sellerChange (a : Accounts n) (d : Buffer) (start : ℕ) : Outcome (Key × Change) := do
  let row ← okOr (d.slice start cellSellerLen) .bounds
  let nonce ← accountIndex n (row.getD 2 0).toNat .identity
  let sequence ← ad (u64At d (start + 8))
  let stockInput ← ad (u64At d (start + 16))
  let cashOutput ← ad (u64At d (start + 24))
  .ok (a.key nonce, if row.getD 5 0 = 1 then .fill sequence stockInput cashOutput else .advance sequence)

/-- What a cell asks: the next sequence of the buyer's nonce, and what its sellers ask. -/
def cellChanges (a : Accounts n) (d : Buffer) : List (Key × Change) :=
  changesOf (readCellHeader d n) fun h => (a.key h.nonce, .advance h.sequence) ::
    (List.range h.sellerCount).flatMap fun j => changesOf
      (sellerChange a d (cellHeaderLen + h.productCount * cellProductLen + j * cellSellerLen)) fun e => [e]

/-- What a funded cell asks is what the cell in it asks. -/
def fundingChanges (a : Accounts n) (d : Buffer) : List (Key × Change) :=
  changesOf (okOr (d.number 4 2) .overflow) fun fundingLen => changesOf (okOr (d.number 6 2) .overflow)
    fun cellLen => changesOf (window d (8 + fundingLen) cellLen) (cellChanges a)

theorem cellSellerRow_change {products : List (CellProduct n)} {start : ℕ} {seller : CellSeller n}
    (h : cellSellerRow products d start = .ok seller) : sellerChange a d start = .ok (seller.change a) := by
  rw [cellSellerRow, bind_eq_ok] at h
  obtain ⟨row, hrow, h⟩ := h
  obtain ⟨_, -, h⟩ := bind_eq_ok.mp h
  obtain ⟨sequence, hsequence, h⟩ := bind_eq_ok.mp h
  obtain ⟨stockInput, hstock, h⟩ := bind_eq_ok.mp h
  obtain ⟨cashOutput, hcash, h⟩ := bind_eq_ok.mp h
  obtain ⟨minimumCashOutput, -, h⟩ := bind_eq_ok.mp h
  dsimp only at h
  obtain ⟨product, -, h⟩ := bind_eq_ok.mp h
  obtain ⟨owner, -, h⟩ := bind_eq_ok.mp h
  obtain ⟨nonce, hnonce, h⟩ := bind_eq_ok.mp h
  obtain ⟨source, -, h⟩ := bind_eq_ok.mp h
  obtain ⟨cashDestination, -, h⟩ := bind_eq_ok.mp h
  cases h
  rw [sellerChange, hrow]
  simp only [bind, Except.bind, hnonce, hsequence, hstock, hcash, CellSeller.change, decide_eq_true_eq]

/-- A record that a seller may write. -/
structure SellerReady (program : ProgramId) (ledger : Ledger) (a : Accounts n) (seller : CellSeller n) :
    Prop where
  owner : (ledger (a.key seller.nonce)).owner = program
  nonce : seller.resting = false → Ready program a ledger (a.key seller.nonce) seller.sequence ∧
    seller.sequence + 1 < u64Size
  order : seller.resting = true → ∃ h claim, FillOf a (ledger (a.key seller.nonce)).data (seller.fill h claim)

/-- What a seller asks is signed. -/
theorem SellerReady.signed {seller : CellSeller n} (h : SellerReady program ledger a seller) :
    (seller.change a).2.SignedBy a (ledger (a.key seller.nonce)).data := by
  unfold CellSeller.change
  split
  · trivial
  · next hresting => exact (h.nonce (Bool.not_eq_true _ ▸ hresting)).1.signed

/-- One seller more. -/
theorem scanSeller_eq_ok {h : CellHeader n} {funded : Option (Funded n)} {products : List (CellProduct n)}
    {scan next : SellerScan n} {position : ℕ}
    (hscan : scanSeller rt program ledger a clock h funded products d scan position = .ok next) :
    ∃ seller : CellSeller n, next.sellers = scan.sellers ++ [seller] ∧
      sellerChange a d (cellHeaderLen + h.productCount * cellProductLen + position * cellSellerLen)
        = .ok (seller.change a) ∧
      SellerReady program ledger a seller ∧ SeparateSeller a h products scan.sellers seller := by
  obtain ⟨seller, hrow, hscan⟩ := bind_eq_ok.mp hscan
  obtain ⟨_, hform, hscan⟩ := bind_eq_ok.mp hscan
  obtain ⟨_, -, hscan⟩ := bind_eq_ok.mp hscan
  obtain ⟨_, hseparate, hscan⟩ := bind_eq_ok.mp hscan
  obtain ⟨orderNonce, hcheck, hscan⟩ := bind_eq_ok.mp hscan
  obtain ⟨beforeStock, -, hscan⟩ := bind_eq_ok.mp hscan
  obtain ⟨beforeCash, -, hscan⟩ := bind_eq_ok.mp hscan
  obtain ⟨_, -, hscan⟩ := bind_eq_ok.mp hscan
  obtain ⟨raw, -, hscan⟩ := bind_eq_ok.mp hscan
  obtain ⟨internalCash, -, hscan⟩ := bind_eq_ok.mp hscan
  obtain ⟨_, -, hscan⟩ := bind_eq_ok.mp hscan
  cases hscan
  obtain ⟨-, -, howner, hlt, -, -, -, -, hsigner, -⟩ := need_eq_ok.mp hform
  refine ⟨_, rfl, (cellSellerRow_change hrow).trans rfl, ⟨howner, ?_, ?_⟩, need_eq_ok.mp hseparate⟩
  · -- a one-shot seller has signed, and its nonce stands at the sequence
    intro hresting
    have hresting : seller.resting = false := hresting
    rw [checkSeller, if_neg (by rw [hresting]; decide)] at hcheck
    obtain ⟨_, hnonce, -⟩ := bind_eq_ok.mp hcheck
    rw [hresting] at hsigner
    refine ⟨.of_checkNonce howner (hsigner.resolve_right Bool.false_ne_true) hnonce, ?_⟩
    show seller.sequence + 1 < u64Size
    omega
  · -- a resting order is checked against its record
    intro hresting
    rw [checkSeller, if_pos hresting] at hcheck
    obtain ⟨claim, -, hfill⟩ := bind_eq_ok.mp hcheck
    exact ⟨h, claim, validateFill_eq_ok hfill⟩

/-- What the sellers of a cell are. -/
structure SellersFor (program : ProgramId) (ledger : Ledger) (a : Accounts n) (d : Buffer) (h : CellHeader n)
    (count : ℕ) (sellers : List (CellSeller n)) : Prop where
  changes_eq : ((List.range count).flatMap fun j => changesOf
    (sellerChange a d (cellHeaderLen + h.productCount * cellProductLen + j * cellSellerLen)) fun e => [e])
    = sellers.map (CellSeller.change a)
  ready : ∀ seller ∈ sellers, SellerReady program ledger a seller ∧ a.key seller.nonce ≠ a.key h.nonce
  nodup : (sellers.map fun seller => a.key seller.nonce).Nodup

theorem CellSeller.nonce_mem (seller : CellSeller n) : seller.nonce ∈ seller.financial := by
  simp [CellSeller.financial]

theorem SellersFor.add {h : CellHeader n} {count : ℕ} {products : List (CellProduct n)}
    {sellers : List (CellSeller n)} {seller : CellSeller n}
    (hsellers : SellersFor program ledger a d h count sellers)
    (hchange : sellerChange a d (cellHeaderLen + h.productCount * cellProductLen + count * cellSellerLen)
      = .ok (seller.change a)) (hready : SellerReady program ledger a seller)
    (hseparate : SeparateSeller a h products sellers seller) :
    SellersFor program ledger a d h (count + 1) (sellers ++ [seller]) := by
  obtain ⟨-, hbuyer, -, hothers⟩ := hseparate
  constructor
  · rw [List.range_succ, List.flatMap_append, hsellers.changes_eq, List.map_append, List.flatMap_singleton,
      changesOf_of_ok hchange]
    rfl
  · intro x hx
    rcases List.mem_append.mp hx with hx | hx
    · exact hsellers.ready x hx
    · rw [List.mem_singleton.mp hx]
      exact ⟨hready, (hbuyer _ seller.nonce_mem).2.1⟩
  · rw [List.map_append]
    refine List.nodup_append'.mpr ⟨hsellers.nodup, List.nodup_singleton _, ?_⟩
    intro key hkey hnew
    obtain ⟨x, hx, rfl⟩ := List.mem_map.mp hkey
    exact hothers _ seller.nonce_mem x hx _ x.nonce_mem (List.mem_singleton.mp hnew).symm

theorem scanSellers_eq_ok {h : CellHeader n} {funded : Option (Funded n)} {products : List (CellProduct n)}
    {count : ℕ} {scan : SellerScan n}
    (hscan : (List.range count).foldlM (scanSeller rt program ledger a clock h funded products d) {}
      = .ok scan) : SellersFor program ledger a d h count scan.sellers := by
  refine foldlM_range_inv (P := fun k (scan : SellerScan n) => SellersFor program ledger a d h k scan.sellers)
    ?_ ?_ hscan
  · intro k _ scan next hsellers hstep
    obtain ⟨seller, hnext, hchange, hready, hseparate⟩ := scanSeller_eq_ok hstep
    rw [hnext]
    exact hsellers.add hchange hready hseparate
  · exact ⟨rfl, fun _ hx => absurd hx List.not_mem_nil, List.nodup_nil⟩

/-- The buyer's nonce holds the signed sequence. -/
theorem checkCellHeader_eq_ok {funding : Option Funding} {h : CellHeader n} {cash : ℕ}
    {funded : Option (Funded n)}
    (hcheck : checkCellHeader program ledger a clock d funding = .ok (h, cash, funded)) :
    readCellHeader d n = .ok h ∧ Ready program a ledger (a.key h.nonce) h.sequence ∧
    h.sequence + 1 < u64Size := by
  rw [checkCellHeader, bind_eq_ok] at hcheck
  obtain ⟨_, -, hcheck⟩ := hcheck
  obtain ⟨header, hread, hcheck⟩ := bind_eq_ok.mp hcheck
  obtain ⟨_, hidentity, hcheck⟩ := bind_eq_ok.mp hcheck
  obtain ⟨_, hnonce, hcheck⟩ := bind_eq_ok.mp hcheck
  obtain ⟨cash', -, hcheck⟩ := bind_eq_ok.mp hcheck
  obtain ⟨funded', -, hcheck⟩ := bind_eq_ok.mp hcheck
  obtain ⟨_, -, hcheck⟩ := bind_eq_ok.mp hcheck
  cases hcheck
  obtain ⟨hsigner, -, howner⟩ := need_eq_ok.mp hidentity
  refine ⟨hread, .of_checkNonce howner hsigner hnonce, ?_⟩
  -- the header excludes the last sequence
  rw [readCellHeader, bind_eq_ok] at hread
  obtain ⟨deadline, -, hread⟩ := hread
  obtain ⟨maximumPolicyAge, -, hread⟩ := bind_eq_ok.mp hread
  obtain ⟨sequence, -, hread⟩ := bind_eq_ok.mp hread
  obtain ⟨input, -, hread⟩ := bind_eq_ok.mp hread
  obtain ⟨minimumExposure, -, hread⟩ := bind_eq_ok.mp hread
  obtain ⟨_, hbounds, hread⟩ := bind_eq_ok.mp hread
  obtain ⟨_, -, hread⟩ := bind_eq_ok.mp hread
  obtain ⟨buyer, -, hread⟩ := bind_eq_ok.mp hread
  obtain ⟨nonce, -, hread⟩ := bind_eq_ok.mp hread
  obtain ⟨source, -, hread⟩ := bind_eq_ok.mp hread
  obtain ⟨cashMint, -, hread⟩ := bind_eq_ok.mp hread
  obtain ⟨cashProgram, -, hread⟩ := bind_eq_ok.mp hread
  cases hread
  have hlt := (need_eq_ok.mp hbounds).2.1
  show sequence + 1 < u64Size
  omega

/-- What is checked before the first CPI. -/
theorem checkCell_eq_ok {funding : Option Funding} {cell : Cell n}
    (h : checkCell rt program ledger a clock d funding = .ok cell) :
    readCellHeader d n = .ok cell.header ∧
    Ready program a ledger (a.key cell.header.nonce) cell.header.sequence ∧
    cell.header.sequence + 1 < u64Size ∧
    SellersFor program ledger a d cell.header cell.header.sellerCount cell.sellers := by
  rw [checkCell, bind_eq_ok] at h
  obtain ⟨⟨header, cash, funded⟩, hheader, h⟩ := h
  dsimp only at h
  obtain ⟨_, -, h⟩ := bind_eq_ok.mp h
  obtain ⟨products, -, h⟩ := bind_eq_ok.mp h
  obtain ⟨scan, hscan, h⟩ := bind_eq_ok.mp h
  obtain ⟨graphs, -, h⟩ := bind_eq_ok.mp h
  obtain ⟨_, -, h⟩ := bind_eq_ok.mp h
  obtain ⟨_, -, h⟩ := bind_eq_ok.mp h
  obtain ⟨_, -, h⟩ := bind_eq_ok.mp h
  cases h
  obtain ⟨hread, hready, hlt⟩ := checkCellHeader_eq_ok hheader
  exact ⟨hread, hready, hlt, scanSellers_eq_ok hscan⟩

/-- Funding changes only the graphs of a cell; what is spent is the signed cash, or all that was funded. -/
structure Finances (cell : Cell n) (financed : Financed n) : Prop where
  cell_eq : ∃ residuals global, financed.cell = { cell with residuals, global }
  signed : cell.funded = none → financed.fundedCash = 0 ∧ financed.input = cell.header.input
  spent : cell.funded ≠ none → financed.input = financed.fundedCash ∧ cell.header.input ≤ financed.fundedCash

theorem spendFunded_eq_ok {cell spent : Cell n} {f : Funded n} {cash : ℕ}
    (h : spendFunded a clock program ledger cell f cash = .ok spent) :
    ∃ residuals global, spent = { cell with residuals, global } := by
  rw [spendFunded] at h
  split at h
  · obtain ⟨external, -, h⟩ := bind_eq_ok.mp h
    obtain ⟨_, -, h⟩ := bind_eq_ok.mp h
    obtain ⟨global, -, h⟩ := bind_eq_ok.mp h
    obtain ⟨bytes, -, h⟩ := bind_eq_ok.mp h
    obtain ⟨_, -, h⟩ := bind_eq_ok.mp h
    obtain ⟨g, -, h⟩ := bind_eq_ok.mp h
    cases h
    exact ⟨_, _, rfl⟩
  · obtain ⟨surplus, -, h⟩ := bind_eq_ok.mp h
    obtain ⟨residual, -, h⟩ := bind_eq_ok.mp h
    obtain ⟨previous, -, h⟩ := bind_eq_ok.mp h
    obtain ⟨increased, -, h⟩ := bind_eq_ok.mp h
    obtain ⟨bytes, -, h⟩ := bind_eq_ok.mp h
    obtain ⟨_, -, h⟩ := bind_eq_ok.mp h
    obtain ⟨g, -, h⟩ := bind_eq_ok.mp h
    cases h
    exact ⟨_, _, rfl⟩

/-- Funding a cell writes no account of the program. -/
theorem fundCell_eq_ok {cell : Cell n} {financed : Financed n}
    (h : fundCell natives a clock venues cell s = (.ok financed, s')) :
    Spares program [] s s' ∧ Finances cell financed := by
  rw [fundCell] at h
  rcases hf : cell.funded with _ | f
  · rw [hf] at h
    obtain ⟨rfl, rfl⟩ := pure_eq_ok.mp h
    exact ⟨fun _ _ howner => ⟨howner, rfl⟩, ⟨_, _, rfl⟩, fun _ => ⟨rfl, rfl⟩, fun hne => absurd hf hne⟩
  · rw [hf] at h
    obtain ⟨outcome, s₁, hexecute, h⟩ := Comp.bind_eq_ok.mp h
    obtain ⟨_, hneed, h⟩ := lift_bind_eq_ok.mp h
    rw [get_bind] at h
    obtain ⟨spent, hspend, h⟩ := lift_bind_eq_ok.mp h
    obtain ⟨rfl, rfl⟩ := pure_eq_ok.mp h
    refine ⟨spares_executePreflighted _ _ _ _ _ hexecute, spendFunded_eq_ok hspend, fun hnone => ?_,
      fun _ => ⟨rfl, (need_eq_ok.mp hneed).2.1⟩⟩
    rw [hnone] at hf
    cases hf

theorem spares_transferSeller (h : CellHeader n) (seller : CellSeller n) :
    Keeps (Spares program []) (transferSeller rt a venues h seller) :=
  (spares_transferChecked _ _ _ _ _ _).bind fun _ =>
    .ite (fun _ => spares_transferCheckedSigned rt _ _ _ _ _ _ _ _) fun _ =>
      spares_transferChecked _ _ _ _ _ _

theorem spares_executeResidual (h : CellHeader n) (bytes : Buffer) :
    Keeps (Spares program []) (executeResidual natives a clock venues h bytes) :=
  (spares_executePreflighted _ _).bind fun _ => .lift

theorem spares_executeGlobal (financed : Financed n) :
    Keeps (Spares program []) (executeGlobal natives a clock venues financed) := by
  unfold executeGlobal
  dsimp only
  split
  · exact .pure
  · exact .get_bind fun _ => .lift_bind fun _ _ => .lift_bind fun _ _ =>
      (spares_executeEconomic _ _ _ _).bind fun _ => .lift_bind fun _ _ => .lift

/-- The CPIs of a cell write no account of the program. -/
theorem executeCell_eq_ok {cell : Cell n} {financed : Financed n}
    (h : executeCell natives rt a clock venues cell s = (.ok financed, s')) :
    Spares program [] s s' ∧ Finances cell financed := by
  rw [executeCell] at h
  obtain ⟨financed', s₁, hfund, h⟩ := Comp.bind_eq_ok.mp h
  obtain ⟨_, s₂, hsellers, h⟩ := Comp.bind_eq_ok.mp h
  obtain ⟨_, s₃, hgraphs, h⟩ := Comp.bind_eq_ok.mp h
  obtain ⟨_, s₄, hglobal, h⟩ := Comp.bind_eq_ok.mp h
  obtain ⟨rfl, rfl⟩ := pure_eq_ok.mp h
  obtain ⟨hspares, hfinances⟩ := fundCell_eq_ok hfund
  refine ⟨?_, hfinances⟩
  have hspares₂ := Keeps.forM (fun seller _ => spares_transferSeller _ seller) _ _ _ hsellers
  have hspares₃ := Keeps.forM (fun r _ => spares_executeResidual _ r.1) _ _ _ hgraphs
  exact ((hspares.trans hspares₂).trans hspares₃).trans (spares_executeGlobal _ _ _ _ hglobal)

/-- Recording a seller writes its order or its nonce. -/
theorem recordSeller_edits {seller : CellSeller n} (h : Returns (recordSeller a seller) s s') :
    Edits program (a.key seller.nonce) (fun d d' => if seller.resting = true
      then ∃ remaining filledCash,
        filledOrder d seller.sequence seller.stockInput seller.cashOutput
          = .ok (remaining, seller.sequence + 1, filledCash) ∧
        Buffer.spliceAll (fillFields remaining (seller.sequence + 1) filledCash) d = some d'
      else ∃ rest, d.splice 40 (Buffer.toBytes 8 (seller.sequence + 1) ++ rest) = some d')
      s.ledger s'.ledger := by
  obtain ⟨_, h⟩ := h
  rw [recordSeller] at h
  split at h
  · next hresting =>
    rw [recordFill, get_bind] at h
    obtain ⟨⟨remaining, revision, filledCash⟩, hfill, h⟩ := lift_bind_eq_ok.mp h
    dsimp only at h
    obtain ⟨data, hdata, rfl⟩ := writeFields_eq_ok h
    obtain ⟨-, rfl, -⟩ := filledOrder_eq_ok hfill
    constructor
    · intro other hother howner
      dsimp only
      rw [Function.update_of_ne hother]
      exact ⟨howner, rfl⟩
    · intro howner
      dsimp only
      rw [Function.update_self, if_pos hresting]
      exact ⟨howner, remaining, filledCash, hfill, hdata⟩
  · next hresting =>
    rw [List.append_assoc] at h
    refine (Edits.of_writeData h).mono fun d d' hdata => ?_
    rw [if_neg hresting]
    exact ⟨_, hdata⟩

/-- The records of the sellers. -/
theorem recordSellers_commits {header : CellHeader n} {count : ℕ} {sellers : List (CellSeller n)}
    (hsellers : SellersFor program s.ledger a d header count sellers)
    (h : sellers.forM (recordSeller a) s = (.ok (), s')) :
    Commits program (sellers.map (CellSeller.change a)) s.ledger s'.ledger := by
  refine (Each.edits (fun seller _ _ _ hrun => recordSeller_edits hrun) hsellers.nodup
    (Each.of_forM h)).commits hsellers.nodup fun seller hseller => ?_
  obtain ⟨⟨howner, hnonce, horder⟩, -⟩ := hsellers.ready seller hseller
  refine ⟨howner, fun d' hedit => ?_⟩
  split at hedit
  · next hresting =>
    rw [if_pos hresting]
    obtain ⟨_, _, hfill⟩ := horder hresting
    exact ⟨hedit, hfill.priced⟩
  · next hresting =>
    obtain ⟨rest, hdata⟩ := hedit
    obtain ⟨hready, hlt⟩ := hnonce (Bool.not_eq_true _ ▸ hresting)
    rw [if_neg hresting]
    refine ⟨?_, Tick.of_nonce hready.size hready.sequence hlt hdata⟩
    rw [hready.size]
    exact nonceLen_ne

/-- A cell advances the nonces of the buyer and of the sellers that sign, fills the orders that rest, and
changes no other record. -/
theorem clearInner_commits {funding : Option Funding}
    (h : clearInner natives rt a clock venues d funding s = (.ok (), s')) :
    PerformsSome program a (cellChanges a d) s.ledger s'.ledger := by
  rw [clearInner, get_bind, lift_bind_eq_ok] at h
  obtain ⟨cell, hcheck, h⟩ := h
  obtain ⟨financed, s₁, hexecute, h⟩ := Comp.bind_eq_ok.mp h
  rw [get_bind] at h
  obtain ⟨cleared, -, h⟩ := lift_bind_eq_ok.mp h
  obtain ⟨_, s₂, hrecord, h⟩ := Comp.bind_eq_ok.mp h
  obtain ⟨hread, hready, hlt, hsellers⟩ := checkCell_eq_ok hcheck
  obtain ⟨hspares, ⟨residuals, global, hcell⟩, -, -⟩ := executeCell_eq_ok hexecute
  rw [recordCell, hcell] at hrecord
  obtain ⟨_, s₃, hbuyer, hrecord⟩ := Comp.bind_eq_ok.mp hrecord
  rw [List.append_assoc] at hbuyer
  have hfirst := hready.commits hspares hlt hbuyer
  have hnot : ∀ seller ∈ cell.sellers,
      a.key seller.nonce ∉ [(a.key cell.header.nonce, Change.advance cell.header.sequence)].map Prod.fst := by
    intro seller hseller hmem
    exact (hsellers.ready seller hseller).2 (List.mem_singleton.mp hmem)
  -- the buyer's nonce is none of the sellers'
  have hsellers' : SellersFor program s₃.ledger a d cell.header cell.header.sellerCount cell.sellers := by
    refine ⟨hsellers.changes_eq, fun seller hseller => ?_, hsellers.nodup⟩
    obtain ⟨⟨howner, hnonce, horder⟩, hne⟩ := hsellers.ready seller hseller
    obtain ⟨howner₃, hdata₃⟩ := hfirst.kept _ (hnot seller hseller) howner
    refine ⟨⟨howner₃, fun hresting => ?_, ?_⟩, hne⟩
    · obtain ⟨hnonce, hlt⟩ := hnonce hresting
      exact ⟨hnonce.kept hfirst (hnot seller hseller), hlt⟩
    · rw [hdata₃]
      exact horder
  have hsigned : Authorized a (cell.sellers.map (CellSeller.change a)) s.ledger := by
    intro e he
    obtain ⟨seller, hseller, rfl⟩ := List.mem_map.mp he
    exact (hsellers.ready seller hseller).1.signed
  rw [cellChanges, changesOf_of_ok hread, hsellers.changes_eq]
  refine ⟨⟨?_, List.forall_mem_append.mpr ⟨hready.authorized, hsigned⟩⟩, List.cons_ne_nil _ _⟩
  refine Commits.then_nil (hfirst.append (recordSellers_commits hsellers' hrecord) ?_ ?_)
    (commits_nil.mpr (spares_setReturnData _ _ _ _ h))
  · intro key hkey hmem
    obtain ⟨e, he, rfl⟩ := List.mem_map.mp hmem
    obtain ⟨seller, hseller, rfl⟩ := List.mem_map.mp he
    exact hnot seller hseller hkey
  · intro e he
    obtain ⟨seller, hseller, rfl⟩ := List.mem_map.mp he
    exact (hsellers.ready seller hseller).1.owner

theorem clearMeshCell_commits (h : clearMeshCell natives rt a clock venues d s = (.ok (), s')) :
    PerformsSome program a (cellChanges a d) s.ledger s'.ledger := clearInner_commits h

/-- A funded cell changes the records that the cell in it names. -/
theorem executeFunding_commits (h : executeFunding natives rt a clock venues d s = (.ok (), s')) :
    PerformsSome program a (fundingChanges a d) s.ledger s'.ledger := by
  rw [executeFunding, lift_bind_eq_ok] at h
  obtain ⟨_, -, h⟩ := h
  obtain ⟨_, -, h⟩ := lift_bind_eq_ok.mp h
  obtain ⟨fundingLen, hfunding, h⟩ := lift_bind_eq_ok.mp h
  obtain ⟨cellLen, hcell, h⟩ := lift_bind_eq_ok.mp h
  obtain ⟨_, -, h⟩ := lift_bind_eq_ok.mp h
  obtain ⟨bytes, -, h⟩ := lift_bind_eq_ok.mp h
  obtain ⟨cell, hwindow, h⟩ := lift_bind_eq_ok.mp h
  rw [fundingChanges, changesOf_of_ok hfunding, changesOf_of_ok hcell, changesOf_of_ok hwindow]
  exact clearInner_commits h

end MeshCell

end StockMesh.Settle

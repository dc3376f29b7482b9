import StockMesh.Journal.Sender
import StockMesh.Journal.Completion

/-! # What a batch of the sender decides

A batch sends only transactions that the node does not know and whose time has not passed, each once and
with an update that records the attempt (`prepareBatch_eq_ok`). It tells an outcome only where the node
gave a final status. -/

namespace StockMesh.Journal

open Host (Answer refuse Value Rpc)

variable {τ : Type} {codec : Codec τ} {signing : Signing} {maxAttempts : ℕ}

/-! ## Statuses -/

/-- A status that is final: with an error or without one. -/
def Final (failed : Bool) (status : Value) : Prop :=
  (status.index "confirmationStatus").asStr = some "finalized" ∧
    ∃ err, status.get "err" = some err ∧ err.isNull = !failed

/-- Why an update may be recorded, from the statuses of its batch. -/
structure Update.Told (statuses : List (String × Value)) (u : Update) : Prop where
  failed : u.phase = .failed → ∃ status, (u.id, status) ∈ statuses ∧ Final true status
  finalized : u.phase = .finalized → ∃ status, (u.id, status) ∈ statuses ∧ Final false status
  unsettled : u.phase ≠ .reconciled

theorem isNull_iff {v : Value} : v.isNull = true ↔ v = .null := by
  cases v <;> simp [Value.isNull]

/-- The phase of a status is an outcome only if the status is final. -/
theorem statusPhase_eq_ok {status : Value} {phase : Phase} (h : statusPhase status = .ok phase) :
    (phase = .failed → Final true status) ∧ (phase = .finalized → Final false status) ∧
      phase ≠ .reconciled := by
  simp only [statusPhase, bind_eq_ok, okOr_eq_ok] at h
  obtain ⟨confirmation, hconfirmation, err, herr, h⟩ := h
  unfold confirmedPhase at h
  split at h
  · cases hnull : err.isNull with
    | true =>
      rw [hnull] at h
      cases h
      exact ⟨fun h => (by cases h), fun _ => ⟨hconfirmation, err, herr, hnull⟩, by decide⟩
    | false =>
      rw [hnull] at h
      cases h
      exact ⟨fun _ => ⟨hconfirmation, err, herr, hnull⟩, fun h => (by cases h), by decide⟩
  · cases h
    exact ⟨fun h => (by cases h), fun h => (by cases h), by decide⟩
  · cases h
    exact ⟨fun h => (by cases h), fun h => (by cases h), by decide⟩
  · cases h

/-- The statuses of a batch: its updates are told by them, and the transactions left over are unknown to
the node. -/
structure Batch.Read (b : Batch τ) : Prop where
  told : ∀ u ∈ b.updates, u.Told b.statuses
  absent : ∀ x ∈ b.absent, (x.1.id, .null) ∈ b.statuses

theorem readStatus_eq_ok {b b' : Batch τ} {x : (Entry τ × ℕ) × Value}
    (h : readStatus b x = .ok b') (hmem : (x.1.1.id, x.2) ∈ b.statuses) (hb : b.Read) :
    b'.Read ∧ b'.statuses = b.statuses ∧ b'.sends = b.sends ∧
      ∃ l, l.Sublist [x.1] ∧ b'.absent = b.absent ++ l := by
  unfold readStatus at h
  split at h
  · rename_i hnull
    cases h
    rw [isNull_iff.mp hnull] at hmem
    refine ⟨⟨hb.told, fun y hy => ?_⟩, rfl, rfl, [x.1], .refl _, rfl⟩
    obtain hy | hy := List.mem_append.mp hy
    · exact hb.absent y hy
    · rw [List.mem_singleton.mp hy]
      exact hmem
  · obtain ⟨phase, hphase, h⟩ := bind_eq_ok.mp h
    cases h
    obtain ⟨hfailed, hfinalized, hunsettled⟩ := statusPhase_eq_ok hphase
    refine ⟨⟨fun u hu => ?_, hb.absent⟩, rfl, rfl, [], List.nil_sublist _, (List.append_nil _).symm⟩
    dsimp only at hu
    split at hu
    · obtain hu | hu := List.mem_append.mp hu
      · exact hb.told u hu
      · rw [List.mem_singleton.mp hu]
        exact ⟨fun hp => ⟨x.2, hmem, hfailed hp⟩, fun hp => ⟨x.2, hmem, hfinalized hp⟩, hunsettled⟩
    · exact hb.told u hu

theorem foldlM_readStatus {l : List ((Entry τ × ℕ) × Value)} {b b' : Batch τ}
    (h : l.foldlM readStatus b = .ok b') (hmem : ∀ x ∈ l, (x.1.1.id, x.2) ∈ b.statuses)
    (hb : b.Read) : b'.Read ∧ b'.statuses = b.statuses ∧ b'.sends = b.sends ∧
      ∃ l', l'.Sublist (l.map Prod.fst) ∧ b'.absent = b.absent ++ l' := by
  induction l generalizing b with
  | nil =>
    cases h
    exact ⟨hb, rfl, rfl, [], .slnil, (List.append_nil _).symm⟩
  | cons x l ih =>
    obtain ⟨mid, hstep, hrest⟩ := bind_eq_ok.mp h
    obtain ⟨hhead, htail⟩ := List.forall_mem_cons.mp hmem
    obtain ⟨hmid, hstatuses, hsends, l₁, hsub₁, habsent₁⟩ := readStatus_eq_ok hstep hhead hb
    obtain ⟨hb', hstatuses', hsends', l₂, hsub₂, habsent₂⟩ :=
      ih hrest (fun y hy => hstatuses ▸ htail y hy) hmid
    refine ⟨hb', hstatuses'.trans hstatuses, hsends'.trans hsends, l₁ ++ l₂, ?_, ?_⟩
    · exact hsub₁.append hsub₂
    · rw [habsent₂, habsent₁, List.append_assoc]

/-- The statuses of a batch, and the transactions among the active ones that have none. -/
theorem readStatuses_eq_ok {rpc : Rpc} {phases : List Phase} {active : List (Entry τ × ℕ)}
    {b : Batch τ} (h : readStatuses rpc phases active = .ok b) :
    b.Read ∧ b.sends = [] ∧ b.absent.Sublist active := by
  obtain ⟨statuses, hstatuses, hread⟩ := bind_eq_ok.mp h
  simp only [signatureStatuses, bind_eq_ok, refuse_eq_ok] at hstatuses
  obtain ⟨_, -, _, -, _, hlength, hout⟩ := hstatuses
  cases hout
  have hpairs : ∀ x ∈ active.zip statuses, (x.1.1.id, x.2) ∈
      (active.map fun x => x.1.id).zip statuses := by
    intro x hx
    rw [List.zip_map_left]
    exact List.mem_map.mpr ⟨x, hx, rfl⟩
  obtain ⟨hb, -, hsends, absent, hsub, habsent⟩ := foldlM_readStatus hread hpairs
    ⟨fun u hu => absurd hu List.not_mem_nil, fun x hx => absurd hx List.not_mem_nil⟩
  refine ⟨hb, hsends, ?_⟩
  rw [habsent, List.nil_append]
  rwa [List.map_fst_zip (Decidable.not_not.mp hlength).ge] at hsub

/-! ## Attempts -/

/-- The attempts that a batch makes after it has read the height. -/
structure Batch.Attempts (maxAttempts : ℕ) (b : Batch τ) : Prop where
  told : ∀ u ∈ b.updates, u.Told b.statuses
  sends : ∀ x ∈ b.sends, x.1.attempts < maxAttempts ∧ (⟨x.1.id, .unknown, true⟩ ∈ b.updates) ∧
    ∃ h, b.height = some h ∧ h ≤ x.1.lastValidHeight

theorem Entry.attempted_iff {e : Entry τ} {height : Option ℕ} :
    e.attempted maxAttempts height = true ↔
      e.attempts < maxAttempts ∧ ∃ h, height = some h ∧ h ≤ e.lastValidHeight := by
  cases height <;> simp [attempted, and_comm]

theorem decideAbsent_attempts {b : Batch τ} (hb : b.Attempts maxAttempts) (x : Entry τ × ℕ) :
    let b' := decideAbsent maxAttempts b.height b x
    b'.Attempts maxAttempts ∧ b'.statuses = b.statuses ∧ b'.height = b.height ∧
      ∃ l, l.Sublist [x] ∧ b'.sends = b.sends ++ l := by
  intro b'
  have hunknown : ∀ attempt, Update.Told b.statuses ⟨x.1.id, .unknown, attempt⟩ := fun attempt =>
    ⟨fun h => (by cases h), fun h => (by cases h), fun h => (by cases h)⟩
  -- one update at most is added, and it tells no outcome
  obtain ⟨l, hl, hupdates⟩ : ∃ l : List Update,
      (∀ u ∈ l, u = ⟨x.1.id, .unknown, x.1.attempted maxAttempts b.height⟩) ∧
      b'.updates = b.updates ++ l := by
    simp only [b', decideAbsent]
    split
    · exact ⟨_, fun u hu => List.mem_singleton.mp hu, rfl⟩
    · exact ⟨[], fun u hu => absurd hu List.not_mem_nil, (List.append_nil _).symm⟩
  have htold : ∀ u ∈ b'.updates, u.Told b'.statuses := by
    intro u hu
    rw [hupdates] at hu
    obtain hu | hu := List.mem_append.mp hu
    · exact hb.told u hu
    · rw [hl u hu]
      exact hunknown _
  have hkeep : ∀ y ∈ b.sends, y.1.attempts < maxAttempts ∧ (⟨y.1.id, .unknown, true⟩ ∈ b'.updates) ∧
      ∃ h, b'.height = some h ∧ h ≤ y.1.lastValidHeight := by
    intro y hy
    obtain ⟨hfewer, hupdate, hheight⟩ := hb.sends y hy
    exact ⟨hfewer, hupdates ▸ List.mem_append_left _ hupdate, hheight⟩
  cases hattempt : x.1.attempted maxAttempts b.height with
  | true =>
    have hsends : b'.sends = b.sends ++ [x] := by simp [b', decideAbsent, hattempt]
    have hupdates' : b'.updates = b.updates ++ [⟨x.1.id, .unknown, true⟩] := by
      simp [b', decideAbsent, hattempt]
    refine ⟨⟨htold, fun y hy => ?_⟩, rfl, rfl, [x], .refl _, hsends⟩
    rw [hsends] at hy
    obtain hy | hy := List.mem_append.mp hy
    · exact hkeep y hy
    · obtain ⟨hfewer, hheight⟩ := Entry.attempted_iff.mp hattempt
      rw [List.mem_singleton.mp hy]
      exact ⟨hfewer, hupdates' ▸ List.mem_append_right _ (List.mem_singleton_self _), hheight⟩
  | false =>
    have hsends : b'.sends = b.sends := by simp [b', decideAbsent, hattempt]
    exact ⟨⟨htold, fun y hy => hkeep y (hsends ▸ hy)⟩, rfl, rfl, [], List.nil_sublist _,
      hsends.trans (List.append_nil _).symm⟩

theorem foldl_decideAbsent {l : List (Entry τ × ℕ)} {b : Batch τ} (hb : b.Attempts maxAttempts) :
    let b' := l.foldl (decideAbsent maxAttempts b.height) b
    b'.Attempts maxAttempts ∧ b'.statuses = b.statuses ∧ b'.height = b.height ∧
      ∃ l', l'.Sublist l ∧ b'.sends = b.sends ++ l' := by
  induction l generalizing b with
  | nil => exact ⟨hb, rfl, rfl, [], .slnil, (List.append_nil _).symm⟩
  | cons x l ih =>
    obtain ⟨hmid, hstatuses, hheight, l₁, hsub₁, hsends₁⟩ := decideAbsent_attempts hb x
    have hrest := ih hmid
    rw [hheight] at hrest
    obtain ⟨hb', hstatuses', hheight', l₂, hsub₂, hsends₂⟩ := hrest
    refine ⟨hb', hstatuses'.trans hstatuses, hheight', l₁ ++ l₂, hsub₁.append hsub₂, ?_⟩
    rw [List.foldl_cons, hsends₂, hsends₁, List.append_assoc]

/-! ## Batches -/

/-- A transaction that a batch sends. -/
structure Sendable (maxAttempts : ℕ) (j : Journal τ) (b : Batch τ) (e : Entry τ) : Prop where
  journaled : e ∈ j.entries
  active : e.phase.active = true
  fewer : e.attempts < maxAttempts
  unknown : (e.id, .null) ∈ b.statuses
  inTime : ∃ h, b.height = some h ∧ h ≤ e.lastValidHeight
  update : ⟨e.id, .unknown, true⟩ ∈ b.updates

/-- What a batch has decided after its reads. -/
structure Batch.Decided (maxAttempts : ℕ) (allowSend : Bool) (j : Journal τ) (b : Batch τ) : Prop where
  told : ∀ u ∈ b.updates, u.Told b.statuses
  nodup : (b.sends.map fun x => x.1.id).Nodup
  sends : ∀ x ∈ b.sends, Sendable maxAttempts j b x.1
  allowed : b.sends ≠ [] → allowSend = true

/-- The identities of a batch are different ones, and their entries are journaled. -/
theorem foldlM_gatherEntry {j : Journal τ} {ids : List String}
    {state state' : List String × List (Entry τ)} (h : ids.foldlM j.gatherEntry state = .ok state') :
    ∃ l, state'.2 = state.2 ++ l ∧ l.map Entry.id = ids ∧ (∀ e ∈ l, e ∈ j.entries) ∧ ids.Nodup ∧
      ∀ id ∈ ids, id ∉ state.1 := by
  induction ids generalizing state with
  | nil =>
    cases h
    exact ⟨[], by simp⟩
  | cons id ids ih =>
    obtain ⟨mid, hstep, hrest⟩ := bind_eq_ok.mp h
    simp only [gatherEntry, bind_eq_ok, refuse_eq_ok, okOr_eq_ok] at hstep
    obtain ⟨_, hnew, e, hfind, hmid⟩ := hstep
    cases hmid
    obtain ⟨he, hid⟩ := Table.find_eq_some.mp hfind
    obtain ⟨l, hout, hmap, hall, hnodup, hids⟩ := ih hrest
    simp only [List.mem_cons, not_or] at hids
    refine ⟨e :: l, by rw [hout, List.append_assoc]; rfl, by rw [List.map_cons, hmap, hid],
      List.forall_mem_cons.mpr ⟨he, hall⟩, ?_, ?_⟩
    · exact List.nodup_cons.mpr ⟨fun hmem => (hids id hmem).1 rfl, hnodup⟩
    · exact List.forall_mem_cons.mpr ⟨hnew, fun x hx => (hids x hx).2⟩

/-- A height is only read to send. -/
theorem finalizedHeight_eq_ok {rpc : Rpc} {allowSend : Bool} {height : Option ℕ}
    (h : finalizedHeight rpc allowSend = .ok height) : height ≠ none → allowSend = true := by
  unfold finalizedHeight at h
  split at h
  · next hallow => exact fun _ => hallow
  · cases h
    exact fun hne => absurd rfl hne

/-- The attempts are among the transactions that the node does not know, and only a batch that may send
has some. -/
theorem decideAttempts_eq_ok {rpc : Rpc} {allowSend : Bool} {b b' : Batch τ}
    (h : decideAttempts rpc allowSend maxAttempts b = .ok b') (hread : b.Read) (hnone : b.sends = []) :
    b'.Attempts maxAttempts ∧ b'.statuses = b.statuses ∧ b'.sends.Sublist b.absent ∧
      (b'.sends ≠ [] → allowSend = true) := by
  unfold decideAttempts at h
  split at h
  · cases h
    refine ⟨⟨hread.told, fun x hx => ?_⟩, rfl, ?_, fun hne => absurd hnone hne⟩
    · rw [hnone] at hx
      cases hx
    · rw [hnone]
      exact List.nil_sublist _
  · obtain ⟨height, hheight, hout⟩ := bind_eq_ok.mp h
    have hstart : Batch.Attempts maxAttempts { b with height := height } :=
      ⟨hread.told, fun x hx => by rw [hnone] at hx; cases hx⟩
    obtain ⟨hattempts, hstatuses, hheight', sent, hsub, hsends⟩ :=
      @foldl_decideAbsent _ maxAttempts b.absent _ hstart
    cases hout
    have hsent : b.sends ++ sent = sent := by rw [hnone, List.nil_append]
    refine ⟨hattempts, hstatuses, hsends.trans hsent ▸ hsub, fun hne => ?_⟩
    obtain ⟨x, hx⟩ := List.exists_mem_of_ne_nil _ hne
    obtain ⟨-, -, n, hn, -⟩ := hattempts.sends x hx
    refine finalizedHeight_eq_ok hheight fun hnothing => ?_
    rw [hheight'] at hn
    cases hnothing.symm.trans hn

/-- What a batch decides. -/
theorem prepareBatch_eq_ok {j : Journal τ} {rpc : Rpc} {allowSend : Bool} {ids : List String}
    {crates : Crates} {b : Batch τ}
    (h : j.prepareBatch crates signing maxAttempts rpc allowSend ids = .ok b) :
    b.Decided maxAttempts allowSend j := by
  simp only [prepareBatch, bind_eq_ok, refuse_eq_ok] at h
  obtain ⟨_, -, ⟨ids', entries⟩, hgather, h⟩ := h
  obtain ⟨l, hl, hmap, hall, hnodup, -⟩ := foldlM_gatherEntry hgather
  obtain rfl : entries = l := hl
  split at h
  · cases h
    exact ⟨fun u hu => absurd hu List.not_mem_nil, .nil, fun x hx => absurd hx List.not_mem_nil,
      fun hne => absurd rfl hne⟩
  simp only [bind_eq_ok] at h
  obtain ⟨_, -, _, -, b₁, hread, hdecide⟩ := h
  obtain ⟨hb₁, hnone, habsent⟩ := readStatuses_eq_ok hread
  obtain ⟨hattempts, hstatuses, hsends, hallowed⟩ := decideAttempts_eq_ok hdecide hb₁ hnone
  have hactive := hsends.trans habsent
  refine ⟨hattempts.told, ?_, fun x hx => ?_, hallowed⟩
  · have hids := (hactive.trans List.filter_sublist).map fun x => x.1.id
    refine hids.nodup ?_
    rw [← hmap] at hnodup
    rwa [show (fun x : Entry τ × ℕ => x.1.id) = Entry.id ∘ Prod.fst from rfl, ← List.map_map,
      List.zipIdx_map_fst]
  · obtain ⟨hfewer, hupdate, hinTime⟩ := hattempts.sends x hx
    obtain ⟨hmem, hphase⟩ := List.mem_filter.mp (hactive.subset hx)
    refine ⟨hall _ (List.fst_mem_of_mem_zipIdx hmem), hphase, hfewer, ?_, hinTime, hupdate⟩
    rw [hstatuses]
    exact hb₁.absent x (hsends.subset hx)

end StockMesh.Journal

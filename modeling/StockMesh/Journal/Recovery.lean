import StockMesh.Journal.Batch
import StockMesh.Journal.Frames

/-! # Crash recovery

A journal is `Valid` for the records that its file tells: these are the records of its entries,
possibly followed by a part of the batch whose append has failed. Every call keeps this (`Call.outcome`),
`open` reads the entries back from it (`openJournal_valid`), and so a reopened journal has every acknowledged
record and a prefix of the others (`journal_recovers`). -/

namespace StockMesh.Journal

open Host (Answer refuse refuse_of_not bounded bounded_eq_ok)

variable {τ : Type} {codec : Codec τ}

/-! ## The bytes of an append -/

/-- One record of an append. -/
theorem addRecord_eq_ok {j : Journal τ} {seq : ℕ} {bytes : List UInt8} {e : Entry τ}
    {state : ℕ × List UInt8} : j.addRecord codec (seq, bytes) e = .ok state ↔
      seq + 1 < u64Size ∧ (codec.encode (seq + 1) e).length ≤ maxRecord ∧
      j.bytes + (bytes ++ codec.frame (codec.encode (seq + 1) e)).length ≤ j.maxBytes ∧
      state = (seq + 1, bytes ++ codec.frame (codec.encode (seq + 1) e)) := by
  have hlen : j.bytes + (bytes ++ codec.frame (codec.encode (seq + 1) e)).length =
      j.bytes + bytes.length + 8 + (codec.encode (seq + 1) e).length := by
    rw [List.length_append, length_frame]
    omega
  rw [hlen]
  simp only [addRecord, bind_eq_ok, bounded_eq_ok, refuse_eq_ok, not_or, not_lt]
  constructor
  · rintro ⟨_, ⟨hseq, rfl⟩, _, ⟨hbody, hsize⟩, hout⟩
    cases hout
    exact ⟨hseq, hbody, hsize, rfl⟩
  · rintro ⟨hseq, hbody, hsize, rfl⟩
    exact ⟨_, ⟨hseq, rfl⟩, (), ⟨hbody, hsize⟩, rfl⟩

/-- The loop of `append_batch` writes the frames of the batch if they fit. -/
theorem foldlM_addRecord {j : Journal τ} {pending : List (Entry τ)} {seq : ℕ} {bytes : List UInt8}
    {state : ℕ × List UInt8} (hseq : seq < u64Size) (hsize : j.bytes + bytes.length ≤ j.maxBytes) :
    pending.foldlM (j.addRecord codec) (seq, bytes) = .ok state ↔
      seq + pending.length < u64Size ∧ Bodies codec seq pending ∧
      j.bytes + (bytes ++ frames codec seq pending).length ≤ j.maxBytes ∧
      state = (seq + pending.length, bytes ++ frames codec seq pending) := by
  induction pending generalizing seq bytes with
  | nil =>
    simp only [List.foldlM_nil, pure, Except.pure, Except.ok.injEq, List.length_nil, Nat.add_zero,
      Bodies, frames_nil, List.append_nil, true_and]
    exact ⟨fun h => ⟨hseq, hsize, h.symm⟩, fun h => h.2.2.symm⟩
  | cons e pending ih =>
    have hassoc : bytes ++ frames codec seq (e :: pending) =
        bytes ++ codec.frame (codec.encode (seq + 1) e) ++ frames codec (seq + 1) pending := by
      rw [frames, List.append_assoc]
    have hlen : seq + (e :: pending).length = seq + 1 + pending.length := by
      rw [List.length_cons]
      omega
    rw [List.foldlM_cons, bind_eq_ok, hassoc, hlen, Bodies]
    constructor
    · rintro ⟨mid, hstep, hrest⟩
      obtain ⟨hseq', hbody, hsize', rfl⟩ := addRecord_eq_ok.mp hstep
      obtain ⟨hlast, hbodies, htotal, rfl⟩ := (ih hseq' hsize').mp hrest
      exact ⟨hlast, ⟨hbody, hbodies⟩, htotal, rfl⟩
    · rintro ⟨hlast, ⟨hbody, hbodies⟩, htotal, rfl⟩
      have hseq' : seq + 1 < u64Size := by omega
      have hsize' : j.bytes + (bytes ++ codec.frame (codec.encode (seq + 1) e)).length ≤
          j.maxBytes := by
        rw [List.length_append] at htotal
        omega
      exact ⟨_, addRecord_eq_ok.mpr ⟨hseq', hbody, hsize', rfl⟩,
        (ih hseq' hsize').mpr ⟨hlast, hbodies, htotal, rfl⟩⟩

/-- One record of a compaction succeeds like one of an append to an empty file. -/
theorem addCompacted_eq_ok {j : Journal τ} (hbytes : j.maxBytes < u64Size)
    {state state' : ℕ × List UInt8} {e : Entry τ} : j.addCompacted codec state e = .ok state' ↔
      addRecord codec { j with bytes := 0 } state e = .ok state' := by
  simp only [addCompacted, addRecord, bind_eq_ok, bounded_eq_ok, refuse_eq_ok, not_or, not_lt]
  constructor
  · rintro ⟨_, hseq, _, ⟨-, rfl⟩, _, ⟨hbody, hsize⟩, hout⟩
    exact ⟨_, hseq, (), ⟨hbody, by omega⟩, hout⟩
  · rintro ⟨_, hseq, _, ⟨hbody, hsize⟩, hout⟩
    exact ⟨_, hseq, _, ⟨by omega, rfl⟩, (), ⟨hbody, by omega⟩, hout⟩

/-- The loop of `compact` writes the frames of the entries if they fit. -/
theorem foldlM_addCompacted {j : Journal τ} (hbytes : j.maxBytes < u64Size)
    {records : List (Entry τ)} {state : ℕ × List UInt8} :
    records.foldlM (j.addCompacted codec) (0, []) = .ok state ↔
      records.length < u64Size ∧ Bodies codec 0 records ∧
      (frames codec 0 records).length ≤ j.maxBytes ∧
      state = (records.length, frames codec 0 records) := by
  have hsame : ∀ s, records.foldlM (j.addCompacted codec) s = .ok state ↔
      records.foldlM (addRecord codec { j with bytes := 0 }) s = .ok state := by
    induction records with
    | nil => exact fun s => Iff.rfl
    | cons e records ih =>
      intro s
      simp only [List.foldlM_cons, bind_eq_ok, addCompacted_eq_ok hbytes, ih]
  have hzero : (0 : ℕ) < u64Size := by decide
  rw [hsame, foldlM_addRecord hzero (Nat.zero_le _)]
  simp

/-! ## What a file tells -/

variable (codec) in
/-- A file of whole records and a torn one. -/
structure Written (file : List UInt8) (records : List (Entry τ)) (torn : List UInt8) : Prop where
  file : file = frames codec 0 records ++ torn
  bodies : Bodies codec 0 records
  economic : ∀ e ∈ records, e.validateEconomicType codec.toCrates = .ok ()
  torn : Torn codec torn

/-- The entries that records tell. -/
def replay (records : List (Entry τ)) : Entries τ := Table.empty.insertAll records

/-- The bounds that `open` accepts. -/
def InBounds (capacity maxBytes : ℕ) : Prop :=
  0 < capacity ∧ capacity ≤ 4096 ∧ 4096 ≤ maxBytes ∧ maxBytes ≤ 64 * 1024 * 1024

theorem InBounds.maxBytes_lt {capacity maxBytes : ℕ} (h : InBounds capacity maxBytes) :
    maxBytes < u64Size := by
  have hconst : u64Size = 18446744073709551616 := rfl
  have := h.2.2.2
  omega

variable (codec) in
/-- A journal and the records of its file. -/
structure Valid (j : Journal τ) (records : List (Entry τ)) (torn : List UInt8) : Prop where
  bounds : InBounds j.capacity j.maxBytes
  written : Written codec j.file records torn
  sound : Sound codec.toCrates j.entries
  indexed : j.Indexed
  ahead : ∃ more, Appendable codec.toCrates j.entries more ∧
    replay records = j.entries.insertAll more
  size : j.file.length ≤ j.maxBytes
  room : (replay records).rows.length ≤ j.capacity
  clean : j.poisoned = false → torn = [] ∧ replay records = j.entries ∧ j.seq = records.length ∧
    j.bytes = j.file.length

/-- The records tell sound entries. -/
theorem Valid.sound_replay {j : Journal τ} {records : List (Entry τ)} {torn : List UInt8}
    (h : Valid codec j records torn) : Sound codec.toCrates (replay records) := by
  obtain ⟨more, hmore, heq⟩ := h.ahead
  rw [heq]
  exact hmore.admits.sound h.sound

/-- The plans of sound entries pass `open`. -/
theorem foldlM_checkPlan {entries : Entries τ} (h : Sound codec.toCrates entries)
    {rest : List (Entry τ)} (hrest : ∀ e ∈ rest, e ∈ entries) (plans : List String) :
    ∃ plans', rest.foldlM (checkPlan codec entries.rows) plans = .ok plans' := by
  induction rest generalizing plans with
  | nil => exact ⟨plans, rfl⟩
  | cons e rest ih =>
    obtain ⟨he, hrest⟩ := List.forall_mem_cons.mp hrest
    have hstep : ∃ plans', checkPlan codec entries.rows plans e = .ok plans' := by
      unfold checkPlan
      cases hinv : e.investment with
      | none => exact ⟨plans, rfl⟩
      | some p =>
        obtain ⟨t, intent⟩ := p
        by_cases hseen : t.plan.id ∈ plans
        · exact ⟨plans, by simp [hseen]⟩
        · obtain ⟨c, hc⟩ := h.plans e he t intent hinv
          have hcursor := (Plan.cursor_eq_ok _).mpr ⟨c, hc.toAt, rfl, rfl⟩
          exact ⟨t.plan.id :: plans, by simp [hseen, Plan.progress, hcursor]⟩
    obtain ⟨plans', hstep⟩ := hstep
    rw [List.foldlM_cons, hstep, ok_bind]
    exact ih hrest plans'

/-- The journal that `open` makes of records. -/
structure Opened (codec : Codec τ) (j : Journal τ) (records : List (Entry τ)) : Prop where
  file : j.file = frames codec 0 records
  entries : j.entries = replay records
  indexed : j.Indexed
  seq : j.seq = records.length
  bytes : j.bytes = j.file.length
  poisoned : j.poisoned = false

/-- Records and bounds determine the opened journal. -/
theorem Opened.unique {i j : Journal τ} {records : List (Entry τ)} (hi : Opened codec i records)
    (hj : Opened codec j records) (hcapacity : i.capacity = j.capacity)
    (hbytes : i.maxBytes = j.maxBytes) : i = j := by
  have hindex : (⟨i.signatures, i.reservations⟩ : Index) = ⟨j.signatures, j.reservations⟩ :=
    hi.indexed.unique (by rw [hi.entries, ← hj.entries]; exact hj.indexed)
  obtain ⟨hifile, hientries, -, hiseq, hibytes, hipoisoned⟩ := hi
  obtain ⟨hjfile, hjentries, -, hjseq, hjbytes, hjpoisoned⟩ := hj
  cases i
  cases j
  simp_all

/-- The record loop on a file of records. -/
theorem Written.scan_eq_ok {file torn : List UInt8} {records : List (Entry τ)}
    (h : Written codec file records torn) {capacity : ℕ} {s : Scan τ} :
    scan codec capacity file ⟨.empty, 0, 0⟩ = .ok s ↔ (replay records).rows.length ≤ capacity ∧
      s = ⟨replay records, records.length, (frames codec 0 records).length⟩ := by
  have hframes := @scan_frames _ codec capacity torn h.torn records ⟨.empty, 0, 0⟩ s h.bodies
    h.economic (Nat.zero_le _)
  rw [Nat.zero_add, Nat.zero_add, ← h.file] at hframes
  exact hframes

theorem Written.take_frames {file torn : List UInt8} {records : List (Entry τ)}
    (h : Written codec file records torn) :
    file.take (frames codec 0 records).length = frames codec 0 records := by
  rw [h.file, List.take_left]

/-- `open` on a file of records with sound entries succeeds if its bounds hold, and tells the
records. -/
theorem openJournal_eq_ok {file torn : List UInt8} {records : List (Entry τ)} {capacity maxBytes : ℕ}
    {j : Journal τ} (h : Written codec file records torn)
    (hsound : Sound codec.toCrates (replay records)) :
    openJournal codec capacity maxBytes file = .ok j ↔ InBounds capacity maxBytes ∧
      file.length ≤ maxBytes ∧ (replay records).rows.length ≤ capacity ∧
      j.capacity = capacity ∧ j.maxBytes = maxBytes ∧ Opened codec j records := by
  obtain ⟨plans, hplans⟩ := foldlM_checkPlan hsound (fun _ he => he) []
  obtain ⟨index, hindex, hdescribes⟩ := rebuild_describes hsound
  constructor
  · intro hopen
    obtain ⟨_, hbounds, hopen⟩ := bind_eq_ok.mp hopen
    obtain ⟨_, hsize, hopen⟩ := bind_eq_ok.mp hopen
    obtain ⟨s, hs, hopen⟩ := bind_eq_ok.mp hopen
    obtain ⟨hroom, rfl⟩ := h.scan_eq_ok.mp hs
    simp only [hplans, ok_bind, hindex, h.take_frames, Except.ok.injEq] at hopen
    subst hopen
    simp only [refuse_eq_ok, not_or, not_lt] at hbounds hsize
    exact ⟨⟨by omega, hbounds.2.1, hbounds.2.2.1, hbounds.2.2.2⟩, hsize, hroom, rfl, rfl, rfl, rfl,
      hdescribes, rfl, rfl, rfl⟩
  · rintro ⟨hbounds, hsize, hroom, rfl, rfl, hopened⟩
    obtain ⟨hpos, hcap, hmin, hmax⟩ := hbounds
    have hrefuse : ¬(j.capacity = 0 ∨ 4096 < j.capacity ∨ j.maxBytes < 4096 ∨
        64 * 1024 * 1024 < j.maxBytes) := by omega
    rw [openJournal, refuse_of_not hrefuse, ok_bind, refuse_of_not (not_lt.mpr hsize), ok_bind,
      h.scan_eq_ok.mpr ⟨hroom, rfl⟩, ok_bind]
    simp only [hplans, ok_bind, hindex, h.take_frames, Except.ok.injEq]
    exact Opened.unique ⟨rfl, rfl, hdescribes, rfl, rfl, rfl⟩ hopened rfl rfl

theorem exists_opened {records : List (Entry τ)} (hsound : Sound codec.toCrates (replay records))
    (capacity maxBytes : ℕ) :
    ∃ j, j.capacity = capacity ∧ j.maxBytes = maxBytes ∧ Opened codec j records := by
  obtain ⟨index, -, hdescribes⟩ := rebuild_describes hsound
  exact ⟨⟨frames codec 0 records, replay records, index.signatures, index.reservations,
    records.length, (frames codec 0 records).length, maxBytes, capacity, false⟩, rfl, rfl,
    rfl, rfl, hdescribes, rfl, rfl, rfl⟩

/-- A valid journal opens again from its file with the same bounds, and so does what was opened. -/
theorem Valid.reopens {j : Journal τ} {records : List (Entry τ)} {torn : List UInt8}
    (h : Valid codec j records torn) : ∃ j',
      openJournal codec j.capacity j.maxBytes j.file = .ok j' ∧ j'.entries = replay records ∧
      openJournal codec j.capacity j.maxBytes j'.file = .ok j' := by
  obtain ⟨j', hcapacity, hbytes, hopened⟩ := exists_opened h.sound_replay j.capacity j.maxBytes
  have hwritten : Written codec j'.file records [] :=
    ⟨by rw [hopened.file, List.append_nil], h.written.bodies, h.written.economic, torn_nil codec⟩
  have hsize : j'.file.length ≤ j.maxBytes := by
    have hfile := h.size
    rw [h.written.file, List.length_append] at hfile
    rw [hopened.file]
    omega
  exact ⟨j', (openJournal_eq_ok h.written h.sound_replay).mpr
      ⟨h.bounds, h.size, h.room, hcapacity, hbytes, hopened⟩, hopened.entries,
    (openJournal_eq_ok hwritten h.sound_replay).mpr
      ⟨h.bounds, hsize, h.room, hcapacity, hbytes, hopened⟩⟩

/-- An opened journal is valid. -/
theorem Opened.valid {j : Journal τ} {records : List (Entry τ)} {file torn : List UInt8}
    (h : Opened codec j records) (hbounds : InBounds j.capacity j.maxBytes)
    (hwritten : Written codec file records torn) (hsound : Sound codec.toCrates (replay records))
    (hsize : file.length ≤ j.maxBytes) (hroom : (replay records).rows.length ≤ j.capacity) :
    Valid codec j records [] where
  bounds := hbounds
  written := ⟨by rw [h.file, List.append_nil], hwritten.bodies, hwritten.economic, torn_nil codec⟩
  sound := h.entries ▸ hsound
  indexed := h.indexed
  ahead := ⟨[], .nil, h.entries.symm⟩
  size := by
    rw [hwritten.file, List.length_append] at hsize
    rw [h.file]
    omega
  room := hroom
  clean _ := ⟨rfl, h.entries.symm, h.seq, h.bytes⟩

/-! ## Calls -/

variable (codec) in
/-- The batch, if `append_batch` comes to write it. -/
def staged (j : Journal τ) (pending : List (Entry τ)) : List (Entry τ) :=
  if j.poisoned then []
  else
    match pending.foldlM (j.addRecord codec) (j.seq, []) with
    | .ok _ => pending
    | .error _ => []

variable (codec) in
/-- The records that a call comes to append. -/
def Call.handed : Call τ → Journal τ → List (Entry τ)
  | .insert pending _, j =>
    match j.admitBatch codec pending with
    | .ok () => j.staged codec pending
    | .error _ => []
  | .update updates _, j =>
    match j.reviseBatch updates with
    | .ok pending => j.staged codec pending
    | .error _ => []
  | .compact _, _ => []

/-- An insertion that is admitted and fits hands over its batch and appends it. -/
theorem insert_handed {j : Journal τ} {pending : List (Entry τ)} {seq : ℕ} {record : List UInt8}
    (hready : j.poisoned = false) (hadmitted : j.admitBatch codec pending = .ok ())
    (hfold : pending.foldlM (j.addRecord codec) (j.seq, []) = .ok (seq, record)) :
    (Call.insert pending .done).handed codec j = pending ∧
    j.insertBatch codec .done pending = (.ok (), pending.foldl index
      { j with file := j.file ++ record, bytes := j.bytes + record.length, seq := seq }) := by
  have hrun : ¬j.poisoned = true := by simp [hready]
  constructor
  · rw [Call.handed, hadmitted]
    dsimp only
    rw [staged, if_neg hrun, hfold]
  · rw [insertBatch, hadmitted]
    dsimp only
    rw [appendBatch, if_neg hrun, hfold]

/-- What a call can do: nothing, append its records, or leave a part of them in the file. -/
inductive Outcome (codec : Codec τ) (j : Journal τ) (handed : List (Entry τ)) :
    Answer Unit × Journal τ → Prop
  | refused (message : String) (hnone : handed = []) : Outcome codec j handed (.error message, j)
  | acknowledged (j' : Journal τ) (records : List (Entry τ)) (hvalid : Valid codec j' records [])
      (hready : j.poisoned = false) (hclean : j'.poisoned = false)
      (hentries : j'.entries = j.entries.insertAll handed)
      (hcapacity : j'.capacity = j.capacity) (hbytes : j'.maxBytes = j.maxBytes) :
      Outcome codec j handed (.ok (), j')
  | torn (message : String) (j' : Journal τ) (records : List (Entry τ)) (torn : List UInt8) (m : ℕ)
      (hm : m ≤ handed.length) (hvalid : Valid codec j' records torn) (hready : j.poisoned = false)
      (hpoisoned : j'.poisoned = true) (hentries : j'.entries = j.entries)
      (htold : replay records = j.entries.insertAll (handed.take m))
      (hcapacity : j'.capacity = j.capacity) (hbytes : j'.maxBytes = j.maxBytes) :
      Outcome codec j handed (.error message, j')

/-- The index changes touch the entries and the indexes only. -/
theorem foldl_index_frame (j : Journal τ) (pending : List (Entry τ)) :
    pending.foldl index j = { j with
      entries := j.entries.insertAll pending
      signatures := (pending.foldl index j).signatures
      reservations := (pending.foldl index j).reservations } := by
  induction pending generalizing j with
  | nil => rfl
  | cons e pending ih =>
    rw [List.foldl_cons, Table.insertAll_cons, ih]
    rfl

/-- The indexes follow a batch that may be appended. -/
theorem Indexed.foldl_index {crates : Crates} {j : Journal τ} {pending : List (Entry τ)}
    (hj : j.Indexed) (hsound : Sound crates j.entries) (h : AdmitsAll crates j.entries pending) :
    (pending.foldl Journal.index j).Indexed := by
  induction pending generalizing j with
  | nil => exact hj
  | cons e pending ih => exact ih (hj.index hsound h.1) (hsound.insert h.1) h.2

theorem AdmitsAll.economic {crates : Crates} {entries : Entries τ} {records : List (Entry τ)}
    (hsound : Sound crates entries) (h : AdmitsAll crates entries records) :
    ∀ e ∈ records, e.validateEconomicType crates = .ok () := by
  induction records generalizing entries with
  | nil => exact fun e he => absurd he List.not_mem_nil
  | cons e records ih =>
    refine List.forall_mem_cons.mpr ⟨?_, ih (hsound.insert h.1) h.2⟩
    exact (hsound.insert h.1).economic e (Table.mem_insert_self _ _)

/-- The records of a file and a part of a further batch. -/
theorem Written.append {file : List UInt8} {records more : List (Entry τ)} {torn : List UInt8}
    (h : Written codec file records []) (hbodies : Bodies codec records.length more)
    (heconomic : ∀ e ∈ more, e.validateEconomicType codec.toCrates = .ok ()) (htorn : Torn codec torn) :
    Written codec (file ++ (frames codec records.length more ++ torn)) (records ++ more) torn where
  file := by
    rw [h.file, List.append_nil, frames_append, Nat.zero_add, List.append_assoc]
  bodies := by
    rw [bodies_append, Nat.zero_add]
    exact ⟨h.bodies, hbodies⟩
  economic e he := (List.mem_append.mp he).elim (h.economic e) (heconomic e)
  torn := htorn

theorem bodies_take {seq : ℕ} {records : List (Entry τ)} (h : Bodies codec seq records) (m : ℕ) :
    Bodies codec seq (records.take m) := by
  rw [← List.take_append_drop m records, bodies_append] at h
  exact h.1

/-- Appending a batch that may be appended. -/
theorem appendBatch_outcome {j : Journal τ} {records : List (Entry τ)} {torn : List UInt8}
    (hj : Valid codec j records torn) {pending : List (Entry τ)}
    (happend : Appendable codec.toCrates j.entries pending)
    (hroom : (j.entries.insertAll pending).rows.length ≤ j.capacity) (io : Flush) :
    Outcome codec j (j.staged codec pending) (j.appendBatch codec io pending) := by
  unfold appendBatch staged
  by_cases hpoisoned : j.poisoned = true
  · rw [if_pos hpoisoned, if_pos hpoisoned]
    exact .refused _ rfl
  rw [if_neg hpoisoned, if_neg hpoisoned]
  have hready : j.poisoned = false := by simpa using hpoisoned
  obtain ⟨rfl, htold, hseq, hbytes⟩ := hj.clean hready
  cases hfold : pending.foldlM (j.addRecord codec) (j.seq, []) with
  | error message => exact .refused _ rfl
  | ok state =>
    obtain ⟨seq, record⟩ := state
    have hseqlt : j.seq < u64Size := by
      -- every record takes at least its header
      have hmin : ∀ (n : ℕ) (l : List (Entry τ)), l.length ≤ (frames codec n l).length := by
        intro n l
        induction l generalizing n with
        | nil => exact Nat.zero_le _
        | cons e l ih =>
          have := ih (n + 1)
          rw [frames, List.length_append, length_frame, List.length_cons]
          omega
      have hrecords := hmin 0 records
      have hfile := hj.size
      have hbound := hj.bounds.maxBytes_lt
      rw [hj.written.file, List.append_nil] at hfile
      omega
    have hsize : j.bytes + ([] : List UInt8).length ≤ j.maxBytes := by
      rw [hbytes]
      exact hj.size
    obtain ⟨-, hbodies, htotal, hstate⟩ := (foldlM_addRecord hseqlt hsize).mp hfold
    obtain ⟨rfl, rfl⟩ := Prod.mk.inj hstate
    rw [List.nil_append, hbytes] at htotal
    rw [hseq] at hbodies
    have hadmits := happend.admits
    have heconomic := hadmits.economic hj.sound
    have htake : ∀ m, replay (records ++ pending.take m) = j.entries.insertAll (pending.take m) := by
      intro m
      rw [replay, Table.insertAll_append, ← htold]
      rfl
    cases io with
    | done =>
      have hwritten := hj.written.append hbodies heconomic (torn_nil codec)
      rw [List.append_nil] at hwritten
      have hall : replay (records ++ pending) = j.entries.insertAll pending := by
        simpa using htake pending.length
      refine .acknowledged _ (records ++ pending) ?_ hready ?_ ?_ ?_ ?_ <;> rw [foldl_index_frame]
      · exact {
          bounds := hj.bounds
          written := by simpa only [List.nil_append, hseq] using hwritten
          sound := hadmits.sound hj.sound
          indexed := by
            have hindexed := Indexed.foldl_index (j := { j with
              file := j.file ++ ([] ++ frames codec j.seq pending)
              bytes := j.bytes + ([] ++ frames codec j.seq pending).length
              seq := j.seq + pending.length }) hj.indexed hj.sound hadmits
            rw [foldl_index_frame] at hindexed
            exact hindexed
          ahead := ⟨[], .nil, hall⟩
          size := by simpa only [List.nil_append, List.length_append] using htotal
          room := by rwa [hall]
          clean := fun _ => ⟨rfl, hall, by simp [hseq], by simp [hbytes]⟩ }
      · exact hready
    | torn message kept =>
      obtain ⟨m, torn, hm, htorn, hkept⟩ := take_frames codec hbodies kept
      refine .torn message _ (records ++ pending.take m) torn m hm ?_ hready rfl rfl (htake m) rfl rfl
      have hwritten := hj.written.append (bodies_take hbodies m)
        (fun e he => heconomic e (List.mem_of_mem_take he)) htorn
      have hfile : j.file ++ ([] ++ frames codec j.seq pending).take kept =
          j.file ++ (frames codec records.length (pending.take m) ++ torn) := by
        rw [List.nil_append, hseq, hkept]
      exact {
        bounds := hj.bounds
        written := by rw [hfile]; exact hwritten
        sound := hj.sound
        indexed := hj.indexed
        ahead := ⟨pending.take m, happend.take m, htake m⟩
        size := by
          have := List.length_take_le' kept ([] ++ frames codec j.seq pending)
          simp only [List.nil_append, List.length_append] at this ⊢
          omega
        room := by
          rw [htake]
          have hmono := (j.entries.insertAll (pending.take m)).length_le_insertAll (pending.drop m)
          rw [← Table.insertAll_append, List.take_append_drop] at hmono
          exact hmono.trans hroom
        clean := fun h => by cases h }

/-- Compaction writes the entries as records. -/
theorem compact_outcome {j : Journal τ} {records : List (Entry τ)} {torn : List UInt8}
    (hj : Valid codec j records torn) (io : Swap) :
    Outcome codec j [] ((j.compact codec io).1.map fun _ => (), (j.compact codec io).2) := by
  unfold compact
  by_cases hpoisoned : j.poisoned = true
  · rw [if_pos hpoisoned]
    exact .refused _ rfl
  rw [if_neg hpoisoned]
  have hready : j.poisoned = false := by simpa using hpoisoned
  obtain ⟨rfl, htold, hseq, hbytes⟩ := hj.clean hready
  cases hfold : j.entries.rows.foldlM (j.addCompacted codec) (0, []) with
  | error message => cases io <;> exact .refused _ rfl
  | ok state =>
    obtain ⟨-, hbodies, hsize, rfl⟩ := (foldlM_addCompacted hj.bounds.maxBytes_lt).mp hfold
    have hreplay : replay j.entries.rows = j.entries := j.entries.insertAll_rows
    have hroom : j.entries.rows.length ≤ j.capacity := by
      rw [← htold]
      exact hj.room
    have hwritten : Written codec (frames codec 0 j.entries.rows) j.entries.rows [] :=
      ⟨(List.append_nil _).symm, hbodies, hj.sound.economic, torn_nil codec⟩
    have hvalid : Valid codec { j with
        file := frames codec 0 j.entries.rows
        bytes := (frames codec 0 j.entries.rows).length
        seq := j.entries.rows.length } j.entries.rows [] :=
      ⟨hj.bounds, hwritten, hj.sound, hj.indexed, ⟨[], .nil, hreplay⟩, hsize,
        by rw [hreplay]; exact hroom, fun _ => ⟨rfl, hreplay, rfl, rfl⟩⟩
    cases io with
    | done => exact .acknowledged _ _ hvalid hready hready rfl rfl rfl
    | unwritten message => exact .refused _ rfl
    | torn message renamed =>
      cases renamed with
      | true =>
        refine .torn message _ j.entries.rows [] 0 le_rfl ?_ hready rfl rfl hreplay rfl rfl
        exact ⟨hj.bounds, hwritten, hj.sound, hj.indexed, ⟨[], .nil, hreplay⟩, hsize,
          by rw [hreplay]; exact hroom, fun h => by cases h⟩
      | false =>
        refine .torn message _ records [] 0 le_rfl ?_ hready rfl rfl htold rfl rfl
        exact ⟨hj.bounds, hj.written, hj.sound, hj.indexed, ⟨[], .nil, htold⟩, hj.size, hj.room,
          fun h => by cases h⟩

/-- The records that a call comes to append may be appended. -/
theorem Call.appendable {j : Journal τ} (hj : j.Indexed) (call : Call τ) :
    Appendable codec.toCrates j.entries (call.handed codec j) := by
  have hstaged : ∀ pending, Appendable codec.toCrates j.entries pending →
      Appendable codec.toCrates j.entries (j.staged codec pending) := by
    intro pending h
    unfold staged
    split
    · exact .nil
    · split
      · exact h
      · exact .nil
  cases call with
  | insert pending io =>
    cases hgranted : j.admitBatch codec pending with
    | error message => simpa only [Call.handed, hgranted] using .nil
    | ok u => simpa only [Call.handed, hgranted] using hstaged _ (admitBatch_admits hj hgranted).1
  | update updates io =>
    cases hrevise : j.reviseBatch updates with
    | error message => simpa only [Call.handed, hrevise] using .nil
    | ok pending =>
      simpa only [Call.handed, hrevise] using hstaged _ (reviseBatch_admits hrevise _).1
  | compact io => exact .nil

/-- What a call does to a valid journal. -/
theorem Call.outcome {j : Journal τ} {records : List (Entry τ)} {torn : List UInt8}
    (hj : Valid codec j records torn) (call : Call τ) :
    Outcome codec j (call.handed codec j) (call.run codec j) := by
  cases call with
  | insert pending io =>
    cases hgranted : j.admitBatch codec pending with
    | error message =>
      simp only [Call.handed, Call.run, insertBatch, hgranted]
      exact .refused _ rfl
    | ok u =>
      simp only [Call.handed, Call.run, insertBatch, hgranted]
      obtain ⟨happend, hroom⟩ := admitBatch_admits hj.indexed hgranted
      exact appendBatch_outcome hj happend ((j.entries.length_insertAll_le pending).trans hroom) io
  | update updates io =>
    cases hrevise : j.reviseBatch updates with
    | error message =>
      simp only [Call.handed, Call.run, updateBatch, hrevise]
      exact .refused _ rfl
    | ok pending =>
      simp only [Call.handed, Call.run, updateBatch, hrevise]
      obtain ⟨happend, hlength⟩ := reviseBatch_admits hrevise codec.toCrates
      have hroom : j.entries.rows.length ≤ j.capacity := by
        obtain ⟨more, -, heq⟩ := hj.ahead
        have hmono := j.entries.length_le_insertAll more
        rw [← heq] at hmono
        exact hmono.trans hj.room
      exact appendBatch_outcome hj happend (hlength.trans_le hroom) io
  | compact io => exact compact_outcome hj io

end StockMesh.Journal

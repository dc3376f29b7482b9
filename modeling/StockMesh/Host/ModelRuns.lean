import StockMesh.Host.ModelJson

/-! # Runs of the model store

A store is opened, saves, and is closed, dies in a save or loses the power, in any order and any number of
times. Whatever comes before, an open reads the snapshot of the last acknowledged save or of a later one that
was attempted, and what is read or acknowledged has one snapshot for each generation (`ModelRun.inv`). -/

namespace StockMesh.Host

/-- What a run shows. -/
inductive ModelEvent
  /-- An open has read the file. -/
  | read (state : Option ModelState)
  /-- A save has been acknowledged. -/
  | saved (state : ModelState)
  /-- A save has not been acknowledged. -/
  | attempted (state : ModelState)

/-- A store, or its file between two stores. -/
inductive ModelSystem
  | up (store : ModelStore) (file : ModelFile)
  | down (file : ModelFile)

/-- The runs from a missing file, with their events, the last one first. -/
inductive ModelRun (codec : ModelCodec) (maxBytes : ℕ) : List ModelEvent → ModelSystem → Prop
  | start : ModelRun codec maxBytes [] (.down (.settled none))
  | opened {t : List ModelEvent} {file : ModelFile} (h : ModelRun codec maxBytes t (.down file))
      (io : ModelCodec.OpenIo) (store : ModelStore) (state : Option ModelState) (file' : ModelFile)
      (hopen : codec.openStore io maxBytes file = (.ok (store, state), file')) :
      ModelRun codec maxBytes (.read state :: t) (.up store file')
  | refused {t : List ModelEvent} {file : ModelFile} (h : ModelRun codec maxBytes t (.down file))
      (io : ModelCodec.OpenIo) (e : String) (file' : ModelFile)
      (hopen : codec.openStore io maxBytes file = (.error e, file')) :
      ModelRun codec maxBytes t (.down file')
  | saved {t : List ModelEvent} {store store' : ModelStore} {file file' : ModelFile}
      (h : ModelRun codec maxBytes t (.up store file)) (io : ModelCodec.SaveIo) (fair : Fair.Watermarks)
      (cost : CostState) (s : ModelState)
      (hsave : codec.save io fair cost store file = (.ok s, store', file')) :
      ModelRun codec maxBytes (.saved s :: t) (.up store' file')
  | failed {t : List ModelEvent} {store store' : ModelStore} {file file' : ModelFile}
      (h : ModelRun codec maxBytes t (.up store file)) (io : ModelCodec.SaveIo) (fair : Fair.Watermarks)
      (cost : CostState) (e : String)
      (hsave : codec.save io fair cost store file = (.error e, store', file')) :
      ModelRun codec maxBytes (.attempted ⟨store.generation + 1, fair, cost⟩ :: t) (.up store' file')
  /-- The process dies in a save, at any of its steps. -/
  | died {t : List ModelEvent} {store : ModelStore} {file : ModelFile}
      (h : ModelRun codec maxBytes t (.up store file)) (io : ModelCodec.SaveIo) (fair : Fair.Watermarks)
      (cost : CostState) :
      ModelRun codec maxBytes (.attempted ⟨store.generation + 1, fair, cost⟩ :: t)
        (.down (codec.save io fair cost store file).2.2)
  | closed {t : List ModelEvent} {store : ModelStore} {file : ModelFile}
      (h : ModelRun codec maxBytes t (.up store file)) : ModelRun codec maxBytes t (.down file)
  /-- The power fails. -/
  | crashed {t : List ModelEvent} {file : ModelFile} (h : ModelRun codec maxBytes t (.down file))
      (shown : Option (List UInt8)) (hshown : shown ∈ file.left) :
      ModelRun codec maxBytes t (.down (.settled shown))

/-! ## What the events tell -/

/-- The generation of a reading. -/
def readGeneration (state : Option ModelState) : ℕ := state.elim 0 ModelState.generation

/-- What may be read after a run: the last acknowledged save or a later one that was attempted. -/
def Readable : List ModelEvent → Option ModelState → Prop
  | [], state => state = none
  | .read _ :: t, state => Readable t state
  | .saved s :: _, state => state = some s
  | .attempted s :: t, state => state = some s ∨ Readable t state

/-- A snapshot that was read or acknowledged. -/
def Known (t : List ModelEvent) (s : ModelState) : Prop := .read (some s) ∈ t ∨ .saved s ∈ t

/-- The generations that were read, the last one first. -/
def generationsRead : List ModelEvent → List ℕ
  | [] => []
  | .read state :: t => readGeneration state :: generationsRead t
  | .saved _ :: t => generationsRead t
  | .attempted _ :: t => generationsRead t

/-- The generation that was read or acknowledged last. -/
def topGeneration : List ModelEvent → ℕ
  | [] => 0
  | .read state :: _ => readGeneration state
  | .saved s :: _ => s.generation
  | .attempted _ :: t => topGeneration t

/-- Readings do not go back, and what is known has one snapshot for each generation. -/
structure Orderly (t : List ModelEvent) : Prop where
  reads : (generationsRead t).Pairwise (· ≥ ·)
  unique : ∀ s s', Known t s → Known t s' → s.generation = s'.generation → s = s'

variable {codec : ModelCodec} {maxBytes : ℕ} {t : List ModelEvent}

/-- An open reads a snapshot from a file, or finds none. -/
def Holds (codec : ModelCodec) (maxBytes : ℕ) (shown : Option (List UInt8)) : Option ModelState → Prop
  | none => shown = none
  | some s => shown = some (codec.frame s) ∧ (codec.frame s).length ≤ maxBytes ∧ 0 < s.generation

/-- The file may be read after the run, and no later than anything known. -/
structure Survives (codec : ModelCodec) (maxBytes : ℕ) (t : List ModelEvent) (shown : Option (List UInt8))
    (state : Option ModelState) : Prop where
  holds : Holds codec maxBytes shown state
  readable : Readable t state
  top_le : topGeneration t ≤ readGeneration state
  known : ∀ s, Known t s → s.generation = readGeneration state → state = some s

/-- What holds of every run. -/
structure ModelInv (codec : ModelCodec) (maxBytes : ℕ) (t : List ModelEvent) (file : ModelFile) : Prop where
  orderly : Orderly t
  known_le : ∀ s, Known t s → s.generation ≤ topGeneration t
  reads_le : ∀ g ∈ generationsRead t, g ≤ topGeneration t
  kept : ∀ shown ∈ file.left, ∃ state, Survives codec maxBytes t shown state

/-- A store knows the generation that was read or acknowledged last. -/
structure UpInv (maxBytes : ℕ) (t : List ModelEvent) (store : ModelStore) : Prop where
  generation : store.generation = topGeneration t
  size : store.maxBytes = maxBytes
  bounds : ¬ModelOutOfBounds maxBytes

theorem ModelInv.start : ModelInv codec maxBytes [] (.settled none) where
  orderly := ⟨.nil, fun s _ hs => by rcases hs with h | h <;> cases h⟩
  known_le := fun s hs => by rcases hs with h | h <;> cases h
  reads_le := fun g hg => by cases hg
  kept := by
    intro shown hshown
    obtain rfl := Directory.mem_left_settled.mp hshown
    exact ⟨none, rfl, rfl, le_rfl, fun s hs => by rcases hs with h | h <;> cases h⟩

/-- An open of a file that may be read reads it, unless it is refused. -/
theorem openStore_eq {io : ModelCodec.OpenIo} {file : ModelFile} {state : Option ModelState}
    (hholds : Holds codec maxBytes file.shown state) :
    (∃ e, codec.openStore io maxBytes file = (.error e, file) ∧ (ModelOutOfBounds maxBytes ∨ io ≠ .done)) ∨
      (∃ e, codec.openStore io maxBytes file = (.error e, file.sync) ∧ io ≠ .done) ∨
      ¬ModelOutOfBounds maxBytes ∧
        codec.openStore io maxBytes file = (.ok (⟨readGeneration state, maxBytes⟩, state), file.sync) := by
  by_cases hbound : ModelOutOfBounds maxBytes
  · exact .inl ⟨_, if_pos hbound, .inl hbound⟩
  unfold ModelCodec.openStore
  rw [if_neg hbound]
  cases state with
  | none =>
    rw [show file.shown = none from hholds]
    cases io with
    | locked message => exact .inl ⟨message, rfl, .inr (by simp)⟩
    | done => exact .inr (.inr ⟨hbound, rfl⟩)
    | unread message => exact .inr (.inr ⟨hbound, rfl⟩)
  | some s =>
    obtain ⟨hshown, hfits, hpos⟩ := hholds
    rw [hshown]
    cases io with
    | locked message => exact .inl ⟨message, rfl, .inr (by simp)⟩
    | unread message => exact .inr (.inl ⟨message, rfl, by simp⟩)
    | done =>
      dsimp only
      rw [ModelCodec.read_frame hbound hfits hpos]
      exact .inr (.inr ⟨hbound, rfl⟩)

/-- Where a save leaves the file. -/
theorem save_cases (io : ModelCodec.SaveIo) (fair : Fair.Watermarks) (cost : CostState) (store : ModelStore)
    (file : ModelFile) :
    (∃ e, codec.save io fair cost store file = (.error e, store, file)) ∨
      (codec.frame ⟨store.generation + 1, fair, cost⟩).length ≤ store.maxBytes ∧
        ((∃ e, codec.save io fair cost store file =
            (.error e, store, file.rename (some (codec.frame ⟨store.generation + 1, fair, cost⟩)))) ∨
          codec.save io fair cost store file =
            (.ok ⟨store.generation + 1, fair, cost⟩, { store with generation := store.generation + 1 },
              (file.rename (some (codec.frame ⟨store.generation + 1, fair, cost⟩))).sync)) := by
  unfold ModelCodec.save
  dsimp only
  split
  · exact .inl ⟨_, rfl⟩
  split
  · exact .inl ⟨_, rfl⟩
  rename_i hfits
  have hlength := @ModelCodec.length_frame codec ⟨store.generation + 1, fair, cost⟩
  cases io with
  | unwritten message => exact .inl ⟨message, rfl⟩
  | unsynced message => exact .inr ⟨by omega, .inl ⟨message, rfl⟩⟩
  | done => exact .inr ⟨by omega, .inr rfl⟩

/-! ## Steps -/

variable {file : ModelFile} {store : ModelStore}

/-- A crash leaves one of the files that it may leave. -/
theorem ModelInv.settle (h : ModelInv codec maxBytes t file) {shown : Option (List UInt8)}
    (hshown : shown ∈ file.left) : ModelInv codec maxBytes t (.settled shown) where
  orderly := h.orderly
  known_le := h.known_le
  reads_le := h.reads_le
  kept := by
    intro other hother
    obtain rfl := Directory.mem_left_settled.mp hother
    exact h.kept _ hshown

theorem known_read {state : Option ModelState} {s : ModelState} :
    Known (.read state :: t) s ↔ state = some s ∨ Known t s := by
  simp only [Known, List.mem_cons, ModelEvent.read.injEq, reduceCtorEq, false_or, eq_comm (a := some s)]
  tauto

theorem known_saved {s s' : ModelState} : Known (.saved s' :: t) s ↔ s' = s ∨ Known t s := by
  simp only [Known, List.mem_cons, ModelEvent.saved.injEq, reduceCtorEq, false_or, eq_comm (a := s)]
  tauto

theorem known_attempted {s s' : ModelState} : Known (.attempted s' :: t) s ↔ Known t s := by
  simp only [Known, List.mem_cons, reduceCtorEq, false_or]

/-- A reading of the file is no earlier than what is known. -/
theorem ModelInv.read (h : ModelInv codec maxBytes t file) {state : Option ModelState}
    (hkept : Survives codec maxBytes t file.shown state) :
    ModelInv codec maxBytes (.read state :: t) file.sync where
  orderly := by
    refine ⟨?_, ?_⟩
    · exact List.pairwise_cons.mpr ⟨fun g hg => (h.reads_le g hg).trans hkept.top_le, h.orderly.reads⟩
    · intro s s' hs hs' heq
      rw [known_read] at hs hs'
      rcases hs with hs | hs <;> rcases hs' with hs' | hs'
      · rw [hs] at hs'
        exact Option.some.inj hs'
      · have hsame := hkept.known s' hs' (by rw [← heq, hs]; rfl)
        rw [hs] at hsame
        exact Option.some.inj hsame
      · have hsame := hkept.known s hs (by rw [heq, hs']; rfl)
        rw [hs'] at hsame
        exact (Option.some.inj hsame).symm
      · exact h.orderly.unique s s' hs hs' heq
  known_le := by
    intro s hs
    rcases known_read.mp hs with rfl | hs
    · exact le_rfl
    · exact (h.known_le s hs).trans hkept.top_le
  reads_le := by
    intro g hg
    rcases List.mem_cons.mp hg with rfl | hg
    · exact le_rfl
    · exact (h.reads_le g hg).trans hkept.top_le
  kept := by
    intro shown hshown
    obtain rfl := Directory.mem_left_sync.mp hshown
    refine ⟨state, hkept.holds, hkept.readable, le_rfl, fun s hs heq => ?_⟩
    rcases known_read.mp hs with hs | hs
    · exact hs
    · exact hkept.known s hs heq

/-- The snapshot that a save writes is later than what is known. -/
theorem ModelInv.kept_next (h : ModelInv codec maxBytes t file) {s : ModelState}
    (hs : s.generation = topGeneration t + 1) (hfits : (codec.frame s).length ≤ maxBytes)
    {t' : List ModelEvent} (ht : t' = .attempted s :: t ∨ t' = .saved s :: t) :
    Survives codec maxBytes t' (some (codec.frame s)) (some s) where
  holds := ⟨rfl, hfits, by omega⟩
  readable := by
    rcases ht with rfl | rfl
    · exact .inl rfl
    · exact rfl
  top_le := by
    rcases ht with rfl | rfl
    · exact (Nat.le_succ _).trans (Nat.le_of_eq hs.symm)
    · exact le_rfl
  known := by
    intro s' hs' heq
    have heq : s'.generation = s.generation := heq
    have hnew : ¬Known t s' := fun hknown => by
      have hle := h.known_le s' hknown
      omega
    rcases ht with rfl | rfl
    · exact absurd (known_attempted.mp hs') hnew
    · rcases known_saved.mp hs' with rfl | hs'
      · rfl
      · exact absurd hs' hnew

/-- A save that is not acknowledged leaves the file or may be read. -/
theorem ModelInv.attempt (h : ModelInv codec maxBytes t file) {s : ModelState} {file' : ModelFile}
    (hs : s.generation = topGeneration t + 1)
    (hfile : ∀ shown ∈ file'.left, shown ∈ file.left ∨
      shown = some (codec.frame s) ∧ (codec.frame s).length ≤ maxBytes) :
    ModelInv codec maxBytes (.attempted s :: t) file' where
  orderly := ⟨h.orderly.reads, fun a b ha hb => h.orderly.unique a b (known_attempted.mp ha)
    (known_attempted.mp hb)⟩
  known_le := fun a ha => h.known_le a (known_attempted.mp ha)
  reads_le := h.reads_le
  kept := by
    intro shown hshown
    rcases hfile shown hshown with hold | ⟨rfl, hfits⟩
    · obtain ⟨state, hkept⟩ := h.kept shown hold
      exact ⟨state, hkept.holds, .inr hkept.readable, hkept.top_le,
        fun a ha => hkept.known a (known_attempted.mp ha)⟩
    · exact ⟨some s, h.kept_next hs hfits (.inl rfl)⟩

/-- An acknowledged save is what a crash leaves. -/
theorem ModelInv.save (h : ModelInv codec maxBytes t file) {s : ModelState}
    (hs : s.generation = topGeneration t + 1) (hfits : (codec.frame s).length ≤ maxBytes) :
    ModelInv codec maxBytes (.saved s :: t) (.settled (some (codec.frame s))) where
  orderly := by
    refine ⟨h.orderly.reads, fun a b ha hb heq => ?_⟩
    rcases known_saved.mp ha with rfl | ha <;> rcases known_saved.mp hb with rfl | hb
    · rfl
    · have hle := h.known_le b hb
      omega
    · have hle := h.known_le a ha
      omega
    · exact h.orderly.unique a b ha hb heq
  known_le := by
    intro a ha
    have htop : topGeneration (.saved s :: t) = s.generation := rfl
    rcases known_saved.mp ha with rfl | ha
    · exact le_rfl
    · have hle := h.known_le a ha
      omega
  reads_le := by
    intro g hg
    have htop : topGeneration (.saved s :: t) = s.generation := rfl
    have hle := h.reads_le g hg
    omega
  kept := by
    intro shown hshown
    obtain rfl := Directory.mem_left_settled.mp hshown
    exact ⟨some s, h.kept_next hs hfits (.inr rfl)⟩

/-! ## Runs -/

/-- What holds of a system. -/
def SystemInv (codec : ModelCodec) (maxBytes : ℕ) (t : List ModelEvent) : ModelSystem → Prop
  | .down file => ModelInv codec maxBytes t file
  | .up store file => ModelInv codec maxBytes t file ∧ UpInv maxBytes t store

theorem ModelInv.sync (h : ModelInv codec maxBytes t file) : ModelInv codec maxBytes t file.sync :=
  h.settle file.shown_mem

/-- What a save leaves, if it is not acknowledged. -/
theorem ModelInv.unacknowledged (h : ModelInv codec maxBytes t file) (hup : UpInv maxBytes t store)
    (io : ModelCodec.SaveIo) (fair : Fair.Watermarks) (cost : CostState) :
    ModelInv codec maxBytes (.attempted ⟨store.generation + 1, fair, cost⟩ :: t)
      (codec.save io fair cost store file).2.2 := by
  refine h.attempt (congrArg (· + 1) hup.generation) fun shown hshown => ?_
  rcases @save_cases codec io fair cost store file with ⟨e, heq⟩ | ⟨hfits, ⟨e, heq⟩ | heq⟩
  · rw [heq] at hshown
    exact .inl hshown
  · rw [heq] at hshown
    rcases Directory.mem_left_rename.mp hshown with hold | hnew
    · exact .inl hold
    · exact .inr ⟨hnew, hfits.trans (Nat.le_of_eq hup.size)⟩
  · rw [heq] at hshown
    exact .inr ⟨Directory.mem_left_sync.mp hshown, hfits.trans (Nat.le_of_eq hup.size)⟩

theorem ModelRun.inv {system : ModelSystem} (h : ModelRun codec maxBytes t system) :
    SystemInv codec maxBytes t system := by
  induction h with
  | start => exact ModelInv.start
  | @opened t file h io store state file' hopen ih =>
    obtain ⟨state', hkept⟩ := ModelInv.kept ih file.shown file.shown_mem
    rcases @openStore_eq _ _ io _ _ hkept.holds with ⟨e, heq, -⟩ | ⟨e, heq, -⟩ | ⟨hbound, heq⟩
    · rw [heq] at hopen
      cases hopen
    · rw [heq] at hopen
      cases hopen
    · rw [heq] at hopen
      cases hopen
      exact ⟨ModelInv.read ih hkept, rfl, rfl, hbound⟩
  | @refused t file h io e file' hopen ih =>
    obtain ⟨state', hkept⟩ := ModelInv.kept ih file.shown file.shown_mem
    rcases @openStore_eq _ _ io _ _ hkept.holds with ⟨e, heq, -⟩ | ⟨e, heq, -⟩ | ⟨hbound, heq⟩
    · rw [heq] at hopen
      cases hopen
      exact ih
    · rw [heq] at hopen
      cases hopen
      exact ModelInv.sync ih
    · rw [heq] at hopen
      cases hopen
  | @saved t store store' file file' h io fair cost s hsave ih =>
    obtain ⟨hinv, hup⟩ := ih
    rcases @save_cases codec io fair cost store file with ⟨e, heq⟩ | ⟨hfits, ⟨e, heq⟩ | heq⟩
    · rw [heq] at hsave
      cases hsave
    · rw [heq] at hsave
      cases hsave
    · rw [heq] at hsave
      cases hsave
      exact ⟨hinv.save (congrArg (· + 1) hup.generation) (hfits.trans (Nat.le_of_eq hup.size)), rfl, hup.size,
        hup.bounds⟩
  | @failed t store store' file file' h io fair cost e hsave ih =>
    obtain ⟨hinv, hup⟩ := ih
    have hafter := hinv.unacknowledged hup io fair cost
    have hstore : store' = store := by
      rcases @save_cases codec io fair cost store file with ⟨e, heq⟩ | ⟨hfits, ⟨e, heq⟩ | heq⟩ <;>
        rw [heq] at hsave <;> cases hsave <;> rfl
    rw [hsave] at hafter
    rw [hstore]
    exact ⟨hafter, hup.generation, hup.size, hup.bounds⟩
  | died h io fair cost ih => exact ih.1.unacknowledged ih.2 io fair cost
  | closed h ih => exact ih.1
  | crashed h shown hshown ih => exact ModelInv.settle ih hshown

/-- In every run, readings do not go back, and what is read or acknowledged has one snapshot for each
generation. Between two stores an open with the same bound is refused by its input or output only, and reads
the last acknowledged save or a later one that was attempted. -/
theorem model_store_atomic {system : ModelSystem} (h : ModelRun codec maxBytes t system) :
    Orderly t ∧ ∀ file, system = .down file → ∀ io,
      (∀ e, (codec.openStore io maxBytes file).1 = .error e → ModelOutOfBounds maxBytes ∨ io ≠ .done) ∧
        ∀ store state, (codec.openStore io maxBytes file).1 = .ok (store, state) →
          Readable t state ∧ ∀ g ∈ generationsRead t, g ≤ readGeneration state := by
  have hinv := h.inv
  refine ⟨?_, ?_⟩
  · cases system with
    | up store file => exact hinv.1.orderly
    | down file => exact hinv.orderly
  · rintro file rfl io
    obtain ⟨state', hkept⟩ := ModelInv.kept hinv file.shown file.shown_mem
    rcases @openStore_eq _ _ io _ _ hkept.holds with ⟨e, heq, hrefused⟩ | ⟨e, heq, hrefused⟩ | ⟨hbound, heq⟩
    · rw [heq]
      exact ⟨fun _ _ => hrefused, fun store state hok => by cases hok⟩
    · rw [heq]
      exact ⟨fun _ _ => .inr hrefused, fun store state hok => by cases hok⟩
    · rw [heq]
      refine ⟨fun e he => (by cases he), fun store state hok => ?_⟩
      cases hok
      exact ⟨hkept.readable, fun g hg => (ModelInv.reads_le hinv g hg).trans hkept.top_le⟩

/-! ## A save that fails after the rename -/

/-- The first snapshot of a store, with an epoch of costs. -/
def exampleModel (epoch : ℕ) : ModelState := ⟨1, ⟨Key.ofNat 7, .empty, none⟩, ⟨epoch, .empty, []⟩⟩

/-- The file after the first save has failed to synchronise the directory. -/
def exampleUnsynced : ModelFile :=
  (Directory.settled none).sync.rename (some (modelCodec.frame (exampleModel 1)))

theorem length_exampleModel : ∀ epoch ∈ [1, 2], (modelCodec.encode (exampleModel epoch)).length + 16 ≤ 4096 := by
  decide +kernel

/-- An unsynchronised save, and a second one. -/
theorem example_runs :
    ModelRun modelCodec 4096 [.attempted (exampleModel 1), .read none] (.up ⟨0, 4096⟩ exampleUnsynced) ∧
      ModelRun modelCodec 4096 [.saved (exampleModel 2), .attempted (exampleModel 1), .read none]
        (.up ⟨1, 4096⟩ (exampleUnsynced.rename (some (modelCodec.frame (exampleModel 2)))).sync) := by
  have hfirst : modelCodec.save (.unsynced "I/O error") (exampleModel 1).fair (exampleModel 1).cost ⟨0, 4096⟩
      (Directory.settled none).sync = (.error "I/O error", ⟨0, 4096⟩, exampleUnsynced) := by
    have hfits : ¬4096 < (modelCodec.encode (exampleModel 1)).length + 16 :=
      Nat.not_lt.mpr (length_exampleModel 1 (by simp))
    unfold ModelCodec.save
    dsimp only
    rw [if_neg (by decide)]
    exact if_neg hfits
  have hsecond : modelCodec.save .done (exampleModel 2).fair (exampleModel 2).cost ⟨0, 4096⟩ exampleUnsynced =
      (.ok (exampleModel 2), ⟨1, 4096⟩,
        (exampleUnsynced.rename (some (modelCodec.frame (exampleModel 2)))).sync) := by
    have hfits : ¬4096 < (modelCodec.encode (exampleModel 2)).length + 16 :=
      Nat.not_lt.mpr (length_exampleModel 2 (by simp))
    unfold ModelCodec.save
    dsimp only
    rw [if_neg (by decide)]
    exact if_neg hfits
  have hopened : ModelRun modelCodec 4096 [.read none] (.up ⟨0, 4096⟩ (Directory.settled none).sync) :=
    ModelRun.start.opened .done ⟨0, 4096⟩ none _ rfl
  have hfailed := hopened.failed _ _ _ _ hfirst
  exact ⟨hfailed, hfailed.saved _ _ _ _ hsecond⟩

/-- What an open would read. -/
def Shows (codec : ModelCodec) (maxBytes : ℕ) (file : ModelFile) (s : ModelState) : Prop :=
  ∃ bytes, file.shown = some bytes ∧ codec.read maxBytes bytes = .ok s

/-- The run reads and acknowledges in order. -/
theorem model_store_atomic_example :
    Orderly [.saved (exampleModel 2), .attempted (exampleModel 1), .read none] :=
  (model_store_atomic example_runs.2).1

/-- The file shows one snapshot of the first generation after the failed save, and another one after the
next. -/
theorem model_generation_reused :
    ∃ t store file event store' file', ModelRun modelCodec 4096 t (.up store file) ∧
      ModelRun modelCodec 4096 (event :: t) (.up store' file') ∧
      Shows modelCodec 4096 file (exampleModel 1) ∧ Shows modelCodec 4096 file' (exampleModel 2) ∧
      (exampleModel 1).generation = (exampleModel 2).generation ∧ exampleModel 1 ≠ exampleModel 2 := by
  obtain ⟨hfailed, hsaved⟩ := example_runs
  have hreads : ∀ epoch ∈ [1, 2], modelCodec.read 4096 (modelCodec.frame (exampleModel epoch)) =
      .ok (exampleModel epoch) := by
    intro epoch hepoch
    refine ModelCodec.read_frame (by decide) ?_ Nat.one_pos
    rw [ModelCodec.length_frame]
    exact length_exampleModel epoch hepoch
  refine ⟨_, _, _, _, _, _, hfailed, hsaved, ⟨_, rfl, hreads 1 (by simp)⟩, ⟨_, rfl, hreads 2 (by simp)⟩, rfl, ?_⟩
  intro heq
  have hepoch : (exampleModel 1).cost.epoch = (exampleModel 2).cost.epoch := congrArg (·.cost.epoch) heq
  cases hepoch

end StockMesh.Host

import StockMesh.Foundation.Buffer
import StockMesh.Foundation.Renames
import StockMesh.Host.CostModel
import StockMesh.Host.Fair

/-! # The store of the model

The watermarks of fair bands and the model of route costs survive a restart in one file. A save writes the
file anew under another name, synchronises it, renames it over the old one and synchronises the directory;
an open reads what is there. -/

namespace StockMesh.Host

open Journal (refuse_eq_ok)

/-- A snapshot. -/
structure ModelState where
  generation : ℕ
  fair : Fair.Watermarks
  cost : CostState

/-- Functions of other crates on snapshots, which read back what they wrote. -/
structure ModelCodec where
  /-- `serde_json::to_vec`. -/
  encode : ModelState → List UInt8
  /-- `serde_json::from_slice`. -/
  decode : List UInt8 → Answer ModelState
  decode_encode : ∀ s, decode (encode s) = .ok s
  /-- `crc32fast::hash`. -/
  crc32 : List UInt8 → UInt32

/-- An open store. -/
structure ModelStore where
  generation : ℕ
  maxBytes : ℕ

/-- The file of a store, if there is one. -/
abbrev ModelFile : Type := Directory (Option (List UInt8))

/-- `SKWMODL1`. -/
def modelMagic : List UInt8 := [83, 75, 87, 77, 79, 68, 76, 49]

/-- The sizes of a store that `open` refuses. -/
def ModelOutOfBounds (maxBytes : ℕ) : Prop := ¬(4096 ≤ maxBytes ∧ maxBytes ≤ 4 * 1024 * 1024)

instance (maxBytes : ℕ) : Decidable (ModelOutOfBounds maxBytes) := inferInstanceAs (Decidable (¬_))

namespace ModelCodec

variable (codec : ModelCodec)

/-- The bytes of a file: magic, length, checksum and body. -/
def frame (s : ModelState) : List UInt8 :=
  modelMagic ++ Buffer.toBytes 4 (codec.encode s).length ++
    Buffer.toBytes 4 (codec.crc32 (codec.encode s)).toNat ++ codec.encode s

/-- `read`. -/
def read (maxBytes : ℕ) (bytes : List UInt8) : Answer ModelState := do
  refuse (bytes.length < 16 ∨ maxBytes < bytes.length) "model snapshot size"
  refuse (bytes.take 8 ≠ modelMagic) "model snapshot magic"
  let size := Buffer.ofBytes ((bytes.drop 8).take 4)
  let checksum := Buffer.ofBytes ((bytes.drop 12).take 4)
  refuse (size ≠ bytes.length - 16 ∨ (codec.crc32 (bytes.drop 16)).toNat ≠ checksum)
    "model snapshot corruption"
  let state ← codec.decode (bytes.drop 16)
  refuse (state.generation = 0) "model snapshot generation"
  .ok state

/-- Where an open ends. -/
inductive OpenIo
  | done
  /-- The lock is held, or the directory cannot be synchronised. -/
  | locked (message : String)
  /-- The file cannot be read. -/
  | unread (message : String)

/-- Where a save ends. -/
inductive SaveIo
  | done
  /-- The other file cannot be written, synchronised or renamed. -/
  | unwritten (message : String)
  /-- The directory cannot be synchronised. -/
  | unsynced (message : String)

/-- `ModelStore::open`. -/
def openStore (io : OpenIo) (maxBytes : ℕ) (file : ModelFile) :
    Answer (ModelStore × Option ModelState) × ModelFile :=
  if ModelOutOfBounds maxBytes then (.error "model store bounds", file)
  else match io, file.shown with
    | .locked message, _ => (.error message, file)
    | _, none => (.ok (⟨0, maxBytes⟩, none), file.sync)
    | .unread message, some _ => (.error message, file.sync)
    | .done, some bytes =>
      match codec.read maxBytes bytes with
      | .ok s => (.ok (⟨s.generation, maxBytes⟩, some s), file.sync)
      | .error e => (.error e, file.sync)

/-- `ModelStore::save`. -/
def save (io : SaveIo) (fair : Fair.Watermarks) (cost : CostState) (store : ModelStore) (file : ModelFile) :
    Answer ModelState × ModelStore × ModelFile :=
  let s : ModelState := ⟨store.generation + 1, fair, cost⟩
  if u64Size ≤ store.generation + 1 then (.error "model generation overflow", store, file)
  else if store.maxBytes < (codec.encode s).length + 16 then
    (.error "model snapshot disk budget", store, file)
  else match io with
    | .unwritten message => (.error message, store, file)
    | .unsynced message => (.error message, store, file.rename (some (codec.frame s)))
    | .done => (.ok s, { store with generation := s.generation }, (file.rename (some (codec.frame s))).sync)

/-! ## What is written is read -/

variable {codec} {s : ModelState} {maxBytes : ℕ}

theorem length_frame (s : ModelState) : (codec.frame s).length = (codec.encode s).length + 16 := by
  simp only [frame, modelMagic, List.length_append, List.length_cons, List.length_nil,
    Buffer.length_toBytes]
  omega

/-- A snapshot that fits is read back. -/
theorem read_frame (hbound : ¬ModelOutOfBounds maxBytes) (hfits : (codec.frame s).length ≤ maxBytes)
    (hgeneration : 0 < s.generation) : codec.read maxBytes (codec.frame s) = .ok s := by
  have hlength := @length_frame codec s
  have hlimit : maxBytes ≤ 4 * 1024 * 1024 := (not_not.mp hbound).2
  have hsize : Buffer.ofBytes (Buffer.toBytes 4 (codec.encode s).length) = (codec.encode s).length := by
    rw [Buffer.ofBytes_toBytes]
    exact Nat.mod_eq_of_lt (by omega)
  have hcrc : Buffer.ofBytes (Buffer.toBytes 4 (codec.crc32 (codec.encode s)).toNat) =
      (codec.crc32 (codec.encode s)).toNat := by
    rw [Buffer.ofBytes_toBytes]
    exact Nat.mod_eq_of_lt (codec.crc32 (codec.encode s)).toNat_lt
  have hmagic : (codec.frame s).take 8 = modelMagic := by
    simp [frame, modelMagic]
  have hlengthField : ((codec.frame s).drop 8).take 4 = Buffer.toBytes 4 (codec.encode s).length := by
    simp [frame, modelMagic]
  have hcrcField : ((codec.frame s).drop 12).take 4 =
      Buffer.toBytes 4 (codec.crc32 (codec.encode s)).toNat := by
    simp [frame, modelMagic]
  have hbody : (codec.frame s).drop 16 = codec.encode s := by
    simp [frame, modelMagic, List.drop_append]
  rw [read, refuse_of_not (by omega), ok_bind, refuse_of_not (not_not_intro hmagic), ok_bind]
  dsimp only
  rw [hlengthField, hcrcField, hbody, hsize, hcrc, refuse_of_not, ok_bind, codec.decode_encode, ok_bind,
    refuse_of_not (by omega)]
  · rfl
  · omega

end ModelCodec

end StockMesh.Host

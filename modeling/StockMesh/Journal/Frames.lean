import StockMesh.Journal.Records

/-! # The file of a journal

The file is a sequence of framed records, of which a crash may leave any prefix: some whole records and
a torn one (`take_frames`). The record loop of `open` reads back the whole records and stops at the torn
one (`scan_frames`). -/

namespace StockMesh.Journal

open Host (Answer refuse refuse_of_not bounded bounded_eq_ok)

variable {τ : Type} (codec : Codec τ)

/-- The frames of records numbered after `seq`. -/
def frames : ℕ → List (Entry τ) → List UInt8
  | _, [] => []
  | seq, e :: records => codec.frame (codec.encode (seq + 1) e) ++ frames (seq + 1) records

/-- The bodies of records numbered after `seq` are within the bound. -/
def Bodies : ℕ → List (Entry τ) → Prop
  | _, [] => True
  | seq, e :: records => (codec.encode (seq + 1) e).length ≤ maxRecord ∧ Bodies (seq + 1) records

/-- What is left of a frame that was not written whole. -/
def Torn (torn : List UInt8) : Prop :=
  ∃ body k, body.length ≤ maxRecord ∧ k < (codec.frame body).length ∧
    torn = (codec.frame body).take k

@[simp] theorem frames_nil (seq : ℕ) : frames codec seq [] = [] := rfl

theorem frames_append (seq : ℕ) (records more : List (Entry τ)) :
    frames codec seq (records ++ more) =
      frames codec seq records ++ frames codec (seq + records.length) more := by
  induction records generalizing seq with
  | nil => simp
  | cons e records ih =>
    have hseq : seq + 1 + records.length = seq + (records.length + 1) := by omega
    rw [List.cons_append, frames, frames, ih, List.append_assoc, hseq, List.length_cons]

theorem bodies_append {seq : ℕ} {records more : List (Entry τ)} :
    Bodies codec seq (records ++ more) ↔
      Bodies codec seq records ∧ Bodies codec (seq + records.length) more := by
  induction records generalizing seq with
  | nil => simp [Bodies]
  | cons e records ih =>
    have hseq : seq + 1 + records.length = seq + (records.length + 1) := by omega
    rw [List.cons_append, Bodies, Bodies, ih, hseq, List.length_cons, and_assoc]

theorem length_frame (body : List UInt8) : (codec.frame body).length = 8 + body.length := by
  simp only [Codec.frame, List.length_append, Buffer.length_toBytes]

theorem torn_nil : Torn codec [] :=
  ⟨[], 0, Nat.zero_le _, by rw [length_frame]; omega, rfl⟩

/-- A prefix of the file is whole records and a torn one. -/
theorem take_frames {seq : ℕ} {records : List (Entry τ)} (h : Bodies codec seq records) (k : ℕ) :
    ∃ m torn, m ≤ records.length ∧ Torn codec torn ∧
      (frames codec seq records).take k = frames codec seq (records.take m) ++ torn := by
  induction records generalizing seq k with
  | nil => exact ⟨0, [], le_rfl, torn_nil codec, by simp⟩
  | cons e records ih =>
    by_cases hk : k < (codec.frame (codec.encode (seq + 1) e)).length
    · refine ⟨0, _, Nat.zero_le _, ⟨_, k, h.1, hk, rfl⟩, ?_⟩
      rw [frames, List.take_append_of_le_length hk.le]
      rfl
    · obtain ⟨m, torn, hm, htorn, htake⟩ :=
        ih h.2 (k - (codec.frame (codec.encode (seq + 1) e)).length)
      refine ⟨m + 1, torn, Nat.succ_le_succ hm, htorn, ?_⟩
      rw [List.take_succ_cons, frames, frames, List.take_append, htake,
        List.take_of_length_le (by omega), List.append_assoc]

/-! ## Reading a frame -/

theorem take_four_frame (body rest : List UInt8) :
    (codec.frame body ++ rest).take 4 = Buffer.toBytes 4 body.length := by
  have hlen : (Buffer.toBytes 4 body.length).length = 4 := Buffer.length_toBytes _ _
  rw [Codec.frame, List.append_assoc, List.append_assoc, List.take_append_of_le_length hlen.ge,
    List.take_of_length_le hlen.le]

theorem checksum_frame (body rest : List UInt8) :
    ((codec.frame body ++ rest).drop 4).take 4 =
      Buffer.toBytes 4 (codec.crc32 body).toNat := by
  have hlen : (Buffer.toBytes 4 body.length).length = 4 := Buffer.length_toBytes _ _
  have hcrc : (Buffer.toBytes 4 (codec.crc32 body).toNat).length = 4 := Buffer.length_toBytes _ _
  rw [Codec.frame, List.append_assoc, List.append_assoc, List.drop_left' hlen,
    List.take_append_of_le_length hcrc.ge, List.take_of_length_le hcrc.le]

theorem drop_eight_frame (body rest : List UInt8) :
    (codec.frame body ++ rest).drop 8 = body ++ rest := by
  have hlen : (Buffer.toBytes 4 body.length ++
      Buffer.toBytes 4 (codec.crc32 body).toNat).length = 8 := by simp
  rw [Codec.frame, List.append_assoc, List.drop_left' hlen]

theorem ofBytes_length {body : List UInt8} (h : body.length ≤ maxRecord) :
    Buffer.ofBytes (Buffer.toBytes 4 body.length) = body.length := by
  rw [Buffer.ofBytes_toBytes, Nat.mod_eq_of_lt]
  unfold maxRecord at h
  omega

theorem ofBytes_crc (body : List UInt8) :
    Buffer.ofBytes (Buffer.toBytes 4 (codec.crc32 body).toNat) = (codec.crc32 body).toNat := by
  rw [Buffer.ofBytes_toBytes, Nat.mod_eq_of_lt]
  exact (codec.crc32 body).toNat_lt

/-- One whole record of the loop. -/
theorem scan_frame {capacity : ℕ} {s : Scan τ} {e : Entry τ} {rest : List UInt8}
    (hbody : (codec.encode (s.seq + 1) e).length ≤ maxRecord)
    (heconomic : e.validateEconomicType codec.toCrates = .ok ()) :
    scan codec capacity (codec.frame (codec.encode (s.seq + 1) e) ++ rest) s =
      (refuse (capacity < (s.entries.insert e).rows.length) "journal capacity" >>= fun _ =>
        scan codec capacity rest ⟨s.entries.insert e, s.seq + 1,
          s.offset + (codec.frame (codec.encode (s.seq + 1) e)).length⟩) := by
  have hlen := length_frame codec (codec.encode (s.seq + 1) e)
  have hdrop : (codec.frame (codec.encode (s.seq + 1) e) ++ rest).drop
      (8 + (codec.encode (s.seq + 1) e).length) = rest := List.drop_left' hlen
  have hlong : ¬(codec.frame (codec.encode (s.seq + 1) e) ++ rest).length < 8 := by
    rw [List.length_append]
    omega
  have hwhole : ¬(codec.frame (codec.encode (s.seq + 1) e) ++ rest).length - 8 <
      (codec.encode (s.seq + 1) e).length := by
    rw [List.length_append]
    omega
  rw [scan, dif_neg hlong]
  simp only [take_four_frame, checksum_frame, drop_eight_frame, ofBytes_length hbody, ofBytes_crc,
    List.take_left', codec.decode_encode, heconomic, hdrop, hlen, ok_bind, if_neg hwhole,
    refuse_of_not (not_lt.mpr hbody), ne_eq, not_true_eq_false]
  rfl

/-- The loop stops before a torn record. -/
theorem scan_torn {capacity : ℕ} {torn : List UInt8} (h : Torn codec torn) (s : Scan τ) :
    scan codec capacity torn s = .ok s := by
  obtain ⟨body, k, hbody, hk, rfl⟩ := h
  rw [scan]
  by_cases hshort : ((codec.frame body).take k).length < 8
  · rw [dif_pos hshort]
  -- the header is whole and asks for more bytes than there are
  have hk8 : 8 ≤ k := by
    rw [List.length_take] at hshort
    omega
  have hhead : ((codec.frame body).take k).take 4 = Buffer.toBytes 4 body.length := by
    rw [List.take_take, min_eq_left (by omega)]
    simpa using take_four_frame codec body []
  have hrest : ((codec.frame body).take k).length - 8 < body.length := by
    rw [List.length_take]
    rw [length_frame] at hk ⊢
    omega
  rw [dif_neg hshort]
  simp only [hhead, ofBytes_length hbody, refuse_of_not (not_lt.mpr hbody), ok_bind, if_pos hrest]

/-- The loop reads whole records and stops before a torn one, unless they are too many. -/
theorem scan_frames {capacity : ℕ} {torn : List UInt8} (htorn : Torn codec torn)
    {records : List (Entry τ)} {s s' : Scan τ} (hbodies : Bodies codec s.seq records)
    (heconomic : ∀ e ∈ records, e.validateEconomicType codec.toCrates = .ok ())
    (hroom : s.entries.rows.length ≤ capacity) :
    scan codec capacity (frames codec s.seq records ++ torn) s = .ok s' ↔
      (s.entries.insertAll records).rows.length ≤ capacity ∧
      s' = ⟨s.entries.insertAll records, s.seq + records.length,
        s.offset + (frames codec s.seq records).length⟩ := by
  induction records generalizing s with
  | nil =>
    rw [frames_nil, List.nil_append, scan_torn codec htorn s, Except.ok.injEq]
    exact ⟨fun h => ⟨hroom, h.symm⟩, fun h => h.2.symm⟩
  | cons e records ih =>
    obtain ⟨hhead, htail⟩ := List.forall_mem_cons.mp heconomic
    rw [frames, List.append_assoc, scan_frame codec hbodies.1 hhead]
    by_cases hfull : capacity < (s.entries.insert e).rows.length
    · -- the entries only become more
      have hmono := (s.entries.insert e).length_le_insertAll records
      rw [refuse, if_pos hfull, error_bind, Table.insertAll_cons]
      constructor
      · intro h
        cases h
      · rintro ⟨h, -⟩
        omega
    · have hrest := @ih ⟨s.entries.insert e, s.seq + 1,
        s.offset + (codec.frame (codec.encode (s.seq + 1) e)).length⟩ hbodies.2 htail
        (not_lt.mp hfull)
      have hseq : s.seq + 1 + records.length = s.seq + (records.length + 1) := by omega
      rw [refuse_of_not hfull, ok_bind, hrest, hseq, List.length_append, Nat.add_assoc,
        List.length_cons, Table.insertAll_cons]

end StockMesh.Journal

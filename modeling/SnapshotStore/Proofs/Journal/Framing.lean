import SnapshotStore.Journal.Framing
import SnapshotStore.Proofs.Wire
import Mathlib.Data.List.Perm.Subperm

/-! # Frames and what is left of them

The frame of a batch is read back whole, whatever follows it (`decode_frame`), so a segment that holds
the frames of some batches decodes to their records (`decode_frames`).  What a broken write leaves of a
frame (`Cut`) decodes to nothing, and counts as damaged unless nothing is left at all (`decode_cut`).

So frames that are cut off at a position decode to those that lie wholly before it
(`decode_take_frames`, `wholeWithin`). -/

namespace SnapshotStore
namespace Journal

/-- The frame of a batch. -/
def frame (records : List Record) : Bytes :=
  Wire.word 4 (payload records).length ++
    Wire.word 4 (Checksum.crc32 (payload records)).toNat ++ payload records

/-- Whether a batch can be written as one frame. -/
structure Fits (records : List Record) : Prop where
  short : (payload records).length < Wire.shortLimit
  numbers : ∀ r ∈ records, r.fits = true

/-- What is left of the frame of a batch that was not written to its end. -/
def Cut (bytes : Bytes) : Prop :=
  ∃ records, Fits records ∧ bytes <+: frame records ∧ bytes.length < (frame records).length

variable {records : List Record} {bytes : Bytes}

theorem encode_eq_ok_iff : encode records = .ok bytes ↔ Fits records ∧ bytes = frame records := by
  unfold encode
  dsimp only
  constructor
  · intro h
    split at h
    · cases h
    · next hshort =>
      split at h
      · next hall =>
        obtain rfl := Except.ok.inj h
        exact ⟨⟨Nat.lt_of_not_le hshort, List.all_eq_true.mp hall⟩, rfl⟩
      · cases h
  · rintro ⟨h, rfl⟩
    rw [if_neg (Nat.not_le_of_lt h.short), if_pos (List.all_eq_true.mpr h.numbers)]
    rfl

theorem Fits.encode_eq (h : Fits records) : encode records = .ok (frame records) :=
  encode_eq_ok_iff.mpr ⟨h, rfl⟩

theorem length_frame (records : List Record) :
    (frame records).length = frameHeaderSize + (payload records).length := by
  simp only [frame, List.length_append, Wire.length_word, frameHeaderSize]

theorem frame_pos (records : List Record) : 0 < (frame records).length := by
  rw [length_frame, frameHeaderSize]
  omega

/-- Batches that fit in frames and have no number in common are fewer than there are numbers. -/
theorem length_lt_of_fits {batches : List (List Record)} (hfilled : ∀ b ∈ batches, b ≠ [])
    (hfits : ∀ b ∈ batches, Fits b) (hnodup : (batches.flatten.map (·.lsn)).Nodup)
    (hpos : ∀ b ∈ batches, ∀ r ∈ b, 0 < r.lsn) : batches.length < Wire.wordLimit := by
  have hle : batches.length ≤ batches.flatten.length := by
    clear hfits hnodup hpos
    induction batches with
    | nil => exact Nat.le_refl _
    | cons b batches ih =>
        have hb := List.length_pos_iff.mpr (hfilled b (List.mem_cons_self ..))
        have hrest := ih fun d hd => hfilled d (List.mem_cons_of_mem _ hd)
        rw [List.length_cons, List.flatten_cons, List.length_append]
        omega
  have hsubset : batches.flatten.map (·.lsn) ⊆ List.range' 1 (Wire.wordLimit - 1) := by
    intro n hn
    obtain ⟨r, hr, rfl⟩ := List.mem_map.mp hn
    obtain ⟨b, hb, hr⟩ := List.mem_flatten.mp hr
    have hfit := (hfits b hb).numbers r hr
    have hr := hpos b hb r hr
    simp only [Record.fits, Bool.and_eq_true, decide_eq_true_eq] at hfit
    rw [List.mem_range'_1]
    omega
  have hcount := (hnodup.subperm hsubset).length_le
  rw [List.length_map, List.length_range'] at hcount
  have hpositive : 0 < Wire.wordLimit := by decide
  omega

/-! ### Intact frames -/

theorem Fits.sized (h : Fits records) : Wire.FitsList Record.Sized records := by
  have hlimit : Wire.shortLimit < Wire.wordLimit := by decide
  have hlong := Nat.lt_trans h.short hlimit
  refine ⟨Nat.lt_of_le_of_lt (Wire.length_items_le (fun r => ?_) records) hlong, fun r hr =>
    Record.sized_of_length_lt (h.numbers r hr) ?_⟩
  · simp only [Record.encode, List.length_append, Wire.length_word]
    omega
  · exact Nat.lt_of_le_of_lt (Wire.length_le_length_list hr) hlong

theorem Fits.reads_payload (h : Fits records) :
    (Wire.Reader.list Record.reader).Reads (payload records) records :=
  Wire.Reader.reads_list h.sized.1 fun r hr => Wire.Reader.reads_record (h.sized.2 r hr)

theorem value_take_frame (h : Fits records) (rest : Bytes) :
    Wire.value ((frame records ++ rest).take 4) = (payload records).length := by
  have htake : (frame records ++ rest).take 4 = Wire.word 4 (payload records).length := by
    rw [frame, List.append_assoc, List.append_assoc]
    exact List.take_left' (Wire.length_word ..)
  rw [htake]
  exact Wire.value_word (by rw [Wire.span_four]; exact h.short)

theorem takeFrame?_frame (h : Fits records) (rest : Bytes) :
    takeFrame? (frame records ++ rest) = some (records, rest) := by
  have hsum : Wire.value (((frame records ++ rest).drop 4).take 4) =
      (Checksum.crc32 (payload records)).toNat := by
    have htake : ((frame records ++ rest).drop 4).take 4 =
        Wire.word 4 (Checksum.crc32 (payload records)).toNat := by
      rw [frame, List.append_assoc, List.append_assoc, List.drop_left' (Wire.length_word ..)]
      exact List.take_left' (Wire.length_word ..)
    rw [htake]
    exact Wire.value_word (UInt32.toNat_lt _)
  have hdrop : (frame records ++ rest).drop frameHeaderSize = payload records ++ rest := by
    rw [frame, List.append_assoc]
    exact List.drop_left' (by simp only [List.length_append, Wire.length_word, frameHeaderSize])
  have hrun : (Wire.Reader.list Record.reader).run (payload records) = .ok (records, []) := by
    have := h.reads_payload []
    rwa [List.append_nil] at this
  unfold takeFrame?
  simp only [value_take_frame h, hsum, hdrop, List.take_left, List.drop_left, hrun]
  rw [if_neg (by rw [List.length_append, length_frame]; omega),
    if_neg (by rw [List.length_append]; omega), if_neg (by simp)]

theorem decode_nil : decode [] = ⟨[], 0, false⟩ := by
  rw [decode]
  rfl

/-- A frame is read back whole, and then what follows it. -/
theorem decode_frame (h : Fits records) (rest : Bytes) :
    decode (frame records ++ rest) = ⟨records ++ (decode rest).records,
      (decode rest).frames + 1, (decode rest).damaged⟩ := by
  have hne : (frame records ++ rest).isEmpty = false := by
    rw [List.isEmpty_eq_false_iff, ← List.length_pos_iff, List.length_append]
    have := frame_pos records
    omega
  rw [decode, hne, if_neg (by simp)]
  split
  · next hnone => simp [takeFrame?_frame h] at hnone
  · next hsome =>
    rw [takeFrame?_frame h] at hsome
    obtain ⟨rfl, rfl⟩ := Prod.mk.inj (Option.some.inj hsome)
    rfl

/-- Frames are read back one after the other, and then what follows them. -/
theorem decode_frames {batches : List (List Record)} (h : ∀ b ∈ batches, Fits b) (rest : Bytes) :
    decode (batches.flatMap frame ++ rest) = ⟨batches.flatten ++ (decode rest).records,
      (decode rest).frames + batches.length, (decode rest).damaged⟩ := by
  induction batches with
  | nil => rfl
  | cons b batches ih =>
      rw [List.flatMap_cons, List.append_assoc, decode_frame (h b (List.mem_cons_self ..)),
        ih fun d hd => h d (List.mem_cons_of_mem _ hd), List.flatten_cons, List.length_cons,
        List.append_assoc]
      rfl

/-! ### Cut frames -/

theorem cut_nil : Cut [] := ⟨[], ⟨by decide, by simp⟩, List.nil_prefix, frame_pos []⟩

theorem Cut.take (h : Fits records) {n : ℕ} (hn : n < (frame records).length) :
    Cut ((frame records).take n) := by
  refine ⟨records, h, List.take_prefix .., ?_⟩
  rw [List.length_take]
  omega

theorem Cut.takeFrame?_eq (h : Cut bytes) : takeFrame? bytes = none := by
  obtain ⟨records, hfits, ⟨rest, hrest⟩, hlength⟩ := h
  unfold takeFrame?
  dsimp only
  split
  · rfl
  · next hheader =>
    have hvalue : Wire.value (bytes.take 4) = (payload records).length := by
      have := value_take_frame hfits []
      rw [List.append_nil, ← hrest, List.take_append_of_le_length] at this
      · exact this
      · unfold frameHeaderSize at hheader
        omega
    rw [hvalue, if_pos]
    rw [length_frame] at hlength
    rw [List.length_drop]
    omega

/-- What is left of a frame decodes to nothing. -/
theorem decode_cut (h : Cut bytes) : decode bytes = ⟨[], 0, !bytes.isEmpty⟩ := by
  cases bytes with
  | nil => exact decode_nil
  | cons b bytes =>
      rw [decode, if_neg (by simp)]
      split
      · rfl
      · next hsome => simp [h.takeFrame?_eq] at hsome

/-! ### Frames cut off at a position -/

/-- The batches whose frames lie wholly within a number of bytes from the front. -/
def wholeWithin (n : ℕ) : List (List Record) → List (List Record)
  | [] => []
  | b :: batches =>
    if (frame b).length ≤ n then b :: wholeWithin (n - (frame b).length) batches else []

theorem isPrefix_wholeWithin (n : ℕ) (batches : List (List Record)) :
    wholeWithin n batches <+: batches := by
  induction batches generalizing n with
  | nil => exact List.prefix_refl _
  | cons b batches ih =>
      unfold wholeWithin
      split
      · exact (List.prefix_cons_inj b).mpr (ih _)
      · exact List.nil_prefix

theorem wholeWithin_sub_of_le {n m : ℕ} (h : n ≤ m) (batches : List (List Record)) :
    wholeWithin (n - m) batches = [] := by
  rw [Nat.sub_eq_zero_of_le h]
  cases batches with
  | nil => rfl
  | cons b batches => exact if_neg (Nat.not_le_of_lt (frame_pos b))

theorem wholeWithin_of_le {n : ℕ} {batches : List (List Record)}
    (h : (batches.flatMap frame).length ≤ n) : wholeWithin n batches = batches := by
  induction batches generalizing n with
  | nil => rfl
  | cons b batches ih =>
      rw [List.flatMap_cons, List.length_append] at h
      unfold wholeWithin
      rw [if_pos (by omega), ih (by omega)]

theorem wholeWithin_append (n : ℕ) (A B : List (List Record)) :
    wholeWithin n (A ++ B) =
      wholeWithin n A ++ wholeWithin (n - (A.flatMap frame).length) B := by
  induction A generalizing n with
  | nil => rfl
  | cons b A ih =>
      rw [List.cons_append, List.flatMap_cons, List.length_append, wholeWithin, wholeWithin]
      split
      · rw [ih, Nat.sub_sub, List.cons_append]
      · next hle =>
        rw [wholeWithin_sub_of_le (by omega), List.nil_append]

/-- Frames that are cut off at a position decode to the batches that lie wholly before it, and count as
damaged if that is not all that is left. -/
theorem decode_take_frames_eq {batches : List (List Record)} (h : ∀ b ∈ batches, Fits b) (n : ℕ) :
    decode ((batches.flatMap frame).take n) =
      ⟨(wholeWithin n batches).flatten, (wholeWithin n batches).length,
        decide ((wholeWithin n batches).flatMap frame ≠ (batches.flatMap frame).take n)⟩ := by
  induction batches generalizing n with
  | nil =>
      rw [List.flatMap_nil, List.take_nil, decode_nil]
      rfl
  | cons b batches ih =>
      obtain ⟨hb, hrest⟩ := List.forall_mem_cons.mp h
      unfold wholeWithin
      rw [List.flatMap_cons]
      split
      · next hle =>
        rw [List.take_append, List.take_of_length_le hle, decode_frame hb, ih hrest]
        simp only [List.flatten_cons, List.length_cons, List.flatMap_cons, ne_eq,
          List.append_right_inj]
      · next hlt =>
        rw [List.take_append_of_le_length (by omega), decode_cut (.take hb (by omega)), List.flatMap_nil]
        cases (frame b).take n with
        | nil => rfl
        | cons byte bytes => rfl

/-- Frames that are cut off at a position decode to the batches that lie wholly before it. -/
theorem decode_take_frames {batches : List (List Record)} (h : ∀ b ∈ batches, Fits b) (n : ℕ) :
    (decode ((batches.flatMap frame).take n)).records = (wholeWithin n batches).flatten := by
  rw [decode_take_frames_eq h]

end Journal
end SnapshotStore

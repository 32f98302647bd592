import SnapshotStore.Proofs.Checksum
import SnapshotStore.Proofs.Journal.Cutting

/-! # Short bursts of damage

Bytes are `Altered` between two positions if they differ there, and only there.  A segment in which at most
four consecutive bytes of the payload of one frame are altered, or bytes of its checksum, decodes to the
batches of the frames before it and counts as damaged, whatever the frames after it are
(`burst_detected`): the checksum does not match any more (`takeFrame?_of_mismatch`). -/

namespace SnapshotStore
namespace Journal

/-! ### Altered bytes -/

/-- The second bytes are as many as the first and are not the same, but they only differ at positions from
`low` on and below `high`. -/
structure Altered (low high : ℕ) (data data' : Bytes) : Prop where
  length : data'.length = data.length
  outside : ∀ k, k < low ∨ high ≤ k → data'[k]? = data[k]?
  ne : data' ≠ data

variable {low high : ℕ} {data data' before middle after : Bytes}

theorem Altered.take_eq (h : Altered low high data data') : data'.take low = data.take low := by
  refine List.ext_getElem? fun k => ?_
  rw [List.getElem?_take, List.getElem?_take]
  split
  · next hk => exact h.outside k (.inl hk)
  · rfl

theorem Altered.drop_eq (h : Altered low high data data') : data'.drop high = data.drop high := by
  refine List.ext_getElem? fun k => ?_
  rw [List.getElem?_drop, List.getElem?_drop]
  exact h.outside _ (.inr (Nat.le_add_right ..))

theorem Altered.mono (h : Altered low high data data') {low' high' : ℕ} (hlow : low' ≤ low)
    (hhigh : high ≤ high') : Altered low' high' data data' :=
  ⟨h.length, fun k hk => h.outside k (by omega), h.ne⟩

/-- Bytes that are altered in the middle. -/
theorem Altered.exists_middle (h : Altered low high (before ++ middle ++ after) data')
    (hlow : before.length ≤ low) (hhigh : high ≤ (before ++ middle).length) : ∃ middle',
      data' = before ++ middle' ++ after ∧
        Altered (low - before.length) (high - before.length) middle middle' := by
  have hwide := h.mono hlow hhigh
  have hbefore : data'.take before.length = before := by
    rw [hwide.take_eq, List.append_assoc, List.take_left]
  have hafter : data'.drop (before ++ middle).length = after := by
    rw [hwide.drop_eq, List.drop_left]
  have hsplit : data' = before ++ (data'.drop before.length).take middle.length ++ after := by
    rw [List.length_append, ← List.drop_drop] at hafter
    conv_lhs => rw [← List.take_append_drop before.length data', hbefore,
      ← List.take_append_drop middle.length (data'.drop before.length), hafter, ← List.append_assoc]
  refine ⟨_, hsplit, ?_, fun k hk => ?_, fun heq => h.ne (hsplit.trans (by rw [heq]))⟩
  · have hlength := h.length
    rw [hsplit] at hlength
    simpa using hlength
  · rw [List.getElem?_take, List.getElem?_drop]
    split
    · next hmiddle =>
      rw [h.outside _ (by omega), List.append_assoc, List.getElem?_append_right (Nat.le_add_right ..),
        Nat.add_sub_cancel_left, List.getElem?_append_left hmiddle]
    · next hmiddle => rw [List.getElem?_eq_none (Nat.le_of_not_lt hmiddle)]

theorem altered_append {burst burst' : Bytes} (hlength : burst'.length = burst.length)
    (hne : burst' ≠ burst) (before after : Bytes) :
    Altered before.length (before ++ burst).length (before ++ burst ++ after)
      (before ++ burst' ++ after) := by
  refine ⟨by simp [hlength], fun k hk => ?_, by simpa using hne⟩
  rcases hk with hk | hk
  · rw [List.append_assoc, List.append_assoc, List.getElem?_append_left hk,
      List.getElem?_append_left hk]
  · have hk' : (before ++ burst').length ≤ k := by
      rwa [List.length_append, hlength, ← List.length_append]
    rw [List.getElem?_append_right hk', List.getElem?_append_right hk, List.length_append,
      List.length_append, hlength]

theorem Altered.low_lt_high (h : Altered low high data data') : low < high := by
  by_contra hle
  exact h.ne (List.ext_getElem? fun k => h.outside k (by omega))

/-- Bytes of which a few consecutive ones are altered have another checksum. -/
theorem Altered.crc32_ne (h : Altered low high data data') (hfew : high ≤ low + 4)
    (hle : high ≤ data.length) : Checksum.crc32 data' ≠ Checksum.crc32 data := by
  have hlt := h.low_lt_high
  obtain ⟨before, burst, after, rfl, hlow, hhigh⟩ : ∃ before burst after,
      data = before ++ burst ++ after ∧ before.length = low ∧ (before ++ burst).length = high := by
    refine ⟨data.take low, (data.drop low).take (high - low), data.drop high, ?_, ?_, ?_⟩
    · rw [← List.take_add, Nat.add_sub_cancel' (Nat.le_of_lt hlt), List.take_append_drop]
    · rw [List.length_take, Nat.min_eq_left (by omega)]
    · rw [← List.take_add, Nat.add_sub_cancel' (Nat.le_of_lt hlt), List.length_take,
        Nat.min_eq_left hle]
  obtain ⟨burst', rfl, hburst⟩ := h.exists_middle (Nat.le_of_eq hlow) (Nat.le_of_eq hhigh.symm)
  have hshort : burst.length ≤ 4 := by
    rw [List.length_append] at hhigh
    omega
  exact Checksum.crc32_ne_of_burst hshort hburst.length hburst.ne before after

/-! ### Frames with a wrong checksum -/

variable {b : List Record}

/-- A frame is not taken if its checksum is not that of its payload. -/
theorem takeFrame?_of_mismatch {sum body : Bytes} (hsum : sum.length = 4)
    (hbody : body.length < Wire.shortLimit)
    (h : (Checksum.crc32 body).toNat ≠ Wire.value sum) (rest : Bytes) :
    takeFrame? (Wire.word 4 body.length ++ sum ++ body ++ rest) = none := by
  have hsize : Wire.value ((Wire.word 4 body.length ++ sum ++ body ++ rest).take 4) = body.length := by
    rw [List.append_assoc, List.append_assoc, List.take_left' (Wire.length_word ..)]
    exact Wire.value_word (by rwa [Wire.span_four])
  have hmiddle : ((Wire.word 4 body.length ++ sum ++ body ++ rest).drop 4).take 4 = sum := by
    rw [List.append_assoc, List.append_assoc, List.drop_left' (Wire.length_word ..),
      List.take_left' hsum]
  have hdrop : (Wire.word 4 body.length ++ sum ++ body ++ rest).drop frameHeaderSize = body ++ rest := by
    rw [List.append_assoc]
    exact List.drop_left' (by rw [List.length_append, Wire.length_word, hsum]; rfl)
  unfold takeFrame?
  simp only [hsize, hmiddle, hdrop, List.take_left]
  rw [if_pos h, ite_self, ite_self]

/-- The frame of a batch is not taken after a short burst in its payload, or in its checksum. -/
theorem Altered.takeFrame?_eq_none {bytes : Bytes} (h : Altered low high (frame b) bytes)
    (hfits : Fits b) (hplace : frameHeaderSize ≤ low ∧ high ≤ (frame b).length ∧ high ≤ low + 4 ∨
      4 ≤ low ∧ high ≤ frameHeaderSize) (rest : Bytes) : takeFrame? (bytes ++ rest) = none := by
  have hheader : (Wire.word 4 (payload b).length ++
      Wire.word 4 (Checksum.crc32 (payload b)).toNat).length = frameHeaderSize := by
    rw [List.length_append, Wire.length_word, Wire.length_word, frameHeaderSize]
  have hvalue : Wire.value (Wire.word 4 (Checksum.crc32 (payload b)).toNat) =
      (Checksum.crc32 (payload b)).toNat := Wire.value_word (UInt32.toNat_lt _)
  rw [frame] at h
  rcases hplace with ⟨hlow, hhigh, hfew⟩ | ⟨hlow, hhigh⟩
  · rw [length_frame] at hhigh
    rw [← List.append_nil (_ ++ payload b)] at h
    obtain ⟨body, rfl, hbody⟩ := h.exists_middle (by rw [hheader]; exact hlow)
      (by rw [List.length_append, hheader]; exact hhigh)
    have hne := hbody.crc32_ne (by omega) (by omega)
    rw [List.append_nil, ← hbody.length]
    refine takeFrame?_of_mismatch (Wire.length_word ..) (hbody.length ▸ hfits.short) ?_ rest
    rw [hvalue]
    exact fun heq => hne (UInt32.toNat_inj.mp heq)
  · obtain ⟨sum, rfl, hsum⟩ := h.exists_middle (by rw [Wire.length_word]; exact hlow)
      (by rw [hheader]; exact hhigh)
    have hlength : sum.length = 4 := by rw [hsum.length, Wire.length_word]
    refine takeFrame?_of_mismatch hlength hfits.short (fun heq => hsum.ne ?_) rest
    rw [heq, ← hlength, Wire.word_value]

/-! ### Segments -/

theorem decode_of_takeFrame?_eq_none (hne : data ≠ []) (h : takeFrame? data = none) :
    decode data = ⟨[], 0, true⟩ := by
  rw [decode, if_neg (by simpa using hne)]
  split
  · rfl
  · next hsome => simp [h] at hsome

/-- A short burst in one frame of a segment hides this frame and those after it, whatever they are, and
nothing else.

At most four consecutive bytes of the payload of the frame are altered, or bytes of its checksum, at one
place at least.  The segment then decodes to the batches before the frame, and counts as damaged. -/
theorem burst_detected {batches : List (List Record)} {frames : List Bytes}
    (hencode : List.Forall₂ (fun b f => encode b = .ok f) batches frames) {i : ℕ} {f : Bytes}
    (hi : frames[i]? = some f) {start : ℕ} (hstart : start = (frames.take i).flatten.length)
    (h : Altered low high frames.flatten data)
    (hplace : start + frameHeaderSize ≤ low ∧ high ≤ start + f.length ∧ high ≤ low + 4 ∨
      start + 4 ≤ low ∧ high ≤ start + frameHeaderSize) :
    decode data = ⟨(batches.take i).flatten, i, true⟩ := by
  obtain ⟨hfits, rfl⟩ := forall₂_encode_iff.mp hencode
  rw [List.getElem?_map, Option.map_eq_some_iff] at hi
  obtain ⟨b, hb, rfl⟩ := hi
  obtain ⟨hlt, hget⟩ := List.getElem?_eq_some_iff.mp hb
  have hsplit : batches = batches.take i ++ b :: batches.drop (i + 1) := by
    rw [← hget, List.getElem_cons_drop, List.take_append_drop]
  have hbefore : start = ((batches.take i).flatMap frame).length := by
    rw [hstart, ← List.map_take, List.flatMap_def]
  have hflat : (batches.map frame).flatten = (batches.take i).flatMap frame ++ frame b ++
      (batches.drop (i + 1)).flatMap frame := by
    rw [← List.flatMap_def]
    conv_lhs => rw [hsplit]
    rw [List.flatMap_append, List.flatMap_cons, List.append_assoc]
  have hheader : frameHeaderSize ≤ (frame b).length := by
    rw [length_frame]
    exact Nat.le_add_right ..
  rw [hflat] at h
  obtain ⟨bytes, rfl, hbytes⟩ := h.exists_middle (by omega) (by
    rw [List.length_append, ← hbefore]
    omega)
  have hnone := hbytes.takeFrame?_eq_none (hfits b (List.mem_of_getElem? hb)) (by omega)
    ((batches.drop (i + 1)).flatMap frame)
  have hfilled : bytes ++ (batches.drop (i + 1)).flatMap frame ≠ [] := by
    rw [← List.length_pos_iff, List.length_append, hbytes.length]
    have := frame_pos b
    omega
  rw [List.append_assoc, decode_frames (fun d hd => hfits d (List.mem_of_mem_take hd)),
    decode_of_takeFrame?_eq_none hfilled hnone, List.append_nil, List.length_take,
    Nat.min_eq_left (Nat.le_of_lt hlt), Nat.zero_add]

/-! ### Bursts in the middle one of three frames -/

/-- Three batches of two transactions. -/
def threeBatches : List (List Record) :=
  [[⟨1, 1, .set, ["κ", "→"]⟩], [⟨2, 1, .commit, []⟩, ⟨3, 2, .set, ["a", "b"]⟩], [⟨4, 2, .commit, []⟩]]

/-- Four bytes from a position on, each with its lowest bit flipped. -/
def flipFour (low : ℕ) (data : Bytes) : Bytes :=
  data.take low ++ ((data.drop low).take 4).map (· ^^^ 1) ++ data.drop (low + 4)

theorem altered_flipFour (hle : low + 4 ≤ data.length) :
    Altered low (low + 4) data (flipFour low data) := by
  have hburst : ((data.drop low).take 4).length = 4 := by
    rw [List.length_take, List.length_drop]
    omega
  have hne : ((data.drop low).take 4).map (· ^^^ 1) ≠ (data.drop low).take 4 := by
    obtain ⟨b, bytes, hbytes⟩ := List.exists_cons_of_length_eq_add_one hburst
    rw [hbytes, List.map_cons]
    intro h
    have hb : b ^^^ 1 = b ^^^ 0 := (List.cons.inj h).1.trans UInt8.xor_zero.symm
    exact absurd ((UInt8.xor_right_inj b).mp hb) (by decide)
  have haltered := altered_append (by rw [List.length_map]) hne (data.take low) (data.drop (low + 4))
  rw [List.append_assoc (data.take low) ((data.drop low).take 4), ← List.drop_drop,
    List.take_append_drop, List.take_append_drop, List.length_append, hburst, List.length_take,
    Nat.min_eq_left (by omega), List.drop_drop] at haltered
  exact haltered

/-- Four bytes of the payload, or the checksum: the first frame is left in both cases. -/
theorem burst_detected_sample : ∃ frames : List Bytes,
    List.Forall₂ (fun b f => encode b = .ok f) threeBatches frames ∧
    decode (flipFour 151 frames.flatten) = ⟨[⟨1, 1, .set, ["κ", "→"]⟩], 1, true⟩ ∧
    decode (flipFour 69 frames.flatten) = ⟨[⟨1, 1, .set, ["κ", "→"]⟩], 1, true⟩ := by
  have hfits : ∀ b ∈ threeBatches, Fits b := by
    have hall : ∀ b ∈ threeBatches,
        (payload b).length < Wire.shortLimit ∧ ∀ r ∈ b, r.fits = true := by
      decide +kernel
    exact fun b hb => ⟨(hall b hb).1, (hall b hb).2⟩
  have hencode := forall₂_encode_iff.mpr ⟨hfits, rfl⟩
  have hlengths : (threeBatches.map frame).map List.length = [65, 90, 44] := by decide +kernel
  have hlength : (threeBatches.map frame).flatten.length = 199 := by
    rw [List.length_flatten, hlengths]
    rfl
  have hstart : 65 = ((threeBatches.map frame).take 1).flatten.length := by
    rw [List.length_flatten, List.map_take, hlengths]
    rfl
  obtain ⟨f, hi, hf⟩ : ∃ f, (threeBatches.map frame)[1]? = some f ∧ f.length = 90 := by
    rw [← Option.map_eq_some_iff, ← List.getElem?_map, hlengths]
    rfl
  refine ⟨_, hencode, ?_, ?_⟩
  · exact burst_detected hencode hi hstart (altered_flipFour (by omega))
      (.inl ⟨by decide, by omega, by decide⟩)
  · exact burst_detected hencode hi hstart (altered_flipFour (by omega)) (.inr ⟨by decide, by decide⟩)

end Journal
end SnapshotStore

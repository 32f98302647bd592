import SnapshotStore.Frame
import Mathlib.Data.List.Basic

/-! # Reading frames off a stream

One frame is read off a stream exactly if the stream starts with the frame of a payload within the limit
(`read_eq_ok_iff`), and otherwise the reading ends there (`read_eq_error_iff`): the stream is too short for
a header, or declares too much, or is too short for what it declares (`Ends`).

So the payloads that are read off a stream are those of the frames that it starts with, up to the first
place where the reading ends, and what was written is read back (`frames_read_exactly`). -/

namespace SnapshotStore
namespace Frame

variable {limit size : ℕ} {stream payload frame rest : Bytes} {payloads : List Bytes} {fault : Fault}

/-- How the reading of frames ends: what the stream has where it ends, the error, and what is left of the
stream after it.

* Less than a header is used up.
* A header that declares more than the limit is used up alone.
* A header that declares more than there is is used up with all that follows. -/
inductive Ends (limit : ℕ) : Bytes → Fault → Bytes → Prop
  | short {stream : Bytes} (hshort : stream.length < headerSize) :
      Ends limit stream (.io .endOfData) []
  | oversized {size : ℕ} {rest : Bytes} (hsize : size < Wire.shortLimit) (hlimit : limit < size) :
      Ends limit (Wire.word headerSize size ++ rest) (.protocol ("Payload too large: " ++
        toString size ++ " bytes (max " ++ toString limit ++ ")")) rest
  | cut {size : ℕ} {rest : Bytes} (hsize : size < Wire.shortLimit) (hlimit : size ≤ limit)
      (hcut : rest.length < size) :
      Ends limit (Wire.word headerSize size ++ rest) (.io .endOfData) []

/-! ### One frame -/

theorem encode_eq_ok_iff : encode payload = .ok frame ↔
    payload.length < Wire.shortLimit ∧ frame = Wire.word headerSize payload.length ++ payload := by
  unfold encode
  split
  · next h => simp [h, eq_comm]
  · next h => simp [h]

theorem short_or_header (stream : Bytes) : stream.length < headerSize ∨
    ∃ size rest, size < Wire.shortLimit ∧ stream = Wire.word headerSize size ++ rest := by
  rcases Nat.lt_or_ge stream.length headerSize with hlt | hge
  · exact .inl hlt
  · have hlength : (stream.take headerSize).length = headerSize := List.length_take_of_le hge
    refine .inr ⟨Wire.value (stream.take headerSize), stream.drop headerSize, ?_, ?_⟩
    · have hlt := Wire.value_lt (stream.take headerSize)
      rwa [hlength] at hlt
    · conv_lhs => rw [← List.take_append_drop headerSize stream,
        ← Wire.word_value (stream.take headerSize), hlength]

theorem read_of_short (h : stream.length < headerSize) :
    read limit stream = (.error (.io .endOfData), []) := if_pos h

theorem read_header (h : size < Wire.shortLimit) (rest : Bytes) :
    read limit (Wire.word headerSize size ++ rest) =
      if limit < size then (.error (.protocol ("Payload too large: " ++ toString size ++
        " bytes (max " ++ toString limit ++ ")")), rest)
      else if rest.length < size then (.error (.io .endOfData), [])
      else (.ok (rest.take size), rest.drop size) := by
  have hvalue : Wire.value ((Wire.word headerSize size ++ rest).take headerSize) = size := by
    rw [List.take_left' (Wire.length_word ..)]
    exact Wire.value_word h
  unfold read
  dsimp only
  rw [if_neg (by rw [List.length_append, Wire.length_word]; omega), hvalue,
    List.drop_left' (Wire.length_word ..)]

/-- The reading ends exactly where there is no frame within the limit. -/
theorem read_eq_error_iff : read limit stream = (.error fault, rest) ↔ Ends limit stream fault rest := by
  constructor
  · intro h
    rcases short_or_header stream with hshort | ⟨size, after, hsize, rfl⟩
    · rw [read_of_short hshort] at h
      cases h
      exact .short hshort
    · rw [read_header hsize] at h
      split at h
      · next hlimit =>
        cases h
        exact .oversized hsize hlimit
      · next hlimit =>
        split at h
        · next hcut =>
          cases h
          exact .cut hsize (Nat.le_of_not_lt hlimit) hcut
        · cases h
  · intro h
    cases h with
    | short hshort => exact read_of_short hshort
    | oversized hsize hlimit => rw [read_header hsize, if_pos hlimit]
    | cut hsize hlimit hcut => rw [read_header hsize, if_neg (Nat.not_lt_of_le hlimit), if_pos hcut]

/-- A frame is read off a stream exactly if the stream starts with it. -/
theorem read_eq_ok_iff : read limit stream = (.ok payload, rest) ↔
    payload.length ≤ limit ∧ ∃ frame, encode payload = .ok frame ∧ stream = frame ++ rest := by
  constructor
  · intro h
    rcases short_or_header stream with hshort | ⟨size, after, hsize, rfl⟩
    · rw [read_of_short hshort] at h
      cases h
    · rw [read_header hsize] at h
      split at h
      · cases h
      · next hlimit =>
        split at h
        · cases h
        · next hcut =>
          cases h
          have hlength : (after.take size).length = size :=
            List.length_take_of_le (Nat.le_of_not_lt hcut)
          refine ⟨by omega, _, encode_eq_ok_iff.mpr ⟨by omega, rfl⟩, ?_⟩
          rw [hlength, List.append_assoc, List.take_append_drop]
  · rintro ⟨hlimit, frame, hframe, rfl⟩
    obtain ⟨hsize, rfl⟩ := encode_eq_ok_iff.mp hframe
    rw [List.append_assoc, read_header hsize, if_neg (Nat.not_lt_of_le hlimit),
      if_neg (by rw [List.length_append]; omega), List.take_left, List.drop_left]

/-! ### All frames -/

theorem encodeAll_nil : encodeAll [] = .ok [] := rfl

theorem encodeAll_cons_eq_ok_iff {written : Bytes} : encodeAll (payload :: payloads) = .ok written ↔
    ∃ frame more, encode payload = .ok frame ∧ encodeAll payloads = .ok more ∧
      written = frame ++ more := by
  unfold encodeAll
  rw [List.mapM_cons]
  cases encode payload with
  | error fault => simp [bind, Except.bind]
  | ok frame =>
      cases payloads.mapM encode with
      | error fault => simp [bind, Except.bind]
      | ok frames => simp [bind, Except.bind, pure, Except.pure, eq_comm]

theorem exists_encodeAll (h : ∀ p ∈ payloads, p.length < Wire.shortLimit) :
    ∃ written, encodeAll payloads = .ok written := by
  induction payloads with
  | nil => exact ⟨[], encodeAll_nil⟩
  | cons p payloads ih =>
      obtain ⟨hp, hrest⟩ := List.forall_mem_cons.mp h
      obtain ⟨more, hmore⟩ := ih hrest
      exact ⟨_, encodeAll_cons_eq_ok_iff.mpr ⟨_, more, encode_eq_ok_iff.mpr ⟨hp, rfl⟩, hmore, rfl⟩⟩

theorem readAll_of_error (h : read limit stream = (.error fault, rest)) :
    readAll limit stream = ⟨[], fault, rest⟩ := by
  rw [readAll]
  split
  · next h' =>
    rw [h] at h'
    cases h'
    rfl
  · next h' =>
    rw [h] at h'
    cases h'

theorem readAll_of_ok (h : read limit stream = (.ok payload, rest)) : readAll limit stream =
    ⟨payload :: (readAll limit rest).payloads, (readAll limit rest).fault,
      (readAll limit rest).rest⟩ := by
  rw [readAll]
  split
  · next h' =>
    rw [h] at h'
    cases h'
  · next h' =>
    rw [h] at h'
    cases h'
    rfl

/-- The payloads that are read off a stream are those of the frames that it starts with. -/
theorem readAll_eq_iff : readAll limit stream = ⟨payloads, fault, rest⟩ ↔
    (∀ p ∈ payloads, p.length ≤ limit) ∧ ∃ written left, encodeAll payloads = .ok written ∧
      stream = written ++ left ∧ Ends limit left fault rest := by
  induction payloads generalizing stream with
  | nil =>
      have hnil : readAll limit stream = ⟨[], fault, rest⟩ ↔
          read limit stream = (.error fault, rest) := by
        rcases hread : read limit stream with ⟨fault' | payload, after⟩
        · rw [readAll_of_error hread]
          simp
        · rw [readAll_of_ok hread]
          simp
      rw [hnil, read_eq_error_iff]
      constructor
      · exact fun h => ⟨by simp, [], stream, encodeAll_nil, rfl, h⟩
      · rintro ⟨-, written, left, hwritten, rfl, h⟩
        obtain rfl := Except.ok.inj hwritten
        exact h
  | cons p payloads ih =>
      have hcons : readAll limit stream = ⟨p :: payloads, fault, rest⟩ ↔
          ∃ mid, read limit stream = (.ok p, mid) ∧ readAll limit mid = ⟨payloads, fault, rest⟩ := by
        rcases hread : read limit stream with ⟨fault' | payload, after⟩
        · rw [readAll_of_error hread]
          simp
        · rw [readAll_of_ok hread]
          constructor
          · rintro ⟨⟩
            exact ⟨after, rfl, rfl⟩
          · rintro ⟨mid, ⟨⟩, hmid⟩
            rw [hmid]
      rw [hcons, List.forall_mem_cons]
      constructor
      · rintro ⟨mid, hread, hmid⟩
        obtain ⟨hp, frame, hframe, rfl⟩ := read_eq_ok_iff.mp hread
        obtain ⟨hall, written, left, hwritten, rfl, hends⟩ := ih.mp hmid
        exact ⟨⟨hp, hall⟩, _, left, encodeAll_cons_eq_ok_iff.mpr ⟨frame, written, hframe, hwritten, rfl⟩,
          (List.append_assoc ..).symm, hends⟩
      · rintro ⟨⟨hp, hall⟩, written, left, hwritten, rfl, hends⟩
        obtain ⟨frame, more, hframe, hmore, rfl⟩ := encodeAll_cons_eq_ok_iff.mp hwritten
        refine ⟨more ++ left, read_eq_ok_iff.mpr ⟨hp, frame, hframe, List.append_assoc ..⟩, ?_⟩
        exact ih.mpr ⟨hall, more, left, hmore, rfl, hends⟩

/-- Reading frames is exact on every stream.

* Up to the first error, the payloads that are read are within the limit, and the stream is made of their
  frames and then of what ends the reading; no other payloads, error or rest would do.
* Payloads within the limit that fit in frames are written and read back, and then the stream is at its
  end. -/
theorem frames_read_exactly (limit : ℕ) :
    (∀ stream payloads fault rest, readAll limit stream = ⟨payloads, fault, rest⟩ ↔
      (∀ p ∈ payloads, p.length ≤ limit) ∧ ∃ written left, encodeAll payloads = .ok written ∧
        stream = written ++ left ∧ Ends limit left fault rest) ∧
    ∀ payloads : List Bytes, (∀ p ∈ payloads, p.length ≤ limit ∧ p.length < Wire.shortLimit) →
      ∃ written, encodeAll payloads = .ok written ∧
        readAll limit written = ⟨payloads, .io .endOfData, []⟩ := by
  refine ⟨fun _ _ _ _ => readAll_eq_iff, fun payloads hpayloads => ?_⟩
  obtain ⟨written, hwritten⟩ := exists_encodeAll fun p hp => (hpayloads p hp).2
  exact ⟨written, hwritten, readAll_eq_iff.mpr ⟨fun p hp => (hpayloads p hp).1, written, [], hwritten,
    (List.append_nil written).symm, .short (by decide)⟩⟩

/-- An empty payload and one at the limit are read back, and a header that declares more ends the
reading. -/
theorem frames_read_exactly_sample :
    readAll 2 [0, 0, 0, 0, 2, 0, 0, 0, 7, 8] = ⟨[[], [7, 8]], .io .endOfData, []⟩ ∧
    readAll 2 [0, 0, 0, 0, 3, 0, 0, 0, 7, 8, 9] =
      ⟨[[]], .protocol "Payload too large: 3 bytes (max 2)", [7, 8, 9]⟩ := by
  obtain ⟨hexact, hback⟩ := frames_read_exactly 2
  obtain ⟨written, hwritten, hread⟩ := hback [[], [7, 8]] (by decide)
  obtain rfl : [0, 0, 0, 0, 2, 0, 0, 0, 7, 8] = written := Except.ok.inj hwritten
  have hends : Ends 2 (Wire.word headerSize 3 ++ [7, 8, 9]) _ [7, 8, 9] :=
    .oversized (by decide) (by decide)
  exact ⟨hread, (hexact _ _ _ _).mpr ⟨by decide, [0, 0, 0, 0], _, rfl, rfl, hends⟩⟩

end Frame
end SnapshotStore

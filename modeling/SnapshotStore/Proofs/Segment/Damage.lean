import SnapshotStore.Proofs.Segment.Truncation

/-! # Segments with a damaged frame

A stored frame is damaged if some of its bytes are changed, so that it is not taken for a frame any more,
or if its segment is cut inside it (`Damaged`).  The segment then decodes to the batches before the frame
(`Damaged.records_decode`); the batches after it are lost as well, and those in all other segments are kept
(`Stores.readLog_damaged`). -/

namespace SnapshotStore

namespace Journal

variable {b : List Record} {kept lost : List (List Record)} {data tail : Bytes}

/-- What becomes of a frame and the frames after it in its segment. -/
inductive Damaged (b : List Record) (lost : List (List Record)) : Bytes → Prop
  | changed {bytes : Bytes} (h : takeFrame? (bytes ++ lost.flatMap frame) = none) :
      Damaged b lost (bytes ++ lost.flatMap frame)
  | cut {n : ℕ} (hn : n < (frame b).length) : Damaged b lost ((frame b).take n)

theorem Damaged.of_checksum {bytes : Bytes} (hdata : data = bytes ++ lost.flatMap frame)
    (h : (Checksum.crc32 ((data.drop frameHeaderSize).take (Wire.value (data.take 4)))).toNat ≠
      Wire.value ((data.drop 4).take 4)) : Damaged b lost data := by
  subst hdata
  refine .changed ?_
  unfold takeFrame?
  dsimp only
  rw [if_pos h, ite_self, ite_self]

theorem records_decode_of_none (h : takeFrame? data = none) : (decode data).records = [] := by
  rw [decode]
  split
  · rfl
  · split
    · rfl
    · next hsome => simp [h] at hsome

theorem Damaged.takeFrame?_eq (h : Damaged b lost tail) (hb : Fits b) : takeFrame? tail = none := by
  cases h with
  | changed h => exact h
  | cut hn => exact (Cut.take hb hn).takeFrame?_eq

/-- A segment with a damaged frame decodes to the batches before the frame. -/
theorem Damaged.records_decode (h : Damaged b lost tail) (hfits : ∀ d ∈ kept ++ b :: lost, Fits d) :
    (decode (kept.flatMap frame ++ tail)).records = kept.flatten := by
  obtain ⟨hkept, hrest⟩ := List.forall_mem_append.mp hfits
  rw [decode_frames hkept, records_decode_of_none (h.takeFrame?_eq (hrest b (List.mem_cons_self ..)))]
  exact List.append_nil _

theorem records_decode_frames (h : ∀ d ∈ kept, Fits d) :
    (decode (kept.flatMap frame)).records = kept.flatten := by
  have hall := congrArg Decoded.records (decode_frames h [])
  rwa [List.append_nil, decode_nil, List.append_nil] at hall

end Journal

namespace Segment
namespace Archive

open Journal (Fits frame Damaged)

variable {a : Archive} {A later : List (String × Bytes)} {name : String} {b : List Record}
  {batches kept lost : List (List Record)} {tail : Bytes}

theorem records_recovered_append (A later : List (String × Bytes)) :
    (recovered (A ++ later)).records = (recovered A).records ++ (recovered later).records := by
  simp [recovered]

theorem records_recovered_cons (name : String) (data : Bytes) (later : List (String × Bytes)) :
    (recovered ((name, data) :: later)).records =
      (Journal.decode data).records ++ (recovered later).records := by
  simp [recovered]

theorem Stores.exists_frames (h : a.Stores batches) {segs : List (String × Bytes)}
    (hsegs : a.segments = .ok segs) {s : String × Bytes} (hs : s ∈ segs) :
    ∃ stored : List (List Record), (∀ d ∈ stored, Fits d) ∧ s.2 = stored.flatMap frame := by
  obtain ⟨top, vols, hlaid, hwhole, -⟩ := h
  obtain rfl := Except.ok.inj (hlaid.segments_eq.symm.trans hsegs)
  obtain ⟨v, hv, rfl⟩ := List.mem_map.mp hs
  exact ⟨v.batches, (hlaid.sound v hv).fits, Volume.data_of_whole (hwhole v hv)⟩

theorem Stores.records_eq (h : a.Stores batches)
    (hsegs : a.segments = .ok (A ++ (name, (kept ++ b :: lost).flatMap frame) :: later))
    (hfits : ∀ d ∈ kept ++ b :: lost, Fits d) : batches.flatten =
      (recovered A).records ++ kept.flatten ++ (b :: lost).flatten ++ (recovered later).records := by
  obtain ⟨found, hread, hrecords⟩ := h.readLog_eq
  rw [readLog, hsegs] at hread
  obtain rfl := Except.ok.inj hread
  rw [← hrecords, records_recovered_append, records_recovered_cons, Journal.records_decode_frames hfits,
    List.flatten_append, List.append_assoc, List.append_assoc, List.append_assoc]

/-- The log of an archive with a damaged frame has all batches but this one and those after it in its
segment. -/
theorem Stores.readLog_damaged (h : a.Stores batches)
    (hsegs : a.segments = .ok (A ++ (name, (kept ++ b :: lost).flatMap frame) :: later))
    (hfits : ∀ d ∈ kept ++ b :: lost, Fits d) (hdamaged : Damaged b lost tail) :
    ∃ folder', a.folder.changeFile name (fun _ => kept.flatMap frame ++ tail) = .ok folder' ∧
      ∀ bound, ∃ found, (mount folder' bound).readLog = .ok found ∧
        found.records = (recovered A).records ++ kept.flatten ++ (recovered later).records := by
  obtain ⟨top, vols, hlaid, -⟩ := h
  have hholds : a.Holds (A ++ (name, (kept ++ b :: lost).flatMap frame) :: later) := by
    rw [← Except.ok.inj (hlaid.segments_eq.symm.trans hsegs)]
    exact hlaid.holds
  obtain ⟨folder', hchange, hholds'⟩ := hholds.change fun _ => kept.flatMap frame ++ tail
  refine ⟨folder', hchange, fun bound => ⟨_, (hholds'.reopen bound).readLog_eq, ?_⟩⟩
  rw [records_recovered_append, records_recovered_cons, hdamaged.records_decode hfits,
    List.append_assoc]

end Archive
end Segment
end SnapshotStore

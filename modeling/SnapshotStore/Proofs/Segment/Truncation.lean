import SnapshotStore.Proofs.Journal.Ledger
import SnapshotStore.Proofs.Segment.Volume

/-! # Logs that are cut off

An archive `Stores` some batches if no write to it was broken off: its segments are the frames of the
batches, one after the other (`Stores.segments_eq`).  Writing a batch that fits in a frame adds it, and
one that does not fit changes nothing (`Stores.write`, `Stores.refused`).

`Truncated` removes everything after a position from the segments of a folder: the segment there is
cut, and the later ones are gone.  This can be done at every position (`Stores.exists_truncated`).
What is left of the log are the batches whose frames lie wholly before the position
(`Stores.readLog_truncated`). -/

namespace SnapshotStore
namespace Segment

open Journal (LogStore Filled Fits frame decode wholeWithin)

/-- `Truncated folder segs n folder'` says that `folder'` is what is left of a folder when everything
after the first `n` bytes of the segments is removed. -/
inductive Truncated (folder : Folder) : List (String × Bytes) → ℕ → Folder → Prop
  | whole : Truncated folder [] 0 folder
  | cut {name : String} {data : Bytes} {later : List (String × Bytes)} {n : ℕ}
      {folder₁ folder' : Folder} (hn : n ≤ data.length)
      (hc : folder.changeFile name (·.take n) = .ok folder₁)
      (hr : (later.map Prod.fst).foldlM Folder.remove folder₁ = .ok folder') :
      Truncated folder ((name, data) :: later) n folder'
  | skip {name : String} {data : Bytes} {later : List (String × Bytes)} {n : ℕ} {folder' : Folder}
      (h : Truncated folder later n folder') :
      Truncated folder ((name, data) :: later) (data.length + n) folder'

namespace Archive

variable {a a' : Archive} {folder folder' : Folder} {A segs : List (String × Bytes)} {n : ℕ}

/-! ### Cutting and removing -/

theorem Holds.withFolder (h : a.Holds segs) (hf : a'.folder = a.folder) : a'.Holds segs :=
  ⟨hf ▸ h.plain, h.sorted, hf ▸ h.mem_iff⟩

/-- A segment is changed in place. -/
theorem Holds.change {name : String} {data : Bytes} (h : a.Holds (A ++ (name, data) :: segs))
    (f : Bytes → Bytes) : ∃ folder', a.folder.changeFile name f = .ok folder' ∧
      { a with folder := folder' }.Holds (A ++ (name, f data) :: segs) := by
  have hread : a.folder.readFile name = .ok data := ((h.mem_iff (name, data)).mp (by simp)).2
  obtain ⟨folder', hchange, hplain, hr⟩ := h.plain.changeFile hread f
  exact ⟨folder', hchange, h.replace hplain hr⟩

/-- A segment is cut. -/
theorem Holds.cut {name : String} {data : Bytes} (h : a.Holds (A ++ (name, data) :: segs)) (n : ℕ) :
    ∃ folder', a.folder.changeFile name (·.take n) = .ok folder' ∧
      { a with folder := folder' }.Holds (A ++ (name, data.take n) :: segs) := h.change _

theorem Holds.removeAll (h : a.Holds (A ++ segs)) :
    ∃ folder', (segs.map Prod.fst).foldlM Folder.remove a.folder = .ok folder' ∧
      { a with folder := folder' }.Holds A := by
  induction segs generalizing a with
  | nil =>
      rw [List.append_nil] at h
      exact ⟨a.folder, rfl, h.withFolder rfl⟩
  | cons s segs ih =>
      have hread : a.folder.readFile s.1 = .ok s.2 := ((h.mem_iff s).mp (by simp)).2
      obtain ⟨folder₁, hremove, hplain, hr⟩ := h.plain.remove hread
      obtain ⟨folder', hrest, hholds⟩ := ih (a := { a with folder := folder₁ }) (h.erase hplain hr)
      refine ⟨folder', ?_, hholds⟩
      rw [List.map_cons, List.foldlM_cons, hremove]
      exact hrest

theorem Holds.exists_truncated (h : a.Holds (A ++ segs)) (hn : n ≤ (segs.flatMap (·.2)).length) :
    ∃ folder', Truncated a.folder segs n folder' := by
  induction segs generalizing A n with
  | nil =>
      obtain rfl : n = 0 := Nat.le_zero.mp hn
      exact ⟨a.folder, .whole⟩
  | cons s segs ih =>
      obtain ⟨name, data⟩ := s
      rw [List.flatMap_cons, List.length_append] at hn
      rcases Nat.le_total n data.length with hle | hle
      · obtain ⟨folder₁, hchange, hholds⟩ := h.cut n
        rw [← List.singleton_append, ← List.append_assoc] at hholds
        obtain ⟨folder', hremove, -⟩ := hholds.removeAll
        exact ⟨folder', .cut hle hchange hremove⟩
      · obtain ⟨m, rfl⟩ := Nat.exists_eq_add_of_le hle
        rw [← List.singleton_append, ← List.append_assoc] at h
        obtain ⟨folder', ht⟩ := ih h (Nat.le_of_add_le_add_left hn)
        exact ⟨folder', .skip ht⟩

/-- What is left of segments that are the frames of some batches. -/
theorem Holds.truncated {vols : List Volume} (ht : Truncated a.folder (vols.map Volume.entry) n folder')
    (h : a.Holds (A ++ vols.map Volume.entry))
    (hwhole : ∀ v ∈ vols, v.torn = [] ∧ ∀ b ∈ v.batches, Fits b) :
    ∃ left, { a with folder := folder' }.Holds (A ++ left) ∧
      left.flatMap (fun s => (decode s.2).records) =
        (wholeWithin n (vols.flatMap (·.batches))).flatten := by
  generalize hsegs : vols.map Volume.entry = segs at ht h
  induction ht generalizing A vols with
  | whole =>
      obtain rfl : vols = [] := List.map_eq_nil_iff.mp hsegs
      exact ⟨[], h.withFolder rfl, rfl⟩
  | cut hn hc hr =>
      next name data later n folder₁ folder' =>
      obtain ⟨v, vols, rfl, hv, hlater⟩ := List.map_eq_cons_iff.mp hsegs
      obtain ⟨htorn, hfits⟩ := hwhole v (List.mem_cons_self ..)
      have hdata : data = v.batches.flatMap frame :=
        (congrArg Prod.snd hv).symm.trans (Volume.data_of_whole htorn)
      obtain ⟨folder₂, hchange, hholds⟩ := h.cut n
      obtain rfl : folder₁ = folder₂ := Except.ok.inj (hc.symm.trans hchange)
      rw [← List.singleton_append, ← List.append_assoc] at hholds
      obtain ⟨folder₂, hremove, hholds⟩ := hholds.removeAll
      obtain rfl : folder' = folder₂ := Except.ok.inj (hr.symm.trans hremove)
      refine ⟨[(name, data.take n)], hholds, ?_⟩
      rw [List.flatMap_singleton, List.flatMap_cons, Journal.wholeWithin_append,
        Journal.wholeWithin_sub_of_le (hdata ▸ hn), List.append_nil,
        ← Journal.decode_take_frames hfits, ← hdata]
  | skip ht ih =>
      next name data later n folder' =>
      obtain ⟨v, vols, rfl, hv, hlater⟩ := List.map_eq_cons_iff.mp hsegs
      obtain ⟨htorn, hfits⟩ := hwhole v (List.mem_cons_self ..)
      have hdata : data = v.batches.flatMap frame :=
        (congrArg Prod.snd hv).symm.trans (Volume.data_of_whole htorn)
      rw [← List.singleton_append, ← List.append_assoc] at h
      obtain ⟨left, hholds, hleft⟩ :=
        ih (fun w hw => hwhole w (List.mem_cons_of_mem _ hw)) hlater h
      refine ⟨(name, data) :: left, by simpa using hholds, ?_⟩
      have hdecode : (decode data).records = v.batches.flatten := by
        have := Journal.decode_take_frames hfits data.length
        rwa [← hdata, List.take_length, Journal.wholeWithin_of_le (Nat.le_of_eq (by rw [hdata]))]
          at this
      rw [List.flatMap_cons, List.flatMap_cons, Journal.wholeWithin_append, hleft, hdecode, hdata,
        Journal.wholeWithin_of_le (Nat.le_add_right ..), Nat.add_sub_cancel_left,
        List.flatten_append]

/-! ### Archives without broken writes -/

/-- The batches that an archive stores, if no write was broken off. -/
def Stores (a : Archive) (batches : List (List Record)) : Prop :=
  ∃ top vols, a.Laid top vols ∧ (∀ v ∈ vols, v.torn = []) ∧ vols.length ≤ batches.length ∧
    vols.flatMap (·.batches) = batches

variable {batches : List (List Record)} {records : List Record}

theorem stores_mount_empty (bound : ℕ) : (mount Folder.empty bound).Stores [] :=
  ⟨_, [], laid_mount_empty (Nat.le_refl _), by simp, Nat.le_refl _, rfl⟩

theorem Stores.reopen (h : a.Stores batches) (bound : ℕ) : (a.reopen bound).Stores batches := by
  obtain ⟨top, vols, hlaid, hwhole, hlength, hbatches⟩ := h
  refine ⟨max top (max bound 1), vols, ?_, hwhole, hlength, hbatches⟩
  exact (hlaid.mono (Nat.le_max_left ..)).reopen (Nat.le_max_right ..)

theorem Stores.ensure_eq (h : a.Stores batches) : a.folder.ensure = a.folder := by
  obtain ⟨top, vols, hlaid, -⟩ := h
  exact hlaid.holds.plain.ensure_eq

theorem Stores.fits (h : a.Stores batches) : ∀ b ∈ batches, Fits b := by
  obtain ⟨top, vols, hlaid, -, -, rfl⟩ := h
  intro b hb
  obtain ⟨v, hv, hb⟩ := List.mem_flatMap.mp hb
  exact (hlaid.sound v hv).fits b hb

/-- A batch that fits in a frame is added. -/
theorem Stores.write (h : a.Stores batches) (hlimit : batches.length + 1 < Wire.wordLimit)
    (hw : LogStore.write a records = (.ok (), a')) : a'.Stores (batches ++ [records]) := by
  obtain ⟨top, vols, hlaid, hwhole, hlength, rfl⟩ := h
  have hw : a.writeBatch records = (.ok (), a') := hw
  cases hencode : Journal.encode records with
  | error fault => simp [writeBatch, hencode] at hw
  | ok bytes =>
      obtain ⟨hfits, rfl⟩ := Journal.encode_eq_ok_iff.mp hencode
      rw [writeBatch, hencode] at hw
      obtain ⟨a₁, vols', v, happend, -, htorn, hlaid', hvols⟩ :=
        hlaid.append (by omega) hfits Folder.fate (fun n => Folder.fate_file n _) trivial
      obtain rfl : a₁ = a' := congrArg Prod.snd (happend.symm.trans hw)
      refine ⟨top, vols' ++ [v.after records .stored], hlaid', fun w hw => ?_, ?_, ?_⟩
      · rcases List.mem_append.mp hw with hw | hw
        · refine hwhole w ?_
          rcases hvols with rfl | ⟨rfl, -⟩
          · exact List.mem_append_left _ hw
          · exact hw
        · rw [List.mem_singleton.mp hw]
          exact htorn
      · rw [List.length_append, List.length_append, List.length_singleton, List.length_singleton]
        rcases hvols with rfl | ⟨rfl, -⟩
        · rw [List.length_append, List.length_singleton] at hlength
          omega
        · omega
      · rcases hvols with rfl | ⟨rfl, rfl⟩ <;> simp [Volume.after, Volume.fresh]

/-- A write fails only if the batch does not fit in a frame, and then changes nothing. -/
theorem Stores.refused (h : a.Stores batches) {fault : Fault}
    (hw : LogStore.write a records = (.error fault, a')) : a' = a := by
  obtain ⟨top, vols, hlaid, -⟩ := h
  have hw : a.writeBatch records = (.error fault, a') := hw
  cases hencode : Journal.encode records with
  | error fault =>
      rw [writeBatch, hencode] at hw
      exact (congrArg Prod.snd hw).symm
  | ok bytes =>
      rw [writeBatch, hencode] at hw
      have hok := (congrArg Prod.fst hw).symm.trans (hlaid.append_ok bytes)
      cases hok

theorem fits_of_filled {bs : List Journal.Batch} (h : Filled a bs a') : ∀ b ∈ bs, Fits b.records := by
  induction h with
  | none => simp
  | stored h hw ih =>
      next s s' bs b =>
      intro d hd
      rcases List.mem_append.mp hd with hd | hd
      · exact ih d hd
      · rw [List.mem_singleton.mp hd]
        have hw : writeBatch _ b.records = (.ok (), _) := hw
        cases hencode : Journal.encode b.records with
        | error fault => simp [writeBatch, hencode] at hw
        | ok bytes => exact (Journal.encode_eq_ok_iff.mp hencode).1
  | failed h hw ih => exact ih

/-- The batches that a journal stored in an archive are added. -/
theorem Stores.filled (h : a.Stores batches) {bs : List Journal.Batch} (hf : Filled a bs a')
    (hlimit : batches.length + bs.length < Wire.wordLimit) :
    a'.Stores (batches ++ bs.map (·.records)) := by
  induction hf with
  | none =>
      rw [List.map_nil, List.append_nil]
      exact h
  | stored hf hw ih =>
      rw [List.length_append, List.length_singleton] at hlimit
      have hold := ih (by omega)
      rw [List.map_append, ← List.append_assoc]
      refine hold.write ?_ hw
      rw [List.length_append, List.length_map]
      omega
  | failed hf hw ih =>
      have hold := ih hlimit
      rwa [hold.refused hw]

theorem Stores.readLog_eq (h : a.Stores batches) :
    ∃ recovered, a.readLog = .ok recovered ∧ recovered.records = batches.flatten := by
  obtain ⟨top, vols, hlaid, -, -, rfl⟩ := h
  obtain ⟨recovered, hread, hrecords, -⟩ := hlaid.readLog_eq
  exact ⟨recovered, hread, hrecords⟩

theorem Stores.segments_eq (h : a.Stores batches) :
    ∃ segs, a.segments = .ok segs ∧ segs.flatMap (·.2) = batches.flatMap frame := by
  obtain ⟨top, vols, hlaid, hwhole, -, rfl⟩ := h
  refine ⟨vols.map Volume.entry, hlaid.segments_eq, ?_⟩
  rw [List.flatMap_map, List.flatMap_assoc]
  exact List.flatMap_congr fun v hv => Volume.data_of_whole (hwhole v hv)

theorem Stores.exists_truncated (h : a.Stores batches) (hs : a.segments = .ok segs)
    (hn : n ≤ (segs.flatMap (·.2)).length) : ∃ folder', Truncated a.folder segs n folder' := by
  obtain ⟨top, vols, hlaid, -⟩ := h
  obtain rfl : vols.map Volume.entry = segs := Except.ok.inj (hlaid.segments_eq.symm.trans hs)
  exact Holds.exists_truncated (A := []) hlaid.holds hn

/-- A log that is cut off at a position reads as the batches whose frames lie wholly before it. -/
theorem Stores.readLog_truncated (h : a.Stores batches) (hs : a.segments = .ok segs)
    (ht : Truncated a.folder segs n folder') (bound : ℕ) :
    ∃ recovered, (mount folder' bound).readLog = .ok recovered ∧
      recovered.records = (wholeWithin n batches).flatten := by
  obtain ⟨top, vols, hlaid, hwhole, -, rfl⟩ := h
  obtain rfl : vols.map Volume.entry = segs := Except.ok.inj (hlaid.segments_eq.symm.trans hs)
  obtain ⟨left, hholds, hleft⟩ := Holds.truncated (A := []) ht hlaid.holds
    fun v hv => ⟨hwhole v hv, (hlaid.sound v hv).fits⟩
  refine ⟨_, (hholds.reopen bound).readLog_eq, ?_⟩
  rw [← hleft, recovered, List.flatMap_map]
  rfl

end Archive
end Segment
end SnapshotStore

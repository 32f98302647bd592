import SnapshotStore.Proofs.Journal.Framing
import SnapshotStore.Proofs.Segment.Archive
import Mathlib.Data.List.Range

/-! # How an archive fills its segments

A `Volume` is a segment as it was filled: batches that were appended in full, and then what a broken
write left.  `Laid a top vols` says that the folder of an archive has the volumes as its segments,
numbered from 1 on, and that the active segment, if there is one, is the last of them and has no torn
end.  No bound of the archive was above `top`.

Every operation on the archive keeps this:

* an append goes to the last volume if that is active and not full, and otherwise to a new one
  (`Laid.target`); there it adds a batch or leaves a torn end (`Laid.writeTo`);
* shipping a segment and opening the folder anew at most give up the active segment (`Laid.ship`,
  `Laid.reopen`).

So the log of the archive holds the batches of its volumes (`Laid.readLog_eq`), and the damaged
segments are those with a torn end. -/

namespace SnapshotStore
namespace Segment

open Journal (Fits Cut frame decode)

/-! ### Volumes -/

/-- A segment as it was filled. -/
structure Volume where
  id : ℕ
  batches : List (List Record)
  torn : Bytes

namespace Volume

/-- The volume without batches. -/
def fresh (id : ℕ) : Volume := ⟨id, [], []⟩

/-- What was appended in full. -/
def frames (v : Volume) : Bytes := v.batches.flatMap frame

/-- All bytes of the segment. -/
def data (v : Volume) : Bytes := v.frames ++ v.torn

/-- The segment under its name. -/
def entry (v : Volume) : String × Bytes := (name v.id, v.data)

/-- The volume after the frame of a batch was written to it. -/
def after (v : Volume) (records : List Record) : WriteFate → Volume
  | .stored => { v with batches := v.batches ++ [records] }
  | .failed _ written cutBack =>
    { v with torn := if cutBack then [] else (frame records).take written }

/-- Frames with a cut one after them at most, which were below a size before the last frame. -/
structure Sound (top : ℕ) (v : Volume) : Prop where
  fits : ∀ b ∈ v.batches, Fits b
  torn : Cut v.torn
  full : (v.batches.dropLast.flatMap frame).length < top

theorem sound_fresh {top : ℕ} (h : 0 < top) (id : ℕ) : (fresh id).Sound top :=
  ⟨by simp [fresh], Journal.cut_nil, by simpa [fresh] using h⟩

theorem data_of_whole {v : Volume} (h : v.torn = []) : v.data = v.frames := by
  rw [data, h, List.append_nil]

theorem Sound.decode_eq {top : ℕ} {v : Volume} (h : v.Sound top) :
    decode v.data = ⟨v.batches.flatten, v.batches.length, !v.torn.isEmpty⟩ := by
  rw [data, frames, Journal.decode_frames h.fits, Journal.decode_cut h.torn]
  simp

end Volume

/-- How a write ends. -/
def WriteFate.outcome : WriteFate → Outcome Unit
  | .stored => .ok ()
  | .failed cause _ _ => .error (.io cause)

/-- Whether a write that fails leaves less than all the bytes. -/
def WriteFate.Proper (data : Bytes) : WriteFate → Prop
  | .stored => True
  | .failed _ written _ => written < data.length

namespace Archive

/-! ### Names -/

variable {a a' : Archive} {top : ℕ} {vols vols' : List Volume} {v : Volume} {active : Active}

/-- The active segment of an archive is that of a volume. -/
structure Opened (a : Archive) (v : Volume) (active : Active) : Prop where
  name : active.name = Segment.name v.id
  whole : v.torn = []
  size : active.size = v.frames.length
  handle : ∃ n, active.handle = .file n ∧ a.folder.names.get? active.name = some (.file n)

/-- What an archive has on its volumes. -/
structure Laid (a : Archive) (top : ℕ) (vols : List Volume) : Prop where
  holds : a.Holds (vols.map Volume.entry)
  ids : vols.map (·.id) = List.range' 1 vols.length
  limit : vols.length < Wire.wordLimit
  upcoming : a.upcoming = nextId vols.length
  bound : max a.bound 1 ≤ top
  sound : ∀ v ∈ vols, v.Sound top
  active : ∀ active, a.active = some active → ∃ vols' v, vols = vols' ++ [v] ∧ a.Opened v active

theorem Laid.id_le (h : a.Laid top vols) (hv : v ∈ vols) : v.id ≤ vols.length := by
  have hid : v.id ∈ vols.map (·.id) := List.mem_map_of_mem hv
  rw [h.ids, List.mem_range'_1] at hid
  omega

theorem Laid.id?_name (h : a.Laid top vols) (hv : v ∈ vols) : id? (name v.id) = some v.id :=
  Segment.id?_name (Nat.lt_of_le_of_lt (h.id_le hv) h.limit)

theorem Laid.lt_name (h : a.Laid top vols) (hlimit : vols.length + 1 < Wire.wordLimit) :
    ∀ s ∈ vols.map Volume.entry, s.1 < name (vols.length + 1) := by
  intro s hs
  obtain ⟨v, hv, rfl⟩ := List.mem_map.mp hs
  exact name_lt_name (Nat.lt_succ_of_le (h.id_le hv)) hlimit

theorem Laid.nextId_eq (h : a.Laid top vols) (hlimit : vols.length + 1 < Wire.wordLimit) :
    a.upcoming = vols.length + 1 := by
  rw [h.upcoming, nextId, Nat.mod_eq_of_lt hlimit]

theorem Laid.top_pos (h : a.Laid top vols) : 0 < top := (Nat.le_max_right ..).trans h.bound

theorem laid_mount_empty {bound : ℕ} (h : max bound 1 ≤ top) :
    (mount Folder.empty bound).Laid top [] where
  holds := holds_mount_empty bound
  ids := rfl
  limit := by decide
  upcoming := rfl
  bound := h
  sound := by simp
  active _ h := by cases h

/-! ### Appending -/

theorem rotate_eq {handle : Handle} {folder : Folder}
    (h : a.folder.openForWriting (name a.upcoming) = .ok (handle, folder)) :
    a.rotate = (.ok ⟨name a.upcoming, handle, (folder.dataOf handle).length⟩,
      { a with
        upcoming := nextId a.upcoming
        folder
        active := some ⟨name a.upcoming, handle, (folder.dataOf handle).length⟩ }) := by
  rw [rotate, h]

/-- A new segment is opened. -/
theorem Laid.rotate (h : a.Laid top vols) (hlimit : vols.length + 1 < Wire.wordLimit) :
    ∃ active a', a.rotate = (.ok active, a') ∧
      a'.Laid top (vols ++ [.fresh (vols.length + 1)]) ∧ a'.Opened (.fresh (vols.length + 1)) active := by
  obtain ⟨n, folder, hopen, hplain, hget, hread⟩ :=
    h.holds.plain.openForWriting (name (vols.length + 1))
  have hid := Segment.id?_name hlimit
  have hnone : (a.folder.readFile (name (vols.length + 1))).toOption = none := by
    cases hr : a.folder.readFile (name (vols.length + 1)) with
    | error cause => rfl
    | ok data =>
        have hs := (h.holds.mem_iff (name (vols.length + 1), data)).mpr ⟨by simp [hid], hr⟩
        exact absurd (h.lt_name hlimit _ hs) (lt_irrefl _)
  rw [hnone] at hread
  have hempty : folder.dataOf (.file n) = [] := by
    have hself := hread (name (vols.length + 1))
    rw [if_pos rfl, Folder.readFile_of_file hget] at hself
    exact Except.ok.inj hself
  have hopened : (Archive.mk folder a.bound
      (some ⟨name (vols.length + 1), .file n, 0⟩) (nextId (vols.length + 1))).Opened
        (.fresh (vols.length + 1)) ⟨name (vols.length + 1), .file n, 0⟩ :=
    ⟨rfl, rfl, rfl, n, rfl, hget⟩
  rw [rotate_eq (by rw [h.nextId_eq hlimit]; exact hopen), h.nextId_eq hlimit, hempty]
  refine ⟨_, _, rfl, ⟨?_, ?_, ?_, ?_, h.bound, fun v hv => ?_, fun active hactive => ?_⟩, hopened⟩
  · rw [List.map_append]
    exact h.holds.concat (by simp [Volume.fresh, hid]) (h.lt_name hlimit) hplain
      fun k _ => hread k
  · rw [List.map_append, h.ids, List.length_append, List.length_singleton, List.range'_1_concat,
      Nat.add_comm 1]
    rfl
  · rwa [List.length_append]
  · rw [List.length_append]
    rfl
  · rcases List.mem_append.mp hv with hv | hv
    · exact h.sound v hv
    · rw [List.mem_singleton.mp hv]
      exact Volume.sound_fresh h.top_pos _
  · obtain rfl := Option.some.inj hactive
    exact ⟨vols, _, rfl, hopened⟩

/-- The volume that the next append goes to: the last one, or a new one. -/
theorem Laid.target (h : a.Laid top vols) (hlimit : vols.length + 1 < Wire.wordLimit) :
    ∃ active a' vols' v, a.target = (.ok active, a') ∧
      a'.Laid top (vols' ++ [v]) ∧ a'.Opened v active ∧ v.frames.length < top ∧
      (vols = vols' ++ [v] ∨ vols = vols' ∧ v = .fresh (vols.length + 1)) := by
  have hrotate : ∃ active a' vols' v, a.rotate = (.ok active, a') ∧
      a'.Laid top (vols' ++ [v]) ∧ a'.Opened v active ∧ v.frames.length < top ∧
      (vols = vols' ++ [v] ∨ vols = vols' ∧ v = .fresh (vols.length + 1)) := by
    obtain ⟨active, a', hrotate, hlaid, hopened⟩ := h.rotate hlimit
    exact ⟨active, a', vols, _, hrotate, hlaid, hopened, h.top_pos, .inr ⟨rfl, rfl⟩⟩
  rw [Archive.target]
  cases hactive : a.active with
  | none => exact hrotate
  | some active =>
      obtain ⟨vols', v, rfl, hopened⟩ := h.active active hactive
      dsimp only
      split
      · exact hrotate
      · next hsize =>
        rw [hopened.size] at hsize
        have hbound := h.bound
        exact ⟨active, a, vols', v, rfl, h, hopened, by omega, .inl rfl⟩

/-- Writing the bytes of the last volume anew leaves the other volumes as they are. -/
theorem Laid.put (h : a.Laid top (vols ++ [v])) {n : ℕ}
    (hget : a.folder.names.get? (name v.id) = some (.file n)) {v' : Volume} (hid : v'.id = v.id)
    (hsound : v'.Sound top) (hfolder : a'.folder = a.folder.setData (.file n) v'.data)
    (hbound : a'.bound = a.bound) (hupcoming : a'.upcoming = a.upcoming)
    (hactive : ∀ active, a'.active = some active → a'.Opened v' active) :
    a'.Laid top (vols ++ [v']) := by
  obtain ⟨hplain, hread⟩ := h.holds.plain.setBytes hget v'.data
  have hlength : (vols ++ [v']).length = (vols ++ [v]).length := by simp
  have hentries : (vols ++ [v']).map Volume.entry =
      vols.map Volume.entry ++ [(name v.id, v'.data)] := by
    rw [List.map_append, ← hid]
    rfl
  refine ⟨?_, ?_, hlength ▸ h.limit, hlength ▸ hupcoming ▸ h.upcoming, hbound ▸ h.bound,
    fun w hw => ?_, fun active ha => ⟨vols, v', rfl, hactive active ha⟩⟩
  · have hholds := h.holds
    rw [List.map_append] at hholds
    rw [hentries]
    refine Holds.replace hholds (hfolder ▸ hplain) fun k => ?_
    rw [hfolder]
    exact hread k
  · rw [hlength, ← h.ids, List.map_append, List.map_append]
    simp [hid]
  · rcases List.mem_append.mp hw with hw | hw
    · exact h.sound w (List.mem_append_left _ hw)
    · rw [List.mem_singleton.mp hw]
      exact hsound

/-- A write adds a batch to the last volume, or leaves a torn end and gives the segment up. -/
theorem Laid.writeTo (h : a.Laid top (vols ++ [v])) (ho : a.Opened v active)
    (hfull : v.frames.length < top) {records : List Record} (hfits : Fits records)
    {fate : WriteFate} (hproper : fate.Proper (frame records)) :
    ∃ a', a.writeTo active (frame records) fate = (fate.outcome, a') ∧
      a'.Laid top (vols ++ [v.after records fate]) := by
  obtain ⟨n, hhandle, hget⟩ := ho.handle
  have hdata : v.data = v.frames := Volume.data_of_whole ho.whole
  have hgood : resize active.size (a.folder.dataOf active.handle) = v.frames := by
    have hread := ((h.holds.mem_iff v.entry).mp (by simp)).2
    rw [Volume.entry, ← ho.name, Folder.readFile_of_file hget, hdata] at hread
    rw [hhandle, Folder.dataOf, Except.ok.inj hread, ho.size, resize]
    simp
  have hname : a.folder.names.get? (name v.id) = some (.file n) := ho.name ▸ hget
  have hv := h.sound v (by simp)
  cases fate with
  | stored =>
      have hframes : (v.after records .stored).frames = v.frames ++ frame records := by
        simp [Volume.after, Volume.frames]
      refine ⟨_, rfl, h.put hname rfl ⟨?_, hv.torn, ?_⟩ ?_ rfl rfl fun active' ha => ?_⟩
      · intro b hb
        rcases List.mem_append.mp hb with hb | hb
        · exact hv.fits b hb
        · rw [List.mem_singleton.mp hb]
          exact hfits
      · show ((v.batches ++ [records]).dropLast.flatMap frame).length < top
        rwa [List.dropLast_concat]
      · rw [hgood, hhandle, Volume.data, hframes]
        simp [Volume.after, ho.whole]
      · obtain rfl := Option.some.inj ha
        refine ⟨ho.name, ho.whole, ?_, n, hhandle, ?_⟩
        · rw [hframes, List.length_append, ho.size]
        · rw [hhandle]
          exact hget
  | failed cause written cutBack =>
      refine ⟨_, rfl, h.put hname rfl ⟨hv.fits, ?_, hv.full⟩ ?_ rfl rfl fun _ ha => by cases ha⟩
      · cases cutBack with
        | true => exact Journal.cut_nil
        | false => exact .take hfits hproper
      · rw [hgood, hhandle, Volume.data]
        cases cutBack with
        | true =>
            show a.folder.setData (.file n) v.frames = a.folder.setData (.file n) (v.frames ++ [])
            rw [List.append_nil]
        | false => rfl

/-- The name of the segment that the next append goes to, if one can be opened. -/
def destination (a : Archive) : Option String := a.target.1.toOption.map (·.name)

/-- An append adds a batch to the last volume or to a new one, or leaves a torn end there. -/
theorem Laid.append (h : a.Laid top vols) (hlimit : vols.length + 1 < Wire.wordLimit)
    {records : List Record} (hfits : Fits records) (fate : Handle → Bytes → WriteFate)
    {end' : WriteFate} (hfate : ∀ n, fate (.file n) (frame records) = end')
    (hproper : end'.Proper (frame records)) :
    ∃ a' vols' v, a.appendWith fate (frame records) = (end'.outcome, a') ∧
      a.destination = some (name v.id) ∧ v.torn = [] ∧ a'.Laid top (vols' ++ [v.after records end']) ∧
      (vols = vols' ++ [v] ∨ vols = vols' ∧ v = .fresh (vols.length + 1)) := by
  obtain ⟨active, a₁, vols', v, htarget, hlaid, hopened, hfull, hvols⟩ := h.target hlimit
  obtain ⟨n, hhandle, -⟩ := hopened.handle
  obtain ⟨a', hwrite, hlaid'⟩ := hlaid.writeTo hopened hfull hfits hproper
  refine ⟨a', vols', v, ?_, ?_, hopened.whole, hlaid', hvols⟩
  · rw [appendWith, htarget]
    dsimp only
    rw [hhandle, hfate]
    exact hwrite
  · rw [destination, htarget, ← hopened.name]
    rfl

/-- Files take all bytes that are appended. -/
theorem Laid.append_ok (h : a.Laid top vols) (data : Bytes) : (a.append data).1 = .ok () := by
  have htarget : ∃ active a' n, a.target = (.ok active, a') ∧ active.handle = .file n := by
    have hrotate : ∃ active a' n, a.rotate = (.ok active, a') ∧ active.handle = .file n := by
      obtain ⟨n, folder, hopen, -⟩ := h.holds.plain.openForWriting (name a.upcoming)
      exact ⟨_, _, n, rotate_eq hopen, rfl⟩
    rw [Archive.target]
    cases hactive : a.active with
    | none => exact hrotate
    | some active =>
        obtain ⟨vols', v, -, hopened⟩ := h.active active hactive
        obtain ⟨n, hhandle, -⟩ := hopened.handle
        dsimp only
        split
        · exact hrotate
        · exact ⟨active, a, n, rfl, hhandle⟩
  obtain ⟨active, a', n, htarget, hhandle⟩ := htarget
  rw [Archive.append, appendWith, htarget]
  dsimp only
  rw [hhandle, Folder.fate_file]
  rfl

/-! ### Shipping and opening anew -/

theorem Laid.mono (h : a.Laid top vols) {top' : ℕ} (hle : top ≤ top') : a.Laid top' vols where
  holds := h.holds
  ids := h.ids
  limit := h.limit
  upcoming := h.upcoming
  bound := h.bound.trans hle
  sound v hv := ⟨(h.sound v hv).fits, (h.sound v hv).torn, (h.sound v hv).full.trans_le hle⟩
  active := h.active

theorem Laid.seal (h : a.Laid top vols) : { a with active := none }.Laid top vols :=
  ⟨⟨h.holds.plain, h.holds.sorted, h.holds.mem_iff⟩, h.ids, h.limit, h.upcoming, h.bound, h.sound,
    fun _ ha => by cases ha⟩

theorem Laid.ship (h : a.Laid top vols) (name : String) : (a.ship name).2.Laid top vols := by
  rw [Archive.ship]
  split
  · exact h
  · dsimp only
    split
    · exact h.seal
    · exact h

/-- The highest number of some volumes. -/
theorem Laid.max?_ids (h : a.Laid top vols) :
    ((a.folder.names.keys.filterMap id?).max?).elim 1 nextId = nextId vols.length := by
  have hmem (n : ℕ) : n ∈ a.folder.names.keys.filterMap id? ↔ 1 ≤ n ∧ n ≤ vols.length := by
    rw [List.mem_filterMap]
    constructor
    · rintro ⟨k, hk, hid⟩
      obtain ⟨e, hget⟩ := (Table.mem_keys_iff _ _).mp hk
      obtain ⟨m, rfl, -⟩ := h.holds.plain.file hget
      have hs := (h.holds.mem_iff (k, _)).mpr ⟨by simp [hid], Folder.readFile_of_file hget⟩
      obtain ⟨v, hv, he⟩ := List.mem_map.mp hs
      obtain rfl : name v.id = k := congrArg Prod.fst he
      have hn : v.id = n := Option.some.inj ((h.id?_name hv).symm.trans hid)
      have hid : v.id ∈ vols.map (·.id) := List.mem_map_of_mem hv
      rw [h.ids, List.mem_range'_1] at hid
      omega
    · intro hn
      have hid : n ∈ vols.map (·.id) := by
        rw [h.ids, List.mem_range'_1]
        omega
      obtain ⟨v, hv, rfl⟩ := List.mem_map.mp hid
      have hread := ((h.holds.mem_iff v.entry).mp (List.mem_map_of_mem hv)).2
      obtain ⟨m, hget, -⟩ := h.holds.plain.file_of_readFile hread
      exact ⟨name v.id, (Table.mem_keys_iff _ _).mpr ⟨_, hget⟩, h.id?_name hv⟩
  cases hmax : (a.folder.names.keys.filterMap id?).max? with
  | none =>
      have hnil : a.folder.names.keys.filterMap id? = [] := by simpa using hmax
      cases hl : vols.length with
      | zero => rfl
      | succ n =>
          have := (hmem 1).mpr (by omega)
          rw [hnil] at this
          cases this
  | some m =>
      obtain ⟨hm, hle⟩ := List.max?_eq_some_iff.mp hmax
      have hbounds := (hmem m).mp hm
      have hlast := hle vols.length ((hmem vols.length).mpr (by omega))
      obtain rfl : m = vols.length := by omega
      rfl

theorem Laid.reopen (h : a.Laid top vols) {bound : ℕ} (hbound : max bound 1 ≤ top) :
    (a.reopen bound).Laid top vols := by
  have hfolder : a.folder.ensure = a.folder := h.holds.plain.ensure_eq
  refine ⟨h.holds.reopen bound, h.ids, h.limit, ?_, hbound, h.sound, fun _ ha => by cases ha⟩
  rw [Archive.reopen, mount]
  dsimp only
  rw [hfolder]
  exact h.max?_ids

/-! ### Reading -/

theorem Laid.segments_eq (h : a.Laid top vols) : a.segments = .ok (vols.map Volume.entry) :=
  h.holds.segments_eq

/-- The log holds the batches of the volumes, and the damaged segments are those with a torn end. -/
theorem Laid.readLog_eq (h : a.Laid top vols) :
    ∃ recovered, a.readLog = .ok recovered ∧
      recovered.records = (vols.flatMap (·.batches)).flatten ∧
      recovered.report.damaged = (vols.filter (!·.torn.isEmpty)).map (name ·.id) := by
  refine ⟨_, h.holds.readLog_eq, ?_, ?_⟩
  · have hflat : (vols.flatMap (·.batches)).flatten = vols.flatMap (·.batches.flatten) := by
      rw [List.flatMap_def, List.flatten_flatten, List.map_map]
      rfl
    rw [hflat, recovered, List.flatMap_map, List.flatMap_map]
    exact List.flatMap_congr fun v hv => congrArg (·.records) (h.sound v hv).decode_eq
  · rw [recovered, List.map_map, List.filter_map, List.map_map]
    have hfilter : vols.filter ((fun d : String × Journal.Decoded => d.2.damaged) ∘
        ((fun s => (s.1, decode s.2)) ∘ Volume.entry)) = vols.filter (!·.torn.isEmpty) :=
      List.filter_congr fun v hv => congrArg (·.damaged) (h.sound v hv).decode_eq
    rw [hfilter]
    rfl

end Archive
end Segment
end SnapshotStore

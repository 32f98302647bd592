import SnapshotStore.Proofs.Segment.Volume

/-! # Segments that take any bytes

`Rolling a segs` says that an archive has some segments, that the next one will be named after all of
them, and that only the last one can be active.  Every operation keeps this (`Rolling.target`,
`Rolling.writeTo`, `Rolling.ship`), for appends of any bytes and any end of a write, and it holds of
every folder of regular files that is opened (`Rolling.mount`).

With all of these the segments only grow (`Grows`): they keep their names and their order, new ones come
at the end, and those that were given out keep their bytes. -/

namespace SnapshotStore
namespace Segment

namespace Archive

variable {a a' : Archive} {segs segs' final : List (String × Bytes)} {active : Active}

/-! ### Growing lists of segments -/

/-- Segments keep their names and their order, new ones come at the end, and those that are final keep
their bytes. -/
def Grows (final segs segs' : List (String × Bytes)) : Prop :=
  ∀ (i : ℕ) (s : String × Bytes), segs[i]? = some s →
    ∃ data, segs'[i]? = some (s.1, data) ∧ (s ∈ final → data = s.2)

theorem grows_append (final segs more : List (String × Bytes)) : Grows final segs (segs ++ more) := by
  intro i s hs
  refine ⟨s.2, ?_, fun _ => rfl⟩
  rw [List.getElem?_append_left (List.getElem?_eq_some_iff.mp hs).1]
  exact hs

theorem grows_replace {older : List (String × Bytes)} {name : String} {data : Bytes}
    (hnot : (name, data) ∉ final) (data' : Bytes) :
    Grows final (older ++ [(name, data)]) (older ++ [(name, data')]) := by
  intro i s hs
  rcases Nat.lt_trichotomy i older.length with hlt | rfl | hgt
  · rw [List.getElem?_append_left hlt] at hs
    exact ⟨s.2, by rw [List.getElem?_append_left hlt]; exact hs, fun _ => rfl⟩
  · obtain rfl : (name, data) = s := by simpa using hs
    exact ⟨data', by simp, fun hf => absurd hf hnot⟩
  · rw [List.getElem?_append_right (Nat.le_of_lt hgt)] at hs
    have : i - older.length ≠ 0 := Nat.sub_ne_zero_of_lt hgt
    simp [this] at hs

theorem Grows.getElem?_final (h : Grows final segs segs') {i : ℕ} {s : String × Bytes}
    (hs : segs[i]? = some s) (hf : s ∈ final) : segs'[i]? = some s := by
  obtain ⟨data, hs', hdata⟩ := h i s hs
  rw [hs', hdata hf]

theorem Grows.mem (h : Grows final segs segs') {s : String × Bytes} (hs : s ∈ segs)
    (hf : s ∈ final) : s ∈ segs' := by
  obtain ⟨i, hi⟩ := List.mem_iff_getElem?.mp hs
  exact List.mem_of_getElem? (h.getElem?_final hi hf)

theorem Grows.take_eq (h : Grows final segs segs') {n : ℕ} (hn : n ≤ segs.length)
    (hf : ∀ s ∈ segs.take n, s ∈ final) : segs'.take n = segs.take n := by
  refine List.ext_getElem? fun i => ?_
  rw [List.getElem?_take, List.getElem?_take]
  split
  · next hi =>
    have hlt : i < segs.length := Nat.lt_of_lt_of_le hi hn
    have hs : segs[i]? = some segs[i] := List.getElem?_eq_getElem hlt
    rw [hs]
    refine h.getElem?_final hs (hf _ ?_)
    exact List.mem_of_getElem? (by rw [List.getElem?_take_of_lt hi]; exact hs)
  · rfl

theorem Grows.length_le (h : Grows final segs segs') : segs.length ≤ segs'.length := by
  by_contra hlt
  have hlt : segs'.length < segs.length := Nat.lt_of_not_le hlt
  obtain ⟨data, hs, -⟩ := h _ _ (List.getElem?_eq_getElem hlt)
  simp at hs

/-! ### Archives in use -/

/-- What an archive has on its segments while it takes appends: the next segment will be named after all
of them, and the last one may be active. -/
structure Rolling (a : Archive) (segs : List (String × Bytes)) : Prop where
  holds : a.Holds segs
  below : ∀ s ∈ segs, s.1 < name a.upcoming
  active : ∀ active, a.active = some active → ∃ older data,
    segs = older ++ [(active.name, data)] ∧ active.size = data.length ∧
      ∃ n, active.handle = .file n ∧ a.folder.names.get? active.name = some (.file n)

/-- Whether a segment takes no more appends. -/
def Sealed (a : Archive) (s : String × Bytes) : Prop :=
  ∀ active, a.active = some active → active.name ≠ s.1

theorem Rolling.rotate (h : a.Rolling segs) (hlimit : a.upcoming + 1 < Wire.wordLimit) :
    ∃ active a', a.rotate = (.ok active, a') ∧ a'.Rolling (segs ++ [(name a.upcoming, [])]) ∧
      a'.active = some active ∧ active.name = name a.upcoming ∧ a'.upcoming = a.upcoming + 1 := by
  have hid : id? (name a.upcoming) = some a.upcoming :=
    id?_name (Nat.lt_of_succ_lt hlimit)
  obtain ⟨n, folder, hopen, hplain, hget, hread⟩ :=
    h.holds.plain.openForWriting (name a.upcoming)
  have hnone : (a.folder.readFile (name a.upcoming)).toOption = none := by
    cases hr : a.folder.readFile (name a.upcoming) with
    | error cause => rfl
    | ok data =>
        have hs := (h.holds.mem_iff (name a.upcoming, data)).mpr ⟨by simp [hid], hr⟩
        exact absurd (h.below _ hs) (lt_irrefl _)
  rw [hnone] at hread
  have hempty : folder.dataOf (.file n) = [] := by
    have hself := hread (name a.upcoming)
    rw [if_pos rfl, Folder.readFile_of_file hget] at hself
    exact Except.ok.inj hself
  have hnext : nextId a.upcoming = a.upcoming + 1 := Nat.mod_eq_of_lt hlimit
  rw [rotate_eq hopen, hempty, hnext]
  refine ⟨_, _, rfl, ⟨?_, fun s hs => ?_, fun active ha => ?_⟩, rfl, rfl, rfl⟩
  · exact h.holds.concat (by simp [hid]) h.below hplain fun k _ => hread k
  · have hlt : name a.upcoming < name (a.upcoming + 1) := name_lt_name (Nat.lt_succ_self _) hlimit
    rcases List.mem_append.mp hs with hs | hs
    · exact lt_trans (h.below s hs) hlt
    · rw [List.mem_singleton.mp hs]
      exact hlt
  · obtain rfl := Option.some.inj ha
    exact ⟨segs, [], rfl, rfl, n, rfl, hget⟩

/-- An append goes to the active segment or to a new one. -/
theorem Rolling.target (h : a.Rolling segs) (hlimit : a.upcoming + 1 < Wire.wordLimit) :
    ∃ active a' more, a.target = (.ok active, a') ∧ a'.Rolling (segs ++ more) ∧
      a'.active = some active ∧ (∀ s ∈ more, s.2 = []) ∧ a'.upcoming ≤ a.upcoming + 1 ∧
      ∀ s ∈ segs, a.Sealed s → a'.Sealed s := by
  have hrotate : ∃ active a' more, a.rotate = (.ok active, a') ∧ a'.Rolling (segs ++ more) ∧
      a'.active = some active ∧ (∀ s ∈ more, s.2 = []) ∧ a'.upcoming ≤ a.upcoming + 1 ∧
      ∀ s ∈ segs, a.Sealed s → a'.Sealed s := by
    obtain ⟨active, a', hrotate, hrolling, hactive, hname, hupcoming⟩ := h.rotate hlimit
    refine ⟨active, a', _, hrotate, hrolling, hactive, by simp, Nat.le_of_eq hupcoming,
      fun s hs _ active' ha => ?_⟩
    obtain rfl : active = active' := Option.some.inj (hactive.symm.trans ha)
    exact hname ▸ (ne_of_lt (h.below s hs)).symm
  rw [Archive.target]
  cases hactive : a.active with
  | none => exact hrotate
  | some active =>
      dsimp only
      split
      · exact hrotate
      · exact ⟨active, a, [], rfl, by rwa [List.append_nil], hactive, by simp, Nat.le_succ _,
          fun s _ hs => hs⟩

/-- A write changes the bytes of the active segment, which is given up if the write fails. -/
theorem Rolling.writeTo (h : a.Rolling segs) (ha : a.active = some active) (bytes : Bytes)
    (fate : WriteFate) : ∃ older data data', segs = older ++ [(active.name, data)] ∧
      (a.writeTo active bytes fate).2.Rolling (older ++ [(active.name, data')]) ∧
      data'.length ≤ data.length + bytes.length ∧
      (a.writeTo active bytes fate).2.upcoming = a.upcoming ∧
      ∀ s, a.Sealed s → (a.writeTo active bytes fate).2.Sealed s := by
  obtain ⟨older, data, rfl, hsize, n, hhandle, hget⟩ := h.active active ha
  have hread := ((h.holds.mem_iff (active.name, data)).mp (by simp)).2
  have hgood : resize active.size (a.folder.dataOf active.handle) = data := by
    rw [Folder.readFile_of_file hget] at hread
    rw [hhandle, Folder.dataOf, Except.ok.inj hread, hsize, resize]
    simp
  have hput {a' : Archive} {data' : Bytes} (hfolder : a'.folder = a.folder.setData active.handle data')
      (hupcoming : a'.upcoming = a.upcoming) (hactive : ∀ active', a'.active = some active' →
        active'.name = active.name ∧ active'.handle = active.handle ∧ active'.size = data'.length) :
      a'.Rolling (older ++ [(active.name, data')]) := by
    rw [hhandle] at hfolder
    obtain ⟨hplain, hset⟩ := h.holds.plain.setBytes hget data'
    refine ⟨h.holds.replace (hfolder ▸ hplain) fun k => ?_, fun s hs => ?_, fun active' ha' => ?_⟩
    · rw [hfolder]
      exact hset k
    · rw [hupcoming]
      rcases List.mem_append.mp hs with hs | hs
      · exact h.below s (List.mem_append_left _ hs)
      · rw [List.mem_singleton.mp hs]
        exact h.below (active.name, data) (by simp)
    · obtain ⟨hname, hsame, hlength⟩ := hactive active' ha'
      refine ⟨older, data', by rw [hname], hlength, n, hsame.trans hhandle, ?_⟩
      rw [hname, hfolder]
      exact hget
  cases fate with
  | stored =>
      refine ⟨older, data, data ++ bytes, rfl, hput ?_ rfl fun active' ha' => ?_,
        Nat.le_of_eq List.length_append, rfl, fun s hs active' ha' => ?_⟩
      · exact congrArg (fun good => a.folder.setData active.handle (good ++ bytes)) hgood
      · obtain rfl := Option.some.inj ha'
        exact ⟨rfl, rfl, by rw [List.length_append, hsize]⟩
      · obtain rfl := Option.some.inj ha'
        exact hs active ha
  | failed cause written cutBack =>
      refine ⟨older, data, if cutBack then data else data ++ bytes.take written, rfl,
        hput ?_ rfl fun active' ha' => (by cases ha'), ?_, rfl, fun s hs active' ha' => by cases ha'⟩
      · rw [← hgood]
        rfl
      · cases cutBack with
        | true => exact Nat.le_add_right ..
        | false =>
            rw [if_neg (by simp), List.length_append, List.length_take]
            omega

/-- A segment that is shipped gives its bytes and takes no more appends. -/
theorem Rolling.ship (h : a.Rolling segs) {name : String} {data : Bytes}
    (hs : (name, data) ∈ segs) : ∃ a', a.ship name = (.ok data, a') ∧ a'.Rolling segs ∧
      a'.Sealed (name, data) ∧ a'.upcoming = a.upcoming ∧ a'.bound = a.bound ∧
      (∀ active, a'.active = some active → a.active = some active) := by
  rw [Archive.ship, h.holds.read_eq hs]
  dsimp only
  split
  · refine ⟨_, rfl, ⟨⟨h.holds.plain, h.holds.sorted, h.holds.mem_iff⟩, h.below, ?_⟩, ?_, rfl, rfl, ?_⟩
    all_goals
      intro active ha
      cases ha
  · next hname =>
    refine ⟨a, rfl, h, fun active ha he => hname ?_, rfl, rfl, fun _ ha => ha⟩
    simp [ha, he]

/-! ### Opening a folder -/

theorem exists_holds (h : a.folder.Plain) : ∃ segs, a.Holds segs := by
  obtain ⟨names, -, hsorted, hmem⟩ := h.list
  let entry (k : String) : String × Bytes := (k, (a.folder.readFile k).toOption.getD [])
  have hnames : ((names.filter fun k => (id? k).isSome).map entry).map Prod.fst =
      names.filter fun k => (id? k).isSome := by
    rw [List.map_map]
    exact List.map_id _
  refine ⟨(names.filter fun k => (id? k).isSome).map entry, h, ?_, fun s => ?_⟩
  · rw [hnames]
    exact hsorted.filter _
  · rw [List.mem_map]
    constructor
    · rintro ⟨k, hk, rfl⟩
      obtain ⟨hk, hid⟩ := List.mem_filter.mp hk
      obtain ⟨data, hr⟩ := (hmem k).mp hk
      refine ⟨hid, ?_⟩
      show a.folder.readFile k = .ok ((a.folder.readFile k).toOption.getD [])
      rw [hr]
      rfl
    · rintro ⟨hid, hr⟩
      refine ⟨s.1, List.mem_filter.mpr ⟨(hmem s.1).mpr ⟨s.2, hr⟩, hid⟩, ?_⟩
      show (s.1, (a.folder.readFile s.1).toOption.getD []) = s
      rw [hr]
      rfl

/-- A folder of regular files is opened for appends after all segments in it. -/
theorem rolling_mount {folder : Folder} (hplain : folder.Plain) (bound : ℕ) {limit : ℕ}
    (hpos : 1 ≤ limit) (hlimit : limit < Wire.wordLimit)
    (hids : ∀ k ∈ folder.names.keys, ∀ id, id? k = some id → id < limit) :
    ∃ segs, (mount folder bound).Rolling segs ∧ (mount folder bound).upcoming ≤ limit := by
  have hfolder : (mount folder bound).folder = folder := hplain.ensure_eq
  obtain ⟨segs, hholds⟩ := exists_holds (a := mount folder bound) (hfolder ▸ hplain)
  have hmem {s : String × Bytes} (hs : s ∈ segs) :
      ∃ id ∈ folder.names.keys.filterMap id?, s.1 = name id := by
    obtain ⟨hid, hr⟩ := (hholds.mem_iff s).mp hs
    rw [hfolder] at hr
    obtain ⟨n, hget, -⟩ := hplain.file_of_readFile hr
    obtain ⟨id, hid⟩ := Option.isSome_iff_exists.mp hid
    refine ⟨id, List.mem_filterMap.mpr ⟨s.1, ?_, hid⟩, eq_name_of_id? hid⟩
    exact (Table.mem_keys_iff _ _).mpr ⟨_, hget⟩
  have hupcoming : (mount folder bound).upcoming =
      ((folder.names.keys.filterMap id?).max?).elim 1 nextId := by
    rw [mount, hplain.ensure_eq]
  cases hmax : (folder.names.keys.filterMap id?).max? with
  | none =>
      have hnil : folder.names.keys.filterMap id? = [] := by simpa using hmax
      rw [hmax] at hupcoming
      refine ⟨segs, ⟨hholds, fun s hs => ?_, fun _ ha => by cases ha⟩, hupcoming ▸ hpos⟩
      obtain ⟨id, hid, -⟩ := hmem hs
      simp [hnil] at hid
  | some m =>
      obtain ⟨hm, hle⟩ := List.max?_eq_some_iff.mp hmax
      obtain ⟨k, hk, hid⟩ := List.mem_filterMap.mp hm
      have hlt : m < limit := hids k hk m hid
      have hnext : nextId m = m + 1 := Nat.mod_eq_of_lt (Nat.lt_of_le_of_lt hlt hlimit)
      rw [hmax, Option.elim_some, hnext] at hupcoming
      refine ⟨segs, ⟨hholds, fun s hs => ?_, fun _ ha => by cases ha⟩, hupcoming ▸ hlt⟩
      obtain ⟨id, hid, hs⟩ := hmem hs
      rw [hs, hupcoming]
      exact name_lt_name (Nat.lt_succ_of_le (hle id hid)) (Nat.lt_of_le_of_lt hlt hlimit)

end Archive
end Segment
end SnapshotStore

import SnapshotStore.Segment.Folder
import SnapshotStore.Proofs.Table
import Mathlib.Data.List.Sort
import Mathlib.Data.String.Basic
import Mathlib.Logic.Function.Basic

/-! # Regular files

Names in a folder may lead to regular files, to folders and to a device that is full, and the folder
itself may be missing, so a file operation can fail.  A folder is `Apart` if its names at least lead to
different files.  Then a whole file that is written changes no other file (`Apart.writeFile`), and
moving it changes none but the one it goes over (`Apart.rename`).

A folder is `Plain` if it is there, its names lead to files, and different names lead to different
files.  In such a folder `readFile` tells all there is: writing a file or changing it in place changes
what one name reads as (`Plain.writeFile`, `Plain.changeFile`), renaming moves it (`Plain.rename`),
removing ends it (`Plain.remove`), and the names of files are those that can be read, in order
(`Plain.listFiles`). -/

namespace SnapshotStore
namespace Segment
namespace Folder

/-- Different names lead to different files. -/
def Unshared (names : Table String Entry) : Prop :=
  ∀ ⦃k k' n⦄, names.get? k = some (.file n) → names.get? k' = some (.file n) → k = k'

section unshared

variable {names : Table String Entry} {name : String} {n : ℕ}

theorem Unshared.insert (h : Unshared names)
    (hnew : ∀ k, k ≠ name → names.get? k ≠ some (.file n)) :
    Unshared (names.insert name (.file n)) := by
  intro k k' m hk hk'
  rw [Table.get?_insert] at hk hk'
  split at hk <;> split at hk'
  · next hkn hkn' => rw [hkn, hkn']
  · next hne =>
    cases hk
    exact absurd hk' (hnew k' hne)
  · next hne _ =>
    cases hk'
    exact absurd hk (hnew k hne)
  · exact h hk hk'

theorem Unshared.erase (h : Unshared names) (name : String) : Unshared (names.erase name) := by
  intro k k' m hk hk'
  rw [Table.get?_erase] at hk hk'
  split at hk <;> split at hk'
  · cases hk
  · cases hk
  · cases hk'
  · exact h hk hk'

/-- A file that moves is the only one under its new name. -/
theorem Unshared.move (h : Unshared names) {source : String}
    (hsource : names.get? source = some (.file n)) (target : String) :
    Unshared ((names.erase source).insert target (.file n)) := by
  refine (h.erase source).insert fun k _ hk => ?_
  rw [Table.get?_erase] at hk
  split at hk
  · cases hk
  · next hks => exact hks (h hk hsource)

end unshared

/-- A folder whose names lead to different files. -/
structure Apart (f : Folder) : Prop where
  bound : ∀ {name n}, f.names.get? name = some (.file n) → n < f.contents.size
  unshared : Unshared f.names

/-- A folder that is there, whose names lead to different files. -/
structure Plain (f : Folder) : Prop where
  present : f.present = true
  file : ∀ {name e}, f.names.get? name = some e → ∃ n, e = .file n ∧ n < f.contents.size
  apart : ∀ {name name' n}, f.names.get? name = some (.file n) →
    f.names.get? name' = some (.file n) → name = name'

variable {f f' : Folder} {name : String} {n : ℕ} {data : Bytes}

/-! ### Bytes -/

/-- The bytes of a regular file. -/
def file? (f : Folder) (name : String) : Option Bytes := (f.readFile name).toOption

theorem readFile_of_file (h : f.names.get? name = some (.file n)) :
    f.readFile name = .ok (f.bytesOf n) := by rw [readFile, h]

theorem readFile_of_none (h : f.names.get? name = none) : f.readFile name = .error .notFound := by
  rw [readFile, h]

theorem file?_eq (f : Folder) (name : String) :
    f.file? name = (f.names.get? name).bind fun
      | .file n => some (f.bytesOf n)
      | _ => none := by
  rw [file?, readFile]
  rcases f.names.get? name with _ | ⟨n⟩ | _ | _ <;> rfl

theorem file?_of_file (h : f.names.get? name = some (.file n)) :
    f.file? name = some (f.bytesOf n) := by rw [file?_eq, h, Option.bind_some]

theorem exists_file_of_file? (h : f.file? name = some data) :
    ∃ n, f.names.get? name = some (.file n) ∧ f.bytesOf n = data := by
  rw [file?_eq, Option.bind_eq_some_iff] at h
  obtain ⟨_ | _ | _, hg, hd⟩ := h
  · exact ⟨_, hg, Option.some.inj hd⟩
  all_goals cases hd

theorem file?_eq_some_iff : f.file? name = some data ↔ f.readFile name = .ok data := by
  unfold file?
  cases f.readFile name <;> simp [Except.toOption]

theorem length_lt_of_file? {limit : ℕ} (hpos : 0 < limit)
    (h : ∀ bytes ∈ f.contents, bytes.length < limit) (hfile : f.file? name = some data) :
    data.length < limit := by
  obtain ⟨n, -, rfl⟩ := exists_file_of_file? hfile
  rw [bytesOf, Array.getD_eq_getD_getElem?]
  cases hn : f.contents[n]? with
  | none => exact hpos
  | some bytes => exact h bytes (Array.mem_of_getElem? hn)

theorem file?_congr (hget : f'.names.get? name = f.names.get? name)
    (hbytes : ∀ n, f.names.get? name = some (.file n) → f'.bytesOf n = f.bytesOf n) :
    f'.file? name = f.file? name := by
  rw [file?_eq, file?_eq, hget]
  rcases hg : f.names.get? name with _ | ⟨n⟩ | _ | _
  · rfl
  · exact congrArg some (hbytes n hg)
  all_goals rfl

theorem bytesOf_setBytes (hn : n < f.contents.size) (data : Bytes) (m : ℕ) :
    (f.setBytes n data).bytesOf m = if m = n then data else f.bytesOf m := by
  simp only [bytesOf, setBytes, Array.getD_eq_getD_getElem?, Array.getElem?_setIfInBounds]
  by_cases hm : m = n
  · subst hm
    simp [hn]
  · rw [if_neg (Ne.symm hm), if_neg hm]

theorem Apart.setData (h : f.Apart) (handle : Handle) (data : Bytes) :
    (f.setData handle data).Apart := by
  cases handle with
  | file n =>
      refine ⟨fun hk => ?_, h.unshared⟩
      have hk := h.bound hk
      rwa [Folder.setData, Folder.setBytes, Array.size_setIfInBounds]
  | fullDevice => exact h

theorem Apart.setBytes (h : f.Apart) (hg : f.names.get? name = some (.file n)) (data : Bytes) :
    (f.setBytes n data).Apart ∧
      (f.setBytes n data).file? = Function.update f.file? name (some data) := by
  have hbytes := bytesOf_setBytes (h.bound hg) data
  refine ⟨h.setData (.file n) data, funext fun k => ?_⟩
  by_cases hk : k = name
  · have hset : (f.setBytes n data).names.get? k = some (.file n) := hk ▸ hg
    rw [file?_of_file hset, hbytes, if_pos rfl, hk, Function.update_self]
  · rw [Function.update_of_ne hk]
    refine file?_congr rfl fun m hm => ?_
    rw [hbytes, if_neg]
    rintro rfl
    exact hk (h.unshared hm hg)

/-! ### Writing and renaming -/

theorem fate_file (n : ℕ) (data : Bytes) : fate (.file n) data = .stored := by cases data <;> rfl

/-- What lets a whole file be written under a name. -/
def Takes (f : Folder) (name : String) : Prop :=
  f.present = true ∧ f.names.get? name ≠ some .folder ∧ f.names.get? name ≠ some .fullDevice

/-- What opening a name for writing gives: a file keeps its bytes, a missing one is made, and no other
is touched. -/
structure Opened (f : Folder) (name : String) (n : ℕ) (f' : Folder) : Prop where
  apart : f'.Apart
  present : f'.present = true
  get : f'.names.get? name = some (.file n)
  bytes : f'.file? name = some ((f.file? name).getD [])
  get_other : ∀ k, k ≠ name → f'.names.get? k = f.names.get? k
  file_other : ∀ k, k ≠ name → f'.file? k = f.file? k

theorem Apart.opened (h : f.Apart) (hopen : f.openForWriting name = .ok (.file n, f')) :
    f.Opened name n f' := by
  unfold Folder.openForWriting at hopen
  split at hopen
  · cases hopen
  · next hpresent =>
    have hpresent : f.present = true := by simpa using hpresent
    split at hopen
    · next hg =>
      cases hopen
      refine ⟨h, hpresent, hg, ?_, fun _ _ => rfl, fun _ _ => rfl⟩
      rw [file?_of_file hg, Option.getD_some]
    · cases hopen
    · cases hopen
    · next hg =>
      cases hopen
      have hunshared : Unshared (f.names.insert name (.file f.contents.size)) :=
        h.unshared.insert fun k _ hk => absurd (h.bound hk) (Nat.lt_irrefl _)
      have hget (k : String) : (f.names.insert name (.file f.contents.size)).get? k =
          if k = name then some (.file f.contents.size) else f.names.get? k := Table.get?_insert ..
      refine ⟨⟨fun {k m} hk => ?_, hunshared⟩, hpresent, by rw [hget, if_pos rfl], ?_,
        fun k hne => (hget k).trans (if_neg hne), fun k hne => ?_⟩
      · rw [Array.size_push]
        simp only [hget] at hk
        split at hk
        · cases hk
          exact Nat.lt_succ_self _
        · exact (h.bound hk).trans (Nat.lt_succ_self _)
      · rw [file?_of_file (hget name |>.trans (if_pos rfl)), file?_eq f, hg]
        simp [bytesOf]
      · refine file?_congr ((hget k).trans (if_neg hne)) fun m hm => ?_
        simp [bytesOf, Array.getElem?_push, (h.bound hm).ne]

/-- What writing a whole file gives. -/
structure Filled (f : Folder) (name : String) (data : Bytes) (f' : Folder) : Prop where
  apart : f'.Apart
  present : f'.present = true
  get : ∃ n, f'.names.get? name = some (.file n)
  get_other : ∀ k, k ≠ name → f'.names.get? k = f.names.get? k
  file : f'.file? = Function.update f.file? name (some data)

theorem Apart.exists_opened (h : f.Apart) (htakes : f.Takes name) :
    ∃ n f', f.openForWriting name = .ok (.file n, f') ∧ f.Opened name n f' := by
  obtain ⟨hpresent, hfolder, hdevice⟩ := htakes
  obtain ⟨n, f', hopen⟩ : ∃ n f', f.openForWriting name = .ok (.file n, f') := by
    rw [openForWriting, hpresent]
    rcases hg : f.names.get? name with _ | ⟨n⟩ | _ | _
    · exact ⟨_, _, rfl⟩
    · exact ⟨_, _, rfl⟩
    · exact absurd hg hfolder
    · exact absurd hg hdevice
  exact ⟨n, f', hopen, h.opened hopen⟩

theorem Apart.fill (h : f.Apart) (htakes : f.Takes name) {obstacle : Handle → Bytes → Option IoCause}
    (data : Bytes) (hfree : ∀ n, obstacle (.file n) data = none) :
    ∃ f', f.fill obstacle name data = (.ok (), f') ∧ f.Filled name data f' := by
  obtain ⟨n, f', hopen, hopened⟩ := h.exists_opened htakes
  obtain ⟨hset, hfile⟩ := hopened.apart.setBytes hopened.get data
  refine ⟨f'.setBytes n data, ?_, hset, hopened.present, ⟨n, hopened.get⟩, hopened.get_other, ?_⟩
  · simp only [Folder.fill, hopen, hfree, Folder.setData]
  · rw [hfile]
    funext k
    by_cases hk : k = name
    · rw [hk, Function.update_self, Function.update_self]
    · rw [Function.update_of_ne hk, Function.update_of_ne hk, hopened.file_other k hk]

theorem writable_file (n : ℕ) (data : Bytes) :
    (writeObstacle (.file n) data).or (syncObstacle (.file n)) = none := by cases data <;> rfl

theorem Apart.writeFile (h : f.Apart) (htakes : f.Takes name) (data : Bytes) :
    ∃ f', f.writeFile name data = (.ok (), f') ∧ f.Filled name data f' :=
  h.fill htakes data fun n => writable_file n data

theorem writeFile_of_not_takes (h : ¬ f.Takes name) (data : Bytes) :
    ∃ cause, f.writeFile name data = (.error cause, f) := by
  unfold Folder.writeFile Folder.fill Folder.openForWriting
  by_cases hpresent : f.present = true
  · rcases hg : f.names.get? name with _ | ⟨n⟩ | _ | _
    · exact absurd ⟨hpresent, by simp [hg], by simp [hg]⟩ h
    · exact absurd ⟨hpresent, by simp [hg], by simp [hg]⟩ h
    · exact ⟨.isFolder, by simp [hpresent]⟩
    · cases data
      · exact ⟨.invalidArgument, by simp [hpresent, writeObstacle, syncObstacle, setData]⟩
      · exact ⟨.noSpace, by simp [hpresent, writeObstacle, setData]⟩
  · exact ⟨.notFound, by simp [hpresent]⟩

/-- A regular file is moved over whatever is no folder. -/
theorem Apart.rename (h : f.Apart) {source target : String} (hsource : f.file? source = some data)
    (htarget : f.names.get? target ≠ some .folder) :
    ∃ f', f.rename source target = .ok f' ∧ f'.Apart ∧ f'.present = f.present ∧
      (∀ k e, f'.names.get? k = some e → (∃ n, e = .file n) ∨ f.names.get? k = some e) ∧
      f'.file? = Function.update (Function.update f.file? source none) target (some data) := by
  obtain ⟨n, hg, rfl⟩ := exists_file_of_file? hsource
  have hget (k : String) : ((f.names.erase source).insert target (.file n)).get? k =
      if k = target then some (.file n) else if k = source then none else f.names.get? k := by
    rw [Table.get?_insert, Table.get?_erase]
  have hold {k : String} {e : Entry}
      (hk : ((f.names.erase source).insert target (.file n)).get? k = some e) :
      e = .file n ∨ f.names.get? k = some e := by
    rw [hget] at hk
    split at hk
    · exact .inl (Option.some.inj hk).symm
    · split at hk
      · cases hk
      · exact .inr hk
  refine ⟨{ f with names := (f.names.erase source).insert target (.file n) }, ?_,
    ⟨fun {k m} hk => ?_, h.unshared.move hg target⟩, rfl, fun k e hk => (hold hk).imp_left
      fun he => ⟨n, he⟩, funext fun k => ?_⟩
  · rw [Folder.rename, hg]
    exact if_neg htarget
  · rcases hold hk with he | hk
    · cases he
      exact h.bound hg
    · exact h.bound hk
  · rw [file?_eq, hget]
    by_cases hkt : k = target
    · rw [if_pos hkt, hkt, Function.update_self]
      rfl
    · rw [if_neg hkt, Function.update_of_ne hkt]
      by_cases hks : k = source
      · rw [if_pos hks, hks, Function.update_self]
        rfl
      · rw [if_neg hks, Function.update_of_ne hks, file?_eq]
        rfl

/-! ### Folders of regular files -/

theorem plain_empty : empty.Plain where
  present := rfl
  file h := by simp [empty] at h
  apart h := by simp [empty] at h

theorem Plain.ensure_eq (h : f.Plain) : f.ensure = f := by
  obtain ⟨present, names, contents⟩ := f
  obtain rfl : present = true := h.present
  rfl

theorem Plain.toApart (h : f.Plain) : f.Apart where
  bound hg := by
    obtain ⟨_, ⟨⟩, hn⟩ := h.file hg
    exact hn
  unshared _ _ _ := h.apart

theorem Plain.of_apart (h : f.Apart) (hpresent : f.present = true)
    (hall : ∀ k e, f.names.get? k = some e → ∃ n, e = .file n) : f.Plain where
  present := hpresent
  file hg := by
    obtain ⟨n, rfl⟩ := hall _ _ hg
    exact ⟨n, rfl, h.bound hg⟩
  apart hk hk' := h.unshared hk hk'

theorem Plain.exists_file (h : f.Plain) (k : String) (e : Entry) (hg : f.names.get? k = some e) :
    ∃ n, e = .file n := by
  obtain ⟨n, he, -⟩ := h.file hg
  exact ⟨n, he⟩

theorem Plain.takes (h : f.Plain) (name : String) : f.Takes name := by
  refine ⟨h.present, fun hg => ?_, fun hg => ?_⟩ <;> obtain ⟨_, ⟨⟩⟩ := h.exists_file name _ hg

theorem Plain.of_other (h : f.Plain) (hf' : f'.Apart) (hpresent : f'.present = true)
    (hg : f'.names.get? name = some (.file n))
    (hother : ∀ k, k ≠ name → f'.names.get? k = f.names.get? k) : f'.Plain := by
  refine .of_apart hf' hpresent fun k e hk => ?_
  by_cases hne : k = name
  · rw [hne, hg] at hk
    exact ⟨n, (Option.some.inj hk).symm⟩
  · exact h.exists_file k e ((hother k hne).symm.trans hk)

theorem Plain.readFile_eq (h : f.Plain) (name : String) :
    f.readFile name = (f.file? name).elim (.error .notFound) .ok := by
  cases hg : f.names.get? name with
  | none => rw [file?_eq, readFile_of_none hg, hg]; rfl
  | some e =>
      obtain ⟨n, rfl⟩ := h.exists_file name e hg
      rw [file?_of_file hg, readFile_of_file hg]
      rfl

theorem Plain.file_of_readFile (h : f.Plain) (hr : f.readFile name = .ok data) :
    ∃ n, f.names.get? name = some (.file n) ∧ n < f.contents.size ∧ f.bytesOf n = data := by
  obtain ⟨n, hg, hdata⟩ := exists_file_of_file? (file?_eq_some_iff.mpr hr)
  exact ⟨n, hg, h.toApart.bound hg, hdata⟩

theorem Plain.setBytes (h : f.Plain) (hg : f.names.get? name = some (.file n)) (data : Bytes) :
    (f.setBytes n data).Plain ∧
      ∀ k, (f.setBytes n data).readFile k = if k = name then .ok data else f.readFile k := by
  obtain ⟨hset, hfile⟩ := h.toApart.setBytes hg data
  have hplain : (f.setBytes n data).Plain := .of_apart hset h.present h.exists_file
  refine ⟨hplain, fun k => ?_⟩
  rw [hplain.readFile_eq, h.readFile_eq, hfile, Function.update_apply]
  split <;> rfl

theorem Plain.openForWriting (h : f.Plain) (name : String) :
    ∃ n f', f.openForWriting name = .ok (.file n, f') ∧ f'.Plain ∧
      f'.names.get? name = some (.file n) ∧ ∀ k, f'.readFile k =
        if k = name then .ok ((f.readFile name).toOption.getD []) else f.readFile k := by
  obtain ⟨n, f', hopen, hopened⟩ := h.toApart.exists_opened (h.takes name)
  have hplain := h.of_other hopened.apart hopened.present hopened.get hopened.get_other
  refine ⟨n, f', hopen, hplain, hopened.get, fun k => ?_⟩
  rw [hplain.readFile_eq]
  split
  · next hk =>
    rw [hk, hopened.bytes]
    rfl
  · next hk => rw [hopened.file_other k hk, h.readFile_eq]

theorem Plain.fill (h : f.Plain) {obstacle : Handle → Bytes → Option IoCause} (name : String)
    (data : Bytes) (hfree : ∀ n, obstacle (.file n) data = none) :
    ∃ f', f.fill obstacle name data = (.ok (), f') ∧ f'.Plain ∧
      ∀ k, f'.readFile k = if k = name then .ok data else f.readFile k := by
  obtain ⟨f', hfill, hfilled⟩ := h.toApart.fill (h.takes name) data hfree
  obtain ⟨n, hg⟩ := hfilled.get
  have hplain := h.of_other hfilled.apart hfilled.present hg hfilled.get_other
  refine ⟨f', hfill, hplain, fun k => ?_⟩
  rw [hplain.readFile_eq, h.readFile_eq, hfilled.file, Function.update_apply]
  split <;> rfl

theorem Plain.writeFile (h : f.Plain) (name : String) (data : Bytes) :
    ∃ f', f.writeFile name data = (.ok (), f') ∧ f'.Plain ∧
      ∀ k, f'.readFile k = if k = name then .ok data else f.readFile k :=
  h.fill name data fun n => writable_file n data

/-- Renaming a file moves it, over what the new name led to. -/
theorem Plain.rename (h : f.Plain) {source : String} (hsource : f.readFile source = .ok data)
    (target : String) :
    ∃ f', f.rename source target = .ok f' ∧ f'.Plain ∧ ∀ k, f'.readFile k =
      if k = target then .ok data else if k = source then .error .notFound else f.readFile k := by
  obtain ⟨f', hrename, hf', hpresent, hget, hfile⟩ :=
    h.toApart.rename (file?_eq_some_iff.mpr hsource) (h.takes target).2.1
  have hplain : f'.Plain := .of_apart hf' (hpresent.trans h.present) fun k e hk =>
    (hget k e hk).elim id (h.exists_file k e)
  refine ⟨f', hrename, hplain, fun k => ?_⟩
  rw [hplain.readFile_eq, h.readFile_eq, hfile, Function.update_apply, Function.update_apply]
  split
  · rfl
  · split <;> rfl

/-! ### Cutting and removing -/

/-- Changing a file in place changes what one name reads as. -/
theorem Plain.changeFile (h : f.Plain) (hr : f.readFile name = .ok data) (change : Bytes → Bytes) :
    ∃ f', f.changeFile name change = .ok f' ∧ f'.Plain ∧
      ∀ k, f'.readFile k = if k = name then .ok (change data) else f.readFile k := by
  obtain ⟨n, hg, hn, rfl⟩ := h.file_of_readFile hr
  obtain ⟨hset, hread⟩ := h.setBytes hg (change (f.bytesOf n))
  exact ⟨_, by rw [Folder.changeFile, hg], hset, hread⟩

/-- A file that is removed cannot be read any more. -/
theorem Plain.remove (h : f.Plain) (hr : f.readFile name = .ok data) :
    ∃ f', f.remove name = .ok f' ∧ f'.Plain ∧
      ∀ k, f'.readFile k = if k = name then .error .notFound else f.readFile k := by
  obtain ⟨n, hg, -⟩ := h.file_of_readFile hr
  have hunshared : Unshared (f.names.erase name) := h.toApart.unshared.erase name
  refine ⟨{ f with names := f.names.erase name }, by rw [Folder.remove, hg],
    ⟨h.present, fun {k e} hk => ?_, fun hk hk' => hunshared hk hk'⟩, fun k => ?_⟩
  · simp only [Table.get?_erase] at hk
    split at hk
    · cases hk
    · exact h.file hk
  · simp only [readFile, Table.get?_erase]
    split_ifs <;> rfl

/-! ### Listing -/

theorem Plain.list (h : f.Plain) :
    ∃ names, f.list = .ok names ∧ names.Pairwise (· < ·) ∧
      ∀ k, k ∈ names ↔ ∃ data, f.readFile k = .ok data := by
  refine ⟨_, by rw [Folder.list, if_pos h.present], f.names.pairwise_mergeSort_keys, fun k => ?_⟩
  rw [List.mem_mergeSort, Table.mem_keys_iff]
  constructor
  · rintro ⟨e, hg⟩
    obtain ⟨n, rfl, -⟩ := h.file hg
    exact ⟨_, readFile_of_file hg⟩
  · rintro ⟨data, hr⟩
    obtain ⟨n, hg, -⟩ := h.file_of_readFile hr
    exact ⟨_, hg⟩

/-- The files are all that is listed. -/
theorem Plain.listFiles (h : f.Plain) : f.listFiles = f.list := by
  obtain ⟨names, hlist, -, hmem⟩ := h.list
  rw [Folder.listFiles, hlist]
  refine congrArg Except.ok (List.filter_eq_self.mpr fun k hk => ?_)
  obtain ⟨data, hr⟩ := (hmem k).mp hk
  obtain ⟨n, hg, -⟩ := h.file_of_readFile hr
  rw [hg]

end Folder
end Segment
end SnapshotStore

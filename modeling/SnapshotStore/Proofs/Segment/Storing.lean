import SnapshotStore.Proofs.Segment.Replacing
import Mathlib.Order.Bounds.Defs

/-! # Segments in any folder

The segments of an archive are the regular files under names of segments, whatever else is in the
folder.  They are listed in order (`listed_of_segmentNames`), and the next one after a name is the least
(`next?_of_segmentNames`).

If nothing is in the way of a segment, it is stored and all others are as they were (`Admits.store`);
otherwise all are as they were (`store_of_not_admits`).  Both need names that lead to different files,
and whatever is done with an archive, they do (`apart_run`). -/

namespace SnapshotStore
namespace Segment
namespace Archive

/-! ### Segments -/

/-- The bytes of a segment: of the regular file under the name, if it is that of a segment. -/
def segment? (a : Archive) (name : String) : Option Bytes :=
  if (id? name).isSome then a.folder.file? name else none

variable {a : Archive} {name : String} {data : Bytes} {names : List String}

theorem segment?_eq_some_iff :
    a.segment? name = some data ↔ (id? name).isSome ∧ a.folder.file? name = some data := by
  rw [segment?]
  split
  · next hid => simp [hid]
  · next hid => simp [hid]

/-- The names that are listed are those of the segments, in order. -/
theorem listed_of_segmentNames (h : a.segmentNames = .ok names) :
    names.Pairwise (· < ·) ∧ ∀ k, k ∈ names ↔ (a.segment? k).isSome := by
  unfold segmentNames Folder.listFiles Folder.list at h
  split at h
  · have hnames := Except.ok.inj h
    subst hnames
    have hsorted := a.folder.names.pairwise_mergeSort_keys
    refine ⟨(hsorted.filter _).filter _, fun k => ?_⟩
    rw [List.mem_filter, List.mem_filter, List.mem_mergeSort, Table.mem_keys_iff, segment?,
      Folder.file?_eq]
    by_cases hid : (id? k).isSome
    · rcases a.folder.names.get? k with _ | ⟨n⟩ | _ | _ <;> simp [hid]
    · simp [hid]
  · cases h

/-- The next segment is the least one after the name. -/
theorem next?_of_segmentNames (h : a.segmentNames = .ok names) (after : String) :
    (a.next? after = .ok none ∧ ∀ k ∈ names, ¬ after < k) ∨
      ∃ name, a.next? after = .ok (some name) ∧ IsLeast {k | k ∈ names ∧ after < k} name := by
  obtain ⟨hsorted, -⟩ := listed_of_segmentNames h
  have hnext : a.next? after = .ok (names.find? fun name => after < name) := by
    rw [next?, h]
    rfl
  rw [hnext]
  cases hfind : names.find? fun name => after < name with
  | none => exact .inl ⟨rfl, by simpa using hfind⟩
  | some name =>
      obtain ⟨hafter, before, rest, rfl, hbefore⟩ := List.find?_eq_some_iff_append.mp hfind
      refine .inr ⟨name, rfl, ⟨by simp, of_decide_eq_true hafter⟩, fun k ⟨hk, hlt⟩ => ?_⟩
      rcases List.mem_append.mp hk with hk | hk
      · have hnot := hbefore k hk
        simp [hlt] at hnot
      · rcases List.mem_cons.mp hk with rfl | hk
        · exact le_refl _
        · have hrest := (List.pairwise_append.mp hsorted).2.1
          exact ((List.pairwise_cons.mp hrest).1 k hk).le

theorem segment?_update_of_id?_eq_none {a' : Archive} {bytes : Option Bytes} (hid : id? name = none)
    (h : a'.folder.file? = Function.update a.folder.file? name bytes) :
    a'.segment? = a.segment? := by
  funext k
  unfold segment?
  split
  · next hk =>
    have hne : k ≠ name := by
      rintro rfl
      simp [hid] at hk
    rw [h, Function.update_of_ne hne]
  · rfl

/-- What lets a segment be stored under a name. -/
structure Admits (a : Archive) (name : String) : Prop where
  named : (id? name).isSome
  takes : a.folder.Takes (temporary name)
  free : a.folder.names.get? name ≠ some .folder

theorem ne_temporary (h : (id? name).isSome) (name' : String) : name ≠ temporary name' := by
  rintro rfl
  simp [id?_temporary] at h

/-- A segment that can be stored is, and all others stay as they are. -/
theorem Admits.store (h : a.Admits name) (hfiles : a.folder.Apart) (data : Bytes) :
    ∃ a', a.store name data = (.ok (), a') ∧ a'.folder.Apart ∧
      a'.segment? = Function.update a.segment? name (some data) := by
  obtain ⟨id, hid⟩ := Option.isSome_iff_exists.mp h.named
  obtain ⟨folder, hwrite, hfilled⟩ := hfiles.writeFile h.takes data
  have hsource : folder.file? (temporary name) = some data := by
    rw [hfilled.file, Function.update_self]
  have htarget : folder.names.get? name ≠ some .folder := by
    rw [hfilled.get_other name (ne_temporary h.named name)]
    exact h.free
  obtain ⟨folder', hrename, hfolder', -, -, hfile'⟩ := hfilled.apart.rename hsource htarget
  refine ⟨{ a with folder := folder', upcoming := max a.upcoming (nextId id) }, ?_, hfolder',
    funext fun k => ?_⟩
  · simp only [Archive.store, checkName_of_id? hid, hwrite, hrename]
  · by_cases hk : k = name
    · subst hk
      simp only [segment?, h.named, if_true, hfile', Function.update_self]
    · rw [Function.update_of_ne hk]
      unfold segment?
      split
      · next hidk =>
        have htemp := ne_temporary hidk name
        simp only [hfile', hfilled.file, Function.update_of_ne hk, Function.update_of_ne htemp]
      · rfl

/-- If a segment cannot be stored, all stay as they are. -/
theorem store_of_not_admits (h : ¬ a.Admits name) (hfiles : a.folder.Apart) (data : Bytes) :
    ∃ fault a', a.store name data = (.error fault, a') ∧ a'.folder.Apart ∧
      a'.segment? = a.segment? := by
  cases hid : id? name with
  | none =>
      obtain ⟨fault, hstore⟩ : ∃ fault, a.store name data = (.error fault, a) :=
        store_of_id?_eq_none hid data
      exact ⟨fault, a, hstore, hfiles, rfl⟩
  | some id =>
      have hnamed : (id? name).isSome := by rw [hid]; rfl
      by_cases htakes : a.folder.Takes (temporary name)
      · have hblocked : a.folder.names.get? name = some .folder := by
          by_contra hfree
          exact h ⟨hnamed, htakes, hfree⟩
        obtain ⟨folder, hwrite, hfilled⟩ := hfiles.writeFile htakes data
        obtain ⟨n, hg⟩ := hfilled.get
        have hrename : folder.rename (temporary name) name = .error .isFolder := by
          rw [Folder.rename, hg]
          exact if_pos ((hfilled.get_other name (ne_temporary hnamed name)).trans hblocked)
        refine ⟨.io .isFolder, { a with folder }, ?_, hfilled.apart,
          segment?_update_of_id?_eq_none (id?_temporary name) hfilled.file⟩
        simp only [store, checkName_of_id? hid, hwrite, hrename]
      · obtain ⟨cause, hwrite⟩ := Folder.writeFile_of_not_takes htakes data
        refine ⟨.io cause, { a with folder := a.folder }, ?_, hfiles, rfl⟩
        simp only [store, checkName_of_id? hid, hwrite]

theorem store_eq_ok_iff (hfiles : a.folder.Apart) :
    (a.store name data).1 = .ok () ↔ a.Admits name := by
  constructor
  · intro hok
    by_contra h
    obtain ⟨fault, a', hstore, -⟩ := store_of_not_admits h hfiles data
    rw [hstore] at hok
    cases hok
  · intro h
    obtain ⟨a', hstore, -⟩ := h.store hfiles data
    rw [hstore]

/-! ### Archives in use -/

theorem apart_rotate (hfiles : a.folder.Apart) : a.rotate.2.folder.Apart := by
  unfold rotate
  split
  · exact hfiles
  · next handle folder hopen =>
    cases handle with
    | file n => exact (hfiles.opened hopen).apart
    | fullDevice =>
        obtain rfl : folder = a.folder := by
          unfold Folder.openForWriting at hopen
          split at hopen
          · cases hopen
          · split at hopen <;> cases hopen
            rfl
        exact hfiles

theorem apart_appendWith (hfiles : a.folder.Apart) (fate : Handle → Bytes → WriteFate)
    (data : Bytes) : (a.appendWith fate data).2.folder.Apart := by
  have htarget : a.target.2.folder.Apart := by
    unfold target
    split
    · split
      · exact apart_rotate hfiles
      · exact hfiles
    · exact apart_rotate hfiles
  unfold appendWith
  rcases htarget' : a.target with ⟨_ | active, a'⟩ <;> rw [htarget'] at htarget
  · exact htarget
  · dsimp only
    unfold writeTo
    dsimp only
    split <;> exact htarget.setData ..

theorem apart_step {g : History} (h : g.archive.folder.Apart) (call : Call) :
    (g.step call).archive.folder.Apart := by
  cases call with
  | append data fate =>
      have happend := apart_appendWith h (fun _ _ => fate) data
      rw [History.step]
      rcases hout : g.archive.appendWith (fun _ _ => fate) data with ⟨_ | _, a'⟩ <;>
        rw [hout] at happend <;> exact happend
  | store name data =>
      rw [History.step]
      by_cases hadmits : g.archive.Admits name
      · obtain ⟨a', hstore, hfiles, -⟩ := hadmits.store h data
        rw [hstore]
        exact hfiles
      · obtain ⟨fault, a', hstore, hfiles, -⟩ := store_of_not_admits hadmits h data
        rw [hstore]
        exact hfiles
  | ship name =>
      rw [History.step]
      unfold ship
      split
      · exact h
      · dsimp only
        split <;> exact h
  | reopen bound => exact ⟨h.bound, h.unshared⟩

/-- Whatever is done with an archive, its names lead to different files if they did so at first. -/
theorem apart_run {folder : Folder} (h : folder.Apart) (bound : ℕ) (calls : List Call) :
    (calls.foldl History.step (.start folder bound)).archive.folder.Apart := by
  induction calls using List.reverseRecOn with
  | nil => exact ⟨h.bound, h.unshared⟩
  | append_singleton calls call ih =>
      rw [List.foldl_append]
      exact apart_step ih call

end Archive
end Segment
end SnapshotStore

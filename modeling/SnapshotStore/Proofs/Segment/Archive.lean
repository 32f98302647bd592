import SnapshotStore.Segment.Log
import SnapshotStore.Proofs.Segment.Folder
import SnapshotStore.Proofs.Segment.Name

/-! # What an archive holds

`Archive.Holds` says which segments are in the folder of an archive; these are the ones that it lists
and reads, in the order of their names (`Holds.segments_eq`).  A whole segment that is stored under a
name after all others is added at the end (`Holds.store_concat`), and a segment with a bad name is not
stored at all. -/

namespace SnapshotStore
namespace Segment
namespace Archive

/-- The segments in the folder of an archive, in the order of their names. -/
structure Holds (a : Archive) (segs : List (String × Bytes)) : Prop where
  plain : a.folder.Plain
  sorted : (segs.map Prod.fst).Pairwise (· < ·)
  mem_iff : ∀ s, s ∈ segs ↔ (id? s.1).isSome ∧ a.folder.readFile s.1 = .ok s.2

variable {a : Archive} {segs : List (String × Bytes)}

theorem holds_mount_empty (bound : ℕ) : (mount Folder.empty bound).Holds [] where
  plain := Folder.plain_empty
  sorted := .nil
  mem_iff s := by
    simp [mount, Folder.ensure, Folder.empty, Folder.readFile]

theorem Holds.reopen (h : a.Holds segs) (bound : ℕ) : (a.reopen bound).Holds segs := by
  have hfolder : (a.reopen bound).folder = a.folder := h.plain.ensure_eq
  exact ⟨hfolder ▸ h.plain, h.sorted, fun s => hfolder ▸ h.mem_iff s⟩

theorem Holds.of_files (hplain : a.folder.Plain) (hsorted : (segs.map Prod.fst).Pairwise (· < ·))
    (hfound : ∀ s ∈ segs, (id? s.1).isSome ∧ a.folder.readFile s.1 = .ok s.2)
    (hall : ∀ k ∈ a.folder.names.keys, k ∈ segs.map Prod.fst) : a.Holds segs := by
  refine ⟨hplain, hsorted, fun s => ⟨hfound s, fun ⟨_, hr⟩ => ?_⟩⟩
  obtain ⟨n, hget, -⟩ := hplain.file_of_readFile hr
  obtain ⟨s', hs', hname⟩ := List.mem_map.mp (hall s.1 ((Table.mem_keys_iff _ _).mpr ⟨_, hget⟩))
  have hr' := (hfound s' hs').2
  rw [hname, hr] at hr'
  rwa [show s = s' from Prod.ext hname.symm (Except.ok.inj hr')]

/-! ### Reading -/

theorem Holds.segmentNames_eq (h : a.Holds segs) : a.segmentNames = .ok (segs.map Prod.fst) := by
  obtain ⟨names, hlist, hnames, hmem⟩ := h.plain.list
  rw [segmentNames, h.plain.listFiles, hlist]
  refine congrArg Except.ok ?_
  refine List.Pairwise.eq_of_mem_iff (hnames.filter _) h.sorted fun name => ?_
  rw [List.mem_filter, hmem, List.mem_map]
  constructor
  · rintro ⟨⟨data, hr⟩, hid⟩
    exact ⟨(name, data), (h.mem_iff _).mpr ⟨hid, hr⟩, rfl⟩
  · rintro ⟨s, hs, rfl⟩
    obtain ⟨hid, hr⟩ := (h.mem_iff s).mp hs
    exact ⟨⟨_, hr⟩, hid⟩

theorem Holds.last?_eq (h : a.Holds segs) : a.last? = .ok (segs.getLast?.map Prod.fst) := by
  rw [last?, h.segmentNames_eq, ← List.getLast?_map]
  rfl

theorem Holds.read_eq (h : a.Holds segs) {name : String} {data : Bytes}
    (hs : (name, data) ∈ segs) : a.read name = .ok data := by
  obtain ⟨hid, hr⟩ := (h.mem_iff _).mp hs
  obtain ⟨id, hid⟩ := Option.isSome_iff_exists.mp hid
  rw [read, checkName_of_id? hid]
  exact congrArg lift hr

/-- The archive gives all its segments. -/
theorem Holds.segments_eq (h : a.Holds segs) : a.segments = .ok segs := by
  have hread : ∀ s ∈ segs, (do return (s.1, ← a.read s.1)) = (.ok s : Outcome (String × Bytes)) :=
    fun s hs => by
      rw [h.read_eq hs]
      rfl
  have hall (l : List (String × Bytes)) (hl : ∀ s ∈ l, s ∈ segs) :
      (l.map Prod.fst).mapM (fun name => do return (name, ← a.read name)) =
        (.ok l : Outcome (List (String × Bytes))) := by
    induction l with
    | nil => rfl
    | cons s l ih =>
        rw [List.map_cons, List.mapM_cons, hread s (hl s (List.mem_cons_self ..)),
          ih fun q hq => hl q (List.mem_cons_of_mem _ hq)]
        rfl
  rw [segments, h.segmentNames_eq]
  exact hall segs fun _ hs => hs

theorem Holds.readLog_eq (h : a.Holds segs) : a.readLog = .ok (recovered segs) := by
  rw [readLog, h.segments_eq]
  rfl

theorem records_recovered_concat (segs : List (String × Bytes)) (s : String × Bytes) :
    (recovered (segs ++ [s])).records = (recovered segs).records ++ (Journal.decode s.2).records := by
  simp [recovered]

theorem le_last_of_sorted (hsorted : (segs.map Prod.fst).Pairwise (· < ·)) {s : String × Bytes}
    (hs : s ∈ segs) : s.1 ≤ (segs.getLast?.map Prod.fst).getD "" := by
  rcases List.eq_nil_or_concat segs with rfl | ⟨segs', q, rfl⟩
  · cases hs
  · rw [List.concat_eq_append, List.map_append, List.pairwise_append] at hsorted
    rw [List.concat_eq_append] at hs ⊢
    rw [List.getLast?_append]
    rcases List.mem_append.mp hs with hs | hs
    · exact (hsorted.2.2 _ (List.mem_map_of_mem hs) _ (List.mem_singleton.mpr rfl)).le
    · rw [List.mem_singleton.mp hs]
      exact le_refl _

theorem Holds.le_last (h : a.Holds segs) {s : String × Bytes} (hs : s ∈ segs) :
    s.1 ≤ (segs.getLast?.map Prod.fst).getD "" := le_last_of_sorted h.sorted hs

/-! ### Changes to the folder -/

section changed
variable {a' : Archive} {A B : List (String × Bytes)} {name : String} {data data' : Bytes}

/-- A new file after all segments is one more segment. -/
theorem Holds.concat (h : a.Holds segs) (hid : (id? name).isSome) (hlast : ∀ s ∈ segs, s.1 < name)
    (hplain : a'.folder.Plain) (hr : ∀ k, (id? k).isSome →
      a'.folder.readFile k = if k = name then .ok data else a.folder.readFile k) :
    a'.Holds (segs ++ [(name, data)]) := by
  refine ⟨hplain, ?_, fun s => ?_⟩
  · rw [List.map_append, List.pairwise_append]
    refine ⟨h.sorted, List.pairwise_singleton .., fun k hk k' hk' => ?_⟩
    obtain ⟨s, hs, rfl⟩ := List.mem_map.mp hk
    obtain rfl := List.mem_singleton.mp hk'
    exact hlast s hs
  · rw [List.mem_append, List.mem_singleton, h.mem_iff]
    constructor
    · rintro (⟨hs, hread⟩ | rfl)
      · have hne : s.1 ≠ name := ne_of_lt (hlast s ((h.mem_iff s).mpr ⟨hs, hread⟩))
        exact ⟨hs, by rw [hr _ hs, if_neg hne, hread]⟩
      · exact ⟨hid, by rw [hr _ hid, if_pos rfl]⟩
    · rintro ⟨hs, hread⟩
      rw [hr _ hs] at hread
      split at hread
      · next hk => exact .inr (Prod.ext hk (Except.ok.inj hread).symm)
      · exact .inl ⟨hs, hread⟩

theorem Holds.ne_of_mem (h : a.Holds (A ++ (name, data) :: B)) {s : String × Bytes}
    (hs : s ∈ A ++ B) : s.1 ≠ name := by
  have hnodup : ((A ++ (name, data) :: B).map Prod.fst).Nodup := h.sorted.imp ne_of_lt
  rw [List.map_append, List.map_cons, List.nodup_middle, List.nodup_cons, ← List.map_append]
    at hnodup
  have hm : s.1 ∈ (A ++ B).map Prod.fst := List.mem_map_of_mem hs
  exact fun hn => hnodup.1 (hn ▸ hm)

/-- A segment with other bytes. -/
theorem Holds.replace (h : a.Holds (A ++ (name, data) :: B)) (hplain : a'.folder.Plain)
    (hr : ∀ k, a'.folder.readFile k = if k = name then .ok data' else a.folder.readFile k) :
    a'.Holds (A ++ (name, data') :: B) := by
  refine ⟨hplain, ?_, fun s => ?_⟩
  · have hsorted := h.sorted
    rw [List.map_append, List.map_cons] at hsorted ⊢
    exact hsorted
  · have hold : (id? name).isSome ∧ a.folder.readFile name = .ok data :=
      (h.mem_iff (name, data)).mp (by simp)
    have hother := h.mem_iff s
    simp only [List.mem_append, List.mem_cons] at hother ⊢
    rw [hr]
    by_cases hs : s.1 = name
    · have hnot : ¬ (s ∈ A ∨ s ∈ B) := fun hm => h.ne_of_mem (List.mem_append.mpr hm) hs
      rw [if_pos hs, hs]
      constructor
      · rintro (hA | rfl | hB)
        · exact absurd (.inl hA) hnot
        · exact ⟨hold.1, rfl⟩
        · exact absurd (.inr hB) hnot
      · rintro ⟨-, hdata⟩
        exact .inr (.inl (Prod.ext hs (Except.ok.inj hdata).symm))
    · have hne (d : Bytes) : s ≠ (name, d) := fun he => hs (congrArg Prod.fst he)
      rw [if_neg hs, ← hother]
      simp [hne]

/-- A segment is gone. -/
theorem Holds.erase (h : a.Holds (A ++ (name, data) :: B)) (hplain : a'.folder.Plain)
    (hr : ∀ k, a'.folder.readFile k = if k = name then .error .notFound else a.folder.readFile k) :
    a'.Holds (A ++ B) := by
  refine ⟨hplain, ?_, fun s => ?_⟩
  · refine h.sorted.sublist (List.Sublist.map _ ?_)
    exact List.Sublist.append_left (List.sublist_cons_self ..) A
  · have hother := h.mem_iff s
    simp only [List.mem_append, List.mem_cons] at hother ⊢
    rw [hr]
    by_cases hs : s.1 = name
    · rw [if_pos hs]
      constructor
      · exact fun hm => absurd hs (h.ne_of_mem (List.mem_append.mpr hm))
      · rintro ⟨-, hread⟩
        cases hread
    · have hne : s ≠ (name, data) := fun he => hs (congrArg Prod.fst he)
      rw [if_neg hs, ← hother]
      simp [hne]

end changed

/-! ### Storing -/

theorem store_plain (h : a.folder.Plain) {name : String} {id : ℕ} (hid : id? name = some id)
    (data : Bytes) : ∃ folder, a.store name data =
        (.ok (), { a with folder, upcoming := max a.upcoming (nextId id) }) ∧ folder.Plain ∧
      ∀ k, folder.readFile k = if k = name then .ok data
        else if k = temporary name then .error .notFound else a.folder.readFile k := by
  obtain ⟨f₁, hwrite, h₁, hr₁⟩ := h.writeFile (temporary name) data
  obtain ⟨f₂, hrename, h₂, hr₂⟩ :=
    h₁.rename (by rw [hr₁, if_pos rfl] : f₁.readFile (temporary name) = .ok data) name
  refine ⟨f₂, ?_, h₂, fun k => ?_⟩
  · simp only [store, checkName_of_id? hid, hwrite, hrename]
  · rw [hr₂, hr₁]
    split
    · rfl
    · split <;> rfl

theorem store_of_id?_eq_none {name : String} (hid : id? name = none) (data : Bytes) :
    ∃ fault, a.store name data = (.error fault, a) := by
  simp only [store, checkName, hid]
  exact ⟨_, rfl⟩

theorem Holds.store_concat (h : a.Holds segs) {name : String} {id : ℕ} (hid : id? name = some id)
    (hlast : ∀ s ∈ segs, s.1 < name) (data : Bytes) :
    ∃ a', a.store name data = (.ok (), a') ∧ a'.Holds (segs ++ [(name, data)]) := by
  obtain ⟨folder, hstore, hplain, hr⟩ := store_plain h.plain hid data
  refine ⟨_, hstore, h.concat (by simp [hid]) hlast hplain fun k hk => ?_⟩
  have htemp : k ≠ temporary name := fun ht => by simp [ht, id?_temporary] at hk
  rw [hr, if_neg htemp]

end Archive
end Segment
end SnapshotStore

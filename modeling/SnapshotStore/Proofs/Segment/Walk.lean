import SnapshotStore.Proofs.Segment.Storing
import SnapshotStore.Proofs.Text.Utf8

/-! # Walking through the segments

Segment names stand for numbers one to one (`id?_eq_some_iff_name`), in the order of the numbers
(`lt_iff_precedes`).  So whatever else is in a folder, the next segment after a text is the first one that
comes after it (`next?_eq_iff`), and a walk that asks for the next segment again and again, from the empty
text on, visits every segment once, in the order of their numbers (`walk_by_names`). -/

namespace SnapshotStore
namespace Segment

open Text (Precedes precedes_iff)

variable {s : String} {m n : ℕ}

/-! ### Names and numbers -/

/-- A text is the name of a number that fits in eight bytes, or no segment name at all. -/
theorem id?_eq_some_iff_name : id? s = some n ↔ n < 2 ^ 64 ∧ s = name n := by
  constructor
  · intro h
    obtain ⟨-, -, -, -, -, hlimit⟩ := id?_eq_some_iff.mp h
    exact ⟨hlimit, eq_name_of_id? h⟩
  · rintro ⟨hlimit, rfl⟩
    exact id?_name hlimit

theorem lt_iff_precedes (hm : m < 2 ^ 64) (hn : n < 2 ^ 64) : m < n ↔ Precedes (name m) (name n) := by
  rw [precedes_iff]
  constructor
  · intro h
    exact name_lt_name h hn
  · intro h
    by_contra hnot
    obtain heq | hlt := (Nat.le_of_not_lt hnot).eq_or_lt
    · rw [heq] at h
      exact lt_irrefl _ h
    · exact lt_asymm h (name_lt_name hlt hm)

theorem map_name_filterMap_id? {names : List String} (h : ∀ s ∈ names, (id? s).isSome) :
    (names.filterMap id?).map name = names := by
  induction names with
  | nil => rfl
  | cons s names ih =>
      obtain ⟨hs, hnames⟩ := List.forall_mem_cons.mp h
      obtain ⟨n, hn⟩ := Option.isSome_iff_exists.mp hs
      rw [List.filterMap_cons_some hn, List.map_cons, ih hnames, ← eq_name_of_id? hn]

namespace Archive

variable {a : Archive} {names before rest visited visited' : List String} {after next : String}
  {found found' : Option String}

/-! ### The next segment -/

/-- The segment that comes next after a text: the first of those that come after it in the order of their
bytes, if there are any. -/
def IsNext (a : Archive) (after : String) : Option String → Prop
  | none => ∀ s, (a.segment? s).isSome → ¬ Precedes after s
  | some next => (a.segment? next).isSome ∧ Precedes after next ∧
      ∀ s, (a.segment? s).isSome → Precedes after s → s = next ∨ Precedes next s

theorem IsNext.unique (h : a.IsNext after found) (h' : a.IsNext after found') : found = found' := by
  cases found with
  | none =>
      cases found' with
      | none => rfl
      | some next => exact absurd h'.2.1 (h next h'.1)
  | some next =>
      cases found' with
      | none => exact absurd h.2.1 (h' next h.1)
      | some next' =>
          obtain heq | hlt := h.2.2 next' h'.1 h'.2.1
          · rw [heq]
          · obtain heq | hlt' := h'.2.2 next h.1 h.2.1
            · rw [heq]
            · exact absurd (precedes_iff.mp hlt) (lt_asymm (precedes_iff.mp hlt'))

theorem exists_segmentNames (h : a.folder.present = true) : ∃ names, a.segmentNames = .ok names := by
  unfold segmentNames Folder.listFiles Folder.list
  rw [if_pos h]
  exact ⟨_, rfl⟩

theorem exists_isNext (h : a.folder.present = true) (after : String) :
    ∃ found, a.next? after = .ok found ∧ a.IsNext after found := by
  obtain ⟨names, hnames⟩ := exists_segmentNames h
  obtain ⟨-, hmem⟩ := listed_of_segmentNames hnames
  obtain ⟨hnext, hnone⟩ | ⟨next, hnext, ⟨hin, hafter⟩, hleast⟩ := next?_of_segmentNames hnames after
  · refine ⟨none, hnext, ?_⟩
    intro s hs hlt
    exact hnone s ((hmem s).mpr hs) (precedes_iff.mp hlt)
  · refine ⟨some next, hnext, (hmem next).mp hin, precedes_iff.mpr hafter, ?_⟩
    intro s hs hlt
    have hle : next ≤ s := hleast ⟨(hmem s).mpr hs, precedes_iff.mp hlt⟩
    obtain heq | hlt := hle.eq_or_lt
    · exact .inl heq.symm
    · exact .inr (precedes_iff.mpr hlt)

theorem next?_eq_iff (h : a.folder.present = true) : a.next? after = .ok found ↔ a.IsNext after found := by
  obtain ⟨found', hnext, hisNext⟩ := exists_isNext h after
  constructor
  · intro hfound
    rw [hnext] at hfound
    obtain rfl := Except.ok.inj hfound
    exact hisNext
  · intro hfound
    rw [hnext, hisNext.unique hfound]

/-! ### Walks -/

/-- What is visited after a text if each segment is asked for by the name of the one before, until there is
no next one. -/
inductive Walks (a : Archive) : String → List String → Prop
  | stop {after : String} (h : a.next? after = .ok none) : Walks a after []
  | step {after next : String} {visited : List String} (h : a.next? after = .ok (some next))
      (hrest : Walks a next visited) : Walks a after (next :: visited)

theorem Walks.unique (h : a.Walks after visited) (h' : a.Walks after visited') : visited = visited' := by
  induction h generalizing visited' with
  | stop hnone =>
      cases h' with
      | stop => rfl
      | step hnext =>
          rw [hnone] at hnext
          cases hnext
  | step hnext hrest ih =>
      cases h' with
      | stop hnone =>
          rw [hnext] at hnone
          cases hnone
      | step hnext' hrest' =>
          rw [hnext] at hnext'
          cases hnext'
          rw [ih hrest']

theorem next?_of_append (hnames : a.segmentNames = .ok (before ++ rest))
    (hbefore : ∀ s ∈ before, ¬ after < s) (hrest : ∀ s ∈ rest, after < s) :
    a.next? after = .ok rest.head? := by
  have hskip : before.find? (fun s => after < s) = none := by simpa using hbefore
  have hfirst : rest.find? (fun s => after < s) = rest.head? := by
    cases rest with
    | nil => rfl
    | cons s rest => exact List.find?_cons_of_pos (by simpa using hrest s (List.mem_cons_self ..))
  rw [next?, hnames]
  show Except.ok ((before ++ rest).find? fun s => after < s) = _
  rw [List.find?_append, hskip, Option.none_or, hfirst]

theorem walks_of_append (hnames : a.segmentNames = .ok (before ++ rest))
    (hbefore : ∀ s ∈ before, ¬ after < s) (hrest : ∀ s ∈ rest, after < s) : a.Walks after rest := by
  induction rest generalizing before after with
  | nil => exact .stop (next?_of_append hnames hbefore hrest)
  | cons s rest ih =>
      refine .step (next?_of_append hnames hbefore hrest) ?_
      have hsorted := List.pairwise_append.mp (listed_of_segmentNames hnames).1
      rw [List.append_cons] at hnames
      refine ih hnames ?_ (List.pairwise_cons.mp hsorted.2.1).1
      intro k hk
      obtain hk | hk := List.mem_append.mp hk
      · exact lt_asymm (hsorted.2.2 k hk s (List.mem_cons_self ..))
      · rw [List.mem_singleton.mp hk]
        exact lt_irrefl s

/-- Segment names are an order-preserving bijection with the numbers of eight bytes, and a walk by names
visits every segment once.

* A text has a number if and only if it is the name of this number, and the numbers are in the order of the
  bytes of their names.
* Whatever is in the folder, the next segment after a text is the least one that comes after it.
* A walk from the empty text visits the segments in the order of their numbers, each of them once, and then
  there is no next one. -/
theorem walk_by_names (hpresent : a.folder.present = true) :
    (∀ s n, id? s = some n ↔ n < 2 ^ 64 ∧ s = name n) ∧
    (∀ m n, m < 2 ^ 64 → n < 2 ^ 64 → (m < n ↔ Precedes (name m) (name n))) ∧
    (∀ after found, a.next? after = .ok found ↔ a.IsNext after found) ∧
    ∃ numbers : List ℕ, numbers.Pairwise (· < ·) ∧
      (∀ n, n ∈ numbers ↔ n < 2 ^ 64 ∧ (a.segment? (name n)).isSome) ∧
      ∀ visited, a.Walks "" visited ↔ visited = numbers.map name := by
  refine ⟨fun _ _ => id?_eq_some_iff_name, fun _ _ => lt_iff_precedes, fun _ _ => next?_eq_iff hpresent, ?_⟩
  obtain ⟨names, hnames⟩ := exists_segmentNames hpresent
  obtain ⟨hsorted, hmem⟩ := listed_of_segmentNames hnames
  have hnamed : ∀ s ∈ names, (id? s).isSome := by
    intro s hs
    obtain ⟨data, hdata⟩ := Option.isSome_iff_exists.mp ((hmem s).mp hs)
    exact (segment?_eq_some_iff.mp hdata).1
  have hmap := map_name_filterMap_id? hnamed
  have hnumber (n : ℕ) : n ∈ names.filterMap id? ↔ n < 2 ^ 64 ∧ (a.segment? (name n)).isSome := by
    rw [List.mem_filterMap]
    constructor
    · rintro ⟨s, hs, hn⟩
      obtain ⟨hlimit, rfl⟩ := id?_eq_some_iff_name.mp hn
      exact ⟨hlimit, (hmem _).mp hs⟩
    · rintro ⟨hlimit, hn⟩
      exact ⟨name n, (hmem _).mpr hn, id?_name hlimit⟩
  refine ⟨names.filterMap id?, ?_, hnumber, ?_⟩
  · rw [← hmap, List.pairwise_map] at hsorted
    refine hsorted.imp_of_mem ?_
    intro m n hm hn hlt
    exact (lt_iff_precedes ((hnumber m).mp hm).1 ((hnumber n).mp hn).1).mpr (precedes_iff.mpr hlt)
  · have hwalk : a.Walks "" names := by
      have hall : a.segmentNames = .ok ([] ++ names) := hnames
      refine walks_of_append hall (by simp) ?_
      intro s hs
      obtain ⟨n, hn⟩ := Option.isSome_iff_exists.mp (hnamed s hs)
      exact empty_lt_of_id? hn
    intro visited
    rw [hmap]
    constructor
    · intro hvisited
      exact hvisited.unique hwalk
    · rintro rfl
      exact hwalk

/-- Two segments that were made in the wrong order, a folder under the name of a segment, and a temporary
file. -/
def sampleFolder : Folder where
  present := true
  names := ((((∅ : Table String Entry).insert (name 10) (.file 0)).insert (name 9) (.file 1)).insert
    (name 11) .folder).insert (temporary (name 12)) (.file 2)
  contents := #[[], [], []]

/-- A walk visits the two segments in the order of their numbers, and nothing else. -/
theorem walk_by_names_sample : (mount sampleFolder 1).folder.present = true ∧
    ∃ numbers : List ℕ, numbers.Pairwise (· < ·) ∧ 9 ∈ numbers ∧ 10 ∈ numbers ∧ 11 ∉ numbers ∧
      12 ∉ numbers ∧ (mount sampleFolder 1).Walks "" (numbers.map name) := by
  have hfolder : ¬ ((mount sampleFolder 1).segment? (name 11)).isSome := by decide +kernel
  have htemporary : ¬ ((mount sampleFolder 1).segment? (name 12)).isSome := by decide +kernel
  obtain ⟨-, -, -, numbers, hsorted, hmem, hwalk⟩ := walk_by_names (a := mount sampleFolder 1) rfl
  exact ⟨rfl, numbers, hsorted, (hmem 9).mpr (by decide +kernel), (hmem 10).mpr (by decide +kernel),
    fun h => hfolder ((hmem 11).mp h).2, fun h => htemporary ((hmem 12).mp h).2, (hwalk _).mpr rfl⟩

end Archive
end Segment
end SnapshotStore

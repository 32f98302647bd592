import SnapshotStore.Proofs.SkipList.Entries

/-! # A skip list as a sorted map

A list that was built by inserts holds under each versioned key what was `written` there last,
whatever towers its nodes have got: a read, a question for an interval, the entries in order and
the size follow from the writes alone (`sorted_map`).

The searches are given as loops that count their moves.  `Slides`, `Descends` and `Walks` say what
the loops do without a count and with every access checked: a search or a walk ends that has such
a derivation, and each link that it reads exists.

* `Linked.descends`: every search is one of these, and so are the links that an insert reads.
* `Linked.shows_entriesFrom`: the walk along the bottom level shows each node once, in order. -/

namespace SnapshotStore
namespace SkipList

variable {l : SkipList}

/-! ### Checked links -/

/-- The link of a place on a level, if the place has one. -/
def link? (l : SkipList) : Option ℕ → ℕ → Option (Option ℕ)
  | none, level => l.head[level]?
  | some i, level => (l.nodes[i]?).bind (·.next[level]?)

theorem successor_eq_join (place : Option ℕ) (level : ℕ) :
    l.successor place level = (l.link? place level).join := by
  cases place <;> rfl

theorem Linked.link?_eq_some (hl : l.Linked) {place : Option ℕ} {level : ℕ}
    (h : l.HasLink place level) : l.link? place level = some (l.successor place level) := by
  have hsome : (l.link? place level).isSome := by
    cases place with
    | none =>
        have hlt : level < l.head.size := hl.head_size ▸ h
        simp [link?, hlt]
    | some i =>
        obtain ⟨n, hn, -⟩ := getElem?_of_height h
        have hlt : level < n.next.size := by simpa [HasLink, heightOf, hn] using h
        simp [link?, hn, hlt]
  obtain ⟨next, hnext⟩ := Option.isSome_iff_exists.mp hsome
  rw [successor_eq_join, hnext, Option.join_some]

/-! ### Searches without a bound -/

section search
variable (l) (passes : VersionedKey → Bool)

/-- Moving right on one level while the next node passes a test, to the place where this ends. -/
inductive Slides (level : ℕ) : Option ℕ → Option ℕ → Prop
  | last {place} (hlink : l.link? place level = some none) : Slides level place place
  | stop {place i n} (hlink : l.link? place level = some (some i)) (hn : l.nodes[i]? = some n)
      (hp : passes n.key = false) : Slides level place place
  | move {place i n here} (hlink : l.link? place level = some (some i))
      (hn : l.nodes[i]? = some n) (hp : passes n.key = true)
      (rest : Slides level (some i) here) : Slides level place here

/-- Going down from a level to the bottom, with the places that are reached on the way. -/
inductive Descends : ℕ → Option ℕ → List (Option ℕ) → Prop
  | bottom {place} : Descends 0 place []
  | down {level place here places} (hs : l.Slides passes level place here)
      (rest : Descends level here places) : Descends (level + 1) place (here :: places)

variable {l passes}

/-- With as many moves allowed as nodes follow, a search along a level is not cut short. -/
theorem Linked.slides (hl : l.Linked) (level : ℕ) :
    ∀ (fuel : ℕ) (place : Option ℕ), l.following place ≤ fuel → l.HasLink place level →
      l.Slides passes level place (l.slide passes level fuel place)
  | 0, place, hf, hlink => by
      have hread := hl.link?_eq_some hlink
      have hnext := hl.next place level hlink
      cases hs : l.successor place level with
      | none => exact .last (hs ▸ hread)
      | some i =>
          rw [hs] at hnext
          have := following_pos (lt_size_of_height hnext.1) hnext.2.1
          omega
  | fuel + 1, place, hf, hlink => by
      have hread := hl.link?_eq_some hlink
      have hnext := hl.next place level hlink
      unfold slide
      cases hs : l.successor place level with
      | none => exact .last (hs ▸ hread)
      | some i =>
          rw [hs] at hnext hread
          obtain ⟨hi, hafter, -⟩ := hnext
          obtain ⟨n, hn, -⟩ := getElem?_of_height hi
          simp only [hn]
          split
          · next hp =>
            refine .move hread hn hp (slides hl level fuel (some i) ?_ hi)
            have := following_lt (lt_size_of_height hi) hafter
            omega
          · next hp => exact .stop hread hn (Bool.eq_false_iff.mpr hp)

/-- A place that a search reaches on a level has a link there. -/
theorem Linked.hasLink_slide (hl : l.Linked) (level : ℕ) :
    ∀ (fuel : ℕ) (place : Option ℕ), l.HasLink place level →
      l.HasLink (l.slide passes level fuel place) level
  | 0, _, hlink => hlink
  | fuel + 1, place, hlink => by
      have hnext := hl.next place level hlink
      unfold slide
      cases hs : l.successor place level with
      | none => exact hlink
      | some i =>
          rw [hs] at hnext
          obtain ⟨n, hn, -⟩ := getElem?_of_height hnext.1
          simp only [hn]
          split
          · exact hasLink_slide hl level fuel (some i) hnext.1
          · exact hlink

theorem Linked.descends (hl : l.Linked) :
    ∀ (level : ℕ) (place : Option ℕ), (∀ m < level, l.HasLink place m) →
      l.Descends passes level place (l.descend passes level place)
  | 0, _, _ => .bottom
  | level + 1, place, hlink => by
      have hplace := hlink level (Nat.lt_succ_self level)
      refine .down (hl.slides level _ place (following_le place) hplace) ?_
      have hhere : l.HasLink (l.slide passes level l.nodes.size place) level :=
        hl.hasLink_slide level _ place hplace
      exact hl.descends level _ fun m hm => hhere.mono (Nat.le_of_lt hm)

end search

/-! ### Walking along the bottom level -/

/-- Following the bottom level from a link on, with the entries that are met. -/
inductive Walks (l : SkipList) : Option ℕ → List (VersionedKey × Option String) → Prop
  | done : Walks l none []
  | step {i n next es} (hn : l.nodes[i]? = some n) (hlink : n.next[0]? = some next)
      (rest : Walks l next es) : Walks l (some i) ((n.key, n.value) :: es)

/-- What a walk from the link of a place shows: each node after the place once, in order. -/
structure Shows (l : SkipList) (place : Option ℕ) (es : List (VersionedKey × Option String)) :
    Prop where
  walks : l.Walks (l.successor place 0) es
  sorted : (es.map Prod.fst).Pairwise (· < ·)
  mem : ∀ k x, (k, x) ∈ es ↔
    ∃ j < l.size, l.Before place (l.keyOf j) ∧ l.keyOf j = k ∧ l.valueOf j = x

theorem Linked.shows_nil (hl : l.Linked) {place : Option ℕ} (hlink : l.HasLink place 0)
    (hs : l.successor place 0 = none) : l.Shows place [] where
  walks := hs ▸ .done
  sorted := List.Pairwise.nil
  mem k x := by
    have hnext := hl.next place 0 hlink
    rw [hs] at hnext
    simp only [List.not_mem_nil, false_iff]
    rintro ⟨j, hj, hb, -⟩
    exact hnext j (hl.height_pos j hj) hb

/-- The nodes after a place are the next one and those after this one. -/
theorem Linked.before_iff (hl : l.Linked) {place : Option ℕ} {i j : ℕ} (hlink : l.HasLink place 0)
    (hs : l.successor place 0 = some i) (hj : j < l.size) :
    l.Before place (l.keyOf j) ↔ j = i ∨ l.Before (some i) (l.keyOf j) := by
  have hnext := hl.next place 0 hlink
  rw [hs] at hnext
  obtain ⟨hi, hafter, hmin⟩ := hnext
  constructor
  · intro hb
    rcases (hmin j (hl.height_pos j hj) hb).eq_or_lt with heq | hlt
    · exact .inl (hl.distinct j hj i (lt_size_of_height hi) heq.symm)
    · exact .inr hlt
  · rintro (rfl | hb)
    · exact hafter
    · cases place with
      | none => trivial
      | some p => exact lt_trans hafter hb

theorem Linked.shows_cons (hl : l.Linked) {place : Option ℕ} {i : ℕ} {n : Node}
    {es : List (VersionedKey × Option String)} (hlink : l.HasLink place 0)
    (hs : l.successor place 0 = some i) (hn : l.nodes[i]? = some n) (h : l.Shows (some i) es) :
    l.Shows place ((n.key, n.value) :: es) := by
  have hkey : l.keyOf i = n.key := by simp [keyOf, hn]
  have hvalue : l.valueOf i = n.value := by simp [valueOf, hn]
  have hi : i < l.size := (Array.getElem?_eq_some_iff.mp hn).1
  constructor
  · have hread : l.link? (some i) 0 = some (l.successor (some i) 0) :=
      hl.link?_eq_some (hl.height_pos i hi)
    have hlink : n.next[0]? = some (l.successor (some i) 0) := by simpa [link?, hn] using hread
    rw [hs]
    exact .step hn hlink h.walks
  · rw [List.map_cons, List.pairwise_cons]
    refine ⟨fun k hk => ?_, h.sorted⟩
    obtain ⟨⟨k, x⟩, hmem, rfl⟩ := List.mem_map.mp hk
    obtain ⟨j, -, hb, rfl, -⟩ := (h.mem k x).mp hmem
    exact hkey ▸ hb
  · intro k x
    rw [List.mem_cons, Prod.mk.injEq, h.mem]
    constructor
    · rintro (⟨rfl, rfl⟩ | ⟨j, hj, hb, hjk, hjx⟩)
      · exact ⟨i, hi, (hl.before_iff hlink hs hi).mpr (.inl rfl), hkey, hvalue⟩
      · exact ⟨j, hj, (hl.before_iff hlink hs hj).mpr (.inr hb), hjk, hjx⟩
    · rintro ⟨j, hj, hb, rfl, rfl⟩
      rcases (hl.before_iff hlink hs hj).mp hb with rfl | hb
      · exact .inl ⟨hkey, hvalue⟩
      · exact .inr ⟨j, hj, hb, rfl, rfl⟩

theorem Linked.shows_entriesFrom (hl : l.Linked) :
    ∀ (fuel : ℕ) (place : Option ℕ), l.following place ≤ fuel → l.HasLink place 0 →
      l.Shows place (l.entriesFrom fuel (l.successor place 0))
  | 0, place, hf, hlink => by
      refine hl.shows_nil hlink ?_
      have hnext := hl.next place 0 hlink
      cases hs : l.successor place 0 with
      | none => rfl
      | some i =>
          rw [hs] at hnext
          have := following_pos (lt_size_of_height hnext.1) hnext.2.1
          omega
  | fuel + 1, place, hf, hlink => by
      have hnext := hl.next place 0 hlink
      unfold entriesFrom
      cases hs : l.successor place 0 with
      | none => exact hl.shows_nil hlink hs
      | some i =>
          rw [hs] at hnext
          obtain ⟨hi, hafter, -⟩ := hnext
          obtain ⟨n, hn, -⟩ := getElem?_of_height hi
          have hrest : (n.next[0]?).join = l.successor (some i) 0 := by simp [successor, hn]
          simp only [Option.bind_some, hn, hrest]
          refine hl.shows_cons hlink hs hn (shows_entriesFrom hl fuel (some i) ?_ hi)
          have := following_lt (lt_size_of_height hi) hafter
          omega

/-- All entries are what a walk from the start shows. -/
theorem Linked.shows_entries (hl : l.Linked) : l.Shows none l.entries :=
  hl.shows_entriesFrom l.size none (following_le none) (show 0 < maxLevel by decide)

/-- There is an entry for each node. -/
theorem Linked.length_entries (hl : l.Linked) : l.entries.length = l.size := by
  have hnodup : (l.entries.map Prod.fst).Nodup := hl.shows_entries.sorted.imp ne_of_lt
  have hkeys : (l.entries.map Prod.fst).toFinset = (Finset.range l.size).image l.keyOf := by
    ext k
    rw [List.mem_toFinset, List.mem_map, Finset.mem_image]
    constructor
    · rintro ⟨⟨k, x⟩, hmem, rfl⟩
      obtain ⟨j, hj, -, hjk, -⟩ := (hl.shows_entries.mem k x).mp hmem
      exact ⟨j, Finset.mem_range.mpr hj, hjk⟩
    · rintro ⟨j, hj, rfl⟩
      have hj := Finset.mem_range.mp hj
      exact ⟨(l.keyOf j, l.valueOf j),
        (hl.shows_entries.mem _ _).mpr ⟨j, hj, trivial, rfl, rfl⟩, rfl⟩
  have hinj : Set.InjOn l.keyOf (Finset.range l.size) := fun i hi j hj =>
    hl.distinct i (Finset.mem_range.mp hi) j (Finset.mem_range.mp hj)
  calc l.entries.length = (l.entries.map Prod.fst).length := (List.length_map _).symm
    _ = (l.entries.map Prod.fst).toFinset.card := (List.toFinset_card_of_nodup hnodup).symm
    _ = l.size := by rw [hkeys, Finset.card_image_of_injOn hinj, Finset.card_range]

/-! ### Every traversal ends -/

/-- Every search and every walk ends, and reads only links and nodes that exist; so do the reads
and the links of a splice, which may go up to the highest level. -/
structure Traversable (l : SkipList) : Prop where
  floor : ∀ target, ∃ places, l.floor target = places.getLast?.join ∧
    l.Descends (fun k => k.compare target != .gt) l.level none places
  predecessors : ∀ target, ∃ places, l.predecessors target = places.reverse ∧
    l.Descends (fun k => k.compare target == .lt) l.level none places
  splice : ∀ target, ∀ m < maxLevel,
    ∃ next, l.link? (placeBefore (l.predecessors target) m) m = some next ∧
      ∀ i, next = some i → i < l.size
  entries : ∃ first, l.link? none 0 = some first ∧ l.Walks first l.entries

theorem Linked.traversable (hl : l.Linked) : l.Traversable where
  floor target := ⟨_, rfl, hl.descends l.level none hl.hasLink_none⟩
  predecessors target := ⟨_, rfl, hl.descends l.level none hl.hasLink_none⟩
  splice target m hm := by
    have hlink := (hl.stops_predecessors target hm).hasLink
    refine ⟨_, hl.link?_eq_some hlink, fun i hi => ?_⟩
    have hnext := hl.next _ m hlink
    rw [hi] at hnext
    exact lt_size_of_height hnext.1
  entries := ⟨_, hl.link?_eq_some (show 0 < maxLevel by decide), hl.shows_entries.walks⟩

/-! ### Inserting one entry after the other -/

/-- What was written last under a versioned key. -/
def written (es : List (VersionedKey × Option String)) (k : VersionedKey) :
    Option (Option String) :=
  (es.reverse.find? (·.1 = k)).map Prod.snd

theorem written_append (es : List (VersionedKey × Option String))
    (e : VersionedKey × Option String) (k : VersionedKey) :
    written (es ++ [e]) k = if k = e.1 then some e.2 else written es k := by
  unfold written
  rw [List.reverse_append, List.reverse_singleton, List.singleton_append, List.find?_cons]
  by_cases hk : k = e.1
  · simp [hk]
  · simp [hk, Ne.symm hk]

theorem written_ne_none_iff {es : List (VersionedKey × Option String)} {k : VersionedKey} :
    written es k ≠ none ↔ k ∈ es.map Prod.fst := by
  unfold written
  rw [ne_eq, Option.map_eq_none_iff, List.find?_eq_none]
  simp

/-- Inserts several entries, the first one first. -/
def insertEntries (l : SkipList) (es : List (VersionedKey × Option String)) : SkipList :=
  es.foldl (fun l e => l.insert e.1.key e.1.version e.2) l

theorem insertEntries_append (es : List (VersionedKey × Option String))
    (e : VersionedKey × Option String) :
    l.insertEntries (es ++ [e]) = (l.insertEntries es).insert e.1.key e.1.version e.2 := by
  simp [insertEntries]

theorem Linked.insertEntries (hl : l.Linked) (es : List (VersionedKey × Option String)) :
    (l.insertEntries es).Linked := by
  induction es using List.reverseRecOn with
  | nil => exact hl
  | append_singleton es e ih =>
      rw [insertEntries_append]
      exact ih.insert e.1.key e.1.version e.2

section built
variable (towers : ℕ → Height) (es : List (VersionedKey × Option String))

/-- The list that some inserts build. -/
def built : SkipList := (empty towers).insertEntries es

theorem linked_built : (built towers es).Linked := (Linked.empty towers).insertEntries es

theorem recorded_built (k : VersionedKey) : (built towers es).recorded k = written es k := by
  induction es using List.reverseRecOn with
  | nil => exact recorded_empty towers k
  | append_singleton es e ih =>
      have hrec := (linked_built towers es).recorded_insert e.1.key e.1.version e.2 k
      unfold built at hrec ih ⊢
      rw [insertEntries_append, hrec, written_append, ih]

theorem mem_entries_built (k : VersionedKey) (x : Option String) :
    (k, x) ∈ (built towers es).entries ↔ written es k = some x := by
  have hl := linked_built towers es
  rw [← recorded_built towers es, hl.shows_entries.mem]
  constructor
  · rintro ⟨j, hj, -, rfl, rfl⟩
    exact hl.recorded_keyOf hj
  · intro hr
    obtain ⟨j, hj, hk, hx⟩ := exists_of_recorded hr
    exact ⟨j, hj, trivial, hk, hx⟩

theorem size_built : (built towers es).size = (es.map Prod.fst).toFinset.card := by
  have hl := linked_built towers es
  have hnodup : ((built towers es).entries.map Prod.fst).Nodup :=
    hl.shows_entries.sorted.imp ne_of_lt
  have hkeys : ((built towers es).entries.map Prod.fst).toFinset = (es.map Prod.fst).toFinset := by
    ext k
    rw [List.mem_toFinset, List.mem_toFinset, ← @written_ne_none_iff es,
      Option.ne_none_iff_exists']
    constructor
    · intro hk
      obtain ⟨⟨k, x⟩, hmem, rfl⟩ := List.mem_map.mp hk
      exact ⟨x, (mem_entries_built towers es k x).mp hmem⟩
    · rintro ⟨x, hx⟩
      exact List.mem_map.mpr ⟨(k, x), (mem_entries_built towers es k x).mpr hx, rfl⟩
  rw [← hl.length_entries, ← hkeys, List.toFinset_card_of_nodup hnodup, List.length_map]

end built

/-! ### The map -/

/-- Inserts build a sorted map of versions, whatever the towers: a read finds the last write of the
key up to a version, be it a value or a delete, or nothing if there is none; a question for an
interval is one for the writes of the key; the entries are the last writes in strict order, as many
as there are versioned keys; and no traversal runs on or reads what is not there. -/
theorem sorted_map (towers : ℕ → Height) (es : List (VersionedKey × Option String)) :
    (∀ key v, (built towers es).find key v = none ↔ ∀ u ≤ v, written es ⟨key, u⟩ = none) ∧
    (∀ key v x, (built towers es).find key v = some x ↔
      ∃ u ≤ v, written es ⟨key, u⟩ = some x ∧
        ∀ w, u < w → w ≤ v → written es ⟨key, w⟩ = none) ∧
    (∀ low high key, (built towers es).existsBetween low high key = true ↔
      ∃ u, low < u ∧ u ≤ high ∧ written es ⟨key, u⟩ ≠ none) ∧
    ((built towers es).entries.map Prod.fst).Pairwise (· < ·) ∧
    (∀ k x, (k, x) ∈ (built towers es).entries ↔ written es k = some x) ∧
    (built towers es).size = (built towers es).entries.length ∧
    (built towers es).size = (es.map Prod.fst).toFinset.card ∧
    (built towers es).Traversable := by
  have hl := linked_built towers es
  refine ⟨fun key v => ?_, fun key v x => ?_, fun low high key => ?_, hl.shows_entries.sorted,
    mem_entries_built towers es, hl.length_entries.symm, size_built towers es, hl.traversable⟩
  · simp only [hl.find_eq_latest, latest_eq_none, recorded_built]
  · simp only [hl.find_eq_latest, latest_eq_some_iff, recorded_built]
  · simp only [hl.existsBetween_iff, recorded_built]

end SkipList
end SnapshotStore

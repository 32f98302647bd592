import SnapshotStore.Proofs.SkipList.Splice

/-! # What a skip list holds

`recorded` is the value or delete mark that a list records under a versioned key.  The operations of
a well-formed list are described by it alone:

* `Linked.find_eq_latest`: `find` gives the entry of the key with the highest version up to a
  bound;
* `Linked.existsBetween_iff`: `existsBetween` asks for an entry with a version in an interval;
* `Linked.recorded_insert`: `insert` changes one entry and keeps the list well-formed. -/

namespace SnapshotStore

/-! ### The latest of some versions -/

section latest
variable {α : Type} {h h' : ℕ → Option α}

/-- What was recorded at the highest version up to a bound. -/
def latest (h : ℕ → Option α) : ℕ → Option α
  | 0 => h 0
  | v + 1 => (h (v + 1)).or (latest h v)

theorem latest_eq_none : ∀ {v : ℕ}, latest h v = none ↔ ∀ u ≤ v, h u = none
  | 0 => by simp [latest]
  | v + 1 => by
      rw [latest, Option.or_eq_none_iff, latest_eq_none]
      constructor
      · rintro ⟨hv, hle⟩ u hu
        rcases Nat.le_succ_iff.mp hu with hu | rfl
        · exact hle u hu
        · exact hv
      · intro hle
        exact ⟨hle _ le_rfl, fun u hu => hle u (by omega)⟩

theorem latest_eq_of_last {v u : ℕ} {x : α} (hu : u ≤ v) (hx : h u = some x)
    (hlast : ∀ w, u < w → w ≤ v → h w = none) : latest h v = some x := by
  induction v with
  | zero =>
      obtain rfl : u = 0 := by omega
      exact hx
  | succ v ih =>
      rcases Nat.le_succ_iff.mp hu with hle | rfl
      · rw [latest, hlast (v + 1) (by omega) le_rfl, Option.none_or]
        exact ih hle fun w hw hwv => hlast w hw (by omega)
      · rw [latest, hx, Option.some_or]

/-- The latest of some versions is one of them, and the last. -/
theorem latest_eq_some_iff {v : ℕ} {x : α} :
    latest h v = some x ↔ ∃ u ≤ v, h u = some x ∧ ∀ w, u < w → w ≤ v → h w = none := by
  constructor
  · intro hx
    induction v with
    | zero => exact ⟨0, le_rfl, hx, fun w hw hwv => by omega⟩
    | succ v ih =>
        rw [latest] at hx
        cases hv : h (v + 1) with
        | some y =>
            rw [hv, Option.some_or] at hx
            exact ⟨v + 1, le_rfl, hv.trans hx, fun w hw hwv => by omega⟩
        | none =>
            rw [hv, Option.none_or] at hx
            obtain ⟨u, hu, hux, hlast⟩ := ih hx
            refine ⟨u, by omega, hux, fun w hw hwv => ?_⟩
            rcases Nat.le_succ_iff.mp hwv with hle | rfl
            · exact hlast w hw hle
            · exact hv
  · rintro ⟨u, hu, hux, hlast⟩
    exact latest_eq_of_last hu hux hlast

theorem latest_congr {v : ℕ} (hh : ∀ u ≤ v, h u = h' u) : latest h v = latest h' v := by
  induction v with
  | zero => exact hh 0 le_rfl
  | succ v ih => rw [latest, latest, hh _ le_rfl, ih fun u hu => hh u (by omega)]

theorem latest_eq_of_le {v w : ℕ} (hvw : v ≤ w) (hh : ∀ u, v < u → u ≤ w → h u = none) :
    latest h w = latest h v := by
  induction w with
  | zero =>
      obtain rfl : v = 0 := by omega
      rfl
  | succ w ih =>
      rcases Nat.le_succ_iff.mp hvw with hle | rfl
      · rw [latest, hh (w + 1) (by omega) le_rfl, Option.none_or]
        exact ih hle fun u hu huw => hh u hu (by omega)
      · rfl

end latest

namespace SkipList

variable {l : SkipList}

/-! ### The view -/

/-- What a list records under a versioned key: a value, or a delete (`none`). -/
def recorded (l : SkipList) (key : VersionedKey) : Option (Option String) :=
  (l.nodes.find? (·.key = key)).map (·.value)

theorem recorded_eq_none {key : VersionedKey} (h : ∀ i < l.size, l.keyOf i ≠ key) :
    l.recorded key = none := by
  rw [recorded, Option.map_eq_none_iff, Array.find?_eq_none]
  intro n hn
  obtain ⟨i, hi, rfl⟩ := Array.mem_iff_getElem.mp hn
  have := h i hi
  simp only [keyOf, Array.getElem?_eq_getElem hi, Option.elim_some] at this
  simpa using this

theorem exists_of_recorded {key : VersionedKey} {x : Option String} (h : l.recorded key = some x) :
    ∃ i < l.size, l.keyOf i = key ∧ l.valueOf i = x := by
  obtain ⟨n, hn, rfl⟩ := Option.map_eq_some_iff.mp h
  obtain ⟨i, hi, rfl⟩ := Array.mem_iff_getElem.mp (Array.mem_of_find?_eq_some hn)
  have hk := Array.find?_some hn
  exact ⟨i, hi, by simpa [keyOf, hi] using hk, by simp [valueOf, hi]⟩

theorem Linked.recorded_keyOf (hl : l.Linked) {i : ℕ} (hi : i < l.size) :
    l.recorded (l.keyOf i) = some (l.valueOf i) := by
  cases he : l.recorded (l.keyOf i) with
  | none =>
      rw [recorded, Option.map_eq_none_iff, Array.find?_eq_none] at he
      have hi' : i < l.nodes.size := hi
      exact absurd (by simp [keyOf, hi']) (he l.nodes[i] (Array.getElem_mem hi'))
  | some x =>
      obtain ⟨j, hj, hk, rfl⟩ := exists_of_recorded he
      rw [hl.distinct j hj i hi hk]

/-! ### Reading -/

/-- A search for the last node up to a version of a key decides every question about the key. -/
theorem Linked.recorded_none_of_floor (hl : l.Linked) {key : String} {v u : ℕ} (hu : u ≤ v)
    (h : ∀ i, l.floor ⟨key, v⟩ = some i → (l.keyOf i).key = key → (l.keyOf i).version < u) :
    l.recorded ⟨key, u⟩ = none := by
  apply recorded_eq_none
  intro j hj hk
  have hstop := hl.stops_floor ⟨key, v⟩
  have hle : l.keyOf j ≤ ⟨key, v⟩ := by
    rw [hk]
    exact VersionedKey.mk_le_mk.mpr hu
  have hb : ¬ l.Before (l.floor ⟨key, v⟩) (l.keyOf j) := by
    intro hb
    have := hstop.fails j (hl.height_pos j hj) hb
    rw [Bool.eq_false_iff, ne_eq, bne_iff_ne, VersionedKey.compare_ne_gt] at this
    exact this hle
  cases hf : l.floor ⟨key, v⟩ with
  | none =>
      rw [hf] at hb
      exact hb trivial
  | some i =>
      rw [hf] at hb
      have hpass := hstop.passed i hf
      rw [bne_iff_ne, VersionedKey.compare_ne_gt] at hpass
      have hji : l.keyOf j ≤ l.keyOf i := not_lt.mp hb
      rw [hk] at hji
      rw [← not_lt, VersionedKey.lt_iff] at hpass hji
      have hkey : (l.keyOf i).key = key := by
        apply le_antisymm
        · exact not_lt.mp fun hlt => hpass (Or.inl hlt)
        · exact not_lt.mp fun hlt => hji (Or.inl hlt)
      exact hji (Or.inr ⟨hkey, h i hf hkey⟩)

theorem Linked.node_of_floor (hl : l.Linked) {target : VersionedKey} {i : ℕ}
    (h : l.floor target = some i) :
    ∃ n, l.nodes[i]? = some n ∧ n.key = l.keyOf i ∧ n.value = l.valueOf i ∧ i < l.size := by
  have hstop := hl.stops_floor target
  rw [h] at hstop
  obtain ⟨n, hn, hk⟩ := getElem?_of_height hstop.hasLink
  exact ⟨n, hn, hk, by simp [valueOf, hn], lt_size_of_height hstop.hasLink⟩

theorem Linked.version_le_of_floor (hl : l.Linked) {key : String} {v i : ℕ}
    (h : l.floor ⟨key, v⟩ = some i) (hk : (l.keyOf i).key = key) : (l.keyOf i).version ≤ v := by
  have hpass := (hl.stops_floor ⟨key, v⟩).passed i h
  rw [bne_iff_ne, VersionedKey.compare_ne_gt, ← not_lt, VersionedKey.lt_iff] at hpass
  exact not_lt.mp fun hlt => hpass (Or.inr ⟨hk.symm, hlt⟩)

/-- A look-up gives the entry of the key with the highest version up to a bound. -/
theorem Linked.find_eq_latest (hl : l.Linked) (key : String) (v : ℕ) :
    l.find key v = latest (fun u => l.recorded ⟨key, u⟩) v := by
  unfold find
  cases hf : l.floor ⟨key, v⟩ with
  | none =>
      symm
      rw [Option.bind_none, Option.bind_none, latest_eq_none]
      exact fun u hu => hl.recorded_none_of_floor hu fun i hi => by simp [hf] at hi
  | some i =>
      obtain ⟨n, hn, hk, hv, hi⟩ := hl.node_of_floor hf
      rw [Option.bind_some, hn, Option.bind_some, hk, hv]
      symm
      split
      · next hkey =>
        refine latest_eq_of_last (hl.version_le_of_floor hf hkey) ?_ ?_
        · have := hl.recorded_keyOf hi
          rwa [← hkey]
        · intro w hw hwv
          refine hl.recorded_none_of_floor hwv fun j hj _ => ?_
          rw [hf] at hj
          cases hj
          exact hw
      · next hkey =>
        rw [latest_eq_none]
        refine fun u hu => hl.recorded_none_of_floor hu fun j hj hkj => ?_
        rw [hf] at hj
        cases hj
        exact absurd hkj hkey

/-- A question for an interval is answered by the last node up to its upper end. -/
theorem Linked.existsBetween_iff (hl : l.Linked) {low high : ℕ} {key : String} :
    l.existsBetween low high key = true ↔
      ∃ u, low < u ∧ u ≤ high ∧ l.recorded ⟨key, u⟩ ≠ none := by
  unfold existsBetween
  rw [Bool.and_eq_true, decide_eq_true_eq]
  cases hf : l.floor ⟨key, high⟩ with
  | none =>
      simp only [Option.bind_none, Option.any_none, Bool.false_eq_true, and_false, false_iff]
      rintro ⟨u, -, hu, hne⟩
      exact hne (hl.recorded_none_of_floor hu fun i hi => by simp [hf] at hi)
  | some i =>
      obtain ⟨n, hn, hk, -, hi⟩ := hl.node_of_floor hf
      rw [Option.bind_some, hn, Option.any_some, hk, Bool.and_eq_true, decide_eq_true_eq,
        decide_eq_true_eq]
      constructor
      · rintro ⟨-, hkey, hlow⟩
        refine ⟨_, hlow, hl.version_le_of_floor hf hkey, ?_⟩
        have := hl.recorded_keyOf hi
        rw [← hkey, this]
        simp
      · rintro ⟨u, hlow, hu, hne⟩
        refine ⟨by omega, ?_⟩
        by_contra hc
        refine hne (hl.recorded_none_of_floor hu fun j hj hkj => ?_)
        rw [hf] at hj
        cases hj
        rw [not_and, not_lt] at hc
        have := hc hkj
        omega

/-! ### Writing -/

theorem nodeAt?_eq_some {target : VersionedKey} {places : List (Option ℕ)} {i : ℕ}
    (h : l.nodeAt? target places = some i) : i < l.size ∧ l.keyOf i = target := by
  obtain ⟨-, hp⟩ := Option.filter_eq_some_iff.mp h
  cases hn : l.nodes[i]? with
  | none => simp [hn] at hp
  | some n =>
      rw [hn, Option.any_some, beq_iff_eq, VersionedKey.compare_eq_eq] at hp
      obtain ⟨hi, -⟩ := Array.getElem?_eq_some_iff.mp hn
      exact ⟨hi, by simp [keyOf, hn, hp]⟩

theorem Linked.nodeAt?_eq_none (hl : l.Linked) {target : VersionedKey}
    (h : l.nodeAt? target (l.predecessors target) = none) :
    ∀ i < l.size, l.keyOf i ≠ target := by
  intro i hi hk
  have hstop := hl.stops_predecessors target (show 0 < maxLevel by decide)
  have htall := hl.height_pos i hi
  have hb : l.Before (placeBefore (l.predecessors target) 0) (l.keyOf i) := by
    rw [hk]
    exact hstop.before
  have hnext := hl.next _ 0 hstop.hasLink
  unfold nodeAt? at h
  cases hs : l.successor (placeBefore (l.predecessors target) 0) 0 with
  | none =>
      rw [hs] at hnext
      exact hnext i htall hb
  | some j =>
      rw [hs] at hnext h
      obtain ⟨hj, hbj, hmin⟩ := hnext
      have hge := hstop.le_of_before hj hbj
      have heq : l.keyOf j = target := le_antisymm (hk ▸ hmin i htall hb) hge
      obtain ⟨n, hn, hkey⟩ := getElem?_of_height hj
      rw [Option.filter_eq_none_iff] at h
      refine h j rfl ?_
      rw [hn, Option.any_some, beq_iff_eq, VersionedKey.compare_eq_eq, hkey, heq]

theorem insert_cases (hl : l.Linked) (key : String) (version : ℕ) (value : Option String) :
    (∃ i < l.size, l.keyOf i = ⟨key, version⟩ ∧
      l.insert key version value = l.overwritten i value) ∨
    ((∀ i < l.size, l.keyOf i ≠ ⟨key, version⟩) ∧
      l.insert key version value = l.added ⟨key, version⟩ value (l.towers l.size)) := by
  unfold insert
  cases hn : l.nodeAt? ⟨key, version⟩ (l.predecessors ⟨key, version⟩) with
  | some i =>
      obtain ⟨hi, hk⟩ := nodeAt?_eq_some hn
      exact Or.inl ⟨i, hi, hk, by simp only [hn]⟩
  | none => exact Or.inr ⟨hl.nodeAt?_eq_none hn, by simp only [hn, added]⟩

theorem Linked.insert (hl : l.Linked) (key : String) (version : ℕ) (value : Option String) :
    (l.insert key version value).Linked := by
  rcases insert_cases hl key version value with ⟨i, -, -, he⟩ | ⟨hfresh, he⟩
  · rw [he]
    exact hl.overwritten i value
  · rw [he]
    exact hl.added hfresh

/-- Inserting changes the entry under one versioned key. -/
theorem Linked.recorded_insert (hl : l.Linked) (key : String) (version : ℕ)
    (value : Option String) (k : VersionedKey) :
    (l.insert key version value).recorded k =
      if k = ⟨key, version⟩ then some value else l.recorded k := by
  have hl' := hl.insert key version value
  rcases insert_cases hl key version value with ⟨i, hi, hk, he⟩ | ⟨hfresh, he⟩
  · rw [he] at hl' ⊢
    have hread : ∀ j < l.size, (l.overwritten i value).recorded (l.keyOf j) =
        some (if j = i then value else l.valueOf j) := by
      intro j hj
      have := hl'.recorded_keyOf (i := j) (by rwa [size_overwritten])
      rwa [keyOf_overwritten, valueOf_overwritten value hi] at this
    split
    · next h =>
      rw [h, ← hk, hread i hi, if_pos rfl]
    · next h =>
      cases hr : l.recorded k with
      | some x =>
          obtain ⟨j, hj, rfl, rfl⟩ := exists_of_recorded hr
          rw [hread j hj, if_neg fun hji => h (by rw [hji, hk])]
      | none =>
          refine recorded_eq_none fun j hj hjk => ?_
          rw [size_overwritten] at hj
          rw [keyOf_overwritten] at hjk
          rw [← hjk, hl.recorded_keyOf hj] at hr
          cases hr
  · rw [he] at hl' ⊢
    have hread : ∀ j < l.size + 1, (l.added ⟨key, version⟩ value (l.towers l.size)).recorded
        (if j = l.size then ⟨key, version⟩ else l.keyOf j) =
        some (if j = l.size then value else l.valueOf j) := by
      intro j hj
      have := hl'.recorded_keyOf (i := j) (by rwa [size_added])
      rwa [keyOf_added, valueOf_added] at this
    split
    · next h =>
      rw [h]
      simpa using hread l.size (by omega)
    · next h =>
      cases hr : l.recorded k with
      | some x =>
          obtain ⟨j, hj, rfl, rfl⟩ := exists_of_recorded hr
          simpa [hj.ne] using hread j (by omega)
      | none =>
          refine recorded_eq_none fun j hj hjk => ?_
          rw [size_added] at hj
          rw [keyOf_added] at hjk
          by_cases hjn : j = l.size
          · rw [if_pos hjn] at hjk
            exact h hjk.symm
          · rw [if_neg hjn] at hjk
            rw [← hjk, hl.recorded_keyOf (by omega)] at hr
            cases hr

theorem Linked.size_insert (hl : l.Linked) (key : String) (version : ℕ) (value : Option String) :
    (l.insert key version value).size =
      l.size + if l.recorded ⟨key, version⟩ = none then 1 else 0 := by
  rcases insert_cases hl key version value with ⟨i, hi, hk, he⟩ | ⟨hfresh, he⟩
  · have hsome := hl.recorded_keyOf hi
    rw [hk] at hsome
    rw [he, size_overwritten, if_neg (by simp [hsome]), Nat.add_zero]
  · rw [he, size_added, if_pos (recorded_eq_none hfresh)]

theorem Linked.empty (towers : ℕ → Height) : (SkipList.empty towers).Linked where
  head_size := by simp [SkipList.empty]
  level_pos := by simp [SkipList.empty]
  level_le := show 1 ≤ maxLevel by decide
  height_pos i hi := absurd hi (Nat.not_lt_zero i)
  height_le i := by simp [SkipList.empty, heightOf]
  distinct i hi := absurd hi (Nat.not_lt_zero i)
  next place level hp := by
    cases place with
    | none =>
        have hs : (SkipList.empty towers).successor none level = none := by
          simp only [successor, SkipList.empty, Array.getElem?_replicate]
          split <;> rfl
        rw [hs]
        intro j hj
        simp [SkipList.empty, heightOf] at hj
    | some i => simp [HasLink, SkipList.empty, heightOf] at hp

theorem recorded_empty (towers : ℕ → Height) (key : VersionedKey) :
    (SkipList.empty towers).recorded key = none := rfl

end SkipList
end SnapshotStore

import SnapshotStore.SkipList
import Mathlib.Data.Finset.Card
import Mathlib.Data.Prod.Lex
import Mathlib.Data.String.Basic

/-! # Searching a skip list

A skip list is `Linked` when the link of every place on every level leads to the first later node
that takes part in the level.  This one condition covers that each level is sorted and a part of
the one below.  A search that slides right while a test holds, and goes down one level when it
cannot, then `Stops` on every level at the last node that passes the test
(`Linked.stops_descend`).

* `Linked.stops_floor`: `floor` is the last node at or before a versioned key.
* `Linked.stops_predecessors`: `predecessors` are the last places before it, one for each level. -/

namespace SnapshotStore

namespace VersionedKey

/-- Versioned keys are ordered by key, then by version. -/
instance : LinearOrder VersionedKey :=
  LinearOrder.lift' (fun k => toLex (k.key, k.version)) fun a b h => by
    cases a; cases b; simpa using h

theorem lt_iff {a b : VersionedKey} :
    a < b ↔ a.key < b.key ∨ a.key = b.key ∧ a.version < b.version := by
  show toLex (a.key, a.version) < toLex (b.key, b.version) ↔ _
  exact Prod.Lex.toLex_lt_toLex

theorem mk_le_mk {key : String} {v w : ℕ} :
    (⟨key, v⟩ : VersionedKey) ≤ ⟨key, w⟩ ↔ v ≤ w := by
  rw [← not_lt, ← not_lt, lt_iff]
  simp

theorem compare_eq_lt {a b : VersionedKey} : a.compare b = .lt ↔ a < b := by
  rw [lt_iff, VersionedKey.compare, Ordering.then_eq_lt]
  have hs : Ord.compare a.key b.key = .lt ↔ a.key < b.key := compareOfLessAndEq_eq_lt
  have he : Ord.compare a.key b.key = .eq ↔ a.key = b.key := Std.LawfulEqOrd.compare_eq_iff_eq
  rw [hs, he, Nat.compare_eq_lt]

theorem compare_eq_eq {a b : VersionedKey} : a.compare b = .eq ↔ a = b := by
  rw [VersionedKey.compare, Ordering.then_eq_eq, Std.LawfulEqOrd.compare_eq_iff_eq,
    Std.LawfulEqOrd.compare_eq_iff_eq]
  cases a
  cases b
  simp

theorem compare_ne_gt {a b : VersionedKey} : a.compare b ≠ .gt ↔ a ≤ b := by
  rw [le_iff_lt_or_eq, ← compare_eq_lt, ← compare_eq_eq]
  cases a.compare b <;> simp

end VersionedKey

namespace SkipList

/-! ### Nodes and places -/

variable (l : SkipList)

/-- The versioned key of a node. -/
def keyOf (i : ℕ) : VersionedKey := (l.nodes[i]?).elim ⟨"", 0⟩ (·.key)

/-- The value of a node; a delete has none. -/
def valueOf (i : ℕ) : Option String := (l.nodes[i]?).elim none (·.value)

/-- The number of levels that a node takes part in. -/
def heightOf (i : ℕ) : ℕ := (l.nodes[i]?).elim 0 (·.next.size)

/-- Whether a place stands before a versioned key. -/
def Before : Option ℕ → VersionedKey → Prop
  | none, _ => True
  | some i, key => l.keyOf i < key

instance (place : Option ℕ) : DecidablePred (l.Before place) := fun key =>
  match place with
  | none => isTrue trivial
  | some i => inferInstanceAs (Decidable (l.keyOf i < key))

/-- Whether a place has a link on a level. -/
def HasLink : Option ℕ → ℕ → Prop
  | none, level => level < maxLevel
  | some i, level => level < l.heightOf i

/-- Whether a link leads to the first node after a place that takes part in a level. -/
def IsNext (place : Option ℕ) (level : ℕ) : Option ℕ → Prop
  | none => ∀ j, level < l.heightOf j → ¬ l.Before place (l.keyOf j)
  | some i => level < l.heightOf i ∧ l.Before place (l.keyOf i) ∧
      ∀ j, level < l.heightOf j → l.Before place (l.keyOf j) → l.keyOf i ≤ l.keyOf j

/-- A well-formed skip list: distinct keys, and every link leads to the next node of its level. -/
structure Linked : Prop where
  head_size : l.head.size = maxLevel
  level_pos : 0 < l.level
  level_le : l.level ≤ maxLevel
  height_pos : ∀ i < l.size, 0 < l.heightOf i
  height_le : ∀ i, l.heightOf i ≤ l.level
  distinct : ∀ i < l.size, ∀ j < l.size, l.keyOf i = l.keyOf j → i = j
  next : ∀ place level, l.HasLink place level → l.IsNext place level (l.successor place level)

/-- A place on a level that passes a test, while no later node of the level does. -/
structure Stops (passes : VersionedKey → Bool) (level : ℕ) (place : Option ℕ) : Prop where
  hasLink : l.HasLink place level
  passed : ∀ i, place = some i → passes (l.keyOf i) = true
  fails : ∀ j, level < l.heightOf j → l.Before place (l.keyOf j) → passes (l.keyOf j) = false

variable {l}

theorem lt_size_of_height {level i : ℕ} (h : level < l.heightOf i) : i < l.size := by
  by_contra hi
  have hn : l.nodes[i]? = none := Array.getElem?_eq_none (not_lt.mp hi)
  simp [heightOf, hn] at h

theorem getElem?_of_height {level i : ℕ} (h : level < l.heightOf i) :
    ∃ n, l.nodes[i]? = some n ∧ n.key = l.keyOf i := by
  have hi : i < l.nodes.size := lt_size_of_height h
  exact ⟨l.nodes[i], Array.getElem?_eq_getElem hi, by simp [keyOf, hi]⟩

theorem HasLink.mono {place : Option ℕ} {level level' : ℕ} (h : l.HasLink place level)
    (hl : level' ≤ level) : l.HasLink place level' := by
  cases place with
  | none => exact lt_of_le_of_lt hl h
  | some i => exact lt_of_le_of_lt hl h

/-! ### Sliding along one level -/

/-- The number of nodes after a place. -/
def following (l : SkipList) (place : Option ℕ) : ℕ :=
  ((Finset.range l.size).filter fun j => l.Before place (l.keyOf j)).card

theorem following_le (place : Option ℕ) : l.following place ≤ l.size := by
  have := Finset.card_filter_le (Finset.range l.size) fun j => l.Before place (l.keyOf j)
  rwa [Finset.card_range] at this

theorem following_pos {place : Option ℕ} {j : ℕ} (hj : j < l.size)
    (h : l.Before place (l.keyOf j)) : 0 < l.following place :=
  Finset.card_pos.mpr ⟨j, Finset.mem_filter.mpr ⟨Finset.mem_range.mpr hj, h⟩⟩

theorem following_lt {place : Option ℕ} {i : ℕ} (hi : i < l.size)
    (h : l.Before place (l.keyOf i)) : l.following (some i) < l.following place := by
  apply Finset.card_lt_card
  refine Finset.ssubset_iff_subset_ne.mpr ⟨?_, ?_⟩
  · intro j hj
    obtain ⟨hr, hij⟩ := Finset.mem_filter.mp hj
    refine Finset.mem_filter.mpr ⟨hr, ?_⟩
    cases place with
    | none => trivial
    | some p => exact lt_trans h hij
  · intro he
    have hm : i ∈ (Finset.range l.size).filter fun j => l.Before place (l.keyOf j) :=
      Finset.mem_filter.mpr ⟨Finset.mem_range.mpr hi, h⟩
    rw [← he] at hm
    exact lt_irrefl _ (Finset.mem_filter.mp hm).2

/-- Sliding right ends at the last node of the level that passes the test. -/
theorem Linked.stops_slide (hl : l.Linked) {passes : VersionedKey → Bool}
    (hp : ∀ a b, a ≤ b → passes b = true → passes a = true) (level : ℕ) :
    ∀ (fuel : ℕ) (place : Option ℕ), l.following place ≤ fuel → l.HasLink place level →
      (∀ i, place = some i → passes (l.keyOf i) = true) →
      l.Stops passes level (l.slide passes level fuel place)
  | 0, place, hf, hlink, hpass => by
      unfold slide
      refine ⟨hlink, hpass, fun j hj ha => ?_⟩
      have := following_pos (lt_size_of_height hj) ha
      omega
  | fuel + 1, place, hf, hlink, hpass => by
      have hnext := hl.next place level hlink
      unfold slide
      cases hs : l.successor place level with
      | none =>
          rw [hs] at hnext
          exact ⟨hlink, hpass, fun j hj ha => absurd ha (hnext j hj)⟩
      | some i =>
          rw [hs] at hnext
          obtain ⟨hi, hafter, hmin⟩ := hnext
          obtain ⟨n, hn, hkey⟩ := getElem?_of_height hi
          simp only [hn, hkey]
          split
          · next hpi =>
            refine stops_slide hl hp level fuel (some i) ?_ hi ?_
            · have := following_lt (lt_size_of_height hi) hafter
              omega
            · intro j hj
              cases hj
              exact hpi
          · next hpi =>
            refine ⟨hlink, hpass, fun j hj ha => ?_⟩
            rw [Bool.eq_false_iff]
            exact fun hpj => hpi (hp _ _ (hmin j hj ha) hpj)

/-! ### Going down -/

theorem length_descend (passes : VersionedKey → Bool) :
    ∀ (level : ℕ) (place : Option ℕ), (l.descend passes level place).length = level
  | 0, _ => rfl
  | level + 1, place => by simp [descend, length_descend passes level]

/-- A search from the top finds on each level the last place that passes the test. -/
theorem Linked.stops_descend (hl : l.Linked) (passes : VersionedKey → Bool)
    (hp : ∀ a b, a ≤ b → passes b = true → passes a = true) :
    ∀ (level : ℕ) (place : Option ℕ), (∀ m < level, l.HasLink place m) →
      (∀ i, place = some i → passes (l.keyOf i) = true) →
      ∀ m < level, l.Stops passes m (placeBefore (l.descend passes level place).reverse m)
  | 0, _, _, _, m, hm => absurd hm (Nat.not_lt_zero m)
  | level + 1, place, hlink, hpass, m, hm => by
      have hhere := hl.stops_slide hp level l.nodes.size place (following_le place)
        (hlink level (Nat.lt_succ_self level)) hpass
      have hlen := length_descend (l := l) passes level (l.slide passes level l.nodes.size place)
      unfold placeBefore descend
      rw [List.reverse_cons]
      rcases Nat.lt_succ_iff_lt_or_eq.mp hm with hlt | rfl
      · rw [List.getElem?_append_left (by rw [List.length_reverse, hlen]; exact hlt)]
        exact stops_descend hl passes hp level _ (fun k hk => hhere.hasLink.mono hk.le)
          hhere.passed m hlt
      · rw [List.getElem?_append_right (by rw [List.length_reverse, hlen])]
        simpa [hlen] using hhere

theorem Linked.hasLink_none (hl : l.Linked) : ∀ m < l.level, l.HasLink none m :=
  fun _ hm => lt_of_lt_of_le hm hl.level_le

/-- `floor` is the last node at or before a versioned key. -/
theorem Linked.stops_floor (hl : l.Linked) (target : VersionedKey) :
    l.Stops (fun k => k.compare target != .gt) 0 (l.floor target) := by
  have h := hl.stops_descend (fun k => k.compare target != .gt)
    (fun a b hab hb => by
      simp only [bne_iff_ne, ne_eq, VersionedKey.compare_ne_gt] at hb ⊢
      exact hab.trans hb) l.level none hl.hasLink_none (by simp) 0 hl.level_pos
  unfold placeBefore at h
  rwa [← List.head?_eq_getElem?, List.head?_reverse] at h

/-- The places before a versioned key: on each level the last one with a smaller key. -/
theorem Linked.stops_predecessors (hl : l.Linked) (target : VersionedKey) {level : ℕ}
    (hlevel : level < maxLevel) :
    l.Stops (fun k => k.compare target == .lt) level
      (placeBefore (l.predecessors target) level) := by
  rcases Nat.lt_or_ge level l.level with hlt | hge
  · exact hl.stops_descend (fun k => k.compare target == .lt)
      (fun a b hab hb => by
        simp only [beq_iff_eq, VersionedKey.compare_eq_lt] at hb ⊢
        exact lt_of_le_of_lt hab hb) l.level none hl.hasLink_none (by simp) level hlt
  · have hnone : placeBefore (l.predecessors target) level = none := by
      unfold placeBefore predecessors
      rw [List.getElem?_eq_none]
      · rfl
      · simpa [length_descend] using hge
    rw [hnone]
    refine ⟨hlevel, by simp, fun j hj _ => ?_⟩
    have := hl.height_le j
    omega

section target
variable {target : VersionedKey} {level : ℕ} {place : Option ℕ}
  (h : l.Stops (fun k => k.compare target == .lt) level place)
include h

/-- The place where a search for a key stops is before the key. -/
theorem Stops.before : l.Before place target := by
  cases place with
  | none => trivial
  | some i =>
      have hpass := h.passed i rfl
      rwa [beq_iff_eq, VersionedKey.compare_eq_lt] at hpass

theorem Stops.le_of_before {j : ℕ} (hj : level < l.heightOf j) (hb : l.Before place (l.keyOf j)) :
    target ≤ l.keyOf j := by
  have hfail := h.fails j hj hb
  rwa [Bool.eq_false_iff, ne_eq, beq_iff_eq, VersionedKey.compare_eq_lt, not_lt] at hfail

end target

end SkipList
end SnapshotStore

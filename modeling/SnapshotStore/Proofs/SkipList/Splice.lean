import SnapshotStore.Proofs.SkipList.Search

/-! # Splicing a node into a skip list

`insert` overwrites the value of an existing node, or adds a node and points the links before it
at it, level by level.  Both keep the list `Linked`, whatever the height of the new tower
(`Linked.insert`). -/

namespace SnapshotStore
namespace SkipList

variable {l : SkipList}

/-! ### One link -/

@[simp] theorem size_link (place : Option ℕ) (level target : ℕ) :
    (l.link place level target).size = l.size := by
  cases place <;> simp [link, size]

theorem elim_link {α : Type} (d : α) {f : Node → α}
    (hf : ∀ n m t, f { n with next := n.next.setIfInBounds m t } = f n)
    (place : Option ℕ) (level target i : ℕ) :
    ((l.link place level target).nodes[i]?).elim d f = (l.nodes[i]?).elim d f := by
  cases place with
  | none => rfl
  | some p =>
      simp only [link, Array.getElem?_modify]
      split
      · cases l.nodes[i]? <;> simp [hf]
      · rfl

@[simp] theorem heightOf_link (place : Option ℕ) (level target i : ℕ) :
    (l.link place level target).heightOf i = l.heightOf i :=
  elim_link _ (fun _ _ _ => by simp) place level target i

@[simp] theorem head_size_link (place : Option ℕ) (level target : ℕ) :
    (l.link place level target).head.size = l.head.size := by
  cases place <;> simp [link]

@[simp] theorem level_link (place : Option ℕ) (level target : ℕ) :
    (l.link place level target).level = l.level := by
  cases place <;> rfl

theorem hasLink_link {place q : Option ℕ} {level target m : ℕ} :
    (l.link place level target).HasLink q m ↔ l.HasLink q m := by
  cases q <;> simp [HasLink]

/-- Setting a link changes that link and no other. -/
theorem successor_link (hh : l.head.size = maxLevel) {place : Option ℕ} {level : ℕ}
    (hp : l.HasLink place level) (target : ℕ) (q : Option ℕ) (m : ℕ) :
    (l.link place level target).successor q m =
      if q = place ∧ m = level then some target else l.successor q m := by
  cases place with
  | none =>
      cases q with
      | none =>
          have hlt : level < l.head.size := by rw [hh]; exact hp
          simp only [link, successor, Array.getElem?_setIfInBounds, true_and]
          by_cases hm : m = level
          · subst hm; simp [hlt]
          · simp [hm, Ne.symm hm]
      | some i => simp [link, successor]
  | some p =>
      cases q with
      | none => simp [link, successor]
      | some i =>
          simp only [link, successor, Array.getElem?_modify, Option.some.injEq]
          by_cases hi : i = p
          · subst hi
            obtain ⟨n, hn, -⟩ := getElem?_of_height hp
            have hlt : level < n.next.size := by simpa [HasLink, heightOf, hn] using hp
            simp only [hn, if_true, Option.map_some, Option.bind_some, true_and,
              Array.getElem?_setIfInBounds]
            by_cases hm : m = level
            · subst hm; simp [hlt]
            · simp [hm, Ne.symm hm]
          · simp [hi, Ne.symm hi]

/-! ### The links of a new node -/

section relink
variable (places : List (Option ℕ)) (target : ℕ)

/-- Points the links before a new node at it, on some levels. -/
def relink (l : SkipList) (levels : List ℕ) : SkipList :=
  levels.foldl (fun l level => l.link (placeBefore places level) level target) l

@[simp] theorem size_relink (levels : List ℕ) : (l.relink places target levels).size = l.size := by
  induction levels generalizing l with
  | nil => rfl
  | cons m levels ih => simpa [relink] using ih (l := l.link (placeBefore places m) m target)

theorem elim_relink {α : Type} (d : α) {f : Node → α}
    (hf : ∀ n m t, f { n with next := n.next.setIfInBounds m t } = f n) (levels : List ℕ) (i : ℕ) :
    ((l.relink places target levels).nodes[i]?).elim d f = (l.nodes[i]?).elim d f := by
  induction levels generalizing l with
  | nil => rfl
  | cons m levels ih =>
      have := ih (l := l.link (placeBefore places m) m target)
      rwa [elim_link d hf] at this

@[simp] theorem level_relink (levels : List ℕ) :
    (l.relink places target levels).level = l.level := by
  induction levels generalizing l with
  | nil => rfl
  | cons m levels ih => simpa [relink] using ih (l := l.link (placeBefore places m) m target)

@[simp] theorem head_size_relink (levels : List ℕ) :
    (l.relink places target levels).head.size = l.head.size := by
  induction levels generalizing l with
  | nil => rfl
  | cons m levels ih => simpa [relink] using ih (l := l.link (placeBefore places m) m target)

theorem successor_relink (hh : l.head.size = maxLevel) (levels : List ℕ)
    (hp : ∀ m ∈ levels, l.HasLink (placeBefore places m) m) (q : Option ℕ) (m : ℕ) :
    (l.relink places target levels).successor q m =
      if m ∈ levels ∧ q = placeBefore places m then some target else l.successor q m := by
  induction levels generalizing l with
  | nil => simp [relink]
  | cons k levels ih =>
      have hlink := hp k List.mem_cons_self
      have hstep : l.relink places target (k :: levels) =
        (l.link (placeBefore places k) k target).relink places target levels := rfl
      rw [hstep, ih (by simpa using hh) (fun j hj => hasLink_link.mpr (hp j (.tail _ hj))),
        successor_link hh hlink]
      by_cases hm : m ∈ levels
      · by_cases hq : q = placeBefore places m
        · simp [hm, hq]
        · have : ¬ (q = placeBefore places k ∧ m = k) := by
            rintro ⟨rfl, rfl⟩
            exact hq rfl
          simp [hq, this]
      · by_cases hk : m = k
        · subst hk; simp [hm]
        · simp [hm, hk]

end relink

/-! ### The grown list -/

section grow
variable (key : VersionedKey) (value : Option String) (height : Height) (places : List (Option ℕ))

/-- The list with a new node that nothing leads to yet. -/
def grow (l : SkipList) : SkipList :=
  { l with
    nodes := l.nodes.push ⟨key, value,
      ((List.range (height + 1)).map fun m => l.successor (placeBefore places m) m).toArray⟩
    level := max l.level (height + 1) }

theorem addNode_eq : l.addNode key value height places =
    (l.grow key value height places).relink places l.size (List.range (height + 1)) := rfl

@[simp] theorem size_grow : (l.grow key value height places).size = l.size + 1 := by
  simp [grow, size]

theorem elim_grow {α : Type} (d : α) (f : Node → α) (i : ℕ) :
    ((l.grow key value height places).nodes[i]?).elim d f =
      if i = l.size then f ⟨key, value, ((List.range (height + 1)).map fun m =>
        l.successor (placeBefore places m) m).toArray⟩ else (l.nodes[i]?).elim d f := by
  simp only [grow, size, Array.getElem?_push]
  by_cases hi : i = l.nodes.size <;> simp [hi]

theorem heightOf_grow (i : ℕ) : (l.grow key value height places).heightOf i =
    if i = l.size then (height : ℕ) + 1 else l.heightOf i := by
  rw [heightOf, elim_grow]
  simp [heightOf]

theorem successor_grow_new {m : ℕ} (hm : m < height + 1) :
    (l.grow key value height places).successor (some l.size) m =
      l.successor (placeBefore places m) m := by
  unfold grow successor
  simp [size, hm]

theorem successor_grow_old {q : Option ℕ} (hq : q ≠ some l.size) (m : ℕ) :
    (l.grow key value height places).successor q m = l.successor q m := by
  cases q with
  | none => rfl
  | some i =>
      have hi : i ≠ l.nodes.size := fun h => hq (by rw [h]; rfl)
      simp [grow, successor, Array.getElem?_push, hi]

theorem hasLink_grow_old {q : Option ℕ} (hq : q ≠ some l.size) {m : ℕ} :
    (l.grow key value height places).HasLink q m ↔ l.HasLink q m := by
  cases q with
  | none => rfl
  | some i =>
      have hi : i ≠ l.size := fun h => hq (by rw [h])
      simp [HasLink, heightOf_grow, hi]

end grow

theorem lt_maxLevel {height : Height} {m : ℕ} (hm : m < height + 1) : m < maxLevel :=
  lt_of_lt_of_le hm height.isLt

theorem ne_size_of_hasLink {q : Option ℕ} {m : ℕ} (h : l.HasLink q m) : q ≠ some l.size := by
  rintro rfl
  exact lt_irrefl _ (lt_size_of_height h)

/-! ### A new node between its neighbours -/

section addNode
variable {target : VersionedKey} {value : Option String} {height : Height}

/-- The list with a new node at its place. -/
abbrev added (l : SkipList) (target : VersionedKey) (value : Option String) (height : Height) :
    SkipList :=
  l.addNode target value height (l.predecessors target)

theorem keyOf_added (i : ℕ) : (l.added target value height).keyOf i =
    if i = l.size then target else l.keyOf i := by
  rw [added, addNode_eq, keyOf, elim_relink _ _ _ (fun _ _ _ => rfl), elim_grow]
  rfl

theorem keyOf_added_self : (l.added target value height).keyOf l.size = target := by
  rw [keyOf_added, if_pos rfl]

theorem valueOf_added (i : ℕ) : (l.added target value height).valueOf i =
    if i = l.size then value else l.valueOf i := by
  rw [added, addNode_eq, valueOf, elim_relink _ _ _ (fun _ _ _ => rfl), elim_grow]
  rfl

theorem heightOf_added (i : ℕ) : (l.added target value height).heightOf i =
    if i = l.size then (height : ℕ) + 1 else l.heightOf i := by
  rw [added, addNode_eq, heightOf, elim_relink _ _ _ (fun _ _ _ => by simp), ← heightOf,
    heightOf_grow]

theorem size_added : (l.added target value height).size = l.size + 1 := by
  rw [added, addNode_eq, size_relink, size_grow]

theorem before_added {q : Option ℕ} (hq : q ≠ some l.size) {key : VersionedKey} :
    (l.added target value height).Before q key ↔ l.Before q key := by
  cases q with
  | none => rfl
  | some i =>
      have hi : i ≠ l.size := fun h => hq (by rw [h])
      simp [Before, keyOf_added, hi]

theorem hasLink_added {q : Option ℕ} (hq : q ≠ some l.size) {m : ℕ} :
    (l.added target value height).HasLink q m ↔ l.HasLink q m := by
  cases q with
  | none => rfl
  | some i =>
      have hi : i ≠ l.size := fun h => hq (by rw [h])
      simp [HasLink, heightOf_added, hi]

theorem Linked.successor_added (hl : l.Linked) {q : Option ℕ} {m : ℕ} :
    (l.added target value height).successor q m =
      if m < height + 1 ∧ q = placeBefore (l.predecessors target) m then some l.size
      else (l.grow target value height (l.predecessors target)).successor q m := by
  have hlinks : ∀ m ∈ List.range (height + 1),
      (l.grow target value height (l.predecessors target)).HasLink
        (placeBefore (l.predecessors target) m) m := by
    intro k hk
    have hs := (hl.stops_predecessors target (lt_maxLevel (List.mem_range.mp hk))).hasLink
    exact (hasLink_grow_old _ _ _ _ (ne_size_of_hasLink hs)).mpr hs
  rw [added, addNode_eq, successor_relink _ _ (by simpa [grow] using hl.head_size) _ hlinks]
  simp only [List.mem_range]

/-- The link of the new node leads to what followed the place before it. -/
theorem Linked.isNext_added_new (hl : l.Linked) (hfresh : ∀ i < l.size, l.keyOf i ≠ target)
    {m : ℕ} (hm : m < height + 1) :
    (l.added target value height).IsNext (some l.size) m
      (l.successor (placeBefore (l.predecessors target) m) m) := by
  have hstop := hl.stops_predecessors target (lt_maxLevel hm)
  generalize placeBefore (l.predecessors target) m = p at hstop
  have hafter : ∀ j, m < l.heightOf j → target < l.keyOf j → l.Before p (l.keyOf j) := by
    intro j _ hj
    have hb := hstop.before
    cases p with
    | none => trivial
    | some i => exact lt_trans hb hj
  have hnext := hl.next p m hstop.hasLink
  cases hs : l.successor p m with
  | none =>
      rw [hs] at hnext
      intro j hj hb
      by_cases hjn : j = l.size
      · subst hjn
        exact lt_irrefl _ hb
      · rw [heightOf_added, if_neg hjn] at hj
        rw [Before, keyOf_added_self, keyOf_added, if_neg hjn] at hb
        exact hnext j hj (hafter j hj hb)
  | some i =>
      rw [hs] at hnext
      obtain ⟨hi, hpi, hmin⟩ := hnext
      have hin : i ≠ l.size := (lt_size_of_height hi).ne
      have hti : target < l.keyOf i :=
        lt_of_le_of_ne (hstop.le_of_before hi hpi) (Ne.symm (hfresh i (lt_size_of_height hi)))
      refine ⟨by rwa [heightOf_added, if_neg hin], ?_, ?_⟩
      · rw [Before, keyOf_added_self, keyOf_added, if_neg hin]
        exact hti
      · intro j hj hb
        by_cases hjn : j = l.size
        · subst hjn
          exact absurd hb (lt_irrefl _)
        · rw [heightOf_added, if_neg hjn] at hj
          rw [Before, keyOf_added_self, keyOf_added, if_neg hjn] at hb
          rw [keyOf_added, keyOf_added, if_neg hin, if_neg hjn]
          exact hmin j hj (hafter j hj hb)

/-- The place before the new node leads to it. -/
theorem Linked.isNext_added_before (hl : l.Linked) {m : ℕ} (hm : m < height + 1) :
    (l.added target value height).IsNext (placeBefore (l.predecessors target) m) m
      (some l.size) := by
  have hstop := hl.stops_predecessors target (lt_maxLevel hm)
  generalize placeBefore (l.predecessors target) m = p at hstop
  have hp := ne_size_of_hasLink hstop.hasLink
  refine ⟨by rw [heightOf_added, if_pos rfl]; exact hm, ?_, ?_⟩
  · rw [before_added hp, keyOf_added_self]
    exact hstop.before
  · intro j hj hb
    rw [keyOf_added_self]
    by_cases hjn : j = l.size
    · rw [keyOf_added, if_pos hjn]
    · rw [heightOf_added, if_neg hjn] at hj
      rw [before_added hp, keyOf_added, if_neg hjn] at hb
      rw [keyOf_added, if_neg hjn]
      exact hstop.le_of_before hj hb

/-- A place before a key that is not the last one leads to a node that is before the key as well. -/
theorem Linked.exists_closer (hl : l.Linked) {q : Option ℕ} {m : ℕ} (hq : l.HasLink q m)
    (hm : m < height + 1) (hne : q ≠ placeBefore (l.predecessors target) m)
    (hb : l.Before q target) :
    ∃ j, m < l.heightOf j ∧ l.Before q (l.keyOf j) ∧ l.keyOf j < target := by
  have hstop := hl.stops_predecessors target (lt_maxLevel hm)
  generalize placeBefore (l.predecessors target) m = p at hstop hne
  have hlast : ∀ i, q = some i → ¬ l.Before p (l.keyOf i) := by
    rintro i rfl hi
    exact absurd hb (not_lt.mpr (hstop.le_of_before hq hi))
  cases p with
  | none =>
      cases q with
      | none => exact absurd rfl hne
      | some i => exact absurd trivial (hlast i rfl)
  | some j =>
      refine ⟨j, hstop.hasLink, ?_, hstop.before⟩
      cases q with
      | none => trivial
      | some i =>
          refine lt_of_le_of_ne (not_lt.mp (hlast i rfl)) fun he => hne ?_
          rw [hl.distinct i (lt_size_of_height hq) j (lt_size_of_height hstop.hasLink) he]

/-- Every other place leads where it led. -/
theorem Linked.isNext_added_other (hl : l.Linked) {q : Option ℕ} {m : ℕ} (hq : l.HasLink q m)
    (hne : m < height + 1 → q ≠ placeBefore (l.predecessors target) m) :
    (l.added target value height).IsNext q m (l.successor q m) := by
  have hqs := ne_size_of_hasLink hq
  have hnext := hl.next q m hq
  cases hs : l.successor q m with
  | none =>
      rw [hs] at hnext
      intro j hj hb
      rw [before_added hqs, keyOf_added] at hb
      rw [heightOf_added] at hj
      by_cases hjn : j = l.size
      · rw [if_pos hjn] at hb hj
        obtain ⟨k, hk, hbk, -⟩ := hl.exists_closer hq hj (hne hj) hb
        exact hnext k hk hbk
      · rw [if_neg hjn] at hb hj
        exact hnext j hj hb
  | some i =>
      rw [hs] at hnext
      obtain ⟨hi, hqi, hmin⟩ := hnext
      have hin : i ≠ l.size := (lt_size_of_height hi).ne
      refine ⟨by rwa [heightOf_added, if_neg hin], ?_, ?_⟩
      · rwa [before_added hqs, keyOf_added, if_neg hin]
      · intro j hj hb
        rw [before_added hqs, keyOf_added] at hb
        rw [heightOf_added] at hj
        rw [keyOf_added, keyOf_added, if_neg hin]
        by_cases hjn : j = l.size
        · rw [if_pos hjn] at hb hj ⊢
          obtain ⟨k, hk, hbk, hkt⟩ := hl.exists_closer hq hj (hne hj) hb
          exact (hmin k hk hbk).trans hkt.le
        · rw [if_neg hjn] at hb hj ⊢
          exact hmin j hj hb

/-- A new node under a new key keeps the list well-formed, whatever its height. -/
theorem Linked.added (hl : l.Linked) (hfresh : ∀ i < l.size, l.keyOf i ≠ target) :
    (l.added target value height).Linked where
  head_size := by
    rw [SkipList.added, addNode_eq, head_size_relink]
    exact hl.head_size
  level_pos := by
    rw [SkipList.added, addNode_eq, level_relink]
    exact lt_of_lt_of_le hl.level_pos (le_max_left _ _)
  level_le := by
    rw [SkipList.added, addNode_eq, level_relink]
    exact max_le hl.level_le height.isLt
  height_pos i hi := by
    rw [size_added] at hi
    rw [heightOf_added]
    split
    · omega
    · next hin => exact hl.height_pos i (by omega)
  height_le i := by
    rw [heightOf_added, SkipList.added, addNode_eq, level_relink]
    split
    · exact le_max_right _ _
    · exact (hl.height_le i).trans (le_max_left _ _)
  distinct i hi j hj he := by
    rw [size_added] at hi hj
    rw [keyOf_added, keyOf_added] at he
    by_cases hin : i = l.size <;> by_cases hjn : j = l.size
    · rw [hin, hjn]
    · rw [if_pos hin, if_neg hjn] at he
      exact absurd he.symm (hfresh j (by omega))
    · rw [if_neg hin, if_pos hjn] at he
      exact absurd he (hfresh i (by omega))
    · rw [if_neg hin, if_neg hjn] at he
      exact hl.distinct i (by omega) j (by omega) he
  next q m hq := by
    rw [hl.successor_added]
    by_cases hnew : q = some l.size
    · subst hnew
      have hm : m < height + 1 := by simpa [HasLink, heightOf_added] using hq
      have hstop := hl.stops_predecessors target (lt_maxLevel hm)
      rw [if_neg fun h => ne_size_of_hasLink hstop.hasLink h.2.symm, successor_grow_new _ _ _ _ hm]
      exact hl.isNext_added_new hfresh hm
    · have hold := (hasLink_added hnew).mp hq
      split
      · next h =>
        obtain ⟨hm, rfl⟩ := h
        exact hl.isNext_added_before hm
      · next h =>
        rw [successor_grow_old _ _ _ _ hnew]
        exact hl.isNext_added_other hold fun hm he => h ⟨hm, he⟩

end addNode

/-! ### A new value in its place -/

/-- The list with the value of a node replaced. -/
abbrev overwritten (l : SkipList) (i : ℕ) (value : Option String) : SkipList :=
  { l with nodes := l.nodes.modify i fun n => { n with value } }

section overwrite
variable (i : ℕ) (value : Option String)

theorem elim_overwritten {α : Type} (d : α) {f : Node → α}
    (hf : ∀ n, f { n with value } = f n) (j : ℕ) :
    ((l.overwritten i value).nodes[j]?).elim d f = (l.nodes[j]?).elim d f := by
  simp only [Array.getElem?_modify]
  split
  · cases l.nodes[j]? <;> simp [hf]
  · rfl

theorem keyOf_overwritten (j : ℕ) : (l.overwritten i value).keyOf j = l.keyOf j :=
  elim_overwritten i value _ (fun _ => rfl) j

theorem heightOf_overwritten (j : ℕ) : (l.overwritten i value).heightOf j = l.heightOf j :=
  elim_overwritten i value _ (fun _ => rfl) j

theorem size_overwritten : (l.overwritten i value).size = l.size := Array.size_modify

theorem valueOf_overwritten {i : ℕ} (hi : i < l.size) (j : ℕ) :
    (l.overwritten i value).valueOf j = if j = i then value else l.valueOf j := by
  have hi' : i < l.nodes.size := hi
  simp only [valueOf, Array.getElem?_modify]
  by_cases hj : j = i
  · subst hj; simp [hi']
  · simp [hj, Ne.symm hj]

theorem successor_overwritten (p : Option ℕ) (m : ℕ) :
    (l.overwritten i value).successor p m = l.successor p m := by
  cases p with
  | none => rfl
  | some j =>
      simp only [successor, Array.getElem?_modify]
      split
      · cases l.nodes[j]? <;> rfl
      · rfl

theorem Linked.overwritten (hl : l.Linked) : (l.overwritten i value).Linked := by
  have hbefore : ∀ p key, (l.overwritten i value).Before p key ↔ l.Before p key := by
    intro p key
    cases p with
    | none => rfl
    | some j => rw [Before, Before, keyOf_overwritten]
  refine ⟨hl.head_size, hl.level_pos, hl.level_le, fun j hj => ?_, fun j => ?_,
    fun j hj k hk he => ?_, fun p m hp => ?_⟩
  · rw [heightOf_overwritten]
    exact hl.height_pos j (by rwa [size_overwritten] at hj)
  · rw [heightOf_overwritten]
    exact hl.height_le j
  · rw [size_overwritten] at hj hk
    rw [keyOf_overwritten, keyOf_overwritten] at he
    exact hl.distinct j hj k hk he
  · have hlink : l.HasLink p m := by
      cases p with
      | none => exact hp
      | some j => rwa [HasLink, heightOf_overwritten] at hp
    have hnext := hl.next p m hlink
    rw [successor_overwritten]
    cases hs : l.successor p m with
    | none =>
        rw [hs] at hnext
        intro j hj hb
        rw [heightOf_overwritten] at hj
        rw [hbefore, keyOf_overwritten] at hb
        exact hnext j hj hb
    | some k =>
        rw [hs] at hnext
        obtain ⟨hk, hpk, hmin⟩ := hnext
        refine ⟨by rwa [heightOf_overwritten], by rwa [hbefore, keyOf_overwritten], ?_⟩
        intro j hj hb
        rw [heightOf_overwritten] at hj
        rw [hbefore, keyOf_overwritten] at hb
        rw [keyOf_overwritten, keyOf_overwritten]
        exact hmin j hj hb

end overwrite

end SkipList
end SnapshotStore

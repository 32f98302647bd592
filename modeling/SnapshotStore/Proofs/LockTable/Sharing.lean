import SnapshotStore.Proofs.LockTable
import Mathlib.Data.Finset.Card

/-! # Locks shared by reference

Parties ask a table for the locks of keys and keep references to them.  They may pass a reference
on, take and free a lock that they refer to, and drop the reference while the lock is taken.  A
`Usage` is a table with everything that is kept: the references, the grants under which locks are
owned, and for which keys locks were given out.  A lock is `InUse` while it is owned or somebody
keeps a reference to it.

The table counts the references and does not know who keeps them.  What holds after every use
(`Shared`) connects the two, and from it follows that no sweep takes a lock out that is in use
(`sweep_keeps_locks_in_use`): parties that refer to the lock of one key at the same time refer to the same
lock, one of them at most owns it, and the table grows no further than the locks in use require. -/

namespace SnapshotStore
namespace LockTable

/-- A reference to a lock that a party keeps, and the key that it was given out for. -/
structure Reference where
  party : ℕ
  key : String
  lock : ℕ
deriving DecidableEq, Repr

/-- A lock that was taken through a reference, and the owner. -/
structure Grant where
  reference : Reference
  id : ℕ
deriving DecidableEq, Repr

/-- What a party does: it asks for the lock of a key, or only looks for it; it passes a reference
on, takes or frees a lock through a reference, or drops the reference. -/
inductive Use
  | ask (party : ℕ) (key : String)
  | look (party : ℕ) (key : String)
  | share (r : Reference) (party : ℕ)
  | acquire (r : Reference) (id : ℕ)
  | release (r : Reference) (id : ℕ)
  | drop (r : Reference)
deriving Repr

/-- A table in use: the locks given out so far with their keys, the references that parties keep,
and the grants of the locks that are owned. -/
structure Usage where
  table : LockTable
  given : List (String × ℕ)
  references : List Reference
  grants : List Grant

namespace Usage

/-- A new table, which nobody uses yet. -/
def start (threshold : ℕ) : Usage := ⟨create threshold, [], [], []⟩

/-- One use.  Only references that are kept can be used, and nobody owns a lock as `unlocked`. -/
def next (s : Usage) : Use → Option Usage
  | .ask party key =>
    let (lock, table) := s.table.lockFor key
    some { s with
      table
      given := (key, lock) :: s.given
      references := ⟨party, key, lock⟩ :: s.references }
  | .look party key =>
    match s.table.peek key with
    | none => some s
    | some (lock, table) =>
      some { s with table, references := ⟨party, key, lock⟩ :: s.references }
  | .share r party =>
    if r ∈ s.references then
      some { s with
        table := s.table.borrow r.lock
        references := { r with party } :: s.references }
    else none
  | .acquire r id =>
    if r ∈ s.references ∧ id ≠ unlocked then
      match s.table.tryAcquire r.lock id with
      | (true, table) => some { s with table, grants := ⟨r, id⟩ :: s.grants }
      | (false, table) => some { s with table }
    else none
  | .release r id =>
    if r ∈ s.references ∧ id ≠ unlocked then
      some { s with
        table := s.table.release r.lock id
        grants := s.grants.filter fun g => ¬ (g.reference.lock = r.lock ∧ g.id = id) }
    else none
  | .drop r =>
    if r ∈ s.references then
      some { s with table := s.table.drop r.lock, references := s.references.erase r }
    else none

/-- Several uses, one after the other. -/
def run (s : Usage) (uses : List Use) : Option Usage := uses.foldlM next s

/-- A lock is in use while it is owned or somebody keeps a reference to it. -/
def InUse (s : Usage) (lock : ℕ) : Prop :=
  s.table.owner lock ≠ unlocked ∨ ∃ r ∈ s.references, r.lock = lock

instance (s : Usage) : DecidablePred s.InUse := fun _ => inferInstanceAs (Decidable (_ ∨ _))

/-- The locks in use. -/
def busy (s : Usage) : Finset ℕ := (Finset.range s.table.locks.size).filter s.InUse

end Usage

/-! ### Counting references -/

section kept
variable (rs : List Reference)

/-- How many of some references are to a lock. -/
def kept (lock : ℕ) : ℕ := rs.countP (·.lock = lock)

theorem kept_pos_iff {lock : ℕ} : 0 < kept rs lock ↔ ∃ r ∈ rs, r.lock = lock := by
  simp [kept, List.countP_pos_iff]

theorem kept_cons (r : Reference) (lock : ℕ) :
    kept (r :: rs) lock = kept rs lock + if lock = r.lock then 1 else 0 := by
  unfold kept
  rw [List.countP_cons]
  by_cases hl : lock = r.lock
  · simp [hl]
  · simp [hl, Ne.symm hl]

theorem kept_erase {r : Reference} (hr : r ∈ rs) (lock : ℕ) :
    kept (rs.erase r) lock = kept rs lock - if lock = r.lock then 1 else 0 := by
  have hperm : kept rs lock = kept (r :: rs.erase r) lock :=
    (List.perm_cons_erase hr).countP_eq _
  rw [hperm, kept_cons]
  omega

end kept

/-! ### The invariant -/

variable {s : Usage}

/-- What a table in use keeps up. -/
structure Shared (s : Usage) : Prop where
  counted : ∀ lock, s.table.references lock = kept s.references lock
  made : ∀ {key lock}, (key, lock) ∈ s.given → lock < s.table.locks.size
  single : ∀ {key key' lock}, (key, lock) ∈ s.given → (key', lock) ∈ s.given → key = key'
  named : ∀ {key lock}, s.table.byKey.get? key = some lock → (key, lock) ∈ s.given
  listed : ∀ {key lock}, (key, lock) ∈ s.given → s.InUse lock →
    s.table.byKey.get? key = some lock
  referred : ∀ r ∈ s.references, (r.key, r.lock) ∈ s.given
  granted : ∀ g ∈ s.grants, (g.reference.key, g.reference.lock) ∈ s.given ∧ g.id ≠ unlocked ∧
    s.table.owner g.reference.lock = g.id
  owned : ∀ {lock}, s.table.owner lock ≠ unlocked → ∃ g ∈ s.grants, g.reference.lock = lock
  once : s.grants.Pairwise (·.reference.lock ≠ ·.reference.lock)

theorem Shared.start (threshold : ℕ) : Shared (.start threshold) where
  counted lock := by simp [Usage.start, kept, create, LockTable.references]
  made h := by simp [Usage.start] at h
  single h := by simp [Usage.start] at h
  named h := by simp [Usage.start, create] at h
  listed h := by simp [Usage.start] at h
  referred := by simp [Usage.start]
  granted := by simp [Usage.start]
  owned h := by simp [Usage.start, create, owner] at h
  once := List.Pairwise.nil

section steps
variable (h : Shared s)
include h

theorem Shared.inRange {key : String} {lock : ℕ} (hk : s.table.byKey.get? key = some lock) :
    lock < s.table.locks.size := h.made (h.named hk)

theorem Shared.inUse_iff {lock : ℕ} : s.table.inUse lock = true ↔ s.InUse lock := by
  rw [LockTable.inUse_iff, h.counted, kept_pos_iff, Usage.InUse]

/-- A party gets a reference to a lock that somebody refers to or that the table has for the key. -/
theorem Shared.borrow {r : Reference} (hr : s.table.byKey.get? r.key = some r.lock) :
    Shared { s with table := s.table.borrow r.lock, references := r :: s.references } where
  counted lock := by
    rw [references_borrow _ (h.inRange hr), h.counted, kept_cons]
  made hg := by
    rw [size_locks_borrow]
    exact h.made hg
  single := h.single
  named := h.named
  listed {key lock} hg hu := by
    rw [Usage.InUse, owner_borrow] at hu
    rw [byKey_borrow]
    obtain ho | ⟨r', hr', rfl⟩ := hu
    · exact h.listed hg (.inl ho)
    · rcases List.mem_cons.mp hr' with rfl | hr'
      · rw [h.single hg (h.named hr)]
        exact hr
      · exact h.listed hg (.inr ⟨r', hr', rfl⟩)
  referred r' hr' := by
    rcases List.mem_cons.mp hr' with rfl | hr'
    · exact h.named hr
    · exact h.referred r' hr'
  granted g hg := by
    rw [owner_borrow]
    exact h.granted g hg
  owned ho := by
    rw [owner_borrow] at ho
    exact h.owned ho
  once := h.once

theorem Shared.eq_of_given {k key : String} (hg : (k, (s.table.lockFor key).1) ∈ s.given) :
    k = key := by
  rcases lockFor_fst s.table key with hk | ⟨-, hsize⟩
  · exact h.single hg (h.named hk)
  · have := h.made hg
    omega

/-- A party asks for the lock of a key, which may sweep the table and make the lock. -/
theorem Shared.ask (party : ℕ) (key : String) :
    Shared { s with
      table := (s.table.lockFor key).2
      given := (key, (s.table.lockFor key).1) :: s.given
      references := ⟨party, key, (s.table.lockFor key).1⟩ :: s.references } where
  counted lock := by
    rw [references_lockFor _ h.inRange, h.counted, kept_cons]
  made {k lock} hg := by
    rcases List.mem_cons.mp hg with heq | hg
    · obtain ⟨rfl, rfl⟩ := Prod.mk.inj heq
      exact lt_size_lockFor _ h.inRange (get?_lockFor_self _ k)
    · exact Nat.lt_of_lt_of_le (h.made hg) (size_locks_lockFor _ key)
  single {k k' lock} hg hg' := by
    rcases List.mem_cons.mp hg with heq | hg <;> rcases List.mem_cons.mp hg' with heq' | hg'
    · rw [(Prod.mk.inj heq).1, (Prod.mk.inj heq').1]
    · rw [(Prod.mk.inj heq).2] at hg'
      rw [(Prod.mk.inj heq).1, h.eq_of_given hg']
    · rw [(Prod.mk.inj heq').2] at hg
      rw [(Prod.mk.inj heq').1, h.eq_of_given hg]
    · exact h.single hg hg'
  named {k lock} hk := by
    rcases byKey_lockFor _ hk with hk' | ⟨rfl, -⟩
    · exact List.mem_cons_of_mem _ (h.named hk')
    · have hself := get?_lockFor_self s.table k
      rw [Option.some.inj (hk.symm.trans hself)]
      exact List.mem_cons_self ..
  listed {k lock} hg hu := by
    have hu : s.table.owner lock ≠ unlocked ∨
        ∃ r ∈ ⟨party, key, (s.table.lockFor key).1⟩ :: s.references, r.lock = lock := by
      rwa [Usage.InUse, owner_lockFor] at hu
    by_cases hl : lock = (s.table.lockFor key).1
    · have hk : k = key := by
        rcases List.mem_cons.mp hg with heq | hg
        · exact (Prod.mk.inj heq).1
        · exact h.eq_of_given (hl ▸ hg)
      rw [hk, hl]
      exact get?_lockFor_self _ key
    · have hold : (k, lock) ∈ s.given := by
        rcases List.mem_cons.mp hg with heq | hg
        · exact absurd (Prod.mk.inj heq).2 hl
        · exact hg
      have huse : s.InUse lock := by
        refine hu.imp_right fun ⟨r, hr, hrl⟩ => ⟨r, ?_, hrl⟩
        rcases List.mem_cons.mp hr with rfl | hr
        · exact absurd hrl.symm hl
        · exact hr
      exact get?_lockFor _ (h.listed hold huse) (h.inUse_iff.mpr huse)
  referred r hr := by
    rcases List.mem_cons.mp hr with rfl | hr
    · exact List.mem_cons_self ..
    · exact List.mem_cons_of_mem _ (h.referred r hr)
  granted g hg := by
    rw [owner_lockFor]
    obtain ⟨hgiven, hrest⟩ := h.granted g hg
    exact ⟨List.mem_cons_of_mem _ hgiven, hrest⟩
  owned ho := by
    rw [owner_lockFor] at ho
    exact h.owned ho
  once := h.once

/-- A party takes a free lock that it refers to. -/
theorem Shared.acquire {r : Reference} {id : ℕ} (hr : r ∈ s.references) (hid : id ≠ unlocked)
    (hfree : s.table.owner r.lock = unlocked) :
    Shared { s with
      table := (s.table.exchange r.lock unlocked id).2
      grants := ⟨r, id⟩ :: s.grants } := by
  have howner (l : ℕ) : (s.table.exchange r.lock unlocked id).2.owner l =
      if l = r.lock then id else s.table.owner l := by
    rw [owner_exchange _ _ _ _ (h.made (h.referred r hr))]
    simp [hfree]
  refine ⟨fun lock => ?_, fun hg => ?_, h.single, fun hk => ?_, fun {key lock} hg hu => ?_,
    h.referred, fun g hg => ?_, fun {lock} ho => ?_, List.pairwise_cons.mpr ⟨fun g hg => ?_, h.once⟩⟩
  · rw [references_exchange, h.counted]
  · rw [size_locks_exchange]
    exact h.made hg
  · rw [byKey_exchange] at hk
    exact h.named hk
  · rw [byKey_exchange]
    refine h.listed hg ?_
    rw [Usage.InUse, howner] at hu
    by_cases hl : lock = r.lock
    · exact .inr ⟨r, hr, hl.symm⟩
    · rwa [if_neg hl] at hu
  · rw [howner]
    rcases List.mem_cons.mp hg with rfl | hg
    · exact ⟨h.referred r hr, hid, if_pos rfl⟩
    · obtain ⟨hgiven, hne, ho⟩ := h.granted g hg
      have hl : g.reference.lock ≠ r.lock := by
        intro hl
        rw [hl, hfree] at ho
        exact hne ho.symm
      exact ⟨hgiven, hne, (if_neg hl).trans ho⟩
  · by_cases hl : lock = r.lock
    · exact ⟨⟨r, id⟩, List.mem_cons_self .., hl.symm⟩
    · rw [howner, if_neg hl] at ho
      obtain ⟨g, hg, hgl⟩ := h.owned ho
      exact ⟨g, List.mem_cons_of_mem _ hg, hgl⟩
  · intro hl
    obtain ⟨-, hne, ho⟩ := h.granted g hg
    rw [← hl, hfree] at ho
    exact hne ho.symm

/-- A party frees a lock that it refers to; if another owns the lock, nothing happens. -/
theorem Shared.release {r : Reference} {id : ℕ} (hr : r ∈ s.references) :
    Shared { s with
      table := s.table.release r.lock id
      grants := s.grants.filter fun g => ¬ (g.reference.lock = r.lock ∧ g.id = id) } := by
  have howner (l : ℕ) : (s.table.release r.lock id).owner l =
      if l = r.lock ∧ s.table.owner r.lock = id then unlocked else s.table.owner l :=
    owner_exchange _ _ _ _ (h.made (h.referred r hr)) l
  refine ⟨fun lock => ?_, fun hg => ?_, h.single, fun hk => ?_, fun {key lock} hg hu => ?_,
    h.referred, fun g hg => ?_, fun {lock} ho => ?_, h.once.filter _⟩
  · rw [LockTable.release, references_exchange, h.counted]
  · rw [LockTable.release, size_locks_exchange]
    exact h.made hg
  · rw [LockTable.release, byKey_exchange] at hk
    exact h.named hk
  · rw [LockTable.release, byKey_exchange]
    refine h.listed hg (hu.imp_left fun ho => ?_)
    rw [howner] at ho
    split at ho
    · exact absurd rfl ho
    · exact ho
  · obtain ⟨hg, hkept⟩ := List.mem_filter.mp hg
    obtain ⟨hgiven, hne, ho⟩ := h.granted g hg
    refine ⟨hgiven, hne, ?_⟩
    rw [howner, if_neg, ho]
    rintro ⟨hl, hown⟩
    rw [hl, hown] at ho
    exact of_decide_eq_true hkept ⟨hl, ho.symm⟩
  · rw [howner] at ho
    split at ho
    · exact absurd rfl ho
    · next hne =>
      obtain ⟨g, hg, hgl⟩ := h.owned ho
      refine ⟨g, List.mem_filter.mpr ⟨hg, decide_eq_true ?_⟩, hgl⟩
      rintro ⟨hl, hgid⟩
      obtain ⟨-, -, hown⟩ := h.granted g hg
      exact hne ⟨hgl.symm.trans hl, by rw [← hl, hown, hgid]⟩

/-- A party drops a reference, whether or not the lock is taken. -/
theorem Shared.drop {r : Reference} (hr : r ∈ s.references) :
    Shared { s with
      table := s.table.drop r.lock
      references := s.references.erase r } where
  counted lock := by
    rw [references_drop, h.counted, kept_erase _ hr]
  made hg := by
    rw [size_locks_drop]
    exact h.made hg
  single := h.single
  named := h.named
  listed hg hu := by
    rw [Usage.InUse, owner_drop] at hu
    refine h.listed hg (hu.imp_right fun ⟨r', hr', hl⟩ => ⟨r', List.mem_of_mem_erase hr', hl⟩)
  referred r' hr' := h.referred r' (List.mem_of_mem_erase hr')
  granted g hg := by
    rw [owner_drop]
    exact h.granted g hg
  owned ho := by
    rw [owner_drop] at ho
    exact h.owned ho
  once := h.once

/-! ### Every use -/

theorem Shared.next {u : Use} {s' : Usage} (hn : s.next u = some s') : Shared s' := by
  cases u with
  | ask party key =>
      obtain rfl := Option.some.inj hn
      exact h.ask party key
  | look party key =>
      cases hk : s.table.byKey.get? key with
      | none =>
          simp only [Usage.next, peek, hk, Option.map_none, Option.some.injEq] at hn
          exact hn ▸ h
      | some lock =>
          simp only [Usage.next, peek, hk, Option.map_some, Option.some.injEq] at hn
          exact hn ▸ h.borrow (r := ⟨party, key, lock⟩) hk
  | share r party =>
      simp only [Usage.next, Option.ite_none_right_eq_some, Option.some.injEq] at hn
      obtain ⟨hr, rfl⟩ := hn
      exact h.borrow (r := { r with party }) (h.listed (h.referred r hr) (.inr ⟨r, hr, rfl⟩))
  | acquire r id =>
      simp only [Usage.next, Option.ite_none_right_eq_some] at hn
      obtain ⟨⟨hr, hid⟩, hn⟩ := hn
      by_cases hfree : s.table.owner r.lock = unlocked
      · have ha : s.table.tryAcquire r.lock id =
            (true, (s.table.exchange r.lock unlocked id).2) := by
          simp [tryAcquire, exchange, hfree]
        simp only [ha, Option.some.injEq] at hn
        exact hn ▸ h.acquire hr hid hfree
      · have ha : s.table.tryAcquire r.lock id = (false, s.table) := by
          simp [tryAcquire, exchange, hfree]
        simp only [ha, Option.some.injEq] at hn
        exact hn ▸ h
  | release r id =>
      simp only [Usage.next, Option.ite_none_right_eq_some, Option.some.injEq] at hn
      obtain ⟨⟨hr, -⟩, rfl⟩ := hn
      exact h.release hr
  | drop r =>
      simp only [Usage.next, Option.ite_none_right_eq_some, Option.some.injEq] at hn
      obtain ⟨hr, rfl⟩ := hn
      exact h.drop hr

theorem Shared.gives {key : String} {lock : ℕ} (hg : (key, lock) ∈ s.given) (hu : s.InUse lock) :
    (s.table.lockFor key).1 = lock ∧ s.table.peek key = some (lock, s.table.borrow lock) := by
  have hk := h.listed hg hu
  exact ⟨by rw [lockFor_of_some _ hk], by simp [peek, hk]⟩

theorem Shared.eq_of_key {key : String} {lock lock' : ℕ} (hg : (key, lock) ∈ s.given)
    (hg' : (key, lock') ∈ s.given) (hu : s.InUse lock) (hu' : s.InUse lock') : lock = lock' :=
  Option.some.inj ((h.listed hg hu).symm.trans (h.listed hg' hu'))

theorem Shared.nodup_keys : (s.grants.map (·.reference.key)).Nodup := by
  have hinUse : ∀ g ∈ s.grants, s.InUse g.reference.lock := by
    intro g hg
    obtain ⟨-, hne, ho⟩ := h.granted g hg
    exact .inl (ho ▸ hne)
  rw [List.Nodup, List.pairwise_map]
  refine h.once.imp_of_mem fun {g g'} hg hg' hne hkey => hne ?_
  have hgiven' := (h.granted g' hg').1
  rw [← hkey] at hgiven'
  exact h.eq_of_key (h.granted g hg).1 hgiven' (hinUse g hg) (hinUse g' hg')

/-! ### The size of the table -/

/-- What a sweep leaves are locks in use, each under one key. -/
theorem Shared.size_filter_le :
    (s.table.byKey.filter fun _ lock => s.table.inUse lock).size ≤ s.busy.card := by
  have hmem : ∀ e ∈ (s.table.byKey.filter fun _ lock => s.table.inUse lock).entries,
      s.table.byKey.get? e.1 = some e.2 ∧ s.InUse e.2 := by
    intro e he
    obtain ⟨hentry, huse⟩ := List.mem_filter.mp he
    exact ⟨(Table.get?_eq_some_iff _).mpr hentry, h.inUse_iff.mp huse⟩
  have hnodup : ((s.table.byKey.filter fun _ lock => s.table.inUse lock).entries.map
      Prod.snd).Nodup := by
    have hkeys := (s.table.byKey.filter fun _ lock => s.table.inUse lock).nodup
    rw [List.Nodup, List.pairwise_map] at hkeys ⊢
    refine hkeys.imp_of_mem fun {e e'} he he' hne hlock => hne ?_
    exact h.single (h.named (hmem e he).1) (hlock ▸ h.named (hmem e' he').1)
  have hbusy : ((s.table.byKey.filter fun _ lock => s.table.inUse lock).entries.map
      Prod.snd).toFinset ⊆ s.busy := by
    intro lock hlock
    obtain ⟨e, he, rfl⟩ := List.mem_map.mp (List.mem_toFinset.mp hlock)
    obtain ⟨hk, huse⟩ := hmem e he
    exact Finset.mem_filter.mpr ⟨Finset.mem_range.mpr (h.inRange hk), huse⟩
  calc (s.table.byKey.filter fun _ lock => s.table.inUse lock).size
      = _ := (List.length_map Prod.snd).symm
    _ = _ := (List.toFinset_card_of_nodup hnodup).symm
    _ ≤ s.busy.card := Finset.card_le_card hbusy

/-- After a new lock was made, a table above its threshold has only this lock and locks in use. -/
theorem Shared.size_lockFor_le {key : String} (hk : s.table.byKey.get? key = none) :
    (s.table.lockFor key).2.size ≤ max s.table.threshold (1 + s.busy.card) := by
  have hswept : s.table.sweep.byKey.get? key = none := by
    by_contra hne
    obtain ⟨lock, hlock⟩ := Option.ne_none_iff_exists'.mp hne
    simp [get?_of_sweep _ hlock] at hk
  have hsize : (s.table.lockFor key).2.size = s.table.sweep.size + 1 := by
    rw [lockFor_of_none _ hk]
    exact Table.size_insert_of_none _ hswept _
  have hsweep : s.table.sweep.size + 1 ≤ max s.table.threshold (1 + s.busy.card) := by
    unfold sweep
    split
    · have := h.size_filter_le
      show (s.table.byKey.filter fun _ lock => s.table.inUse lock).size + 1 ≤ _
      omega
    · omega
  omega

end steps

theorem Usage.busy_subset {party : ℕ} {key : String} {s' : Usage}
    (hk : s.table.byKey.get? key = none) (hn : s.next (.ask party key) = some s') :
    s.busy ⊆ s'.busy.erase (s.table.lockFor key).1 := by
  obtain rfl := Option.some.inj hn
  intro lock hlock
  obtain ⟨hlt, huse⟩ := Finset.mem_filter.mp hlock
  have hlt := Finset.mem_range.mp hlt
  have hfst : (s.table.lockFor key).1 = s.table.locks.size := by rw [lockFor_of_none _ hk]
  refine Finset.mem_erase.mpr ⟨by omega, Finset.mem_filter.mpr ⟨?_, ?_⟩⟩
  · exact Finset.mem_range.mpr (Nat.lt_of_lt_of_le hlt (size_locks_lockFor _ key))
  · refine huse.imp (fun ho => ?_) fun ⟨r, hr, hl⟩ => ⟨r, List.mem_cons_of_mem _ hr, hl⟩
    exact (owner_lockFor s.table key lock).symm ▸ ho

/-! ### Every run -/

theorem threshold_lockFor (t : LockTable) (key : String) :
    (t.lockFor key).2.threshold = t.threshold := by
  cases hk : t.byKey.get? key with
  | some lock => rw [lockFor_of_some t hk, borrow]
  | none =>
      rw [lockFor_of_none t hk]
      unfold sweep
      split <;> rfl

theorem threshold_exchange (t : LockTable) (lock expected tx : ℕ) :
    (t.exchange lock expected tx).2.threshold = t.threshold := by
  unfold exchange
  split <;> rfl

theorem Usage.threshold_next {u : Use} {s' : Usage} (hn : s.next u = some s') :
    s'.table.threshold = s.table.threshold := by
  cases u with
  | ask party key =>
      obtain rfl := Option.some.inj hn
      exact threshold_lockFor _ key
  | look party key =>
      simp only [Usage.next, peek] at hn
      cases hk : s.table.byKey.get? key with
      | none =>
          simp only [hk, Option.map_none, Option.some.injEq] at hn
          rw [hn]
      | some lock =>
          simp only [hk, Option.map_some, Option.some.injEq] at hn
          rw [← hn, borrow]
  | acquire r id =>
      simp only [Usage.next, Option.ite_none_right_eq_some] at hn
      obtain ⟨-, hn⟩ := hn
      have ht := threshold_exchange s.table r.lock unlocked id
      split at hn <;>
        next ha =>
        obtain rfl := Option.some.inj hn
        rwa [← tryAcquire, ha] at ht
  | release r id =>
      simp only [Usage.next, Option.ite_none_right_eq_some, Option.some.injEq] at hn
      obtain ⟨-, rfl⟩ := hn
      exact threshold_exchange ..
  | _ =>
      simp only [Usage.next, Option.ite_none_right_eq_some, Option.some.injEq] at hn
      obtain ⟨-, rfl⟩ := hn
      rfl

theorem Usage.run_concat (s : Usage) (uses : List Use) (u : Use) :
    s.run (uses ++ [u]) = (s.run uses).bind (·.next u) := by
  simp [run, List.foldlM_append]

theorem Shared.of_run {threshold : ℕ} {uses : List Use} {s : Usage}
    (hrun : (Usage.start threshold).run uses = some s) :
    Shared s ∧ s.table.threshold = max threshold 1 := by
  induction uses using List.reverseRecOn generalizing s with
  | nil =>
      obtain rfl := Option.some.inj hrun
      exact ⟨.start threshold, rfl⟩
  | append_singleton uses u ih =>
      rw [Usage.run_concat] at hrun
      obtain ⟨s₀, hrun, hn⟩ := Option.bind_eq_some_iff.mp hrun
      obtain ⟨h, ht⟩ := ih hrun
      exact ⟨h.next hn, (Usage.threshold_next hn).trans ht⟩

/-- However a table is used, a sweep takes no lock out that is in use.

* While a lock that was given out for a key is in use, the key gives this lock, to whoever asks or
  looks for it; so references to the locks of one key are to one lock.
* The owners of locks are the ones that were granted, and no key has two grants at a time.
* A look finds nothing only if no lock that was given out for the key is in use.
* Right after a new lock was made, the table has at most as many locks as its threshold, or as this
  one and the other locks in use. -/
theorem sweep_keeps_locks_in_use {threshold : ℕ} {uses : List Use} {s : Usage}
    (hrun : (Usage.start threshold).run uses = some s) :
    (∀ key lock, (key, lock) ∈ s.given → s.InUse lock →
      (s.table.lockFor key).1 = lock ∧ s.table.peek key = some (lock, s.table.borrow lock)) ∧
    (∀ r ∈ s.references, (r.key, r.lock) ∈ s.given ∧
      ∀ r' ∈ s.references, r.key = r'.key → r.lock = r'.lock) ∧
    (∀ lock id, id ≠ unlocked →
      (s.table.owner lock = id ↔ ∃ g ∈ s.grants, g.reference.lock = lock ∧ g.id = id)) ∧
    (s.grants.map (·.reference.key)).Nodup ∧
    (∀ key, s.table.peek key = none → ∀ lock, (key, lock) ∈ s.given → ¬ s.InUse lock) ∧
    (∀ party key s', s.table.peek key = none → s.next (.ask party key) = some s' →
      s'.table.size ≤
        max (max threshold 1) (1 + (s'.busy.erase (s.table.lockFor key).1).card)) := by
  obtain ⟨h, ht⟩ := Shared.of_run hrun
  refine ⟨fun key lock => h.gives, fun r hr => ⟨h.referred r hr, fun r' hr' hkey => ?_⟩,
    fun lock id hid => ⟨fun ho => ?_, ?_⟩, h.nodup_keys, fun key hk lock hg hu => ?_,
    fun party key s' hk hn => ?_⟩
  · have hgiven' := h.referred r' hr'
    rw [← hkey] at hgiven'
    exact h.eq_of_key (h.referred r hr) hgiven' (.inr ⟨r, hr, rfl⟩) (.inr ⟨r', hr', rfl⟩)
  · obtain ⟨g, hg, hgl⟩ := h.owned (ho ▸ hid)
    obtain ⟨-, -, hgo⟩ := h.granted g hg
    exact ⟨g, hg, hgl, by rw [← hgo, hgl, ho]⟩
  · rintro ⟨g, hg, rfl, rfl⟩
    exact (h.granted g hg).2.2
  · simp [(h.gives hg hu).2] at hk
  · have hk : s.table.byKey.get? key = none := Option.map_eq_none_iff.mp hk
    have hle := h.size_lockFor_le hk
    have hcard := Finset.card_le_card (Usage.busy_subset hk hn)
    obtain rfl := Option.some.inj hn
    show (s.table.lockFor key).2.size ≤ _
    omega

/-- Asking for a third lock sweeps out the one that nobody uses, and leaves the one that is owned
although its owner refers to it no longer. -/
theorem sweep_keeps_locks_in_use_sample : ∃ s : Usage,
    (Usage.start 2).run [.ask 1 "a", .acquire ⟨1, "a", 0⟩ 7, .drop ⟨1, "a", 0⟩, .ask 2 "b",
      .drop ⟨2, "b", 1⟩, .ask 3 "c"] = some s ∧
    (s.table.lockFor "a").1 = 0 ∧ s.table.owner 0 = 7 ∧ ¬ s.InUse 1 := by
  have hrun : ((Usage.start 2).run [.ask 1 "a", .acquire ⟨1, "a", 0⟩ 7, .drop ⟨1, "a", 0⟩,
      .ask 2 "b", .drop ⟨2, "b", 1⟩, .ask 3 "c"]).any (fun s =>
        ("a", 0) ∈ s.given ∧ ("b", 1) ∈ s.given ∧ s.InUse 0 ∧ s.table.owner 0 = 7 ∧
          (s.table.peek "b").isNone) = true := by
    decide +kernel
  obtain ⟨s, hs, hfacts⟩ := (Option.any_eq_true _ _).mp hrun
  obtain ⟨ha, hb, huse, ho, hpeek⟩ := of_decide_eq_true hfacts
  obtain ⟨hgives, -, -, -, hnone, -⟩ := sweep_keeps_locks_in_use hs
  exact ⟨s, hs, (hgives "a" 0 ha huse).1, ho,
    hnone "b" (Option.isNone_iff_eq_none.mp hpeek) 1 hb⟩

end LockTable
end SnapshotStore

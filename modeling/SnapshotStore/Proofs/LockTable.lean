import SnapshotStore.LockTable
import SnapshotStore.Proofs.Table
import Mathlib.Data.Nat.Notation

/-! # Exclusion by locks

The users of a lock table refer to locks and own some of them.  `Guards` is what a table keeps up
for its users, whatever is swept out of it:

* a lock has at least as many references as its users count, so a lock in use is never swept;
* the lock that a user refers to for a key is the lock that the table has for this key;
* a lock that a user holds has this user as owner.

So two users never hold the lock of one key (`Guards.exclusive`).  `Guards.replace` says what a
step of one user has to ensure to keep this up; the steps that users take follow from it. -/

namespace SnapshotStore
namespace LockTable

variable (t : LockTable)

/-- The number of references to a lock. -/
def references (lock : ℕ) : ℕ := (t.locks[lock]?).elim 0 (·.references)

/-! ### What the operations change -/

theorem lt_size_of_references {lock : ℕ} (h : 0 < t.references lock) : lock < t.locks.size := by
  by_contra hn
  have : t.locks[lock]? = none := Array.getElem?_eq_none (by omega)
  simp [references, this] at h

theorem elim_modify {α : Type} (d : α) (f : Lock → α) (g : Lock → Lock) (lock l : ℕ) :
    ((t.locks.modify lock g)[l]?).elim d f =
      (t.locks[l]?).elim d fun x => f (if l = lock then g x else x) := by
  rw [Array.getElem?_modify]
  by_cases hl : lock = l
  · subst hl
    cases t.locks[lock]? <;> simp
  · simp [hl, Ne.symm hl]

theorem references_borrow {lock : ℕ} (h : lock < t.locks.size) (l : ℕ) :
    (t.borrow lock).references l = t.references l + if l = lock then 1 else 0 := by
  simp only [references, borrow, elim_modify]
  by_cases hl : l = lock
  · subst hl
    simp [h]
  · simp [hl]

theorem references_drop (lock l : ℕ) :
    (t.drop lock).references l = t.references l - if l = lock then 1 else 0 := by
  simp only [references, drop, elim_modify]
  by_cases hl : l = lock
  · subst hl
    cases t.locks[l]? <;> simp
  · simp [hl]

@[simp] theorem owner_borrow (lock l : ℕ) : (t.borrow lock).owner l = t.owner l := by
  simp only [owner, borrow, elim_modify]
  split <;> rfl

@[simp] theorem owner_drop (lock l : ℕ) : (t.drop lock).owner l = t.owner l := by
  simp only [owner, drop, elim_modify]
  split <;> rfl

@[simp] theorem byKey_borrow (lock : ℕ) : (t.borrow lock).byKey = t.byKey := rfl

@[simp] theorem byKey_drop (lock : ℕ) : (t.drop lock).byKey = t.byKey := rfl

@[simp] theorem size_locks_borrow (lock : ℕ) : (t.borrow lock).locks.size = t.locks.size := by
  simp [borrow]

@[simp] theorem size_locks_drop (lock : ℕ) : (t.drop lock).locks.size = t.locks.size := by
  simp [drop]

section drops
variable (held : List ℕ)

theorem references_foldl_drop (l : ℕ) :
    (held.foldl drop t).references l = t.references l - held.count l := by
  induction held generalizing t with
  | nil => simp
  | cons lock held ih =>
      rw [List.foldl_cons, ih, references_drop, List.count_cons]
      by_cases hl : lock = l
      · subst hl
        simp only [if_true, beq_self_eq_true]
        omega
      · simp [hl, Ne.symm hl]

theorem owner_foldl_drop (l : ℕ) : (held.foldl drop t).owner l = t.owner l := by
  induction held generalizing t with
  | nil => rfl
  | cons lock held ih => rw [List.foldl_cons, ih, owner_drop]

theorem byKey_foldl_drop : (held.foldl drop t).byKey = t.byKey := by
  induction held generalizing t with
  | nil => rfl
  | cons lock held ih => rw [List.foldl_cons, ih, byKey_drop]

theorem size_locks_foldl_drop : (held.foldl drop t).locks.size = t.locks.size := by
  induction held generalizing t with
  | nil => rfl
  | cons lock held ih => rw [List.foldl_cons, ih, size_locks_drop]

end drops

section exchange
variable (lock expected tx : ℕ)

theorem owner_exchange (hlt : lock < t.locks.size) (l : ℕ) :
    (t.exchange lock expected tx).2.owner l =
      if l = lock ∧ t.owner lock = expected then tx else t.owner l := by
  by_cases ho : t.owner lock = expected
  · rw [exchange, if_pos ho]
    by_cases hl : l = lock
    · subst hl
      rw [if_pos ⟨rfl, ho⟩]
      simp only [owner, elim_modify]
      simp [hlt]
    · rw [if_neg (by tauto)]
      simp only [owner, elim_modify]
      simp [hl]
  · rw [exchange, if_neg ho, if_neg (by tauto)]

/-- An exchange changes one lock at most, from the owner that is expected. -/
theorem owner_exchange_cases (l : ℕ) :
    (t.exchange lock expected tx).2.owner l = t.owner l ∨
      l = lock ∧ t.owner l = expected ∧ (t.exchange lock expected tx).2.owner l = tx := by
  by_cases hlt : lock < t.locks.size
  · rw [owner_exchange _ _ _ _ hlt]
    split
    · next h => exact .inr ⟨h.1, h.1 ▸ h.2, rfl⟩
    · exact .inl rfl
  · have hnone : t.locks[lock]? = none := Array.getElem?_eq_none (by omega)
    refine .inl ?_
    unfold exchange
    split
    · simp only [owner, elim_modify]
      split
      · next hl => simp [hl, hnone]
      · rfl
    · rfl

theorem references_exchange (l : ℕ) :
    (t.exchange lock expected tx).2.references l = t.references l := by
  unfold exchange
  split
  · simp only [references, elim_modify]
    split <;> rfl
  · rfl

theorem byKey_exchange : (t.exchange lock expected tx).2.byKey = t.byKey := by
  unfold exchange
  split <;> rfl

theorem size_locks_exchange : (t.exchange lock expected tx).2.locks.size = t.locks.size := by
  unfold exchange
  split <;> simp

theorem owner_eq_of_exchange {t' : LockTable} (h : t.exchange lock expected tx = (true, t')) :
    t.owner lock = expected := by
  unfold exchange at h
  split at h
  · assumption
  · simp at h

end exchange

/-! ### Sweeping -/

@[simp] theorem locks_sweep : t.sweep.locks = t.locks := by
  unfold sweep
  split <;> rfl

theorem inUse_iff {lock : ℕ} :
    t.inUse lock = true ↔ t.owner lock ≠ unlocked ∨ 0 < t.references lock := by
  unfold inUse owner references
  cases t.locks[lock]? <;> simp [or_comm]

theorem get?_sweep {key : String} {lock : ℕ} (h : t.byKey.get? key = some lock)
    (hu : t.inUse lock = true) : t.sweep.byKey.get? key = some lock := by
  unfold sweep
  split
  · rw [Table.get?_filter, h]
    simp [Option.filter, hu]
  · exact h

theorem get?_of_sweep {key : String} {lock : ℕ} (h : t.sweep.byKey.get? key = some lock) :
    t.byKey.get? key = some lock := by
  unfold sweep at h
  split at h
  · rw [Table.get?_filter, Option.filter_eq_some_iff] at h
    exact h.1
  · exact h

/-! ### Asking for a lock -/

section lockFor
variable {key : String}

theorem lockFor_of_some {lock : ℕ} (h : t.byKey.get? key = some lock) :
    t.lockFor key = (lock, t.borrow lock) := by
  simp [lockFor, h]

theorem lockFor_of_none (h : t.byKey.get? key = none) :
    t.lockFor key = (t.locks.size, { t.sweep with
      locks := t.locks.push ⟨unlocked, 1⟩
      byKey := t.sweep.byKey.insert key t.locks.size }) := by
  simp [lockFor, h]

theorem owner_lockFor (key : String) (l : ℕ) : (t.lockFor key).2.owner l = t.owner l := by
  cases hk : t.byKey.get? key with
  | some lock => rw [lockFor_of_some t hk, owner_borrow]
  | none =>
      rw [lockFor_of_none t hk]
      simp only [owner, Array.getElem?_push]
      split
      · next hl => simp [hl]
      · rfl

theorem references_lockFor (hrange : ∀ {lock}, t.byKey.get? key = some lock → lock < t.locks.size)
    (l : ℕ) : (t.lockFor key).2.references l =
      t.references l + if l = (t.lockFor key).1 then 1 else 0 := by
  cases hk : t.byKey.get? key with
  | some lock =>
      rw [lockFor_of_some t hk]
      exact references_borrow t (hrange hk) l
  | none =>
      rw [lockFor_of_none t hk]
      simp only [references, Array.getElem?_push]
      split
      · next hl => simp [hl]
      · simp

theorem size_locks_lockFor (key : String) : t.locks.size ≤ (t.lockFor key).2.locks.size := by
  cases hk : t.byKey.get? key with
  | some lock => simp [lockFor_of_some t hk]
  | none => simp [lockFor_of_none t hk]

theorem get?_lockFor_self (key : String) :
    (t.lockFor key).2.byKey.get? key = some (t.lockFor key).1 := by
  cases hk : t.byKey.get? key with
  | some lock => simp [lockFor_of_some t hk, hk]
  | none => simp [lockFor_of_none t hk]

theorem get?_lockFor {k : String} {lock : ℕ} (h : t.byKey.get? k = some lock)
    (hu : t.inUse lock = true) : (t.lockFor key).2.byKey.get? k = some lock := by
  cases hk : t.byKey.get? key with
  | some l =>
      rw [lockFor_of_some t hk]
      exact h
  | none =>
      have hne : k ≠ key := by
        rintro rfl
        simp [hk] at h
      rw [lockFor_of_none t hk]
      simp only [Table.get?_insert, if_neg hne]
      exact t.get?_sweep h hu

theorem lockFor_fst (key : String) : t.byKey.get? key = some (t.lockFor key).1 ∨
    t.byKey.get? key = none ∧ (t.lockFor key).1 = t.locks.size := by
  cases hk : t.byKey.get? key with
  | some lock => exact .inl (by rw [lockFor_of_some t hk])
  | none => exact .inr ⟨rfl, by rw [lockFor_of_none t hk]⟩

theorem byKey_lockFor {k : String} {l : ℕ} (h : (t.lockFor key).2.byKey.get? k = some l) :
    t.byKey.get? k = some l ∨ k = key ∧ l = t.locks.size := by
  cases hk : t.byKey.get? key with
  | some lock =>
      rw [lockFor_of_some t hk, byKey_borrow] at h
      exact .inl h
  | none =>
      rw [lockFor_of_none t hk, Table.get?_insert] at h
      split at h
      · next he => exact .inr ⟨he, (Option.some.inj h).symm⟩
      · exact .inl (t.get?_of_sweep h)

/-- Locks stay among those that were made. -/
theorem lt_size_lockFor (hrange : ∀ {k lock}, t.byKey.get? k = some lock → lock < t.locks.size)
    {k : String} {lock : ℕ} (h : (t.lockFor key).2.byKey.get? k = some lock) :
    lock < (t.lockFor key).2.locks.size := by
  cases hk : t.byKey.get? key with
  | some l =>
      rw [lockFor_of_some t hk] at h ⊢
      rw [size_locks_borrow]
      exact hrange h
  | none =>
      have hsize : (t.lockFor key).2.locks.size = t.locks.size + 1 := by
        simp [lockFor_of_none t hk]
      rcases t.byKey_lockFor h with h | ⟨-, rfl⟩
      · have := hrange h
        omega
      · omega

end lockFor

/-! ### Users -/

/-- A user of a table: its number, the locks it refers to, for which keys it does, and the locks it
holds. -/
structure User where
  id : ℕ
  refs : List ℕ
  claims : List (String × ℕ)
  holds : List ℕ

/-- What a table keeps up for its users. -/
structure Guards (users : List User) : Prop where
  distinct : (users.map (·.id)).Nodup
  named : ∀ u ∈ users, u.id ≠ unlocked
  inRange : ∀ {key lock}, t.byKey.get? key = some lock → lock < t.locks.size
  counted : ∀ lock, (users.flatMap (·.refs)).count lock ≤ t.references lock
  refers : ∀ u ∈ users, ∀ e ∈ u.claims, e.2 ∈ u.refs
  claimed : ∀ u ∈ users, ∀ e ∈ u.claims, t.byKey.get? e.1 = some e.2
  owned : ∀ u ∈ users, ∀ lock ∈ u.holds, t.owner lock = u.id

theorem Guards.create (threshold : ℕ) : (create threshold).Guards [] where
  distinct := by simp
  named := by simp
  inRange h := by simp [LockTable.create] at h
  counted := by simp
  refers := by simp
  claimed := by simp
  owned := by simp

variable {t} {users A B : List User} {u v : User}

theorem Guards.references_pos (h : t.Guards users) (hu : u ∈ users) {lock : ℕ}
    (hl : lock ∈ u.refs) : 0 < t.references lock := by
  have hm : lock ∈ users.flatMap (·.refs) := List.mem_flatMap.mpr ⟨u, hu, hl⟩
  exact Nat.lt_of_lt_of_le (List.count_pos_iff.mpr hm) (h.counted lock)

/-- Two users never hold the lock of one key. -/
theorem Guards.exclusive (h : t.Guards users) (hu : u ∈ users) (hv : v ∈ users) {key : String}
    {l m : ℕ} (hul : (key, l) ∈ u.claims) (hl : l ∈ u.holds) (hvm : (key, m) ∈ v.claims)
    (hm : m ∈ v.holds) : u.id = v.id := by
  have hlm : l = m :=
    Option.some.inj ((h.claimed u hu _ hul).symm.trans (h.claimed v hv _ hvm))
  rw [← h.owned u hu l hl, hlm, h.owned v hv m hm]

theorem Guards.add (h : t.Guards users) (id : ℕ) (hid : id ≠ unlocked)
    (hnew : ∀ u ∈ users, u.id ≠ id) : t.Guards (users ++ [⟨id, [], [], []⟩]) where
  distinct := by
    rw [List.map_append, List.nodup_append]
    refine ⟨h.distinct, by simp, ?_⟩
    intro a ha b hb
    obtain ⟨u, hu, rfl⟩ := List.mem_map.mp ha
    simp only [List.map_cons, List.map_nil, List.mem_singleton] at hb
    exact hb ▸ hnew u hu
  named u hu := by
    rcases List.mem_append.mp hu with hu | hu
    · exact h.named u hu
    · exact List.mem_singleton.mp hu ▸ hid
  inRange := h.inRange
  counted lock := by simpa using h.counted lock
  refers u hu e he := by
    rcases List.mem_append.mp hu with hu | hu
    · exact h.refers u hu e he
    · simp [List.mem_singleton.mp hu] at he
  claimed u hu e he := by
    rcases List.mem_append.mp hu with hu | hu
    · exact h.claimed u hu e he
    · simp [List.mem_singleton.mp hu] at he
  owned u hu lock hl := by
    rcases List.mem_append.mp hu with hu | hu
    · exact h.owned u hu lock hl
    · simp [List.mem_singleton.mp hu] at hl

/-! ### Steps of a user -/

variable {t' : LockTable} {u' : User}

theorem mem_replace {w : User} (h : w ∈ A ++ u' :: B) : w = u' ∨ w ∈ A ++ B := by
  simp only [List.mem_append, List.mem_cons] at h ⊢
  tauto

theorem mem_of_others {w : User} (h : w ∈ A ++ B) : w ∈ A ++ u :: B := by
  simp only [List.mem_append, List.mem_cons] at h ⊢
  tauto

theorem Guards.id_ne_of_others (h : t.Guards (A ++ u :: B)) {w : User} (hw : w ∈ A ++ B) :
    w.id ≠ u.id := by
  have hd := h.distinct
  rw [List.map_append, List.map_cons, List.nodup_middle, List.nodup_cons, ← List.map_append] at hd
  exact fun he => hd.1 (he ▸ List.mem_map_of_mem hw)

/-- What a step of one user has to ensure: it counts its own references, keeps locks that others
refer to, and leaves locks of other owners alone. -/
theorem Guards.replace (h : t.Guards (A ++ u :: B)) (hid : u'.id = u.id)
    (hrange : ∀ {key lock}, t'.byKey.get? key = some lock → lock < t'.locks.size)
    (hcount : ∀ lock, t.references lock + u'.refs.count lock ≤
      t'.references lock + u.refs.count lock)
    (hkeep : ∀ key lock, t.byKey.get? key = some lock → 0 < t.references lock →
      t'.byKey.get? key = some lock)
    (howner : ∀ lock, t.owner lock ≠ unlocked → t.owner lock ≠ u.id →
      t'.owner lock = t.owner lock)
    (hrefers : ∀ e ∈ u'.claims, e.2 ∈ u'.refs)
    (hclaims : ∀ e ∈ u'.claims, t'.byKey.get? e.1 = some e.2)
    (hholds : ∀ lock ∈ u'.holds, t'.owner lock = u.id) : t'.Guards (A ++ u' :: B) where
  distinct := by
    have hd := h.distinct
    simpa only [List.map_append, List.map_cons, hid] using hd
  named w hw := by
    rcases mem_replace hw with rfl | hw
    · exact hid ▸ h.named u (by simp)
    · exact h.named w (mem_of_others hw)
  inRange := hrange
  counted lock := by
    have hc := h.counted lock
    have hs := hcount lock
    simp only [List.flatMap_append, List.flatMap_cons, List.count_append] at hc ⊢
    omega
  refers w hw := by
    rcases mem_replace hw with rfl | hw
    · exact hrefers
    · exact h.refers w (mem_of_others hw)
  claimed w hw e he := by
    rcases mem_replace hw with rfl | hw
    · exact hclaims e he
    · have hw := mem_of_others (u := u) hw
      exact hkeep _ _ (h.claimed w hw e he) (h.references_pos hw (h.refers w hw e he))
  owned w hw lock hl := by
    rcases mem_replace hw with rfl | hw
    · exact hid ▸ hholds lock hl
    · have ho := h.owned w (mem_of_others hw) lock hl
      rw [← ho]
      refine howner lock ?_ ?_
      · exact ho ▸ h.named w (mem_of_others hw)
      · exact ho ▸ h.id_ne_of_others hw

section steps
variable (h : t.Guards (A ++ u :: B))
include h

theorem Guards.forget (hid : u'.id = u.id) (hrefs : u'.refs = u.refs)
    (hclaims : u'.claims ⊆ u.claims) (hholds : u'.holds ⊆ u.holds) :
    t.Guards (A ++ u' :: B) := by
  have hu : u ∈ A ++ u :: B := by simp
  refine h.replace hid h.inRange (fun lock => hrefs ▸ Nat.le_refl _)
    (fun _ _ hk _ => hk) (fun _ _ _ => rfl) (fun e he => ?_) (fun e he => ?_) fun lock hl => ?_
  · exact hrefs ▸ h.refers u hu e (hclaims he)
  · exact h.claimed u hu e (hclaims he)
  · exact h.owned u hu lock (hholds hl)

/-- A user refers to the lock that a key has. -/
theorem Guards.borrow {key : String} {lock : ℕ} (hk : t.byKey.get? key = some lock) :
    (t.borrow lock).Guards
      (A ++ ⟨u.id, u.refs ++ [lock], u.claims ++ [(key, lock)], u.holds⟩ :: B) := by
  have hu : u ∈ A ++ u :: B := by simp
  refine h.replace rfl (fun hk => ?_) (fun l => ?_) (fun _ _ hk _ => hk)
    (fun l _ _ => owner_borrow t lock l) (fun e he => ?_) (fun e he => ?_) fun l hl => ?_
  · rw [byKey_borrow] at hk
    rw [size_locks_borrow]
    exact h.inRange hk
  · rw [references_borrow t (h.inRange hk), List.count_append, List.count_singleton]
    by_cases hl : l = lock
    · subst hl
      simp only [if_true, beq_self_eq_true]
      omega
    · simp [hl, Ne.symm hl]
  · rcases List.mem_append.mp he with he | he
    · exact List.mem_append_left _ (h.refers u hu e he)
    · simp [List.mem_singleton.mp he]
  · rw [byKey_borrow]
    rcases List.mem_append.mp he with he | he
    · exact h.claimed u hu e he
    · simpa [List.mem_singleton.mp he] using hk
  · rw [owner_borrow]
    exact h.owned u hu l hl

/-- A user gives back references that it has no claims for. -/
theorem Guards.drops (held rest : List ℕ) (claims : List (String × ℕ))
    (hrefs : u.refs.Perm (rest ++ held)) (hc : claims ⊆ u.claims) (hr : ∀ e ∈ claims, e.2 ∈ rest) :
    (held.foldl drop t).Guards (A ++ ⟨u.id, rest, claims, u.holds⟩ :: B) := by
  have hu : u ∈ A ++ u :: B := by simp
  refine h.replace rfl (fun hk => ?_) (fun l => ?_) (fun _ _ hk _ => ?_)
    (fun l _ _ => owner_foldl_drop t held l) hr (fun e he => ?_) fun l hl => ?_
  · rw [byKey_foldl_drop] at hk
    rw [size_locks_foldl_drop]
    exact h.inRange hk
  · rw [references_foldl_drop, hrefs.count_eq, List.count_append]
    show t.references l + rest.count l ≤ _
    omega
  · rwa [byKey_foldl_drop]
  · rw [byKey_foldl_drop]
    exact h.claimed u hu e (hc he)
  · rw [owner_foldl_drop]
    exact h.owned u hu l hl

/-- A user asks for the lock of a key, which may sweep the table and make the lock. -/
theorem Guards.lockFor (key : String) :
    (t.lockFor key).2.Guards
      (A ++ ⟨u.id, u.refs ++ [(t.lockFor key).1], u.claims ++ [(key, (t.lockFor key).1)],
        u.holds⟩ :: B) := by
  have hu : u ∈ A ++ u :: B := by simp
  have hkeep : ∀ k lock, t.byKey.get? k = some lock → 0 < t.references lock →
      (t.lockFor key).2.byKey.get? k = some lock :=
    fun k lock hk hpos => t.get?_lockFor hk (t.inUse_iff.mpr (.inr hpos))
  refine h.replace rfl (t.lt_size_lockFor h.inRange) (fun l => ?_) hkeep
    (fun l _ _ => t.owner_lockFor key l) (fun e he => ?_) (fun e he => ?_) fun l hl => ?_
  · rw [t.references_lockFor h.inRange, List.count_append, List.count_singleton]
    by_cases hl : l = (t.lockFor key).1
    · subst hl
      simp only [if_true, beq_self_eq_true]
      omega
    · simp [hl, Ne.symm hl]
  · rcases List.mem_append.mp he with he | he
    · exact List.mem_append_left _ (h.refers u hu e he)
    · simp [List.mem_singleton.mp he]
  · rcases List.mem_append.mp he with he | he
    · exact hkeep _ _ (h.claimed u hu e he) (h.references_pos hu (h.refers u hu e he))
    · rw [List.mem_singleton.mp he]
      exact t.get?_lockFor_self key
  · rw [t.owner_lockFor]
    exact h.owned u hu l hl

/-- A user takes a free lock that it refers to. -/
theorem Guards.acquire {lock : ℕ} (hl : lock ∈ u.refs) {t' : LockTable}
    (ha : t.tryAcquire lock u.id = (true, t')) :
    t'.Guards (A ++ ⟨u.id, u.refs, u.claims, u.holds ++ [lock]⟩ :: B) := by
  have hu : u ∈ A ++ u :: B := by simp
  have hlt : lock < t.locks.size := t.lt_size_of_references (h.references_pos hu hl)
  have hfree : t.owner lock = unlocked := t.owner_eq_of_exchange _ _ _ ha
  obtain rfl : t' = (t.exchange lock unlocked u.id).2 := by rw [← tryAcquire, ha]
  refine h.replace rfl (fun hk => ?_) (fun l => ?_) (fun _ _ hk _ => ?_)
    (fun l hne _ => ?_) (h.refers u hu) (fun e he => ?_) fun l hl => ?_
  · rw [byKey_exchange] at hk
    rw [size_locks_exchange]
    exact h.inRange hk
  · simp [references_exchange]
  · rwa [byKey_exchange]
  · rw [owner_exchange _ _ _ _ hlt, if_neg]
    rintro ⟨rfl, -⟩
    exact hne hfree
  · rw [byKey_exchange]
    exact h.claimed u hu e he
  · rw [owner_exchange _ _ _ _ hlt]
    rcases List.mem_append.mp hl with hl | hl
    · rw [h.owned u hu l hl, ite_self]
    · rw [if_pos ⟨List.mem_singleton.mp hl, hfree⟩]

/-- A user frees a lock; it holds none afterwards that it counts on. -/
theorem Guards.release {lock : ℕ} (hl : lock ∈ u.refs) (hnone : u.holds = []) :
    (t.release lock u.id).Guards (A ++ u :: B) := by
  have hu : u ∈ A ++ u :: B := by simp
  have hlt : lock < t.locks.size := t.lt_size_of_references (h.references_pos hu hl)
  refine h.replace rfl (fun hk => ?_) (fun l => ?_) (fun _ _ hk _ => ?_) (fun l _ hne => ?_)
    (h.refers u hu) (fun e he => ?_) fun l hl => ?_
  · rw [LockTable.release, byKey_exchange] at hk
    rw [LockTable.release, size_locks_exchange]
    exact h.inRange hk
  · simp [LockTable.release, references_exchange]
  · rwa [LockTable.release, byKey_exchange]
  · rw [LockTable.release, owner_exchange _ _ _ _ hlt, if_neg]
    rintro ⟨rfl, ho⟩
    exact hne ho
  · rw [LockTable.release, byKey_exchange]
    exact h.claimed u hu e he
  · rw [hnone] at hl
    simp at hl

end steps
end LockTable
end SnapshotStore

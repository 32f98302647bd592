import SnapshotStore.Proofs.LockTable

/-! # Locks without rivals

While nobody owns a lock (`AtRest`), a look-up does not wait, and a transaction gets the lock of every
key that it asks for (`Holding.acquire`).  When it has freed the locks again, nobody owns one
(`Holding.release`, `Holding.atRest`). -/

namespace SnapshotStore
namespace LockTable

variable (t : LockTable)

/-- The locks of different keys are different, and all of them were made. -/
structure Keyed : Prop where
  made : ∀ {key lock}, t.byKey.get? key = some lock → lock < t.locks.size
  apart : ∀ {key key' lock}, t.byKey.get? key = some lock → t.byKey.get? key' = some lock →
    key = key'

/-- A table of which nobody owns a lock. -/
structure AtRest : Prop extends Keyed t where
  free : ∀ lock, t.owner lock = unlocked

/-- A table of which one transaction owns some locks, all of them of some keys, and nobody owns another
one. -/
structure Holding (tx : ℕ) (held : List ℕ) (keys : List String) : Prop extends Keyed t where
  owner : ∀ lock, t.owner lock = if lock ∈ held then tx else unlocked
  bounded : ∀ lock ∈ held, lock < t.locks.size
  nodup : held.Nodup
  keys : ∀ {key lock}, t.byKey.get? key = some lock → lock ∈ held → key ∈ keys

variable {t} {t' : LockTable} {tx lock : ℕ} {held : List ℕ} {keys : List String} {key : String}

theorem atRest_create (threshold : ℕ) : (create threshold).AtRest where
  made h := by simp [create] at h
  apart h := by simp [create] at h
  free lock := by simp [create, owner]

theorem Keyed.of_eq (h : t.Keyed) (hkeys : t'.byKey = t.byKey) (hsize : t'.locks.size = t.locks.size) :
    t'.Keyed where
  made hk := hsize ▸ h.made (hkeys ▸ hk)
  apart hk hk' := h.apart (hkeys ▸ hk) (hkeys ▸ hk')

/-! ### Looking -/

theorem AtRest.borrow (h : t.AtRest) (lock : ℕ) : (t.borrow lock).AtRest where
  toKeyed := h.toKeyed.of_eq rfl (size_locks_borrow t lock)
  free l := (owner_borrow t lock l).trans (h.free l)

theorem AtRest.drop (h : t.AtRest) (lock : ℕ) : (t.drop lock).AtRest where
  toKeyed := h.toKeyed.of_eq rfl (size_locks_drop t lock)
  free l := (owner_drop t lock l).trans (h.free l)

theorem AtRest.foldl_drop (h : t.AtRest) (held : List ℕ) : (held.foldl LockTable.drop t).AtRest where
  toKeyed := h.toKeyed.of_eq (byKey_foldl_drop t held) (size_locks_foldl_drop t held)
  free l := (owner_foldl_drop t held l).trans (h.free l)

/-! ### Taking -/

theorem AtRest.holding (h : t.AtRest) (tx : ℕ) : t.Holding tx [] [] where
  toKeyed := h.toKeyed
  owner := h.free
  bounded := by simp
  nodup := .nil
  keys _ hl := by simp at hl

/-- Asking for the lock of a key changes no owner.  The lock is the one of the key, or a new one. -/
theorem Keyed.lockFor (h : t.Keyed) (key : String) :
    ∃ lock t', t.lockFor key = (lock, t') ∧ t'.Keyed ∧ t'.byKey.get? key = some lock ∧
      t.locks.size ≤ t'.locks.size ∧ (∀ l, t'.owner l = t.owner l) ∧
      ∀ k l, t'.byKey.get? k = some l → l < t.locks.size → t.byKey.get? k = some l := by
  cases hk : t.byKey.get? key with
  | some lock =>
      refine ⟨lock, t.borrow lock, by simp [LockTable.lockFor, hk], ?_, hk, ?_, ?_, ?_⟩
      · exact h.of_eq rfl (size_locks_borrow t lock)
      · exact Nat.le_of_eq (size_locks_borrow t lock).symm
      · exact owner_borrow t lock
      · exact fun k l hkl _ => hkl
  | none =>
      have hget (k : String) : (t.sweep.byKey.insert key t.locks.size).get? k =
          if k = key then some t.locks.size else t.sweep.byKey.get? k := Table.get?_insert ..
      have hold {k : String} {l : ℕ} (hk : t.sweep.byKey.get? k = some l) : l < t.locks.size :=
        h.made (t.get?_of_sweep hk)
      refine ⟨t.locks.size, { t.sweep with
          locks := t.locks.push ⟨unlocked, 1⟩
          byKey := t.sweep.byKey.insert key t.locks.size }, by simp [LockTable.lockFor, hk],
        ⟨fun {k l} hkl => ?_, fun {k k' l} hkl hkl' => ?_⟩, by simp, by simp, fun l => ?_,
        fun k l hkl hlt => ?_⟩
      · simp only [hget] at hkl
        simp only [Array.size_push]
        split at hkl
        · have := Option.some.inj hkl
          omega
        · have := hold hkl
          omega
      · simp only [hget] at hkl hkl'
        split at hkl <;> split at hkl'
        · next hk hk' => rw [hk, hk']
        · have := hold hkl'
          have := Option.some.inj hkl
          omega
        · have := hold hkl
          have := Option.some.inj hkl'
          omega
        · exact h.apart (t.get?_of_sweep hkl) (t.get?_of_sweep hkl')
      · simp only [owner, Array.getElem?_push]
        by_cases hl : l = t.locks.size
        · subst hl
          simp
        · simp [hl]
      · simp only [hget] at hkl
        split at hkl
        · have := Option.some.inj hkl
          omega
        · exact t.get?_of_sweep hkl

/-- A transaction gets the lock of a further key. -/
theorem Holding.acquire (h : t.Holding tx held keys) (hkey : key ∉ keys) :
    ∃ lock t₁ t₂, t.lockFor key = (lock, t₁) ∧ t₁.tryAcquire lock tx = (true, t₂) ∧
      t₂.Holding tx (held ++ [lock]) (keys ++ [key]) := by
  obtain ⟨lock, t₁, hfor, hkeyed, hget, hsize, howner, hold⟩ := h.toKeyed.lockFor key
  have hnew : lock ∉ held := fun hl => hkey (h.keys (hold key lock hget (h.bounded lock hl)) hl)
  have hfree : t₁.owner lock = unlocked := by rw [howner, h.owner, if_neg hnew]
  have hlt : lock < t₁.locks.size := hkeyed.made hget
  refine ⟨lock, t₁, (t₁.exchange lock unlocked tx).2, hfor, ?_, ?_, fun l => ?_, fun l hl => ?_, ?_,
    fun {k l} hkl hl => ?_⟩
  · rw [tryAcquire, exchange, if_pos hfree]
  · exact hkeyed.of_eq (byKey_exchange t₁ ..) (size_locks_exchange t₁ ..)
  · rw [owner_exchange _ _ _ _ hlt]
    by_cases hl : l = lock
    · rw [if_pos ⟨hl, hfree⟩, if_pos (by simp [hl])]
    · rw [if_neg (fun hx => hl hx.1), howner, h.owner]
      simp [hl]
  · rw [size_locks_exchange]
    rcases List.mem_append.mp hl with hl | hl
    · exact Nat.lt_of_lt_of_le (h.bounded l hl) hsize
    · rwa [List.mem_singleton.mp hl]
  · refine List.nodup_append.mpr ⟨h.nodup, by simp, fun l hl m hm => ?_⟩
    rintro rfl
    exact hnew (List.mem_singleton.mp hm ▸ hl)
  · rw [byKey_exchange] at hkl
    rcases List.mem_append.mp hl with hl | hl
    · exact List.mem_append_left _ (h.keys (hold k l hkl (h.bounded l hl)) hl)
    · rw [List.mem_singleton.mp hl] at hkl
      exact List.mem_append_right _ (List.mem_singleton.mpr (hkeyed.apart hkl hget))

/-! ### Freeing -/

/-- A transaction frees one of its locks. -/
theorem Holding.release (h : t.Holding tx (lock :: held) keys) :
    (t.release lock tx).Holding tx held keys := by
  obtain ⟨hnot, hnodup⟩ := List.nodup_cons.mp h.nodup
  have hlt : lock < t.locks.size := h.bounded lock (List.mem_cons_self ..)
  have hown : t.owner lock = tx := by rw [h.owner, if_pos (List.mem_cons_self ..)]
  refine ⟨h.toKeyed.of_eq (byKey_exchange t ..) (size_locks_exchange t ..), fun l => ?_,
    fun l hl => ?_, hnodup, fun hk hl => ?_⟩
  · rw [LockTable.release, owner_exchange _ _ _ _ hlt]
    by_cases hl : l = lock
    · rw [if_pos ⟨hl, hown⟩, if_neg (hl ▸ hnot)]
    · rw [if_neg (fun hx => hl hx.1), h.owner]
      simp [hl]
  · rw [LockTable.release, size_locks_exchange]
    exact h.bounded l (List.mem_cons_of_mem _ hl)
  · rw [LockTable.release, byKey_exchange] at hk
    exact h.keys hk (List.mem_cons_of_mem _ hl)

theorem Holding.atRest (h : t.Holding tx [] keys) : t.AtRest :=
  ⟨h.toKeyed, fun l => by simpa using h.owner l⟩

end LockTable
end SnapshotStore

import SnapshotStore.Proofs.LockTable
import SnapshotStore.Proofs.Run.System
import SnapshotStore.Proofs.Shards.History

/-! # Locks in a run

Every client of a run is a user of the lock table.  The table guards its users in every reachable
system (`Reachable.locking`): a reader refers to the lock that it watches, and a commit to the locks
of its keys, which it owns until it frees them.

* `Locking.exclusive`: two clients that have all their locks share no key;
* `Locking.owner_eq`: a reader that asks for the lock of a key finds the client that owns it. -/

namespace SnapshotStore
namespace Run

open Journal (LogStore)

variable {σ : Type}

/-! ### What clients use -/

/-- The key and version that a look-up under way is about. -/
def Concerns (key : String) (version : ℕ) : Lookup → Prop
  | .asking asked v => asked = key ∧ v = version
  | .watching asked v _ => asked = key ∧ v = version
  | .reading asked v => asked = key ∧ v = version
  | .done _ => True

namespace Client

variable (p : Client)

/-- The locks that a client refers to. -/
def refs : List ℕ :=
  match p.activity with
  | .reading _ (.watching _ _ lock) => [lock]
  | .committing (.locking held _) => held
  | .committing (.contending held lock _) => held ++ [lock]
  | .committing (.checking held _ _) => held
  | .committing (.logging held _ _) => held
  | .committing (.releasing held _ _) => held
  | _ => []

/-- The keys of a commit, in the order in which they are locked. -/
def keys : List String := Commit.sortedKeys p.writes

/-- The locks that a client takes to be those of certain keys. -/
def claims : List (String × ℕ) :=
  match p.activity with
  | .reading _ (.watching key _ lock) => [(key, lock)]
  | .committing (.locking held _) => p.keys.zip held
  | .committing (.contending held lock _) => p.keys.zip (held ++ [lock])
  | .committing (.checking held _ _) => p.keys.zip held
  | .committing (.logging held _ _) => p.keys.zip held
  | _ => []

/-- The locks that a client owns and counts on. -/
def holds : List ℕ :=
  match p.activity with
  | .committing (.locking held _) => held
  | .committing (.contending held _ _) => held
  | .committing (.checking held _ _) => held
  | .committing (.logging held _ _) => held
  | _ => []

/-- A client as a user of the lock table. -/
def user : LockTable.User := ⟨p.id, p.refs, p.claims, p.holds⟩

/-- The state of an operation belongs to the transaction that it works on. -/
def Fits : Prop :=
  match p.activity with
  | .reading key lookup =>
    p.transaction.finished = false ∧ p.writes.get? key = none ∧ Concerns key p.id lookup
  | .committing (.locking held todo) =>
    p.transaction.finished = true ∧ ∃ got, p.keys = got ++ todo ∧ got.length = held.length
  | .committing (.contending held _ todo) =>
    p.transaction.finished = true ∧
      ∃ got key, p.keys = got ++ key :: todo ∧ got.length = held.length
  | .committing (.checking held _ _) =>
    p.transaction.finished = true ∧ p.keys.length = held.length
  | .committing (.logging held _ _) =>
    p.transaction.finished = true ∧ p.keys.length = held.length
  | .committing (.releasing held todo _) => p.transaction.finished = true ∧ todo ⊆ held
  | .committing (.done _) => p.transaction.finished = true
  | .writing _ _ _ => p.transaction.finished = false
  | .discarding _ => p.transaction.finished = true
  | .answered _ => True

/-- Whether a client has the locks of all keys that it writes. -/
def Owns : Prop :=
  match p.activity with
  | .committing (.locking _ []) => True
  | .committing (.checking _ _ _) => True
  | .committing (.logging _ _ _) => True
  | _ => False

variable {p}

theorem mem_keys {key : String} : key ∈ p.keys ↔ key ∈ p.writes.keys := by
  rw [keys, Commit.sortedKeys, List.mem_mergeSort]

theorem exists_lock_of_owns (hf : p.Fits) (ho : p.Owns) {key : String}
    (hk : key ∈ p.writes.keys) : ∃ lock, (key, lock) ∈ p.user.claims ∧ lock ∈ p.user.holds := by
  have hzip {held : List ℕ} (hl : p.keys.length = held.length) :
      ∃ lock, (key, lock) ∈ p.keys.zip held ∧ lock ∈ held := by
    obtain ⟨i, hi, rfl⟩ := List.mem_iff_getElem.mp (mem_keys.mpr hk)
    have hi' : i < held.length := hl ▸ hi
    refine ⟨held[i], ?_, List.getElem_mem hi'⟩
    exact List.mem_iff_getElem.mpr ⟨i, by simp only [List.length_zip]; omega, by simp⟩
  obtain ⟨t, a⟩ := p
  unfold Owns at ho
  split at ho
  · next heq =>
    obtain rfl : a = _ := heq
    obtain ⟨-, got, hg, hl⟩ := hf
    exact hzip (by rw [hg, List.append_nil, hl])
  · next heq =>
    obtain rfl : a = _ := heq
    exact hzip hf.2
  · next heq =>
    obtain rfl : a = _ := heq
    exact hzip hf.2
  · exact ho.elim

end Client

/-! ### The invariant -/

/-- What holds of the locks in a run. -/
structure Locking (s : System σ) : Prop where
  fits : ∀ p ∈ s.clients, p.Fits
  bounded : ∀ p ∈ s.clients, p.id ≤ s.coordinator.lastVersion
  guards : s.coordinator.locks.Guards (s.clients.map Client.user)

theorem eq_of_logStep {c c' : Coordinator σ} {save save' : Save}
    (h : c.logStep save = some (save', c')) : ∃ journal, c' = { c with journal } := by
  unfold Coordinator.logStep at h
  split at h
  · obtain ⟨⟨_, j⟩, -, h⟩ := Option.map_eq_some_iff.mp h
    exact ⟨some j, (Prod.mk.inj h).2.symm⟩
  · split at h
    · simp at h
    · exact ⟨c.journal, (Prod.mk.inj (Option.some.inj h)).2.symm⟩

section moves
variable {c c' : Coordinator σ} {t : Transaction} {a : Activity} {es : List Event} {p' : Client}

theorem Move.id_eq (h : Move c t a es p' c') : p'.id = t.id := by
  cases h with
  | tell =>
      next key value => cases value <;> rfl
  | _ => rfl

theorem Move.lastVersion_le (h : Move c t a es p' c') : c.lastVersion ≤ c'.lastVersion := by
  cases h with
  | mint => exact Nat.le_succ _
  | log h =>
      obtain ⟨_, rfl⟩ := eq_of_logStep h
      exact Nat.le_refl _
  | _ => exact Nat.le_refl _

theorem Move.fits (h : Move c t a es p' c') (hp : (⟨t, a⟩ : Client).Fits) : p'.Fits := by
  cases h with
  | look hf hw => exact ⟨hf, hw, rfl, rfl⟩
  | write key value hf => exact hf
  | commitNothing hf hw => rfl
  | commit hf hw => exact ⟨rfl, [], rfl, rfl⟩
  | rollback hf => rfl
  | vacant hk => exact hp
  | watch hk => exact hp
  | pass ho => exact hp
  | see => exact ⟨hp.1, hp.2.1, trivial⟩
  | log h =>
      next purpose save save' => cases purpose <;> exact hp
  | lock =>
      obtain ⟨hfin, got, hg, hl⟩ := hp
      exact ⟨hfin, got, _, hg, hl⟩
  | acquire h =>
      obtain ⟨hfin, got, key, hg, hl⟩ := hp
      refine ⟨hfin, got ++ [key], ?_, by simp [hl]⟩
      rw [List.append_assoc]
      exact hg
  | lose =>
      obtain ⟨hfin, -⟩ := hp
      exact ⟨hfin, List.Subset.refl _⟩
  | mint =>
      obtain ⟨hfin, got, hg, hl⟩ := hp
      refine ⟨hfin, ?_⟩
      rw [List.append_nil] at hg
      rw [← hl, ← hg]
      rfl
  | conflict => exact ⟨hp.1, List.Subset.refl _⟩
  | clear h => exact hp
  | pledge => exact hp
  | apply => exact ⟨hp.1, List.Subset.refl _⟩
  | abort => exact ⟨hp.1, List.Subset.refl _⟩
  | free => exact ⟨hp.1, List.subset_of_cons_subset hp.2⟩
  | leave => exact hp.1
  | _ => trivial

theorem zip_keys_append {keys got todo : List String} {key : String} {held : List ℕ}
    (lock : ℕ) (hk : keys = got ++ key :: todo) (hl : got.length = held.length) :
    keys.zip (held ++ [lock]) = keys.zip held ++ [(key, lock)] := by
  have hheld : keys.zip held = got.zip held := by
    have hnil : (got ++ key :: todo).zip (held ++ []) = got.zip held ++ (key :: todo).zip [] :=
      List.zip_append hl
    simpa [hk] using hnil
  rw [hheld, hk, List.zip_append hl]
  simp

theorem Move.guards {A B : List LockTable.User} (h : Move c t a es p' c')
    (hf : (⟨t, a⟩ : Client).Fits)
    (hg : c.locks.Guards (A ++ (⟨t, a⟩ : Client).user :: B)) :
    c'.locks.Guards (A ++ p'.user :: B) := by
  cases h with
  | commit hf hw =>
      refine hg.forget rfl rfl (fun e he => ?_) (List.Subset.refl _)
      simp [Client.user, Client.claims] at he
  | watch hk => exact hg.borrow hk
  | pass ho =>
      next key asked version lock =>
      exact hg.drops [lock] [] [] (List.Perm.refl _)
        (List.nil_subset _) (by simp)
  | tell =>
      next key value => cases value <;> exact hg
  | log h =>
      next purpose save save' =>
      obtain ⟨_, rfl⟩ := eq_of_logStep h
      cases purpose <;> exact hg
  | lock =>
      next key held todo =>
      obtain ⟨-, got, hk, hl⟩ := hf
      have hfor := hg.lockFor key
      have hzip := zip_keys_append (c.locks.lockFor key).1 hk hl
      simp only [Client.user, Client.refs, Client.claims, Client.holds] at hfor ⊢
      exact hzip ▸ hfor
  | acquire h =>
      next held lock todo locks =>
      exact hg.acquire (List.mem_append_right held (List.mem_singleton.mpr rfl)) h
  | lose ho =>
      next held lock todo =>
      have hd := hg.drops [lock] held [] (List.Perm.refl _)
        (List.nil_subset _) (by simp)
      exact hd.forget rfl rfl (List.nil_subset _) (List.nil_subset _)
  | conflict => exact hg.forget rfl rfl (List.nil_subset _) (List.nil_subset _)
  | apply => exact hg.forget rfl rfl (List.nil_subset _) (List.nil_subset _)
  | abort => exact hg.forget rfl rfl (List.nil_subset _) (List.nil_subset _)
  | free => exact hg.release (hf.2 (List.mem_cons_self ..)) rfl
  | leave =>
      next held result =>
      exact hg.drops held [] [] (List.Perm.refl _)
        (List.nil_subset _) (by simp)
  | _ => exact hg

end moves

/-! ### Reachable systems -/

/-- A coordinator on which no transaction has run: its locks are free, and no version of its shards
is one that it will hand out. -/
structure Fresh (c : Coordinator σ) : Prop where
  sound : c.shards.Sound
  locks : ∃ threshold, c.locks = LockTable.create threshold
  past : ∀ {key version}, c.shards.history key version ≠ none → version ≤ c.lastVersion

theorem Fresh.create {count threshold : ℕ} {towers : ℕ → ℕ → Height} {shards : Shards}
    (h : Shards.create count towers = .ok shards) (journal : Option (Journal σ)) :
    Fresh (Coordinator.create shards journal threshold) where
  sound := Shards.Sound.create h
  locks := ⟨threshold, rfl⟩
  past hne := absurd (Shards.history_create h _ _) hne

theorem mem_moved {A B : List Client} {p' q : Client} (h : q ∈ A ++ p' :: B) :
    q = p' ∨ q ∈ A ++ B := by
  simp only [List.mem_append, List.mem_cons] at h ⊢
  tauto

theorem mem_of_others {A B : List Client} {p q : Client} (h : q ∈ A ++ B) : q ∈ A ++ p :: B := by
  simp only [List.mem_append, List.mem_cons] at h ⊢
  tauto

section stored
variable [LogStore σ] {s s' : System σ} {c₀ : Coordinator σ}

theorem Locking.step (h : Locking s) (hs : Step s s') : Locking s' := by
  cases hs with
  | began c ps es =>
      have hnew : ∀ p ∈ ps, p.id ≤ c.lastVersion := h.bounded
      refine ⟨fun p hp => ?_, fun p hp => ?_, ?_⟩
      · rcases List.mem_append.mp hp with hp | hp
        · exact h.fits p hp
        · rw [List.mem_singleton.mp hp]
          trivial
      · rcases List.mem_append.mp hp with hp | hp
        · exact Nat.le_succ_of_le (hnew p hp)
        · rw [List.mem_singleton.mp hp]
          exact Nat.le_refl _
      · have hg := h.guards.add (c.lastVersion + 1) (Nat.succ_ne_zero _) fun u hu => by
          obtain ⟨p, hp, rfl⟩ := List.mem_map.mp hu
          have : p.id ≤ c.lastVersion := hnew p hp
          show p.id ≠ _
          omega
        rw [List.map_append]
        exact hg
  | moved hm =>
      next c c' A B t a p' es new =>
      have hp : (⟨t, a⟩ : Client) ∈ A ++ ⟨t, a⟩ :: B := by simp
      refine ⟨fun q hq => ?_, fun q hq => ?_, ?_⟩
      · rcases mem_moved hq with rfl | hq
        · exact hm.fits (h.fits _ hp)
        · exact h.fits q (mem_of_others hq)
      · refine Nat.le_trans ?_ hm.lastVersion_le
        rcases mem_moved hq with rfl | hq
        · exact hm.id_eq ▸ h.bounded _ hp
        · exact h.bounded q (mem_of_others hq)
      · have hg := h.guards
        rw [List.map_append, List.map_cons] at hg ⊢
        exact hm.guards (h.fits _ hp) hg
  | flushed hj hf => exact ⟨h.fits, h.bounded, h.guards⟩

theorem Reachable.locking (hc : Fresh c₀) (h : Reachable c₀ s) : Locking s := by
  induction h with
  | start =>
      obtain ⟨threshold, hl⟩ := hc.locks
      refine ⟨by simp [System.start], by simp [System.start], ?_⟩
      show c₀.locks.Guards []
      rw [hl]
      exact LockTable.Guards.create threshold
  | step _ hs ih => exact ih.step (.of_next hs)

end stored

namespace Locking

variable {s : System σ} {p q : Client}

theorem id_injective (h : Locking s) (hp : p ∈ s.clients) (hq : q ∈ s.clients)
    (he : p.id = q.id) : p = q := by
  have hd := h.guards.distinct
  rw [List.map_map] at hd
  exact List.inj_on_of_nodup_map hd hp hq he

theorem id_ne_of_others {c : Coordinator σ} {A B : List Client} {es : List Event}
    (h : Locking ⟨c, A ++ p :: B, es⟩) (hq : q ∈ A ++ B) : q.id ≠ p.id := by
  have hg : c.locks.Guards (A.map Client.user ++ p.user :: B.map Client.user) := by
    simpa using h.guards
  have hu : q.user ∈ A.map Client.user ++ B.map Client.user := by
    rw [← List.map_append]
    exact List.mem_map_of_mem hq
  exact hg.id_ne_of_others hu

theorem id_pos (h : Locking s) (hp : p ∈ s.clients) : 0 < p.id :=
  Nat.pos_of_ne_zero (h.guards.named p.user (List.mem_map_of_mem hp))

/-- Two clients that have all their locks share no key. -/
theorem exclusive (h : Locking s) (hp : p ∈ s.clients) (hq : q ∈ s.clients) (hop : p.Owns)
    (hoq : q.Owns) {key : String} (hkp : key ∈ p.writes.keys) (hkq : key ∈ q.writes.keys) :
    p = q := by
  obtain ⟨l, hl, hlh⟩ := Client.exists_lock_of_owns (h.fits p hp) hop hkp
  obtain ⟨m, hm, hmh⟩ := Client.exists_lock_of_owns (h.fits q hq) hoq hkq
  exact h.id_injective hp hq
    (h.guards.exclusive (List.mem_map_of_mem hp) (List.mem_map_of_mem hq) hl hlh hm hmh)

/-- A client that has all its locks owns the lock that the table has for a key that it writes. -/
theorem owner_eq (h : Locking s) (hp : p ∈ s.clients) (ho : p.Owns) {key : String}
    (hk : key ∈ p.writes.keys) :
    ∃ lock, s.coordinator.locks.byKey.get? key = some lock ∧
      s.coordinator.locks.owner lock = p.id := by
  obtain ⟨lock, hl, hh⟩ := Client.exists_lock_of_owns (h.fits p hp) ho hk
  have hu : p.user ∈ s.clients.map Client.user := List.mem_map_of_mem hp
  exact ⟨lock, h.guards.claimed _ hu _ hl, h.guards.owned _ hu lock hh⟩

theorem watched (h : Locking s) {t : Transaction} {key asked : String} {version lock : ℕ}
    (hp : (⟨t, .reading key (.watching asked version lock)⟩ : Client) ∈ s.clients) :
    s.coordinator.locks.byKey.get? asked = some lock :=
  h.guards.claimed _ (List.mem_map_of_mem hp) _ (List.mem_singleton.mpr rfl)

end Locking
end Run
end SnapshotStore

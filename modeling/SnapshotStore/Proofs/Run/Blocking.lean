import SnapshotStore.Proofs.Run.Ownership

/-! # Who waits for whom

A commit gives every lock back that it took, however it ends: the locks of a run are owned by
commits that are under way, each for a key that its commit has locked and not freed yet
(`Reachable.returning`).  A reader waits for such an owner only, and only for an older one.  A commit
waits for nobody but the log, so a reader can go on as soon as no older commit is under way
(`readers_wait_for_commits`). -/

namespace SnapshotStore
namespace Run

open Journal (LogStore)

variable {σ : Type} {c₀ : Coordinator σ}

namespace Client

variable (p : Client)

/-- The keys that the commit of a client has locked and not freed yet; it frees the first ones
first. -/
def lockedKeys : List String := p.gripped.drop (p.taken.length - p.locked.length)

/-- Whether a read is under way that cannot go on. -/
def Blocked (c : Coordinator σ) : Prop :=
  (∃ key lookup, p.activity = .reading key lookup) ∧ p.advance c = none

end Client

theorem cases_of_save_stop {j : Journal σ} {save : Save} (h : save.step j = none) :
    (∃ persisted, save = .done persisted) ∨ (∃ n, save = .handing n ∧ j.handOver n = none) ∨
      ∃ n, save = .waiting n ∧ j.outcome? n = none := by
  cases save with
  | adding tx kind args =>
      simp only [Save.step] at h
      split at h <;> simp at h
  | handing n => exact .inr (.inl ⟨n, rfl, Option.map_eq_none_iff.mp h⟩)
  | waiting n => exact .inr (.inr ⟨n, rfl, Option.map_eq_none_iff.mp h⟩)
  | done persisted => exact .inl ⟨persisted, rfl⟩

namespace Client

variable {p : Client}

/-- A commit that cannot go on waits for the flusher. -/
theorem logging_of_commits {c : Coordinator σ} (h : p.Commits) (hstop : p.advance c = none) :
    ∃ held version save j, p.activity = .committing (.logging held version save) ∧
      c.journal = some j ∧ ((∃ n, save = .handing n ∧ j.handOver n = none) ∨
        ∃ n, save = .waiting n ∧ j.outcome? n = none) := by
  obtain ⟨t, a⟩ := p
  cases a with
  | committing commit =>
      have hstep (hd : ∀ result, commit ≠ .done result) :
          commit.step t.id t.writes c = none := by
        cases commit with
        | done result => exact absurd rfl (hd result)
        | _ => simpa [advance, Activity.step] using hstop
      cases commit with
      | logging held version save =>
          have hstep := hstep (by simp)
          cases save with
          | done persisted => cases persisted <;> simp [Commit.step] at hstep
          | _ =>
            simp only [Commit.step, Coordinator.logStep, Option.map_eq_none_iff] at hstep
            cases hj : c.journal with
            | none => simp [hj] at hstep
            | some j =>
                simp only [hj, Option.map_eq_none_iff] at hstep
                exact ⟨_, _, _, j, rfl, rfl, (cases_of_save_stop hstep).resolve_left (by simp)⟩
      | done result => simp [advance, Activity.step] at hstop
      | locking held todo =>
          have hstep := hstep (by simp)
          cases todo <;> simp [Commit.step] at hstep
      | contending held lock todo =>
          have hstep := hstep (by simp)
          simp only [Commit.step] at hstep
          split at hstep <;> simp at hstep
      | checking held version todo =>
          have hstep := hstep (by simp)
          cases todo with
          | nil => simp [Commit.step] at hstep
          | cons key todo =>
              simp only [Commit.step] at hstep
              split at hstep <;> simp at hstep
      | releasing held todo result =>
          have hstep := hstep (by simp)
          cases todo <;> simp [Commit.step] at hstep
  | _ => exact h.elim

/-- A read that cannot go on watches a lock with an older owner. -/
theorem watching_of_blocked {c : Coordinator σ} (hf : p.Fits) (h : p.Blocked c) :
    ∃ key lock, p.activity = .reading key (.watching key p.id lock) ∧
      c.locks.owner lock ≠ unlocked ∧ c.locks.owner lock < p.id := by
  obtain ⟨t, a⟩ := p
  obtain ⟨⟨key, lookup, rfl⟩, hstop⟩ := h
  obtain ⟨-, -, hconcerns⟩ := hf
  cases lookup with
  | watching asked version lock =>
      obtain ⟨rfl, hversion⟩ := hconcerns
      obtain rfl : version = t.id := hversion
      have hwait : ¬ (c.locks.owner lock = unlocked ∨ t.id ≤ c.locks.owner lock) := by
        intro hgo
        simp [advance, Activity.step, Lookup.step, hgo] at hstop
      rw [not_or, not_le] at hwait
      exact ⟨asked, lock, rfl, hwait⟩
  | asking asked version =>
      simp only [advance, Activity.step, Lookup.step, Option.map_eq_none_iff] at hstop
      split at hstop <;> simp at hstop
  | _ => simp [advance, Activity.step, Lookup.step] at hstop

end Client

/-! ### What a step does to locks -/

section moves
variable {c c' : Coordinator σ} {t : Transaction} {a : Activity} {new : List Event} {p' : Client}

/-- A step of a client takes free locks and frees its own, and does nothing to the locks of others. -/
theorem Move.owner_cases (h : Move c t a new p' c') (lock : ℕ) :
    c'.locks.owner lock = c.locks.owner lock ∨
      c.locks.owner lock = unlocked ∧ c'.locks.owner lock = t.id ∨
      c.locks.owner lock = t.id ∧ c'.locks.owner lock = unlocked := by
  cases h with
  | watch hk => exact .inl (c.locks.owner_borrow _ _)
  | pass ho => exact .inl (c.locks.owner_drop _ _)
  | lose ho => exact .inl (c.locks.owner_drop _ _)
  | leave => exact .inl (c.locks.owner_foldl_drop _ _)
  | lock => exact .inl (c.locks.owner_lockFor _ _)
  | log hs =>
      obtain ⟨_, rfl⟩ := eq_of_logStep hs
      exact .inl rfl
  | acquire ha =>
      next held lock' todo locks =>
      obtain rfl : locks = (c.locks.exchange lock' unlocked t.id).2 := by
        rw [← LockTable.tryAcquire, ha]
      rcases c.locks.owner_exchange_cases lock' unlocked t.id lock with heq | ⟨-, hfree, htaken⟩
      · exact .inl heq
      · exact .inr (.inl ⟨hfree, htaken⟩)
  | free =>
      next held todo lock' result =>
      rcases c.locks.owner_exchange_cases lock' t.id unlocked lock with heq | ⟨-, hown, hfree⟩
      · exact .inl heq
      · exact .inr (.inr ⟨hown, hfree⟩)
  | _ => exact .inl rfl

/-- Every key keeps its lock while the lock is in use. -/
theorem Move.get?_of_inUse (h : Move c t a new p' c') {key : String} {lock : ℕ}
    (hk : c.locks.byKey.get? key = some lock) (hu : c.locks.inUse lock = true) :
    c'.locks.byKey.get? key = some lock := by
  cases h with
  | leave => rwa [LockTable.byKey_foldl_drop]
  | lock => exact c.locks.get?_lockFor hk hu
  | log hs =>
      obtain ⟨_, rfl⟩ := eq_of_logStep hs
      exact hk
  | acquire ha =>
      next held lock' todo locks =>
      obtain rfl : locks = (c.locks.exchange lock' unlocked t.id).2 := by
        rw [← LockTable.tryAcquire, ha]
      rwa [LockTable.byKey_exchange]
  | free => rwa [LockTable.release, LockTable.byKey_exchange]
  | _ => exact hk

/-- A client takes a lock as the one of a key. -/
theorem Move.claimed_of_acquired (h : Move c t a new p' c') (hf : (⟨t, a⟩ : Client).Fits) {lock : ℕ}
    (hfree : c.locks.owner lock = unlocked) (htaken : c'.locks.owner lock ≠ unlocked) :
    ∃ key, (key, lock) ∈ (⟨t, a⟩ : Client).claims := by
  have hsame (heq : c'.locks.owner lock = c.locks.owner lock) :
      ∃ key, (key, lock) ∈ (⟨t, a⟩ : Client).claims := absurd (heq.trans hfree) htaken
  cases h with
  | watch hk => exact hsame (c.locks.owner_borrow _ _)
  | pass ho => exact hsame (c.locks.owner_drop _ _)
  | lose ho => exact hsame (c.locks.owner_drop _ _)
  | leave => exact hsame (c.locks.owner_foldl_drop _ _)
  | lock => exact hsame (c.locks.owner_lockFor _ _)
  | log hs =>
      obtain ⟨_, rfl⟩ := eq_of_logStep hs
      exact hsame rfl
  | acquire ha =>
      next held lock' todo locks =>
      obtain rfl : locks = (c.locks.exchange lock' unlocked t.id).2 := by
        rw [← LockTable.tryAcquire, ha]
      rcases c.locks.owner_exchange_cases lock' unlocked t.id lock with heq | ⟨rfl, -, -⟩
      · exact hsame heq
      · obtain ⟨-, got, key, hk, hlen⟩ := hf
        refine ⟨key, ?_⟩
        simp only [Client.claims, zip_keys_append lock hk hlen]
        exact List.mem_append_right _ (List.mem_singleton.mpr rfl)
  | free =>
      next held todo lock' result =>
      rcases c.locks.owner_exchange_cases lock' t.id unlocked lock with heq | ⟨-, -, hout⟩
      · exact hsame heq
      · exact absurd hout htaken
  | _ => exact hsame rfl

/-- The locks that a client has yet to free are its own. -/
theorem Move.owner_of_locked (h : Move c t a new p' c')
    (hmade : ∀ lock ∈ (⟨t, a⟩ : Client).refs, lock < c.locks.locks.size)
    (hown : ∀ lock ∈ (⟨t, a⟩ : Client).locked, c.locks.owner lock = t.id)
    (hnodup : (⟨t, a⟩ : Client).locked.Nodup) :
    ∀ lock ∈ p'.locked, c'.locks.owner lock = t.id := by
  intro lock hlock
  cases h with
  | tell =>
      next key value => cases value <;> simp [Client.locked] at hlock
  | log hs =>
      next purpose save save' =>
      obtain ⟨_, rfl⟩ := eq_of_logStep hs
      cases purpose with
      | sealing held version => exact hown lock hlock
      | _ => simp [Client.locked, Purpose.activity] at hlock
  | lock => exact (c.locks.owner_lockFor _ _).trans (hown lock hlock)
  | acquire ha =>
      next held lock' todo locks =>
      obtain rfl : locks = (c.locks.exchange lock' unlocked t.id).2 := by
        rw [← LockTable.tryAcquire, ha]
      have hfree : c.locks.owner lock' = unlocked := c.locks.owner_eq_of_exchange _ _ _ ha
      have hlt : lock' < c.locks.locks.size :=
        hmade lock' (List.mem_append_right held (List.mem_singleton.mpr rfl))
      rw [LockTable.owner_exchange _ _ _ _ hlt]
      rcases List.mem_append.mp hlock with hlock | hlock
      · rw [hown lock hlock, ite_self]
      · rw [if_pos ⟨List.mem_singleton.mp hlock, hfree⟩]
  | lose ho => exact (c.locks.owner_drop _ _).trans (hown lock hlock)
  | free =>
      next held todo lock' result =>
      rcases c.locks.owner_exchange_cases lock' t.id unlocked lock with heq | ⟨rfl, -, -⟩
      · exact heq.trans (hown lock (List.mem_cons_of_mem _ hlock))
      · exact absurd hlock (List.nodup_cons.mp hnodup).1
  | mint => exact hown lock hlock
  | conflict => exact hown lock hlock
  | clear => exact hown lock hlock
  | pledge => exact hown lock hlock
  | apply => exact hown lock hlock
  | abort => exact hown lock hlock
  | _ => simp [Client.locked] at hlock

theorem Move.locked_suffix (h : Move c t a new p' c')
    (hs : (⟨t, a⟩ : Client).locked <:+ (⟨t, a⟩ : Client).taken) : p'.locked <:+ p'.taken := by
  cases h with
  | tell =>
      next key value => cases value <;> exact List.nil_suffix
  | log hlog =>
      next purpose save save' => cases purpose <;> exact List.suffix_refl _
  | free => exact (List.suffix_cons _ _).trans hs
  | leave => exact List.nil_suffix
  | _ => exact List.suffix_refl _

end moves

/-! ### The invariant -/

/-- What holds of the locks that commits have yet to free: they are owned by their client, a lock with
an owner is the one of some key, and the first locks are freed first. -/
structure Returning (s : System σ) : Prop where
  owned : ∀ p ∈ s.clients, ∀ lock ∈ p.locked, s.coordinator.locks.owner lock = p.id
  suffix : ∀ p ∈ s.clients, p.locked <:+ p.taken
  listed : ∀ {lock}, s.coordinator.locks.owner lock ≠ unlocked →
    ∃ key, s.coordinator.locks.byKey.get? key = some lock

theorem Owning.nodup_taken {names : ℕ → String} {s : System σ} (h : Owning names s) {p : Client}
    (hp : p ∈ s.clients) : p.taken.Nodup := by
  have hkeys : p.keys.Nodup := (List.mergeSort_perm _ _).nodup_iff.mpr p.writes.nodup
  exact .of_map names (hkeys.sublist (h.taken p hp).sublist)

theorem Returning.moved {names : ℕ → String} {c c' : Coordinator σ} {A B : List Client}
    {t : Transaction} {a : Activity} {p' : Client} {es new : List Event}
    (hl : Locking ⟨c, A ++ ⟨t, a⟩ :: B, es⟩) (hn : Owning names ⟨c, A ++ ⟨t, a⟩ :: B, es⟩)
    (h : Returning ⟨c, A ++ ⟨t, a⟩ :: B, es⟩) (hm : Move c t a new p' c') :
    Returning ⟨c', A ++ p' :: B, es ++ new⟩ := by
  have hp : (⟨t, a⟩ : Client) ∈ A ++ ⟨t, a⟩ :: B := by simp
  have hu : (⟨t, a⟩ : Client).user ∈ (A ++ ⟨t, a⟩ :: B).map Client.user := List.mem_map_of_mem hp
  have hinUse {lock : ℕ} : c.locks.owner lock ≠ unlocked → c.locks.inUse lock = true :=
    fun ho => c.locks.inUse_iff.mpr (.inl ho)
  refine ⟨fun q hq lock hlock => ?_, fun q hq => ?_, fun {lock} ho => ?_⟩
  · rcases mem_moved hq with rfl | hq
    · rw [hm.id_eq]
      refine hm.owner_of_locked (fun lock hlock => ?_) (h.owned _ hp) ?_ lock hlock
      · exact LockTable.lt_size_of_references _ (hl.guards.references_pos hu hlock)
      · exact (hn.nodup_taken hp).sublist (h.suffix _ hp).sublist
    · have hold : c.locks.owner lock = q.id := h.owned q (mem_of_others hq) lock hlock
      have hpos := hl.id_pos (mem_of_others hq)
      have hne : q.id ≠ t.id := hl.id_ne_of_others hq
      rcases hm.owner_cases lock with heq | ⟨hfree, -⟩ | ⟨hown, -⟩
      · exact heq.trans hold
      · rw [hold] at hfree
        exact absurd hfree (Nat.ne_of_gt hpos)
      · exact absurd (hold.symm.trans hown) hne
  · rcases mem_moved hq with rfl | hq
    · exact hm.locked_suffix (h.suffix _ hp)
    · exact h.suffix q (mem_of_others hq)
  · have ho : c'.locks.owner lock ≠ unlocked := ho
    by_cases hold : c.locks.owner lock = unlocked
    · obtain ⟨key, hclaim⟩ := hm.claimed_of_acquired (hl.fits _ hp) hold ho
      have hpos := hl.guards.references_pos hu (hl.guards.refers _ hu _ hclaim)
      have hk := hl.guards.claimed _ hu _ hclaim
      exact ⟨key, hm.get?_of_inUse hk (c.locks.inUse_iff.mpr (.inr hpos))⟩
    · obtain ⟨key, hk⟩ := h.listed hold
      exact ⟨key, hm.get?_of_inUse hk (hinUse hold)⟩

section stored
variable [LogStore σ] {s s' : System σ}

theorem Returning.step {names : ℕ → String} (hl : Locking s) (hn : Owning names s)
    (h : Returning s) (hs : Step s s') : Returning s' := by
  cases hs with
  | began c ps es =>
      refine ⟨fun p hp => ?_, fun p hp => ?_, h.listed⟩
      · rcases List.mem_append.mp hp with hp | hp
        · exact h.owned p hp
        · rw [List.mem_singleton.mp hp]
          simp [Client.locked, Client.fresh]
      · rcases List.mem_append.mp hp with hp | hp
        · exact h.suffix p hp
        · rw [List.mem_singleton.mp hp]
          exact List.nil_suffix
  | moved hm => exact h.moved hl hn hm
  | flushed hj hf => exact ⟨h.owned, h.suffix, h.listed⟩

theorem Reachable.returning (hc : Fresh c₀) (h : Reachable c₀ s) : Returning s := by
  induction h with
  | start =>
      obtain ⟨threshold, hl⟩ := hc.locks
      refine ⟨by simp [System.start], by simp [System.start], fun {lock} ho => ?_⟩
      have ho : c₀.locks.owner lock ≠ unlocked := ho
      simp [hl, LockTable.create, LockTable.owner] at ho
  | step hr hs ih =>
      obtain ⟨names, hn⟩ := hr.owning hc
      exact ih.step (hr.locking hc) hn (.of_next hs)

end stored

/-! ### Owners and readers -/

section owners
variable {s : System σ} {names : ℕ → String}

theorem Returning.map_locked (hn : Owning names s) (h : Returning s) {p : Client}
    (hp : p ∈ s.clients) : p.locked.map names = p.lockedKeys := by
  rw [Client.lockedKeys, ← hn.map_taken hp, ← List.map_drop,
    ← List.suffix_iff_eq_drop.mp (h.suffix p hp)]

/-- A lock is owned by a client exactly if it is the lock of a key that the commit of this client has
locked. -/
theorem Returning.owner_iff (hn : Owning names s) (h : Returning s) {lock id : ℕ}
    (hid : id ≠ unlocked) :
    s.coordinator.locks.owner lock = id ↔
      ∃ p ∈ s.clients, p.id = id ∧ p.Commits ∧
        ∃ key ∈ p.lockedKeys, s.coordinator.locks.byKey.get? key = some lock := by
  have hlisted {lock : ℕ} (ho : s.coordinator.locks.owner lock ≠ unlocked) :
      s.coordinator.locks.byKey.get? (names lock) = some lock := by
    obtain ⟨key, hk⟩ := h.listed ho
    rwa [hn.named hk]
  constructor
  · rintro rfl
    obtain ⟨p, hp, hpid, hlock⟩ := hn.owned hid
    refine ⟨p, hp, hpid, Client.commits_of_locked hlock, names lock, ?_, hlisted hid⟩
    rw [← h.map_locked hn hp]
    exact List.mem_map_of_mem hlock
  · rintro ⟨p, hp, rfl, -, key, hkey, hk⟩
    rw [← h.map_locked hn hp] at hkey
    obtain ⟨l, hlock, rfl⟩ := List.mem_map.mp hkey
    have ho := h.owned p hp l hlock
    have hkl := hlisted (ho ▸ hid)
    rw [← Option.some.inj (hkl.symm.trans hk), ho]

end owners

/-- In every reachable system, a lock is owned exactly by the commit that has locked its key and not
freed it yet, so all locks are free when no commit is under way.  A read that cannot go on waits for
the lock of its key, which an older commit owns.  A commit that cannot go on is handing its batch over
to the flusher or waits for the outcome of the batch, and one that can has fewer steps ahead afterwards.
So a read can go on once no older commit is under way. -/
theorem readers_wait_for_commits [LogStore σ] {s : System σ} (hc : Fresh c₀)
    (h : Reachable c₀ s) :
    (∀ lock id, id ≠ unlocked → (s.coordinator.locks.owner lock = id ↔
      ∃ p ∈ s.clients, p.id = id ∧ p.Commits ∧
        ∃ key ∈ p.lockedKeys, s.coordinator.locks.byKey.get? key = some lock)) ∧
    ((∀ p ∈ s.clients, ¬ p.Commits) → ∀ lock, s.coordinator.locks.owner lock = unlocked) ∧
    (∀ p ∈ s.clients, p.Blocked s.coordinator → ∃ key lock,
      p.activity = .reading key (.watching key p.id lock) ∧
      s.coordinator.locks.byKey.get? key = some lock ∧
      ∃ q ∈ s.clients, q.Commits ∧ key ∈ q.lockedKeys ∧
        s.coordinator.locks.owner lock = q.id ∧ q.id < p.id) ∧
    (∀ q ∈ s.clients, q.Commits → q.advance s.coordinator = none →
      ∃ held version save j, q.activity = .committing (.logging held version save) ∧
        s.coordinator.journal = some j ∧ ((∃ n, save = .handing n ∧ j.handOver n = none) ∨
          ∃ n, save = .waiting n ∧ j.outcome? n = none)) ∧
    (∀ q ∈ s.clients, ∀ q' c', q.advance s.coordinator = some (q', c') →
      q'.activity.stepsLeft q'.transaction < q.activity.stepsLeft q.transaction) ∧
    (∀ p ∈ s.clients, (∀ q ∈ s.clients, q.Commits → p.id ≤ q.id) → ¬ p.Blocked s.coordinator) := by
  have hl := h.locking hc
  have hr := h.returning hc
  obtain ⟨names, hn⟩ := h.owning hc
  have hblocked : ∀ p ∈ s.clients, p.Blocked s.coordinator → ∃ key lock,
      p.activity = .reading key (.watching key p.id lock) ∧
      s.coordinator.locks.byKey.get? key = some lock ∧
      ∃ q ∈ s.clients, q.Commits ∧ key ∈ q.lockedKeys ∧
        s.coordinator.locks.owner lock = q.id ∧ q.id < p.id := by
    intro p hp hb
    obtain ⟨key, lock, ha, ho, holder⟩ := Client.watching_of_blocked (hl.fits p hp) hb
    have hk : s.coordinator.locks.byKey.get? key = some lock := by
      obtain ⟨t, a⟩ := p
      obtain rfl : a = .reading key (.watching key t.id lock) := ha
      exact hl.watched hp
    obtain ⟨q, hq, hqid, hlock⟩ := hn.owned ho
    refine ⟨key, lock, ha, hk, q, hq, Client.commits_of_locked hlock, ?_, hqid.symm, hqid ▸ holder⟩
    rw [← hr.map_locked hn hq, ← hn.named hk]
    exact List.mem_map_of_mem hlock
  refine ⟨fun lock id hid => hr.owner_iff hn hid, fun hnone lock => ?_, hblocked,
    fun q _ hq hstop => Client.logging_of_commits hq hstop, fun q _ q' c' hstep => ?_,
    fun p hp hold hb => ?_⟩
  · by_contra ho
    obtain ⟨p, hp, -, hlock⟩ := hn.owned ho
    exact hnone p hp (Client.commits_of_locked hlock)
  · obtain ⟨⟨t', a', c''⟩, hs, heq⟩ := Option.map_eq_some_iff.mp hstep
    obtain ⟨rfl, rfl⟩ := Prod.mk.inj heq
    exact Activity.stepsLeft_lt hs
  · obtain ⟨key, lock, -, -, q, hq, hqc, -, -, holder⟩ := hblocked p hp hb
    exact absurd (hold q hq hqc) (by omega)

/-- Whether a client watches a lock, and cannot go on. -/
def Client.isBlocked (p : Client) (c : Coordinator σ) : Bool :=
  match p.activity with
  | .reading _ _ => (p.advance c).isNone
  | _ => false

theorem Client.blocked_of_isBlocked {p : Client} {c : Coordinator σ} (h : p.isBlocked c = true) :
    p.Blocked c := by
  unfold isBlocked at h
  split at h
  · next key lookup ha => exact ⟨⟨key, lookup, ha⟩, Option.isNone_iff_eq_none.mp h⟩
  · simp at h

/-- A reader that began after a commit had its end version waits for the lock of the key, which the
commit owns. -/
theorem readers_wait_for_commits_sample :
    ∃ s, Reachable sample s ∧ ∃ p ∈ s.clients, p.Blocked s.coordinator ∧
      ∃ q ∈ s.clients, q.Commits ∧ q.id < p.id := by
  have hrun : ((System.start sample).run ([.begin] ++ Choice.write 0 "k" "v" ++ Choice.mint 0 ++
      [.begin, .request 1 (.get "k"), .advance 1])).any (fun s =>
        s.clients.any (·.isBlocked s.coordinator)) = true := by
    decide +kernel
  obtain ⟨s, hs, hany⟩ := exists_reachable hrun
  obtain ⟨p, hp, hb⟩ := List.any_eq_true.mp hany
  have hb := Client.blocked_of_isBlocked hb
  obtain ⟨-, -, hblocked, -⟩ := readers_wait_for_commits fresh_sample hs
  obtain ⟨-, -, -, -, q, hq, hqc, -, -, holder⟩ := hblocked p hp hb
  exact ⟨s, hs, p, hp, hb, q, hq, hqc, holder⟩

end Run
end SnapshotStore

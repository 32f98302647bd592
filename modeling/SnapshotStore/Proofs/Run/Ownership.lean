import SnapshotStore.Proofs.Run.Requests

/-! # Who owns a lock

The names of a lock table (`Owning`) say for every lock which key it was made for, also when the key
has got another lock since.  A client took its locks in the order of its keys, and a lock with an owner
is one that the owner took for its commit and has yet to free.

So a commit that gives up because a lock is taken finds another commit that has a grip on the same key
(`Owning.exists_owner`). -/

namespace SnapshotStore

namespace Run

open Journal (LogStore)

variable {σ : Type} {c₀ : Coordinator σ}

namespace Client

variable (p : Client)

/-- The locks that the commit of a client took and has not left yet. -/
def taken : List ℕ :=
  match p.activity with
  | .committing (.locking held _) => held
  | .committing (.contending held _ _) => held
  | .committing (.checking held _ _) => held
  | .committing (.logging held _ _) => held
  | .committing (.releasing held _ _) => held
  | _ => []

/-- The locks that the commit of a client has yet to free. -/
def locked : List ℕ :=
  match p.activity with
  | .committing (.locking held _) => held
  | .committing (.contending held _ _) => held
  | .committing (.checking held _ _) => held
  | .committing (.logging held _ _) => held
  | .committing (.releasing _ todo _) => todo
  | _ => []

/-- The keys that a commit has locked and not left yet. -/
def gripped : List String := p.keys.take p.taken.length

variable {p}

theorem taken_subset_refs : p.taken ⊆ p.refs := by
  obtain ⟨t, a⟩ := p
  unfold taken refs
  split <;> simp_all

theorem locked_subset_taken (hf : p.Fits) : p.locked ⊆ p.taken := by
  obtain ⟨t, a⟩ := p
  unfold locked
  split
  case h_5 held todo result heq =>
    obtain rfl : a = _ := heq
    exact hf.2
  all_goals simp_all [taken]

theorem commits_of_locked {lock : ℕ} (h : lock ∈ p.locked) : p.Commits := by
  obtain ⟨t, a⟩ := p
  unfold locked at h
  split at h
  case h_6 => simp at h
  all_goals
    next heq =>
    obtain rfl : a = _ := heq
    trivial

theorem mem_keys_of_gripped {key : String} (h : key ∈ p.gripped) : key ∈ p.keys :=
  List.mem_of_mem_take h

end Client

/-! ### The invariant -/

/-- What holds of the owners of locks in a run, with names for the locks. -/
structure Owning (names : ℕ → String) (s : System σ) : Prop where
  named : ∀ {key lock}, s.coordinator.locks.byKey.get? key = some lock → names lock = key
  taken : ∀ p ∈ s.clients, p.taken.map names <+: p.keys
  owned : ∀ {lock}, s.coordinator.locks.owner lock ≠ unlocked →
    ∃ p ∈ s.clients, p.id = s.coordinator.locks.owner lock ∧ lock ∈ p.locked

variable {names : ℕ → String}

theorem Locking.lt_size_of_taken {s : System σ} (hl : Locking s) {p : Client} (hp : p ∈ s.clients)
    {lock : ℕ} (h : lock ∈ p.taken) : lock < s.coordinator.locks.locks.size :=
  LockTable.lt_size_of_references _
    (hl.guards.references_pos (List.mem_map_of_mem hp) (Client.taken_subset_refs h))

section moves
variable {c c' : Coordinator σ} {A B : List Client} {t : Transaction} {a : Activity}
  {p p' : Client} {es new : List Event} {names' : ℕ → String}

/-- What a step of one client has to ensure: the locks that others took keep their names, and whoever
is an owner afterwards was one before and has not lost the lock, or is this client. -/
theorem Owning.replace (h : Owning names ⟨c, A ++ p :: B, es⟩) (hid : p'.id = p.id)
    (hnamed : ∀ {key lock}, c'.locks.byKey.get? key = some lock → names' lock = key)
    (hothers : ∀ q ∈ A ++ B, q.taken.map names' = q.taken.map names)
    (htaken : p'.taken.map names' <+: p'.keys)
    (howner : ∀ {lock}, c'.locks.owner lock ≠ unlocked →
      c'.locks.owner lock = c.locks.owner lock ∧
        (p.id = c.locks.owner lock → lock ∈ p.locked → lock ∈ p'.locked) ∨
      p'.id = c'.locks.owner lock ∧ lock ∈ p'.locked) :
    Owning names' ⟨c', A ++ p' :: B, es ++ new⟩ where
  named := hnamed
  taken q hq := by
    rcases mem_moved hq with rfl | hq
    · exact htaken
    · exact hothers q hq ▸ h.taken q (mem_of_others hq)
  owned {lock} ho := by
    rcases howner ho with ⟨hsame, hkeep⟩ | ⟨hp, hlock⟩
    · have ho : c'.locks.owner lock ≠ unlocked := ho
      obtain ⟨q, hq, hqid, hql⟩ := h.owned (hsame ▸ ho)
      rcases mem_moved hq with rfl | hq
      · exact ⟨p', by simp, (hid.trans hqid).trans hsame.symm, hkeep hqid hql⟩
      · exact ⟨q, mem_of_others hq, hqid.trans hsame.symm, hql⟩
    · exact ⟨p', by simp, hp, hlock⟩

/-- A step after which no key has a lock that it did not have before, no lock another owner, and the
client neither more locks nor fewer to free. -/
theorem Owning.keep (h : Owning names ⟨c, A ++ p :: B, es⟩) (hid : p'.id = p.id)
    (hnamed : ∀ {key lock}, c'.locks.byKey.get? key = some lock →
      c.locks.byKey.get? key = some lock)
    (howner : ∀ lock, c'.locks.owner lock = c.locks.owner lock)
    (htaken : p'.taken = [] ∨ p'.taken = p.taken ∧ p'.writes = p.writes)
    (hlocked : p.locked ⊆ p'.locked) : Owning names ⟨c', A ++ p' :: B, es ++ new⟩ := by
  refine h.replace hid (fun hk => h.named (hnamed hk)) (fun _ _ => rfl) ?_
    fun _ => .inl ⟨howner _, fun _ hl => hlocked hl⟩
  rcases htaken with hnil | ⟨htaken, hw⟩
  · rw [hnil]
    exact List.nil_prefix
  · rw [htaken, Client.keys, hw]
    exact h.taken p (by simp)

/-- A client asks for the lock of its next key, which may be a new one. -/
theorem Owning.lockFor {key : String} {held : List ℕ} {todo : List String}
    (hl : Locking ⟨c, A ++ ⟨t, .committing (.locking held (key :: todo))⟩ :: B, es⟩)
    (h : Owning names ⟨c, A ++ ⟨t, .committing (.locking held (key :: todo))⟩ :: B, es⟩) :
    ∃ names', Owning names' ⟨{ c with locks := (c.locks.lockFor key).2 },
      A ++ ⟨t, .committing (.contending held (c.locks.lockFor key).1 todo)⟩ :: B, es ++ new⟩ := by
  let names' : ℕ → String := fun lock => if lock < c.locks.locks.size then names lock else key
  have hkeep {q : Client}
      (hq : q ∈ A ++ ⟨t, .committing (.locking held (key :: todo))⟩ :: B) :
      q.taken.map names' = q.taken.map names :=
    List.map_congr_left fun lock hlock => if_pos (hl.lt_size_of_taken hq hlock)
  have hp : (⟨t, .committing (.locking held (key :: todo))⟩ : Client) ∈
      A ++ ⟨t, .committing (.locking held (key :: todo))⟩ :: B := by simp
  refine ⟨names', h.replace rfl (fun {k lock} hk => ?_) (fun q hq => hkeep (mem_of_others hq))
    (hkeep hp ▸ h.taken _ hp) fun _ => .inl ⟨c.locks.owner_lockFor key _, fun _ hl => hl⟩⟩
  rcases c.locks.byKey_lockFor hk with hk | ⟨rfl, rfl⟩
  · exact (if_pos (hl.guards.inRange hk)).trans (h.named hk)
  · exact if_neg (Nat.lt_irrefl _)

theorem Owning.names_contending {s : System σ} (hl : Locking s) (h : Owning names s)
    {held : List ℕ} {lock : ℕ} {got todo : List String} {key : String}
    (hp : (⟨t, .committing (.contending held lock todo)⟩ : Client) ∈ s.clients)
    (hk : Commit.sortedKeys t.writes = got ++ key :: todo) (hlen : got.length = held.length) :
    names lock = key := by
  refine h.named (hl.guards.claimed _ (List.mem_map_of_mem hp) (key, lock) ?_)
  simp only [Client.user, Client.claims, Client.keys, Client.writes, zip_keys_append lock hk hlen]
  exact List.mem_append_right _ (List.mem_singleton.mpr rfl)

/-- A client takes the lock that it asked for. -/
theorem Owning.acquire {held : List ℕ} {lock : ℕ} {todo : List String} {locks : LockTable}
    (hl : Locking ⟨c, A ++ ⟨t, .committing (.contending held lock todo)⟩ :: B, es⟩)
    (h : Owning names ⟨c, A ++ ⟨t, .committing (.contending held lock todo)⟩ :: B, es⟩)
    (ha : c.locks.tryAcquire lock t.id = (true, locks)) :
    Owning names ⟨{ c with locks },
      A ++ ⟨t, .committing (.locking (held ++ [lock]) todo)⟩ :: B, es ++ new⟩ := by
  have hp : (⟨t, .committing (.contending held lock todo)⟩ : Client) ∈
      A ++ ⟨t, .committing (.contending held lock todo)⟩ :: B := by simp
  have hu : (⟨t, .committing (.contending held lock todo)⟩ : Client).user ∈
      (A ++ ⟨t, .committing (.contending held lock todo)⟩ :: B).map Client.user :=
    List.mem_map_of_mem hp
  obtain rfl : locks = (c.locks.exchange lock unlocked t.id).2 := by
    rw [← LockTable.tryAcquire, ha]
  have hlt : lock < c.locks.locks.size := LockTable.lt_size_of_references _
    (hl.guards.references_pos hu (List.mem_append_right held (List.mem_singleton.mpr rfl)))
  refine h.replace rfl (fun {k l} hk => ?_) (fun _ _ => rfl) ?_ fun {l} _ => ?_
  · rw [LockTable.byKey_exchange] at hk
    exact h.named hk
  · obtain ⟨-, got, key, hk, hlen⟩ := hl.fits _ hp
    have hgot : held.map names = got := by
      have hpre : held.map names <+: got ++ key :: todo := hk ▸ h.taken _ hp
      have hlen' : (held.map names).length = got.length := by simp [hlen]
      exact (List.prefix_of_prefix_length_le hpre (List.prefix_append got _)
        (Nat.le_of_eq hlen')).eq_of_length hlen'
    have hkeys : Client.keys ⟨t, .committing (.locking (held ++ [lock]) todo)⟩ =
        (held ++ [lock]).map names ++ todo := by
      rw [List.map_append, hgot, List.map_singleton, h.names_contending hl hp hk hlen,
        List.append_assoc]
      exact hk
    exact hkeys ▸ List.prefix_append _ _
  · show (c.locks.exchange lock unlocked t.id).2.owner l = _ ∧ _ ∨
      t.id = (c.locks.exchange lock unlocked t.id).2.owner l ∧ l ∈ held ++ [lock]
    rw [c.locks.owner_exchange _ _ _ hlt]
    split
    · next hfree =>
      exact .inr ⟨rfl, List.mem_append_right held (List.mem_singleton.mpr hfree.1)⟩
    · exact .inl ⟨rfl, fun _ hheld => List.mem_append_left [lock] hheld⟩

/-- A client frees a lock. -/
theorem Owning.free {held todo : List ℕ} {lock : ℕ} {result : Outcome Unit}
    (hl : Locking ⟨c, A ++ ⟨t, .committing (.releasing held (lock :: todo) result)⟩ :: B, es⟩)
    (h : Owning names ⟨c, A ++ ⟨t, .committing (.releasing held (lock :: todo) result)⟩ :: B, es⟩) :
    Owning names ⟨{ c with locks := c.locks.release lock t.id },
      A ++ ⟨t, .committing (.releasing held todo result)⟩ :: B, es ++ new⟩ := by
  have hp : (⟨t, .committing (.releasing held (lock :: todo) result)⟩ : Client) ∈
      A ++ ⟨t, .committing (.releasing held (lock :: todo) result)⟩ :: B := by simp
  have hlt : lock < c.locks.locks.size :=
    hl.lt_size_of_taken hp ((hl.fits _ hp).2 (List.mem_cons_self ..))
  have htaken := h.taken _ hp
  refine h.replace rfl (fun {k l} hk => ?_) (fun _ _ => rfl) htaken fun {l} ho => ?_
  · rw [LockTable.release, LockTable.byKey_exchange] at hk
    exact h.named hk
  · refine .inl ?_
    show (c.locks.exchange lock t.id unlocked).2.owner l = _ ∧
      (t.id = _ → l ∈ lock :: todo → l ∈ todo)
    have ho : (c.locks.exchange lock t.id unlocked).2.owner l ≠ unlocked := ho
    rw [c.locks.owner_exchange _ _ _ hlt] at ho ⊢
    split
    · next hfree => simp [if_pos hfree] at ho
    · next hne =>
      refine ⟨rfl, fun hid hmem => ?_⟩
      rcases List.mem_cons.mp hmem with rfl | hmem
      · exact absurd ⟨rfl, hid.symm⟩ hne
      · exact hmem

theorem Owning.moved (hl : Locking ⟨c, A ++ ⟨t, a⟩ :: B, es⟩)
    (h : Owning names ⟨c, A ++ ⟨t, a⟩ :: B, es⟩) (hm : Move c t a new p' c') :
    ∃ names', Owning names' ⟨c', A ++ p' :: B, es ++ new⟩ := by
  cases hm with
  | lock => exact h.lockFor hl
  | acquire ha => exact ⟨names, h.acquire hl ha⟩
  | free => exact ⟨names, h.free hl⟩
  | watch hk =>
      exact ⟨names, h.keep rfl id (c.locks.owner_borrow _) (.inl rfl) (List.nil_subset _)⟩
  | pass ho => exact ⟨names, h.keep rfl id (c.locks.owner_drop _) (.inl rfl) (List.nil_subset _)⟩
  | tell =>
      next key value =>
      exact ⟨names, h.keep (by cases value <;> rfl) id (fun _ => rfl) (.inl rfl)
        (List.nil_subset _)⟩
  | log hs =>
      next purpose save save' =>
      obtain ⟨_, rfl⟩ := eq_of_logStep hs
      cases purpose with
      | sealing held version =>
          exact ⟨names, h.keep rfl id (fun _ => rfl) (.inr ⟨rfl, rfl⟩) (List.Subset.refl _)⟩
      | _ => exact ⟨names, h.keep rfl id (fun _ => rfl) (.inl rfl) (List.nil_subset _)⟩
  | lose ho =>
      exact ⟨names, h.keep rfl id (c.locks.owner_drop _) (.inr ⟨rfl, rfl⟩) (List.Subset.refl _)⟩
  | leave =>
      refine ⟨names, h.keep rfl (fun hk => ?_) (c.locks.owner_foldl_drop _) (.inl rfl)
        (List.nil_subset _)⟩
      rwa [LockTable.byKey_foldl_drop] at hk
  | mint => exact ⟨names, h.keep rfl id (fun _ => rfl) (.inr ⟨rfl, rfl⟩) (List.Subset.refl _)⟩
  | conflict => exact ⟨names, h.keep rfl id (fun _ => rfl) (.inr ⟨rfl, rfl⟩) (List.Subset.refl _)⟩
  | clear => exact ⟨names, h.keep rfl id (fun _ => rfl) (.inr ⟨rfl, rfl⟩) (List.Subset.refl _)⟩
  | pledge => exact ⟨names, h.keep rfl id (fun _ => rfl) (.inr ⟨rfl, rfl⟩) (List.Subset.refl _)⟩
  | apply => exact ⟨names, h.keep rfl id (fun _ => rfl) (.inr ⟨rfl, rfl⟩) (List.Subset.refl _)⟩
  | abort => exact ⟨names, h.keep rfl id (fun _ => rfl) (.inr ⟨rfl, rfl⟩) (List.Subset.refl _)⟩
  | _ => exact ⟨names, h.keep rfl id (fun _ => rfl) (.inl rfl) (List.nil_subset _)⟩

end moves

section stored
variable [LogStore σ] {s s' : System σ}

theorem Owning.step (hl : Locking s) (h : Owning names s) (hs : Step s s') :
    ∃ names', Owning names' s' := by
  cases hs with
  | began c ps es =>
      refine ⟨names, h.named, fun p hp => ?_, fun ho => ?_⟩
      · rcases List.mem_append.mp hp with hp | hp
        · exact h.taken p hp
        · rw [List.mem_singleton.mp hp]
          exact List.nil_prefix
      · obtain ⟨p, hp, hpid, hpl⟩ := h.owned ho
        exact ⟨p, List.mem_append_left _ hp, hpid, hpl⟩
  | moved hm => exact h.moved hl hm
  | flushed hj hf => exact ⟨names, h.named, h.taken, h.owned⟩

theorem Reachable.owning (hc : Fresh c₀) (h : Reachable c₀ s) : ∃ names, Owning names s := by
  induction h with
  | start =>
      obtain ⟨threshold, hl⟩ := hc.locks
      refine ⟨fun _ => "", fun {key lock} hk => ?_, by simp [System.start], fun {lock} ho => ?_⟩
      · have hk : c₀.locks.byKey.get? key = some lock := hk
        simp [hl, LockTable.create] at hk
      · have ho : c₀.locks.owner lock ≠ unlocked := ho
        simp [hl, LockTable.create, LockTable.owner] at ho
  | step hr hs ih =>
      obtain ⟨names, hn⟩ := ih
      exact hn.step (hr.locking hc) (.of_next hs)

end stored

theorem Owning.map_taken {s : System σ} (h : Owning names s) {p : Client} (hp : p ∈ s.clients) :
    p.taken.map names = p.gripped := by
  rw [List.prefix_iff_eq_take.mp (h.taken p hp), List.length_map]
  rfl

/-- A client that asks for the lock of a key and finds it taken finds a client that commits, and has a
grip on the key. -/
theorem Owning.exists_owner {s : System σ} (hl : Locking s) (h : Owning names s) {t : Transaction}
    {held : List ℕ} {lock : ℕ} {got todo : List String} {key : String}
    (hp : (⟨t, .committing (.contending held lock todo)⟩ : Client) ∈ s.clients)
    (hk : Commit.sortedKeys t.writes = got ++ key :: todo) (hlen : got.length = held.length)
    (ho : s.coordinator.locks.owner lock ≠ unlocked) :
    ∃ q ∈ s.clients, q.Commits ∧ key ∈ q.gripped := by
  obtain ⟨q, hq, -, hql⟩ := h.owned ho
  refine ⟨q, hq, Client.commits_of_locked hql, ?_⟩
  rw [← h.map_taken hq, ← h.names_contending hl hp hk hlen]
  exact List.mem_map_of_mem (Client.locked_subset_taken (hl.fits q hq) hql)

end Run
end SnapshotStore

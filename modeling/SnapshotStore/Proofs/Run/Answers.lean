import SnapshotStore.Proofs.Run.Requests

/-! # What commits answer

A commit is asked for before it mints its end version (`Answered.asked`), answers once
(`Answered.once`), and answers that all is well if it took effect (`Answered.applied`).  From the request
on the writes of its transaction stay as they are (`Reachable.writes_eq_of_ended`).

A commit that finds one of its keys written after its transaction began finds a commit that took effect
with a higher end version (`Committed.existsBetween_iff`). -/

namespace SnapshotStore
namespace Run

open Journal (LogStore)

variable {σ : Type} {c₀ : Coordinator σ}

theorem Client.commits_of_owns {p : Client} (h : p.Owns) : p.Commits := by
  unfold Client.Owns at h
  unfold Client.Commits
  split at h <;> simp_all

/-! ### Steps of a client -/

section moves
variable {c c' : Coordinator σ} {t : Transaction} {a : Activity} {new : List Event} {p' : Client}

/-- A commit that succeeded goes on to answer so. -/
theorem Move.succeeded (h : Move c t a new p' c') (hs : (⟨t, a⟩ : Client).Succeeded) :
    p'.Succeeded ∨ .ended t.id t.writes (.ok ()) ∈ new := by
  cases h with
  | free =>
      next held todo lock result =>
      cases result with
      | ok _ => exact .inl trivial
      | error _ => exact hs.elim
  | leave =>
      next held result =>
      cases result with
      | ok _ => exact .inl trivial
      | error _ => exact hs.elim
  | finish =>
      next result =>
      cases result with
      | ok _ => exact .inr (List.mem_singleton.mpr rfl)
      | error _ => exact hs.elim
  | log h =>
      next purpose save save' => cases purpose <;> exact hs.elim
  | _ => exact hs.elim

theorem Move.unchecked_subset (h : Move c t a new p' c')
    (hp : (⟨t, a⟩ : Client).unchecked ⊆ t.writes.keys) : p'.unchecked ⊆ p'.writes.keys := by
  cases h with
  | mint => exact List.Subset.refl _
  | clear h => exact List.subset_of_cons_subset hp
  | log h =>
      next purpose save save' => cases purpose <;> exact List.nil_subset _
  | _ => exact List.nil_subset _

theorem Move.transaction_eq (h : Move c t a new p' c') (hp : (⟨t, a⟩ : Client).Fits)
    (hfin : t.finished = true) : p'.transaction = t := by
  have hnot {P : Prop} (hf : t.finished = false) : P := by simp [hfin] at hf
  cases h with
  | tell => exact hnot hp.1
  | stage => exact hnot hp
  | commitNothing hf hw => exact hnot hf
  | commit hf hw => exact hnot hf
  | rollbackNothing hf => exact hnot hf
  | rollback hf => exact hnot hf
  | _ => rfl

end moves

/-! ### The invariant -/

/-- What holds of the answers of commits in a run. -/
structure Answered (s : System σ) : Prop where
  unchecked : ∀ p ∈ s.clients, p.unchecked ⊆ p.writes.keys
  asked : ∀ {x}, .minted x ∈ s.trace → ∃ before after,
    s.trace = before ++ .requested x.id .commit :: after ∧
      ∀ {id}, .began id ∈ before → id < x.version
  applied : ∀ {x}, .applied x ∈ s.trace →
    (∃ p ∈ s.clients, p.id = x.id ∧ p.Succeeded) ∨ ∃ writes, .ended x.id writes (.ok ()) ∈ s.trace
  once : ∀ {id v w r q}, .ended id v r ∈ s.trace → .ended id w q ∈ s.trace → v = w ∧ r = q

/-- A step that notes nothing of commits and adds no client that commits. -/
theorem Answered.extend {s s' : System σ} {new : List Event} (h : Answered s)
    (htrace : s'.trace = s.trace ++ new) (hminted : ∀ {x}, .minted x ∉ new)
    (happlied : ∀ {x}, .applied x ∉ new) (hended : ∀ {id w r}, .ended id w r ∉ new)
    (hold : ∀ p ∈ s.clients, p ∈ s'.clients)
    (hclients : ∀ p ∈ s'.clients, p ∈ s.clients ∨ p.unchecked = []) : Answered s' := by
  have hback {e : Event} (he : e ∈ s'.trace) (hnew : e ∉ new) : e ∈ s.trace := by
    rw [htrace] at he
    exact (List.mem_append.mp he).resolve_right hnew
  refine ⟨fun p hp => ?_, fun {x} hx => ?_, fun {x} hx => ?_,
    fun hv hw => h.once (hback hv hended) (hback hw hended)⟩
  · rcases hclients p hp with hp | hnil
    · exact h.unchecked p hp
    · exact hnil ▸ List.nil_subset _
  · obtain ⟨before, after, hsplit, hb⟩ := h.asked (hback hx hminted)
    exact ⟨before, after ++ new, by rw [htrace, hsplit, List.append_assoc, List.cons_append], hb⟩
  · rcases h.applied (hback hx happlied) with ⟨p, hp, hok⟩ | ⟨w, hw⟩
    · exact .inl ⟨p, hold p hp, hok⟩
    · exact .inr ⟨w, htrace ▸ List.mem_append_left _ hw⟩

theorem Answered.moved {c c' : Coordinator σ} {A B : List Client} {t : Transaction} {a : Activity}
    {p' : Client} {es new : List Event} (hl : Locking ⟨c, A ++ ⟨t, a⟩ :: B, es⟩)
    (hv : Versioned c₀ ⟨c, A ++ ⟨t, a⟩ :: B, es⟩) (hr : Requested ⟨c, A ++ ⟨t, a⟩ :: B, es⟩)
    (h : Answered ⟨c, A ++ ⟨t, a⟩ :: B, es⟩) (hm : Move c t a new p' c') :
    Answered ⟨c', A ++ p' :: B, es ++ new⟩ := by
  have hp : (⟨t, a⟩ : Client) ∈ A ++ ⟨t, a⟩ :: B := by simp
  refine ⟨fun q hq => ?_, fun {x} hx => ?_, fun {x} hx => ?_, fun {id v w r q} hev hew => ?_⟩
  · rcases mem_moved hq with rfl | hq
    · exact hm.unchecked_subset (h.unchecked _ hp)
    · exact h.unchecked q (mem_of_others hq)
  · rcases List.mem_append.mp hx with hx | hx
    · obtain ⟨before, after, hsplit, hb⟩ := h.asked hx
      have hsplit : es = before ++ .requested x.id .commit :: after := hsplit
      exact ⟨before, after ++ new, by simp [hsplit], hb⟩
    · obtain ⟨rfl, ho, -⟩ := hm.of_minted hx
      obtain ⟨before, after, hsplit⟩ :=
        List.append_of_mem (hr.asked _ hp (Client.commits_of_owns ho))
      have hsplit : es = before ++ .requested t.id .commit :: after := hsplit
      refine ⟨before, after ++ new, by simp [hsplit], fun {id} hb => ?_⟩
      have hmem : .began id ∈ es := hsplit ▸ List.mem_append_left _ hb
      exact Nat.lt_succ_of_le (hv.numbered.bounds _ (mem_versions hmem rfl)).2
  · rcases List.mem_append.mp hx with hx | hx
    · rcases h.applied hx with ⟨q, hq, hid, hok⟩ | ⟨w, hw⟩
      · rcases mem_moved hq with rfl | hq
        · rcases hm.succeeded hok with hok | he
          · exact .inl ⟨p', by simp, hm.id_eq.trans hid, hok⟩
          · exact .inr ⟨t.writes, hid ▸ List.mem_append_right _ he⟩
        · exact .inl ⟨q, mem_of_others hq, hid, hok⟩
      · exact .inr ⟨w, List.mem_append_left _ hw⟩
    · obtain ⟨held, version, rfl, rfl, rfl, -⟩ := hm.of_applied hx
      exact .inl ⟨⟨t, .committing (.releasing held held (.ok ()))⟩, by simp, rfl, trivial⟩
  · have hnot {w : Writes} {q : Outcome Unit} (hnew : ∃ v r, .ended id v r ∈ new)
        (hold : .ended id w q ∈ es) : False := by
      obtain ⟨v, r, hnew⟩ := hnew
      obtain ⟨rfl, -, rfl⟩ := hm.of_ended hnew
      exact hr.not_isOver hl hp trivial (.inr ⟨w, q, hold⟩)
    rcases List.mem_append.mp hev with hev | hev <;> rcases List.mem_append.mp hew with hew | hew
    · exact h.once hev hew
    · exact (hnot ⟨w, q, hew⟩ hev).elim
    · exact (hnot ⟨v, r, hev⟩ hew).elim
    · obtain ⟨-, rfl, ha⟩ := hm.of_ended hev
      obtain ⟨-, rfl, hb⟩ := hm.of_ended hew
      simpa using ha.symm.trans hb

section stored
variable [LogStore σ] {s s' : System σ}

theorem Answered.step (hl : Locking s) (hv : Versioned c₀ s) (hr : Requested s) (h : Answered s)
    (hs : Step s s') : Answered s' := by
  cases hs with
  | began c ps es =>
      refine h.extend rfl (by simp) (by simp) (by simp) (fun p hp => List.mem_append_left _ hp)
        fun p hp => ?_
      rcases List.mem_append.mp hp with hp | hp
      · exact .inl hp
      · exact .inr (List.mem_singleton.mp hp ▸ rfl)
  | moved hm => exact h.moved hl hv hr hm
  | flushed hj hf =>
      next c ps es j j' event =>
      have hnot {e : Event} (he : ∀ batch, e ≠ .stored batch) : e ∉ flushEvents j := fun hmem => by
        have := (mem_append_flushEvents [] he).mp hmem
        simp at this
      exact h.extend rfl (hnot (by simp)) (hnot (by simp)) (hnot (by simp)) (fun p hp => hp)
        fun p hp => .inl hp

theorem Reachable.answered (hc : Fresh c₀) (h : Reachable c₀ s) : Answered s := by
  induction h with
  | start => constructor <;> simp [System.start]
  | step hr hs ih => exact ih.step (hr.locking hc) (hr.versioned hc) (hr.requested hc) (.of_next hs)

/-! ### Writes of a commit -/

/-- A transaction is finished, and its commit answers only for some writes. -/
def Frozen (id : ℕ) (writes : Writes) (s : System σ) : Prop :=
  (∃ p ∈ s.clients, p.id = id ∧ p.transaction.finished = true ∧ p.writes = writes) ∧
    ∀ {w r}, .ended id w r ∈ s.trace → w = writes

theorem Frozen.step {id : ℕ} {writes : Writes} (hl : Locking s) (h : Frozen id writes s)
    (hs : Step s s') : Frozen id writes s' := by
  obtain ⟨⟨p, hp, hid, hfin, hw⟩, hended⟩ := h
  cases hs with
  | began c ps es =>
      exact ⟨⟨p, List.mem_append_left _ hp, hid, hfin, hw⟩, fun he => hended (by simpa using he)⟩
  | moved hm =>
      next c c' A B t a p' es new =>
      have hmem : (⟨t, a⟩ : Client) ∈ A ++ ⟨t, a⟩ :: B := by simp
      refine ⟨?_, fun he => ?_⟩
      · rcases mem_moved hp with rfl | hp
        · have ht := hm.transaction_eq (hl.fits _ hmem) hfin
          exact ⟨p', by simp, hm.id_eq.trans hid, ht ▸ hfin, (congrArg Transaction.writes ht).trans hw⟩
        · exact ⟨p, mem_of_others hp, hid, hfin, hw⟩
      · rcases List.mem_append.mp he with he | he
        · exact hended he
        · obtain ⟨rfl, rfl, -⟩ := hm.of_ended he
          have hsame := hl.id_injective hp hmem hid
          rw [hsame] at hw
          exact hw
  | flushed hj hf =>
      exact ⟨⟨p, hp, hid, hfin, hw⟩, fun he => hended ((mem_append_flushEvents _ (by simp)).mp he)⟩

theorem Frozen.run {id : ℕ} {writes : Writes} (hc : Fresh c₀) (hr : Reachable c₀ s)
    (h : Frozen id writes s) {choices : List Choice} (hrun : s.run choices = some s') :
    Frozen id writes s' := by
  induction choices generalizing s with
  | nil => exact Option.some.inj hrun ▸ h
  | cons choice choices ih =>
      obtain ⟨s₁, hs, hrun⟩ := Option.bind_eq_some_iff.mp hrun
      exact ih (hr.step hs) (h.step (hr.locking hc) (.of_next hs)) hrun

omit [LogStore σ] in
theorem Client.finished_of_commits {p : Client} (hf : p.Fits) (hc : p.Commits) :
    p.transaction.finished = true := by
  obtain ⟨t, a⟩ := p
  unfold Client.Commits at hc
  split at hc
  · next commit heq =>
    obtain rfl : a = _ := heq
    cases commit with
    | done result => exact hf
    | _ => exact hf.1
  · exact hc.elim

/-- A commit that is under way answers, if ever, for the writes that its transaction has now. -/
theorem Reachable.writes_eq_of_ended (hc : Fresh c₀) (h : Reachable c₀ s) {p : Client}
    (hp : p ∈ s.clients) (hcommits : p.Commits) {choices : List Choice}
    (hrun : s.run choices = some s') {w : Writes} {r : Outcome Unit}
    (he : .ended p.id w r ∈ s'.trace) : p.writes = w := by
  have hfrozen : Frozen p.id p.writes s := by
    refine ⟨⟨p, hp, rfl, Client.finished_of_commits ((h.locking hc).fits p hp) hcommits, rfl⟩,
      fun {w r} he => ?_⟩
    exact absurd (.inr ⟨w, r, he⟩) ((h.requested hc).not_isOver (h.locking hc) hp hcommits)
  exact ((hfrozen.run hc h hrun).2 he).symm

end stored

/-! ### Conflicts -/

/-- What was written after a transaction of the run began are the writes of the commits of the run that
took effect in between. -/
theorem Committed.existsBetween_iff {s : System σ} (hc : Fresh c₀) (hv : Versioned c₀ s)
    (h : Committed c₀ s) {id version : ℕ} {key : String} (hb : .began id ∈ s.trace) :
    s.coordinator.shards.existsBetween id version key = true ↔
      ∃ x, .applied x ∈ s.trace ∧ id < x.version ∧ x.version ≤ version ∧ key ∈ x.writes.keys := by
  rw [h.sound.existsBetween_iff]
  constructor
  · rintro ⟨u, hlt, hle, hne⟩
    obtain ⟨value, hvalue⟩ := Option.ne_none_iff_exists'.mp hne
    rcases h.history.mp hvalue with hold | ⟨x, hx, rfl, hw⟩
    · have hpast := hc.past (show c₀.shards.history key u ≠ none by simp [hold])
      have hbounds := hv.numbered.bounds _ (mem_versions hb rfl)
      omega
    · exact ⟨x, hx, hlt, hle, (Table.mem_keys_iff _ _).mpr ⟨value, hw⟩⟩
  · rintro ⟨x, hx, hlt, hle, hk⟩
    obtain ⟨value, hw⟩ := (Table.mem_keys_iff _ _).mp hk
    exact ⟨x.version, hlt, hle, by simp [h.history.mpr (.inr ⟨x, hx, rfl, hw⟩)]⟩

end Run
end SnapshotStore

import SnapshotStore.Proofs.Run.Versions

/-! # Commits in a run

The entries of the shards are those that the coordinator started with and those of the commits that
took effect, each at the end version of its commit (`Committed.history`).  Two commits that took
effect and wrote a common key are apart: one transaction began after the other had its end version
(`Committed.apart`).

Two facts about a commit that is pending, with an end version but not yet applied, carry this.  A
commit that ever minted a version for one of its keys has a lower one (`Committed.ordered`), because
it had to free the lock first.  And a commit that took effect on a key that was checked has a version
from before the transaction began (`Committed.checked`). -/

namespace SnapshotStore
namespace Run

open Journal (LogStore MemoryLog)

variable {σ : Type} {c₀ : Coordinator σ}

/-! ### The commits of a trace -/

/-- The commit that takes effect with an event. -/
def Event.applied? : Event → Option Attempt
  | .applied x => some x
  | _ => none

/-- The commits that took effect, in the order in which they did. -/
def applied (es : List Event) : List Attempt := es.filterMap Event.applied?

theorem mem_applied {es : List Event} {x : Attempt} : x ∈ applied es ↔ .applied x ∈ es := by
  rw [applied, List.mem_filterMap]
  constructor
  · rintro ⟨e, he, hx⟩
    cases e with
    | applied y => exact Option.some.inj hx ▸ he
    | _ => simp [Event.applied?] at hx
  · intro h
    exact ⟨_, h, rfl⟩

/-! ### What a step applies and checks -/

section moves
variable {c c' : Coordinator σ} {t : Transaction} {a : Activity} {new : List Event} {p' : Client}

/-- Only a commit that takes effect changes the shards. -/
theorem Move.shards (h : Move c t a new p' c') :
    (c'.shards = c.shards ∧ ∀ x, .applied x ∉ new) ∨
      ∃ held version, a = .committing (.logging held version (.done true)) ∧
        new = [.applied ⟨t.id, version, t.writes⟩] ∧
        c'.shards = c.shards.setMany version t.writes := by
  cases h with
  | apply => exact .inr ⟨_, _, rfl, rfl, rfl⟩
  | log h =>
      obtain ⟨_, rfl⟩ := eq_of_logStep h
      refine .inl ⟨rfl, fun x hx => ?_⟩
      rcases mem_marks hx with ⟨_, _, he⟩ | ⟨_, _, -, he⟩ <;> simp at he
  | _ => exact .inl ⟨rfl, by simp⟩

/-- A key that a pending commit no longer has to check was not written since the transaction
began. -/
theorem Move.of_unchecked (h : Move c t a new p' c') {version : ℕ}
    (hv : p'.pending? = some version) (hp : (⟨t, a⟩ : Client).pending? = some version) :
    p'.unchecked = (⟨t, a⟩ : Client).unchecked ∨
      ∃ key, (⟨t, a⟩ : Client).unchecked = key :: p'.unchecked ∧
        c.shards.existsBetween t.id version key = false := by
  cases h with
  | clear h =>
      obtain rfl := Option.some.inj hp
      exact .inr ⟨_, rfl, h⟩
  | log h =>
      next purpose save save' => cases purpose <;> exact .inl rfl
  | pledge => exact .inl rfl
  | _ => first | (simp [Client.pending?] at hv; done) | (simp [Client.pending?] at hp)

end moves

/-! ### The invariant -/

/-- Whether two transactions write a common key. -/
def Meet (v w : Writes) : Prop := ∃ key, key ∈ v.keys ∧ key ∈ w.keys

/-- What holds of the commits in a run. -/
structure Committed (c₀ : Coordinator σ) (s : System σ) : Prop where
  sound : s.coordinator.shards.Sound
  history : ∀ {key version value}, s.coordinator.shards.history key version = some value ↔
    c₀.shards.history key version = some value ∨
      ∃ x, .applied x ∈ s.trace ∧ x.version = version ∧ x.writes.get? key = some value
  ordered : ∀ p ∈ s.clients, ∀ {version}, p.pending? = some version →
    ∀ {x}, .minted x ∈ s.trace → x.id ≠ p.id → Meet x.writes p.writes → x.version < version
  checked : ∀ p ∈ s.clients, ∀ {version}, p.pending? = some version →
    ∀ {x}, .applied x ∈ s.trace → ∀ key ∈ x.writes.keys, key ∈ p.writes.keys →
      key ∉ p.unchecked → x.version ≤ p.id
  apart : ∀ {x y}, .applied x ∈ s.trace → .applied y ∈ s.trace → x ≠ y →
    Meet x.writes y.writes → x.version < y.id ∨ y.version < x.id

/-- A step that leaves the shards alone, notes nothing of commits and lets no client mint. -/
theorem Committed.extend {s s' : System σ} (h : Committed c₀ s)
    (hshards : s'.coordinator.shards = s.coordinator.shards)
    (hminted : ∀ {x}, .minted x ∈ s'.trace → .minted x ∈ s.trace)
    (happlied : ∀ {x}, .applied x ∈ s'.trace ↔ .applied x ∈ s.trace)
    (hclients : ∀ p ∈ s'.clients, p ∈ s.clients ∨ p.pending? = none) : Committed c₀ s' where
  sound := hshards ▸ h.sound
  history {key version value} := by
    rw [hshards, h.history]
    simp only [happlied]
  ordered p hp version hv x hx := by
    rcases hclients p hp with hp | hnone
    · exact h.ordered p hp hv (hminted hx)
    · simp [hnone] at hv
  checked p hp version hv x hx := by
    rcases hclients p hp with hp | hnone
    · exact h.checked p hp hv (happlied.mp hx)
    · simp [hnone] at hv
  apart hx hy := h.apart (happlied.mp hx) (happlied.mp hy)

section moved
variable {c c' : Coordinator σ} {A B : List Client} {t : Transaction} {a : Activity}
  {p' : Client} {es new : List Event}
  (hl : Locking ⟨c, A ++ ⟨t, a⟩ :: B, es⟩) (hv : Versioned c₀ ⟨c, A ++ ⟨t, a⟩ :: B, es⟩)
  (h : Committed c₀ ⟨c, A ++ ⟨t, a⟩ :: B, es⟩) (hm : Move c t a new p' c')
include hl hv h hm

/-- The version of a pending commit is not one of the shards, so its writes are new entries. -/
theorem Committed.history_moved (hc : Fresh c₀) {key : String} {u : ℕ} {value : Option String} :
    c'.shards.history key u = some value ↔ c₀.shards.history key u = some value ∨
      ∃ x, .applied x ∈ es ++ new ∧ x.version = u ∧ x.writes.get? key = some value := by
  have hp : (⟨t, a⟩ : Client) ∈ A ++ ⟨t, a⟩ :: B := by simp
  rcases hm.shards with ⟨hs, hnew⟩ | ⟨held, version, rfl, rfl, hs⟩
  · rw [hs, h.history]
    simp [hnew]
  · have hmint : .minted ⟨t.id, version, t.writes⟩ ∈ es := hv.pending _ hp rfl
    have hnone : c.shards.history key version = none := by
      rw [Option.eq_none_iff_forall_ne_some]
      intro w hw
      rcases h.history.mp hw with hw | ⟨x, hx, rfl, -⟩
      · have hle := hc.past (show c₀.shards.history key version ≠ none by simp [hw])
        have hlt := (hv.version_le hmint).1
        exact absurd hle (Nat.not_le_of_lt hlt)
      · have he := hv.eq_of_version (hv.applied hx) hmint rfl
        refine hv.unsettled _ hp trivial hx ?_
        rw [he]
        rfl
    have hmem {x : Attempt} : .applied x ∈ es ++ [Event.applied ⟨t.id, version, t.writes⟩] ↔
        .applied x ∈ es ∨ x = ⟨t.id, version, t.writes⟩ := by simp
    rw [hs, h.sound.history_setMany]
    by_cases hu : u = version
    · subst hu
      rw [if_pos rfl, hnone, Option.or_none]
      constructor
      · intro hw
        exact .inr ⟨_, hmem.mpr (.inr rfl), rfl, hw⟩
      · rintro (hw | ⟨x, hx, hxu, hw⟩)
        · have := h.history.mpr (.inl hw)
          simp [hnone] at this
        · rcases hmem.mp hx with hx | rfl
          · have := h.history.mpr (.inr ⟨x, hx, hxu, hw⟩)
            simp [hnone] at this
          · exact hw
    · rw [if_neg hu, h.history]
      constructor
      · rintro (hw | ⟨x, hx, hxu, hw⟩)
        · exact .inl hw
        · exact .inr ⟨x, hmem.mpr (.inl hx), hxu, hw⟩
      · rintro (hw | ⟨x, hx, hxu, hw⟩)
        · exact .inl hw
        · rcases hmem.mp hx with hx | rfl
          · exact .inr ⟨x, hx, hxu, hw⟩
          · exact absurd hxu.symm hu

theorem Committed.ordered_moved {q : Client} (hq : q ∈ A ++ p' :: B) {version : ℕ}
    (hqv : q.pending? = some version) {x : Attempt} (hx : .minted x ∈ es ++ new)
    (hne : x.id ≠ q.id) (hmeet : Meet x.writes q.writes) : x.version < version := by
  have hp : (⟨t, a⟩ : Client) ∈ A ++ ⟨t, a⟩ :: B := by simp
  rcases List.mem_append.mp hx with hx | hx
  · rcases mem_moved hq with rfl | hq
    · rcases hm.of_pending hqv with ⟨hpv, hw⟩ | ⟨rfl, -⟩
      · rw [hm.id_eq] at hne
        rw [hw] at hmeet
        exact h.ordered _ hp hpv hx hne hmeet
      · exact Nat.lt_succ_of_le (hv.version_le hx).2
    · exact h.ordered q (mem_of_others hq) hqv hx hne hmeet
  · obtain ⟨rfl, ho, -⟩ := hm.of_minted hx
    rcases mem_moved hq with rfl | hq
    · exact absurd hm.id_eq.symm hne
    · obtain ⟨key, hkx, hkq⟩ := hmeet
      have he := hl.exclusive hp (mem_of_others hq) ho (Client.owns_of_pending hqv) hkx hkq
      exact absurd (congrArg Client.id he) hne

theorem Committed.checked_moved {q : Client} (hq : q ∈ A ++ p' :: B) {version : ℕ}
    (hqv : q.pending? = some version) {x : Attempt} (hx : .applied x ∈ es ++ new) {key : String}
    (hkx : key ∈ x.writes.keys) (hkq : key ∈ q.writes.keys) (hun : key ∉ q.unchecked) :
    x.version ≤ q.id := by
  have hp : (⟨t, a⟩ : Client) ∈ A ++ ⟨t, a⟩ :: B := by simp
  rcases List.mem_append.mp hx with hx | hx
  · rcases mem_moved hq with rfl | hq
    · rcases hm.of_pending hqv with ⟨hpv, hw⟩ | ⟨-, hw, -, -, hall⟩
      · have hkt : key ∈ t.writes.keys := hw ▸ hkq
        rw [hm.id_eq]
        rcases hm.of_unchecked hqv hpv with hsame | ⟨k, hcons, hbetween⟩
        · exact h.checked _ hp hpv hx key hkx hkt (hsame ▸ hun)
        · by_cases hk : key = k
          · subst hk
            have hlt : x.version < version := by
              refine h.ordered _ hp hpv (hv.applied hx) ?_ ⟨key, hkx, hkt⟩
              exact hv.unsettled _ hp (Client.unsettled_of_pending hpv) hx
            by_contra hgt
            obtain ⟨w, hw⟩ := (Table.mem_keys_iff _ _).mp hkx
            have hsome := h.history.mpr (.inr ⟨x, hx, rfl, hw⟩)
            refine Bool.eq_false_iff.mp hbetween (h.sound.existsBetween_iff.mpr ?_)
            exact ⟨x.version, Nat.lt_of_not_le hgt, Nat.le_of_lt hlt, by simp [hsome]⟩
          · refine h.checked _ hp hpv hx key hkx hkt ?_
            rw [hcons]
            simp [hk, hun]
      · exact absurd (hall ▸ hw ▸ hkq) hun
    · exact h.checked q (mem_of_others hq) hqv hx key hkx hkq hun
  · obtain ⟨held, v, rfl, rfl, rfl, -⟩ := hm.of_applied hx
    rcases mem_moved hq with rfl | hq
    · simp [Client.pending?] at hqv
    · have he := hl.exclusive hp (mem_of_others hq) trivial (Client.owns_of_pending hqv) hkx hkq
      exact absurd (congrArg Client.id he).symm (hl.id_ne_of_others hq)

theorem Committed.apart_moved {x y : Attempt} (hx : .applied x ∈ es ++ new)
    (hy : .applied y ∈ es ++ new) (hne : x ≠ y) (hmeet : Meet x.writes y.writes) :
    x.version < y.id ∨ y.version < x.id := by
  have hp : (⟨t, a⟩ : Client) ∈ A ++ ⟨t, a⟩ :: B := by simp
  have hold {x y : Attempt} (hx : .applied x ∈ es) (hy : .applied y ∈ new)
      (hmeet : Meet x.writes y.writes) : x.version < y.id := by
    obtain ⟨held, v, rfl, rfl, -⟩ := hm.of_applied hy
    obtain ⟨key, hkx, hky⟩ := hmeet
    have hle := h.checked _ hp rfl hx key hkx hky List.not_mem_nil
    exact Nat.lt_of_le_of_ne hle (hv.version_ne_id (hv.applied hx) (hv.began _ hp))
  rcases List.mem_append.mp hx with hx | hx <;> rcases List.mem_append.mp hy with hy | hy
  · exact h.apart hx hy hne hmeet
  · exact .inl (hold hx hy hmeet)
  · obtain ⟨key, hkx, hky⟩ := hmeet
    exact .inr (hold hy hx ⟨key, hky, hkx⟩)
  · obtain ⟨_, v, rfl, rfl, -⟩ := hm.of_applied hx
    obtain ⟨_, v', ha, rfl, -⟩ := hm.of_applied hy
    simp only [Activity.committing.injEq, Commit.logging.injEq] at ha
    exact absurd (by rw [ha.2.1]) hne

end moved

section stored
variable [LogStore σ] {s s' : System σ}

theorem Committed.step (hc : Fresh c₀) (hl : Locking s) (hv : Versioned c₀ s)
    (h : Committed c₀ s) (hs : Step s s') : Committed c₀ s' := by
  cases hs with
  | began c ps es =>
      refine h.extend rfl (by simp) (by simp) fun p hp => ?_
      rcases List.mem_append.mp hp with hp | hp
      · exact .inl hp
      · exact .inr (List.mem_singleton.mp hp ▸ rfl)
  | moved hm =>
      refine ⟨?_, h.history_moved hl hv hm hc,
        fun q hq version hqv x => h.ordered_moved hl hv hm hq hqv,
        fun q hq version hqv x hx key => h.checked_moved hl hv hm hq hqv hx, h.apart_moved hl hv hm⟩
      rcases hm.shards with ⟨hs, -⟩ | ⟨held, version, -, -, hs⟩
      · exact hs ▸ h.sound
      · exact hs ▸ h.sound.setMany version _
  | flushed hj hf =>
      next c ps es j j' event =>
      exact h.extend rfl (mem_append_flushEvents es (by simp)).mp
        (mem_append_flushEvents es (by simp))
        fun p hp => .inl hp

theorem Reachable.committed (hc : Fresh c₀) (h : Reachable c₀ s) : Committed c₀ s := by
  induction h with
  | start => exact ⟨hc.sound, by simp [System.start], by simp [System.start],
      by simp [System.start], by simp [System.start]⟩
  | step hr hs ih => exact ih.step hc (hr.locking hc) (hr.versioned hc) (.of_next hs)

end stored

/-! ### Commits that succeed -/

namespace Client

/-- Whether a commit has succeeded and only has to free its locks and to answer. -/
def Succeeded (p : Client) : Prop :=
  match p.activity with
  | .committing (.releasing _ _ (.ok ())) => True
  | .committing (.done (.ok ())) => True
  | _ => False

end Client

/-- Whether the writes of a transaction, if there are any, took effect. -/
def TookEffect (es : List Event) (id : ℕ) (writes : Writes) : Prop :=
  writes.isEmpty = true ∨ ∃ version, .applied ⟨id, version, writes⟩ ∈ es

theorem TookEffect.append {es : List Event} {id : ℕ} {writes : Writes}
    (h : TookEffect es id writes) (new : List Event) : TookEffect (es ++ new) id writes := by
  rcases h with hnone | ⟨version, hx⟩
  · exact .inl hnone
  · exact .inr ⟨version, List.mem_append_left _ hx⟩

/-- Every commit that succeeds has taken effect. -/
structure Effective (s : System σ) : Prop where
  succeeded : ∀ p ∈ s.clients, p.Succeeded → TookEffect s.trace p.id p.writes
  ended : ∀ {id writes}, .ended id writes (.ok ()) ∈ s.trace → TookEffect s.trace id writes

section moves
variable {c c' : Coordinator σ} {A B : List Client} {t : Transaction} {a : Activity}
  {p' : Client} {es new : List Event}

theorem Move.of_succeeded (h : Move c t a new p' c') (hs : p'.Succeeded) :
    (⟨t, a⟩ : Client).Succeeded ∧ p'.transaction = t ∨ TookEffect new p'.id p'.writes := by
  cases h with
  | commitNothing hf hw => exact .inr (.inl hw)
  | apply => exact .inr (.inr ⟨_, List.mem_singleton.mpr rfl⟩)
  | free =>
      next held todo lock result =>
      cases result with
      | ok _ => exact .inl ⟨trivial, rfl⟩
      | error _ => exact hs.elim
  | leave =>
      next held result =>
      cases result with
      | ok _ => exact .inl ⟨trivial, rfl⟩
      | error _ => exact hs.elim
  | log h =>
      next purpose save save' => cases purpose <;> exact hs.elim
  | _ => exact hs.elim

theorem Move.of_ended (h : Move c t a new p' c') {id : ℕ} {writes : Writes}
    {result : Outcome Unit} (he : .ended id writes result ∈ new) :
    id = t.id ∧ writes = t.writes ∧ a = .committing (.done result) := by
  cases h with
  | finish =>
      obtain ⟨rfl, rfl, rfl⟩ := by simpa using he
      exact ⟨rfl, rfl, rfl⟩
  | log h => rcases mem_marks he with ⟨_, _, he⟩ | ⟨_, _, -, he⟩ <;> simp at he
  | _ => simp at he

theorem Effective.moved (h : Effective ⟨c, A ++ ⟨t, a⟩ :: B, es⟩) (hm : Move c t a new p' c') :
    Effective ⟨c', A ++ p' :: B, es ++ new⟩ := by
  have hp : (⟨t, a⟩ : Client) ∈ A ++ ⟨t, a⟩ :: B := by simp
  refine ⟨fun q hq hs => ?_, fun {id writes} he => ?_⟩
  · rcases mem_moved hq with rfl | hq
    · rcases hm.of_succeeded hs with ⟨hs, ht⟩ | ⟨hnone | ⟨version, hx⟩⟩
      · rw [Client.id, Client.writes, ht]
        exact (h.succeeded _ hp hs).append new
      · exact .inl hnone
      · exact .inr ⟨version, List.mem_append_right _ hx⟩
    · exact (h.succeeded q (mem_of_others hq) hs).append new
  · rcases List.mem_append.mp he with he | he
    · exact (h.ended he).append new
    · obtain ⟨rfl, rfl, rfl⟩ := hm.of_ended he
      exact (h.succeeded _ hp trivial).append new

end moves

section stored
variable [LogStore σ] {s s' : System σ}

theorem Effective.step (h : Effective s) (hs : Step s s') : Effective s' := by
  cases hs with
  | began c ps es =>
      refine ⟨fun p hp hs => ?_, fun he => ?_⟩
      · rcases List.mem_append.mp hp with hp | hp
        · exact (h.succeeded p hp hs).append _
        · rw [List.mem_singleton.mp hp] at hs
          exact hs.elim
      · exact (h.ended (by simpa using he)).append _
  | moved hm => exact h.moved hm
  | flushed hj hf =>
      next c ps es j j' event =>
      refine ⟨fun p hp hs => (h.succeeded p hp hs).append _, fun he => ?_⟩
      exact (h.ended ((mem_append_flushEvents es (by simp)).mp he)).append _

theorem Reachable.effective (h : Reachable c₀ s) : Effective s := by
  induction h with
  | start => constructor <;> simp [System.start]
  | step _ hs ih => exact ih.step (.of_next hs)

/-! ### The first committer wins -/

end stored

/-- A coordinator with one shard, a lock table that is swept each time, and a log with batches of
one record. -/
def sample : Coordinator MemoryLog :=
  Coordinator.create ⟨#[SkipList.empty Height.ruler], by decide⟩
    (some (Journal.start MemoryLog.empty 1)) 1

theorem fresh_sample : Fresh sample :=
  Fresh.create (show Shards.create 1 (fun _ => Height.ruler) = .ok sample.shards from rfl) _

end Run
end SnapshotStore

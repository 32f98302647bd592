import SnapshotStore.Proofs.Run.StoredOrder

/-! # Rollbacks in the log

A client that has logged a rollback is done with its transaction, and a client that logs a commit is not.
So no transaction has both in a log (`StoredLog.not_rolledBack`): besides its writes, a transaction with a
commit has logged nothing. -/

namespace SnapshotStore
namespace Run

open Journal (LogStore Logged durable)

variable {σ : Type}

/-! ### Steps of a client -/

section moves
variable {c c' : Coordinator σ} {t : Transaction} {a : Activity} {new : List Event} {p' : Client}
  {j : Journal σ} {L : List (ℕ × Record)}

theorem Move.closed_of_noted (h : Move c t a new p' c') (hj : c.journal = some j)
    (hf : (⟨t, a⟩ : Client).Fits) (hp : (⟨t, a⟩ : Client).Tracks j L) {e : ℕ × Record}
    (he : e ∈ noted new) (hk : e.2.kind = .rollback) : p'.Closed := by
  cases h with
  | log hs =>
      next purpose save save' =>
      obtain ⟨j', hsaved, rfl⟩ := saved_of_logStep hj hs
      rw [notesOf_eq hj, Purpose.noted_marks] at he
      obtain ⟨-, hentry, -⟩ := hp.of_taken hsaved he
      cases purpose with
      | staging key value => cases value <;> simp [Purpose.entry, hk] at hentry
      | sealing held version => simp [Purpose.entry, hk] at hentry
      | discarding => exact ⟨hf, trivial⟩
  | _ => exact absurd he List.not_mem_nil

end moves

/-! ### Runs -/

/-- Whoever has noted a rollback is done, and has sealed no commit. -/
structure RolledBack (s : System σ) : Prop where
  closed : ∀ e ∈ noted s.trace, e.2.kind = .rollback → ∃ p ∈ s.clients, p.id = e.2.tx ∧ p.Closed
  unsealed : ∀ e ∈ noted s.trace, e.2.kind = .rollback → ∀ x ∈ sealed s.trace, x.id ≠ e.2.tx

theorem RolledBack.extend {c c' : Coordinator σ} {ps ps' : List Client} {es new : List Event}
    (h : RolledBack ⟨c, ps, es⟩) (hnoted : noted new = []) (hsealed : sealed new = [])
    (hps : ∀ p ∈ ps, p ∈ ps') : RolledBack ⟨c', ps', es ++ new⟩ := by
  have hsame : noted (es ++ new) = noted es := by rw [noted_append, hnoted, List.append_nil]
  refine ⟨fun e he hk => ?_, fun e he hk x hx => ?_⟩
  · obtain ⟨p, hp, hclosed⟩ := h.closed e (hsame ▸ he) hk
    exact ⟨p, hps p hp, hclosed⟩
  · rw [sealed_append, hsealed, List.append_nil] at hx
    exact h.unsealed e (hsame ▸ he) hk x hx

section moved
variable {c c' : Coordinator σ} {A B : List Client} {t : Transaction} {a : Activity}
  {p' : Client} {es new : List Event} {base : List Record} {j : Journal σ}

theorem RolledBack.moved (h : RolledBack ⟨c, A ++ ⟨t, a⟩ :: B, es⟩)
    (hl : Locking ⟨c, A ++ ⟨t, a⟩ :: B, es⟩) (hlog : Logging base j ⟨c, A ++ ⟨t, a⟩ :: B, es⟩)
    (hm : Move c t a new p' c') : RolledBack ⟨c', A ++ p' :: B, es ++ new⟩ := by
  have hp : (⟨t, a⟩ : Client) ∈ A ++ ⟨t, a⟩ :: B := by simp
  obtain ⟨htaken, hseals⟩ := hm.seals hlog.journal (hlog.tracks _ hp)
  refine ⟨fun e he hk => ?_, fun e he hk x hx => ?_⟩
  · rw [noted_append] at he
    rcases List.mem_append.mp he with he | he
    · obtain ⟨q, hq, hid, hclosed⟩ := h.closed e he hk
      rcases mem_moved hq with rfl | hq
      · exact ⟨p', by simp, hm.id_eq.trans hid, hm.closed hclosed⟩
      · exact ⟨q, mem_of_others hq, hid, hclosed⟩
    · exact ⟨p', by simp, hm.id_eq.trans (htaken e he).1.symm,
        hm.closed_of_noted hlog.journal (hl.fits _ hp) (hlog.tracks _ hp) he hk⟩
  · rw [noted_append] at he
    rw [sealed_append] at hx
    rcases List.mem_append.mp he with he | he <;> rcases List.mem_append.mp hx with hx | hx
    · exact h.unsealed e he hk x hx
    · rintro htx
      obtain ⟨held, version, save, rfl, rfl⟩ := hm.of_sealed (mem_sealed.mp hx)
      obtain ⟨q, hq, hid, hclosed⟩ := h.closed e he hk
      have hcommits : (⟨t, .committing (.logging held version save)⟩ : Client).Commits := trivial
      exact hcommits.not_closed (hl.id_injective hq hp (hid.trans htx.symm) ▸ hclosed)
    · obtain ⟨htx, w, hready⟩ := htaken e he
      rw [htx]
      exact hlog.id_ne_of_ready hready hx
    · rcases hseals with ⟨hnone, -⟩ | ⟨_, _, _, e', -, hnoted, hentry, -⟩
      · rw [hnone] at hx
        cases hx
      · rw [hnoted, List.mem_singleton] at he
        rw [← he, hk] at hentry
        cases hentry

end moved

section stored
variable [LogStore σ] {c₀ : Coordinator σ} {s : System σ} {base : List Record}

theorem Reachable.rolledBack {j₀ : Journal σ} (hc : Fresh c₀) (hj : c₀.journal = some j₀)
    (hl : Logged base j₀ [] []) (h : Reachable c₀ s) : RolledBack s := by
  induction h with
  | start => constructor <;> simp [System.start, noted]
  | step hr hs ih =>
      obtain ⟨j, hlog, -⟩ := hr.logging hc hj hl
      have hstep := Step.of_next hs
      cases hstep with
      | began c ps es => exact ih.extend rfl rfl fun p hp => List.mem_append_left _ hp
      | moved hm => exact ih.moved (hr.locking hc) hlog hm
      | flushed hj₁ hf => exact ih.extend (noted_flushEvents _) (sealed_flushEvents _) fun p hp => hp

/-! ### Logs -/

/-- A transaction with a commit in the log has no rollback there. -/
theorem StoredLog.not_rolledBack {rs : List Record} (h : StoredLog σ rs) {r q : Record} (hr : r ∈ rs)
    (hkr : r.kind = .commit) (hq : q ∈ rs) (htx : q.tx = r.tx) : q.kind ≠ .rollback := by
  induction h with
  | none => cases hr
  | life h ho hreach ih =>
      next rs store c s =>
      obtain ⟨hfresh, hpast, j₀, hj₀, hl⟩ := ho.logged
      obtain ⟨j, hlog, -⟩ := hreach.logging hfresh hj₀ hl
      have hdurable {q : Record} (hq : q ∈ (stored s.trace).flatMap (·.records)) :
          q ∈ durable j (noted s.trace) := hlog.logged.durable_perm.mem_iff.mp hq
      have hlt {q r : Record} (hq : q ∈ (stored s.trace).flatMap (·.records)) (hr : r ∈ rs) :
          r.tx < q.tx :=
        (hpast r hr).trans_lt (hlog.past_lt (hreach.versioned hfresh) (hdurable hq))
      rcases List.mem_append.mp hr with hr | hr <;> rcases List.mem_append.mp hq with hq | hq
      · exact ih hr hq
      · exact absurd htx.symm (hlt hq hr).ne
      · exact absurd htx (hlt hr hq).ne
      · intro hkq
        obtain ⟨x, hx, hid, -⟩ := hlog.exists_of_commit (hdurable hr) hkr
        obtain ⟨e, he, rfl⟩ := List.mem_map.mp (hdurable hq)
        exact (hreach.rolledBack hfresh hj₀ hl).unsealed e (List.mem_filter.mp he).1 hkq x hx
          (hid.trans htx.symm)

end stored

end Run
end SnapshotStore

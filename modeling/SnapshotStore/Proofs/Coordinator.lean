import SnapshotStore.Proofs.Alone.Locks
import SnapshotStore.Proofs.Run.System

/-! # Operations that run to their end

An operation is followed step by step (`Activity.advance_of_step`) until it has its answer or waits for
the log (`complete_of_answered`, `complete_of_waiting`).  While nobody owns a lock, nothing keeps a
look-up waiting (`Activity.advance_asking`), and a read outside of any transaction gives the value of its
key at the newest version (`Coordinator.get_of_atRest`). -/

namespace SnapshotStore

open Journal (LogStore)

variable {σ : Type}

namespace Activity

variable {t t' : Transaction} {a a' : Activity} {c c' : Coordinator σ} {answer : Answer}

theorem advance_of_step (h : a.step t c = some (t', a', c')) : a.advance t c = a'.advance t' c' := by
  rw [advance]
  split
  · next hn => simp [h] at hn
  · next hs =>
    rw [h] at hs
    obtain ⟨rfl, rfl, rfl⟩ := by simpa only [Option.some.injEq, Prod.mk.injEq] using hs
    rfl

theorem advance_of_none (h : a.step t c = none) : a.advance t c = (t, a, c) := by
  rw [advance]
  split
  · rfl
  · next hs => simp [h] at hs

theorem advance_of_answered (t : Transaction) (answer : Answer) (c : Coordinator σ) :
    (Activity.answered answer).advance t c = (t, .answered answer, c) :=
  advance_of_none rfl

/-- While nobody owns a lock, a look-up runs to its end. -/
theorem advance_asking (h : c.locks.AtRest) (t : Transaction) (key : String) (version : ℕ) :
    ∃ locks : LockTable, locks.AtRest ∧
      (Activity.reading key (.asking key version)).advance t c =
        (Run.remember t key (c.shards.get version key), .answered (.ok (c.shards.get version key)),
          { c with locks }) := by
  have hread (locks : LockTable) :
      (Activity.reading key (.reading key version)).advance t { c with locks } =
        (Run.remember t key (c.shards.get version key), .answered (.ok (c.shards.get version key)),
          { c with locks }) := by
    have hdone : (Activity.reading key (.reading key version)).step t { c with locks } =
        some (t, .reading key (.done (c.shards.get version key)), { c with locks }) := rfl
    rw [advance_of_step hdone, advance_of_step rfl, advance_of_answered]
    cases c.shards.get version key <;> rfl
  cases hk : c.locks.peek key with
  | none =>
      have hask : (Activity.reading key (.asking key version)).step t c =
          some (t, .reading key (.reading key version), c) := by
        simp [step, Lookup.step, hk]
      exact ⟨c.locks, h, (advance_of_step hask).trans (hread c.locks)⟩
  | some found =>
      obtain ⟨lock, hlock, rfl⟩ := Option.map_eq_some_iff.mp hk
      have hask : (Activity.reading key (.asking key version)).step t c =
          some (t, .reading key (.watching key version lock),
            { c with locks := c.locks.borrow lock }) := by
        simp [step, Lookup.step, hk]
      have hpass : (Activity.reading key (.watching key version lock)).step t
          { c with locks := c.locks.borrow lock } = some (t, .reading key (.reading key version),
            { c with locks := (c.locks.borrow lock).drop lock }) := by
        simp [step, Lookup.step, (h.borrow lock).free lock]
      exact ⟨_, (h.borrow lock).drop lock,
        (advance_of_step hask).trans ((advance_of_step hpass).trans (hread _))⟩

section stored
variable [LogStore σ]

theorem complete_congr (h : a.advance t c = a'.advance t' c') :
    a.complete t c = a'.complete t' c' := by
  rw [complete, complete, h]

theorem complete_of_answered (h : a.advance t c = (t', .answered answer, c')) :
    a.complete t c = (t', .answered answer, c') := by
  rw [complete, h]
  rfl

/-- An operation that waits for the log goes on once the flusher has stored its record. -/
theorem complete_of_waiting (h : a.advance t c = (t', a', c')) (hwait : a'.waitsForLog = true) :
    a.complete t c = a'.advance t' c'.settle := by
  rw [complete, h]
  exact if_pos hwait

end stored
end Activity

namespace Coordinator

variable [LogStore σ] {c c' : Coordinator σ} {t t' : Transaction}

theorem perform_of_complete {r : Request} {started : Transaction} {a : Activity} {answer : Answer}
    (hask : t.request r = (started, a)) (hrun : a.complete started c = (t', .answered answer, c')) :
    c.perform t r = (answer, t', c') := by
  rw [perform, hask]
  dsimp only
  rw [hrun]
  rfl

theorem perform_get_of_none (h : c.locks.AtRest) (hf : t.finished = false) (key : String)
    (hw : t.writes.get? key = none) (hc : t.cache.get? key = none) :
    ∃ locks : LockTable, locks.AtRest ∧ c.perform t (.get key) =
      (.ok (c.shards.get t.id key), Run.remember t key (c.shards.get t.id key), { c with locks }) := by
  obtain ⟨locks, hlocks, hrun⟩ := Activity.advance_asking h t key t.id
  refine ⟨locks, hlocks, ?_⟩
  have hask : t.request (.get key) = (t, .reading key (.asking key t.id)) := by
    simp [Transaction.request, hf, hw, hc]
  exact perform_of_complete hask (Activity.complete_of_answered hrun)

/-- While nobody owns a lock, a read outside of any transaction gives the value at the newest version. -/
theorem get_of_atRest (h : c.locks.AtRest) (key : String) :
    ∃ locks : LockTable, locks.AtRest ∧ c.get key =
      (.ok (c.shards.get (c.lastVersion + 1) key), { c.mint.2 with locks }) := by
  obtain ⟨locks, hlocks, hrun⟩ := perform_get_of_none (c := c.mint.2) h
    (t := .fresh (c.lastVersion + 1)) rfl key rfl rfl
  refine ⟨locks, hlocks, ?_⟩
  rw [Coordinator.get, begin]
  exact congrArg (fun run : Answer × Transaction × Coordinator σ => (run.1, run.2.2)) hrun

end Coordinator
end SnapshotStore

import SnapshotStore.Coordinator

/-! # Snapshot look-ups

A look-up reads a key as of a version.  If an older transaction owns the lock of the key, its
commit may still take effect at a version that the reader has to see, so the reader waits until
the lock is free or has a younger owner. -/

namespace SnapshotStore

/-- A look-up of a key as of a version: about to ask for the lock, watching it, about to read, or
done. -/
inductive Lookup where
  | asking (key : String) (version : Nat)
  | watching (key : String) (version : Nat) (lock : Nat)
  | reading (key : String) (version : Nat)
  | done (value : Option String)
deriving DecidableEq, Repr

namespace Lookup

variable {σ : Type}

/-- One step of a look-up; nothing if it has to wait or is done. -/
def step (c : Coordinator σ) : Lookup → Option (Lookup × Coordinator σ)
  | asking key version =>
    match c.locks.peek key with
    | none => some (reading key version, c)
    | some (lock, locks) => some (watching key version lock, { c with locks })
  | watching key version lock =>
    if c.locks.owner lock = unlocked ∨ version ≤ c.locks.owner lock then
      some (reading key version, { c with locks := c.locks.drop lock })
    else none
  | reading key version => some (done (c.shards.get version key), c)
  | done _ => none

/-- How many steps a look-up has ahead. -/
def stepsLeft : Lookup → Nat
  | asking _ _ => 3
  | watching _ _ _ => 2
  | reading _ _ => 1
  | done _ => 0

theorem stepsLeft_lt {l l' : Lookup} {c c' : Coordinator σ} (h : l.step c = some (l', c')) :
    l'.stepsLeft < l.stepsLeft := by
  unfold step at h
  split at h
  · split at h <;> obtain ⟨rfl, -⟩ := Prod.mk.inj (Option.some.inj h) <;> simp [stepsLeft]
  · split at h
    · obtain ⟨rfl, -⟩ := Prod.mk.inj (Option.some.inj h)
      simp [stepsLeft]
    · simp at h
  · obtain ⟨rfl, -⟩ := Prod.mk.inj (Option.some.inj h)
    simp [stepsLeft]
  · simp at h

end Lookup
end SnapshotStore

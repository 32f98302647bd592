import SnapshotStore.Shards
import SnapshotStore.Proofs.Table
import Mathlib.Data.List.Basic

/-! # States by writes

A state gives the value of every key.  `State.writeAll` puts the writes of transactions, one after
the other, on top of a state; a key then has the value of the last transaction that writes it
(`writeAll_of_last`), and what does not write the key can be left out (`writeAll_filter`). -/

namespace SnapshotStore

/-- The value of every key. -/
abbrev State := String → Option String

/-- The state without values. -/
def State.empty : State := fun _ => none

namespace State

variable (m : State)

/-- The state after the writes of a transaction. -/
def write (w : Writes) : State := fun key => (w.get? key).getD (m key)

/-- The state after the writes of some transactions, in order. -/
def writeAll (ws : List Writes) : State := ws.foldl write m

@[simp] theorem writeAll_nil : m.writeAll [] = m := rfl

@[simp] theorem writeAll_cons (w : Writes) (ws : List Writes) :
    m.writeAll (w :: ws) = (m.write w).writeAll ws := rfl

theorem writeAll_append (vs ws : List Writes) :
    m.writeAll (vs ++ ws) = (m.writeAll vs).writeAll ws := List.foldl_append

variable {m} {ws vs : List Writes} {w : Writes} {key : String}

theorem write_of_none (h : w.get? key = none) : m.write w key = m key := by simp [write, h]

theorem write_of_some {value : Option String} (h : w.get? key = some value) :
    m.write w key = value := by simp [write, h]

theorem write_empty : m.write ∅ = m := funext fun _ => write_of_none rfl

theorem writeAll_of_none (h : ∀ w ∈ ws, w.get? key = none) : m.writeAll ws key = m key := by
  induction ws generalizing m with
  | nil => rfl
  | cons w ws ih =>
      rw [writeAll_cons, ih fun v hv => h v (List.mem_cons_of_mem _ hv)]
      exact write_of_none (h w (List.mem_cons_self ..))

/-- A key has the value that the last transaction that writes it gives it. -/
theorem writeAll_of_last {value : Option String} (hw : w.get? key = some value)
    (h : ∀ v ∈ vs, v.get? key = none) : m.writeAll (ws ++ w :: vs) key = value := by
  rw [writeAll_append, writeAll_cons, writeAll_of_none h, write_of_some hw]

theorem writeAll_filter (p : Writes → Bool) (h : ∀ w ∈ ws, p w = false → w.get? key = none) :
    m.writeAll (ws.filter p) key = m.writeAll ws key := by
  induction ws generalizing m with
  | nil => rfl
  | cons w ws ih =>
      have ih {m : State} := ih (m := m) fun v hv => h v (List.mem_cons_of_mem _ hv)
      cases hp : p w with
      | true => rw [List.filter_cons_of_pos hp, writeAll_cons, writeAll_cons, ih]
      | false =>
          rw [List.filter_cons_of_neg (by simp [hp]), ih, writeAll_cons]
          have hw := h w (List.mem_cons_self ..) hp
          exact congr_writeAll ws (write_of_none hw).symm
where
  congr_writeAll {m m' : State} (ws : List Writes) (h : m key = m' key) :
      m.writeAll ws key = m'.writeAll ws key := by
    induction ws generalizing m m' with
    | nil => exact h
    | cons w ws ih => exact ih (by simp [write, h])

end State
end SnapshotStore

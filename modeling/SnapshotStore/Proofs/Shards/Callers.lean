import SnapshotStore.Proofs.Shards.Routing
import Mathlib.Data.Finset.Max
import Mathlib.Data.Fintype.Basic

/-! # Calls on several keys at the same time

Each shard has a lock that many readers share or one writer has alone.  A call that records or reads
several keys (`Work`) takes the locks of its shards one by one in ascending order, goes through its keys,
and then lets the locks go, so it is under way for many steps; `Engine.next` is one step of one caller.

* `Caller.Moves` lists all that a step can do.
* `Locked` is what every step preserves about the locks: a caller touches only shards it holds, waits for
  a shard above those it holds, and shares what it holds with readers at most.
* `Locked.exists_next`: somebody can always take a step. -/

namespace SnapshotStore
namespace Shards

/-! ### Calls -/

/-- A call on several keys. -/
inductive Work
  | write (version : ℕ) (writes : Writes)
  | read (version : ℕ) (keys : List String)

/-- How far a call is: it wants the locks of some shards, has some inserts to do or some keys to look up,
or is done and lets its locks go. -/
inductive Stage
  | locking (wanted : List ℕ)
  | writing (todo : List Insert)
  | reading (version : ℕ) (todo : List String) (values : List (Option String))
  | leaving (values : List (Option String))

namespace Work

/-- The keys of a call. -/
def keys : Work → List String
  | write _ writes => writes.keys
  | read _ keys => keys

/-- Whether a call shares its locks. -/
def shares : Work → Bool
  | write .. => false
  | read .. => true

/-- What a call does once it has its locks. -/
def access (s : Shards) : Work → Stage
  | write version writes => .writing (s.inserts version writes.entries)
  | read version keys => .reading version keys []

/-- The shards after a call that was alone. -/
def after (s : Shards) : Work → Shards
  | write version writes => s.setMany version writes
  | read .. => s

/-- What a call that is alone returns. -/
def answer (s : Shards) : Work → List (Option String)
  | write .. => []
  | read version keys => s.getMany version keys

end Work

/-- Someone who makes a call: the shards whose locks are held, and how far the call is. -/
structure Caller where
  held : List ℕ
  stage : Stage

namespace Caller

/-- The values that a call has returned. -/
def returned (c : Caller) : Option (List (Option String)) :=
  match c.held, c.stage with
  | [], .leaving values => some values
  | _, _ => none

/-- The shard whose lock a caller waits for. -/
def waitsFor (c : Caller) : Option ℕ :=
  match c.stage with
  | .locking (k :: _) => some k
  | _ => none

/-- What one step of a caller does, to itself and to the shards; `granted` tells which locks it can
have. -/
inductive Moves (w : Work) (granted : ℕ → Prop) (s : Shards) : Caller → Caller → Shards → Prop
  | lock {held k wanted} (h : granted k) :
      Moves w granted s ⟨held, .locking (k :: wanted)⟩ ⟨held ++ [k], .locking wanted⟩ s
  | access {held} : Moves w granted s ⟨held, .locking []⟩ ⟨held, w.access s⟩ s
  | insert {held x todo} :
      Moves w granted s ⟨held, .writing (x :: todo)⟩ ⟨held, .writing todo⟩ (s.insert x)
  | written {held} : Moves w granted s ⟨held, .writing []⟩ ⟨held, .leaving []⟩ s
  | lookup {held version key todo values} :
      Moves w granted s ⟨held, .reading version (key :: todo) values⟩
        ⟨held, .reading version todo (values ++ [s.getFrom (s.pick held) version key])⟩ s
  | looked {held version values} :
      Moves w granted s ⟨held, .reading version [] values⟩ ⟨held, .leaving values⟩ s
  | release {k held values} : Moves w granted s ⟨k :: held, .leaving values⟩ ⟨held, .leaving values⟩ s

/-- The next step of a caller, if it is not blocked or done. -/
def next (w : Work) (granted : ℕ → Prop) [DecidablePred granted] (s : Shards) :
    Caller → Option (Caller × Shards)
  | ⟨held, .locking (k :: wanted)⟩ =>
    if granted k then some (⟨held ++ [k], .locking wanted⟩, s) else none
  | ⟨held, .locking []⟩ => some (⟨held, w.access s⟩, s)
  | ⟨held, .writing (x :: todo)⟩ => some (⟨held, .writing todo⟩, s.insert x)
  | ⟨held, .writing []⟩ => some (⟨held, .leaving []⟩, s)
  | ⟨held, .reading version (key :: todo) values⟩ =>
    some (⟨held, .reading version todo (values ++ [s.getFrom (s.pick held) version key])⟩, s)
  | ⟨held, .reading _ [] values⟩ => some (⟨held, .leaving values⟩, s)
  | ⟨_ :: held, .leaving values⟩ => some (⟨held, .leaving values⟩, s)
  | ⟨[], .leaving _⟩ => none

variable {w : Work} {granted : ℕ → Prop} {s s' : Shards} {c c' : Caller}

theorem moves_of_next [DecidablePred granted] (h : next w granted s c = some (c', s')) :
    c.Moves w granted s c' s' := by
  unfold next at h
  split at h
  · split at h
    · next hk =>
      cases h
      exact .lock hk
    · cases h
  all_goals cases h
  · exact .access
  · exact .insert
  · exact .written
  · exact .lookup
  · exact .looked
  · exact .release

theorem of_next_eq_none [DecidablePred granted] (h : next w granted s c = none)
    (hc : c.returned = none) : ∃ k, c.waitsFor = some k ∧ ¬ granted k := by
  unfold next at h
  split at h
  · split at h
    · cases h
    · next hk => exact ⟨_, rfl, hk⟩
  all_goals contradiction

theorem eq_of_returned {values : List (Option String)} (h : c.returned = some values) :
    c = ⟨[], .leaving values⟩ := by
  obtain ⟨held, stage⟩ := c
  unfold returned at h
  split at h <;> simp_all

theorem returned_of_waitsFor {k : ℕ} (h : c.waitsFor = some k) : c.returned = none := by
  unfold waitsFor at h
  unfold returned
  split <;> simp_all

/-! ### What a caller keeps to -/

/-- A caller wants the shards of its keys that it does not hold yet, and touches only those it holds. -/
def Keeps (s : Shards) (w : Work) (c : Caller) : Prop :=
  match c.stage with
  | .locking wanted => c.held ++ wanted = s.touched w.keys
  | .writing todo => w.shares = false ∧ ∀ x ∈ todo, x.shard ∈ c.held
  | .reading _ todo _ => ∀ key ∈ todo, (s.shardFor key : ℕ) ∈ c.held
  | .leaving _ => True

theorem keeps_access {held : List ℕ} (hcount : s.count = s'.count) (h : held = s'.touched w.keys) :
    Keeps s' w ⟨held, w.access s⟩ := by
  subst h
  cases w with
  | write version writes =>
      refine ⟨rfl, fun x hx => ?_⟩
      obtain ⟨-, -, hmem⟩ := shard_of_mem_inserts hx
      rwa [touched_of_count hcount] at hmem
  | read version keys => exact fun key hkey => mem_touched.mpr ⟨key, hkey, rfl⟩

namespace Moves

theorem count (h : c.Moves w granted s c' s') : s'.count = s.count := by
  cases h with
  | insert => exact count_insert _ _
  | _ => rfl

theorem keeps {s₀ : Shards} (h : c.Moves w granted s c' s') (hcount : s.count = s₀.count)
    (hc : c.Keeps s₀ w) : c'.Keeps s₀ w := by
  cases h with
  | lock => exact (List.append_assoc ..).trans hc
  | access => exact keeps_access hcount ((List.append_nil _).symm.trans hc)
  | insert => exact ⟨hc.1, fun x hx => hc.2 x (List.mem_cons_of_mem _ hx)⟩
  | lookup => exact fun key hkey => hc key (List.mem_cons_of_mem _ hkey)
  | written | looked | release => trivial

theorem held (h : c.Moves w granted s c' s') {k : ℕ} (hk : k ∈ c'.held) : k ∈ c.held ∨ granted k := by
  cases h with
  | lock hgranted =>
      rcases List.mem_append.mp hk with hk | hk
      · exact .inl hk
      · rw [List.mem_singleton.mp hk]
        exact .inr hgranted
  | release => exact .inl (List.mem_cons_of_mem _ hk)
  | _ => exact .inl hk

end Moves

theorem Keeps.lt_of_held {k l : ℕ} (h : c.Keeps s w) (hk : c.waitsFor = some k) (hl : l ∈ c.held) :
    l < k := by
  unfold waitsFor at hk
  split at hk
  · next wanted hstage =>
    cases hk
    have hsorted := s.pairwise_touched w.keys
    unfold Keeps at h
    rw [hstage] at h
    rw [← show c.held ++ k :: wanted = s.touched w.keys from h] at hsorted
    exact (List.pairwise_append.mp hsorted).2.2 l hl k List.mem_cons_self
  · cases hk

theorem returned_of_held {k : ℕ} (h : k ∈ c.held) : c.returned = none := by
  unfold returned
  split
  · next hheld _ => simp [hheld] at h
  · rfl

end Caller

/-! ### All callers -/

/-- Shards with their callers. -/
structure Engine (n : ℕ) where
  shards : Shards
  callers : Fin n → Caller

variable {n : ℕ}

namespace Engine
variable (works : Fin n → Work)

/-- No call has begun. -/
def start (s : Shards) : Engine n := ⟨s, fun i => ⟨[], .locking (s.touched (works i).keys)⟩⟩

/-- A caller can have the lock of a shard if all who hold it share it. -/
def Grants (e : Engine n) (i : Fin n) (k : ℕ) : Prop :=
  ∀ j, k ∈ (e.callers j).held → (works i).shares = true ∧ (works j).shares = true

instance (e : Engine n) (i : Fin n) : DecidablePred (e.Grants works i) :=
  fun _ => inferInstanceAs (Decidable (∀ _, _))

/-- The shards and one caller changed. -/
def put (e : Engine n) (i : Fin n) (c : Caller) (s : Shards) : Engine n :=
  ⟨s, Function.update e.callers i c⟩

theorem callers_put (e : Engine n) (i j : Fin n) (c : Caller) (s : Shards) :
    (e.put i c s).callers j = if j = i then c else e.callers j := Function.update_apply ..

@[simp] theorem put_self (e : Engine n) (i : Fin n) (c : Caller) (s : Shards) :
    (e.put i c s).callers i = c := Function.update_self ..

@[simp] theorem put_of_ne (e : Engine n) {i j : Fin n} (h : j ≠ i) (c : Caller) (s : Shards) :
    (e.put i c s).callers j = e.callers j := Function.update_of_ne h ..

/-- One step of one caller. -/
def next (e : Engine n) (i : Fin n) : Option (Engine n) :=
  (Caller.next (works i) (e.Grants works i) e.shards (e.callers i)).map fun p => e.put i p.1 p.2

/-- Steps of the callers in some order. -/
def run (e : Engine n) (choices : List (Fin n)) : Option (Engine n) := choices.foldlM (next works) e

/-- A reader that waits for a shard which a writer waits for, too. -/
def GivesWay (e : Engine n) (i : Fin n) : Prop :=
  (works i).shares = true ∧ ∃ k, (e.callers i).waitsFor = some k ∧
    ∃ j, (works j).shares = false ∧ (e.callers j).waitsFor = some k

variable {works}

theorem moves_of_next {e e' : Engine n} {i : Fin n} (h : e.next works i = some e') :
    ∃ c' s', (e.callers i).Moves (works i) (e.Grants works i) e.shards c' s' ∧
      e' = e.put i c' s' := by
  obtain ⟨⟨c', s'⟩, hnext, rfl⟩ := Option.map_eq_some_iff.mp h
  exact ⟨c', s', Caller.moves_of_next hnext, rfl⟩

end Engine

/-! ### Locks -/

/-- What every step preserves about the locks. -/
structure Locked (s : Shards) (works : Fin n → Work) (e : Engine n) : Prop where
  count : e.shards.count = s.count
  keeps : ∀ i, (e.callers i).Keeps s (works i)
  apart : ∀ i j, i ≠ j → ∀ k ∈ (e.callers i).held, k ∈ (e.callers j).held →
    (works i).shares = true ∧ (works j).shares = true

namespace Locked
variable {s : Shards} {works : Fin n → Work} {e e' : Engine n} {i : Fin n}

theorem start (s : Shards) (works : Fin n → Work) : Locked s works (Engine.start works s) where
  count := rfl
  keeps _ := rfl
  apart _ _ _ _ hk := absurd hk List.not_mem_nil

theorem next (h : Locked s works e) (hn : e.next works i = some e') : Locked s works e' := by
  obtain ⟨c', s', hmoves, rfl⟩ := Engine.moves_of_next hn
  have hcaller {j : Fin n} (hj : j ≠ i) {k : ℕ} (hi : k ∈ c'.held) (hk : k ∈ (e.callers j).held) :
      (works i).shares = true ∧ (works j).shares = true := by
    rcases hmoves.held hi with hi | hgranted
    · exact h.apart i j hj.symm k hi hk
    · exact hgranted j hk
  refine ⟨hmoves.count.trans h.count, fun j => ?_, fun j l hjl k hj hl => ?_⟩
  · by_cases hj : j = i
    · subst hj
      rw [Engine.put_self]
      exact hmoves.keeps h.count (h.keeps j)
    · rw [Engine.put_of_ne _ hj]
      exact h.keeps j
  · by_cases hji : j = i
    · subst hji
      rw [Engine.put_self] at hj
      rw [Engine.put_of_ne _ hjl.symm] at hl
      exact hcaller hjl.symm hj hl
    · rw [Engine.put_of_ne _ hji] at hj
      by_cases hli : l = i
      · subst hli
        rw [Engine.put_self] at hl
        exact (hcaller hji hl hj).symm
      · rw [Engine.put_of_ne _ hli] at hl
        exact h.apart j l hjl k hj hl

/-! ### Steps that can be taken -/

theorem isSome_next_of_grants (hu : (e.callers i).returned = none)
    (hgrants : ∀ k, (e.callers i).waitsFor = some k → e.Grants works i k) :
    (e.next works i).isSome := by
  rw [Option.isSome_iff_ne_none]
  intro hnone
  obtain ⟨k, hk, hnot⟩ := Caller.of_next_eq_none (Option.map_eq_none_iff.mp hnone) hu
  exact hnot (hgrants k hk)

theorem free_of_max (h : Locked s works e) {k : ℕ}
    (hmax : ∀ j, (e.callers j).returned = none → ∃ l, (e.callers j).waitsFor = some l ∧ l ≤ k) :
    ∀ j, k ∉ (e.callers j).held := by
  intro j hj
  obtain ⟨l, hl, hle⟩ := hmax j (Caller.returned_of_held hj)
  have := (h.keeps j).lt_of_held hl hj
  omega

/-- Some call that is under way can go on, even if readers give way to writers. -/
theorem exists_next (h : Locked s works e) (hu : ∃ i, (e.callers i).returned = none) :
    ∃ i, (e.callers i).returned = none ∧ (e.next works i).isSome ∧ ¬ e.GivesWay works i := by
  by_contra hall
  push Not at hall
  have hwaits (i : Fin n) (hi : (e.callers i).returned = none) :
      ∃ k, (e.callers i).waitsFor = some k := by
    by_contra hnot
    obtain ⟨-, k, hk, -⟩ := hall i hi (isSome_next_of_grants hi fun k hk => absurd ⟨k, hk⟩ hnot)
    exact hnot ⟨k, hk⟩
  obtain ⟨i₀, hi₀⟩ := hu
  obtain ⟨i, hi, hmax⟩ := Finset.exists_max_image
    (Finset.univ.filter fun i => (e.callers i).returned = none)
    (fun i => (e.callers i).waitsFor.getD 0) ⟨i₀, by simpa using hi₀⟩
  simp only [Finset.mem_filter, Finset.mem_univ, true_and] at hi hmax
  obtain ⟨k, hk⟩ := hwaits i hi
  have hfree := h.free_of_max (k := k) fun j hj => by
    obtain ⟨l, hl⟩ := hwaits j hj
    have hle := hmax j hj
    rw [hl, hk] at hle
    exact ⟨l, hl, hle⟩
  have hgo (j : Fin n) (hj : (e.callers j).waitsFor = some k) : (e.next works j).isSome :=
    isSome_next_of_grants (Caller.returned_of_waitsFor hj) fun l hl => by
      rw [hj] at hl
      cases hl
      exact fun m hm => absurd hm (hfree m)
  obtain ⟨-, l, hl, j, hwriter, hj⟩ := hall i hi (hgo i hk)
  rw [hk] at hl
  cases hl
  obtain ⟨hreader, -⟩ := hall j (Caller.returned_of_waitsFor hj) (hgo j hj)
  rw [hwriter] at hreader
  cases hreader

end Locked
end Shards
end SnapshotStore

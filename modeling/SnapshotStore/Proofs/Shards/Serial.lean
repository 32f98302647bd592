import SnapshotStore.Proofs.Shards.Callers
import Mathlib.Data.List.FinRange

/-! # Calls on several keys, one after the other

Calls on several keys that run at the same time come out as if they ran one after the other, in the order
in which they came to hold all their locks.  `Ordered` is what every step preserves: the inserts that are
still to be done would bring the shards to where the calls of the order bring them one by one, and what a
reader has found, with what it would still find, is its answer at its place in the order.

`serializable` draws this together for every interleaving, and adds that the calls never block each
other for good. -/

namespace SnapshotStore
namespace Shards

variable {s t : Shards}

/-! ### Inserts that wait -/

theorem get_foldl_insert {xs : List Insert} {key : String} (h : ∀ x ∈ xs, x.shard ≠ s.shardFor key)
    (version : ℕ) : (xs.foldl insert s).get version key = s.get version key := by
  induction xs generalizing s with
  | nil => rfl
  | cons x xs ih =>
      obtain ⟨hx, hxs⟩ := List.forall_mem_cons.mp h
      have hfor := val_shardFor_of_count (count_insert s x) key
      rw [List.foldl_cons, ih (by rwa [hfor]), get_insert_of_ne hx]

theorem foldl_insert_comm {xs : List Insert} {x : Insert} (h : ∀ y ∈ xs, x.shard ≠ y.shard)
    (s : Shards) : xs.foldl insert (s.insert x) = (xs.foldl insert s).insert x := by
  induction xs generalizing s with
  | nil => rfl
  | cons y xs ih =>
      obtain ⟨hy, hxs⟩ := List.forall_mem_cons.mp h
      rw [List.foldl_cons, List.foldl_cons, s.insert_comm hy, ih hxs]

namespace Caller

/-- Whether a caller has come to hold all its locks. -/
def begun (c : Caller) : Bool :=
  match c.stage with
  | .locking _ => false
  | _ => true

/-- The inserts that a caller has still to do. -/
def pending (c : Caller) : List Insert :=
  match c.stage with
  | .writing todo => todo
  | _ => []

/-- What a caller will return if the shards stay as they are. -/
def outcome (s : Shards) (c : Caller) : List (Option String) :=
  match c.stage with
  | .reading version todo values => values ++ todo.map (s.get version)
  | .leaving values => values
  | _ => []

theorem begun_access (w : Work) (s : Shards) (held : List ℕ) : begun ⟨held, w.access s⟩ = true := by
  cases w <;> rfl

theorem foldl_pending_access (w : Work) {held : List ℕ} (h : t.count = s.count) :
    (pending ⟨held, w.access s⟩).foldl insert t = w.after t := by
  cases w with
  | write version writes =>
      rw [Work.after, setMany_eq_foldl, inserts_of_count h]
      rfl
  | read version keys => rfl

theorem Keeps.pending {w : Work} {c : Caller} (h : c.Keeps s w) {x : Insert} (hx : x ∈ c.pending) :
    w.shares = false ∧ x.shard ∈ c.held := by
  unfold Caller.pending at hx
  unfold Keeps at h
  split at hx
  · next todo hstage =>
    rw [hstage] at h
    exact ⟨h.1, h.2 x hx⟩
  · cases hx

theorem Keeps.outcome_congr {w : Work} {c : Caller} (h : c.Keeps s w) {t t' : Shards}
    (hget : ∀ version key, (s.shardFor key : ℕ) ∈ c.held → t.get version key = t'.get version key) :
    c.outcome t = c.outcome t' := by
  unfold outcome
  unfold Keeps at h
  split
  · next version todo values hstage =>
    rw [hstage] at h
    rw [List.map_congr_left fun key hkey => hget version key (h key hkey)]
  · rfl
  · rfl

theorem outcome_access (w : Work) (held : List ℕ) :
    outcome t ⟨held, w.access s⟩ = w.answer t := by
  cases w with
  | write version writes => rfl
  | read version keys => exact (getMany_eq_map_get t version keys).symm

end Caller

/-! ### Calls one after the other -/

variable {n : ℕ} (works : Fin n → Work)

/-- The shards after some calls, one after the other. -/
def serial (s : Shards) (order : List (Fin n)) : Shards :=
  order.foldl (fun t i => (works i).after t) s

namespace Engine

/-- The inserts that some callers have still to do, one caller after the other. -/
def pending (e : Engine n) (order : List (Fin n)) : List Insert :=
  order.flatMap fun i => (e.callers i).pending

variable {e : Engine n} {order later : List (Fin n)} {i : Fin n}

theorem pending_append : e.pending (order ++ later) = e.pending order ++ e.pending later :=
  List.flatMap_append

theorem pending_cons : e.pending (i :: later) = (e.callers i).pending ++ e.pending later :=
  List.flatMap_cons

theorem pending_put {c : Caller} (t : Shards) (hi : i ∈ order → c.pending = (e.callers i).pending) :
    (e.put i c t).pending order = e.pending order := by
  refine List.flatMap_congr fun j hj => ?_
  rw [callers_put]
  split
  · next hji => rw [hji, hi (hji ▸ hj)]
  · rfl

end Engine

/-- What every step preserves about the order in which the callers came to hold all their locks. -/
structure Ordered (s : Shards) (e : Engine n) (order : List (Fin n)) : Prop where
  nodup : order.Nodup
  mem : ∀ i, i ∈ order ↔ (e.callers i).begun = true
  settled : (e.pending order).foldl insert e.shards = serial works s order
  outcome : ∀ before i later, order = before ++ i :: later →
    (e.callers i).outcome e.shards = (works i).answer (serial works s before)

variable {works} {e e' : Engine n} {order : List (Fin n)} {i j : Fin n}

theorem Locked.shard_ne (h : Locked s works e) (hij : i ≠ j) {k : ℕ} (hk : k ∈ (e.callers i).held)
    {x : Insert} (hx : x ∈ (e.callers j).pending) : x.shard ≠ k := by
  rintro rfl
  obtain ⟨halone, hheld⟩ := (h.keeps j).pending hx
  obtain ⟨-, hshares⟩ := h.apart i j hij _ hk hheld
  rw [halone] at hshares
  cases hshares

namespace Ordered

theorem start (s : Shards) (works : Fin n → Work) : Ordered works s (Engine.start works s) [] where
  nodup := List.nodup_nil
  mem i := by simp [Engine.start, Caller.begun]
  settled := rfl
  outcome before i later h := by simp at h

/-- A step of a caller that changes no shard, and keeps the inserts that it has to do and what it will
return. -/
theorem put (h : Ordered works s e order) {c : Caller} (hbegun : c.begun = (e.callers i).begun)
    (hpending : c.pending = (e.callers i).pending)
    (houtcome : c.outcome e.shards = (e.callers i).outcome e.shards) :
    Ordered works s (e.put i c e.shards) order where
  nodup := h.nodup
  mem j := by
    rw [h.mem, Engine.callers_put]
    split
    · next hj => rw [hj, hbegun]
    · rfl
  settled := by
    rw [Engine.pending_put _ fun _ => hpending]
    exact h.settled
  outcome before j later horder := by
    rw [← h.outcome before j later horder, Engine.callers_put]
    split
    · next hj => rw [hj]; exact houtcome
    · rfl

/-- The first insert that a caller has to do can be done before those of the others. -/
theorem insert (hl : Locked s works e) (h : Ordered works s e order) {held : List ℕ} {x : Insert}
    {todo : List Insert} (hc : e.callers i = ⟨held, .writing (x :: todo)⟩) :
    Ordered works s (e.put i ⟨held, .writing todo⟩ (e.shards.insert x)) order where
  nodup := h.nodup
  mem j := by
    rw [h.mem, Engine.callers_put]
    split
    · next hj => rw [hj, hc]; rfl
    · rfl
  settled := by
    obtain ⟨before, later, rfl⟩ := List.append_of_mem ((h.mem i).mpr (by rw [hc]; rfl))
    obtain ⟨hlater, hi⟩ : i ∉ later ∧ i ∉ before := by
      obtain ⟨-, hlater, hbefore⟩ := List.nodup_append.mp h.nodup
      exact ⟨(List.nodup_cons.mp hlater).1, fun hi => hbefore i hi i List.mem_cons_self rfl⟩
    have hx : x.shard ∈ (e.callers i).held :=
      ((hl.keeps i).pending (by rw [hc]; exact List.mem_cons_self)).2
    have hfirst : ∀ y ∈ e.pending before, x.shard ≠ y.shard := by
      intro y hy
      obtain ⟨j, hj, hy⟩ := List.mem_flatMap.mp hy
      have hij : i ≠ j := fun hij => hi (hij ▸ hj)
      exact (hl.shard_ne hij hx hy).symm
    calc ((e.put i ⟨held, .writing todo⟩ (e.shards.insert x)).pending (before ++ i :: later)).foldl
          Shards.insert (e.shards.insert x)
        = (todo ++ e.pending later).foldl Shards.insert
            ((e.pending before).foldl Shards.insert (e.shards.insert x)) := by
          rw [Engine.pending_append, Engine.pending_cons, Engine.pending_put _ fun h => absurd h hi,
            Engine.pending_put _ fun h => absurd h hlater, Engine.put_self, List.foldl_append]
          rfl
      _ = (x :: todo ++ e.pending later).foldl Shards.insert
            ((e.pending before).foldl Shards.insert e.shards) := by
          rw [foldl_insert_comm hfirst]
          rfl
      _ = serial works s (before ++ i :: later) := by
          rw [← h.settled, Engine.pending_append, Engine.pending_cons, hc]
          exact List.foldl_append.symm
  outcome before j later horder := by
    rw [← h.outcome before j later horder, Engine.callers_put]
    split
    · next hj => rw [hj, hc]; rfl
    · next hj =>
      refine (hl.keeps j).outcome_congr fun version key hkey => get_insert_of_ne ?_ version
      rw [val_shardFor_of_count hl.count]
      exact hl.shard_ne hj hkey (by rw [hc]; exact List.mem_cons_self)

/-- A caller that has come to hold all its locks is the last one in the order. -/
theorem access (hl : Locked s works e) (h : Ordered works s e order) {held : List ℕ}
    (hc : e.callers i = ⟨held, .locking []⟩) :
    Ordered works s (e.put i ⟨held, (works i).access e.shards⟩ e.shards) (order ++ [i]) := by
  have hi : i ∉ order := fun hi => by
    have hbegun := (h.mem i).mp hi
    rw [hc] at hbegun
    cases hbegun
  have hheld : held = s.touched (works i).keys := by
    have hkeeps := hl.keeps i
    rw [hc] at hkeeps
    exact (List.append_nil held).symm.trans hkeeps
  have hget (version : ℕ) (key : String) (hkey : (s.shardFor key : ℕ) ∈ held) :
      e.shards.get version key = (serial works s order).get version key := by
    rw [← h.settled, get_foldl_insert]
    intro x hx
    obtain ⟨j, hj, hx⟩ := List.mem_flatMap.mp hx
    have hij : i ≠ j := fun hij => hi (hij ▸ hj)
    rw [val_shardFor_of_count hl.count]
    exact hl.shard_ne hij (by rw [hc]; exact hkey) hx
  refine ⟨List.nodup_append.mpr ⟨h.nodup, List.nodup_singleton i, ?_⟩, fun j => ?_, ?_,
    fun before j later horder => ?_⟩
  · rintro j hj l hl rfl
    exact hi (List.mem_singleton.mp hl ▸ hj)
  · rw [List.mem_append, List.mem_singleton, h.mem, Engine.callers_put]
    split
    · next hj => simp [hj, Caller.begun_access]
    · next hj => simp [hj]
  · have hcount : (serial works s order).count = e.shards.count := by
      rw [← h.settled, count_foldl_insert]
    rw [Engine.pending_append, Engine.pending_put _ fun h => absurd h hi, Engine.pending_cons,
      Engine.put_self, List.foldl_append, List.foldl_append]
    show (Caller.pending _).foldl Shards.insert ((e.pending order).foldl Shards.insert e.shards) = _
    rw [h.settled, Caller.foldl_pending_access _ hcount, serial, serial, List.foldl_append]
    rfl
  · rcases later.eq_nil_or_concat with rfl | ⟨later, l, rfl⟩
    · obtain ⟨rfl, hji⟩ := List.append_inj' horder rfl
      obtain rfl : i = j := List.singleton_inj.mp hji
      have hkeeps := Caller.keeps_access hl.count hheld
      rw [Engine.put_self, ← Caller.outcome_access (s := e.shards) _ held]
      exact hkeeps.outcome_congr hget
    · rw [List.concat_eq_append, ← List.cons_append, ← List.append_assoc] at horder
      obtain ⟨rfl, -⟩ := List.append_inj' horder rfl
      have hji : j ≠ i := fun hji => hi (hji ▸ List.mem_append_right _ List.mem_cons_self)
      rw [Engine.put_of_ne _ hji]
      exact h.outcome before j later rfl

/-- The order grows when a caller comes to hold all its locks, and stays otherwise. -/
theorem next (hl : Locked s works e) (h : Ordered works s e order) (hn : e.next works i = some e') :
    ∃ order', Ordered works s e' order' := by
  obtain ⟨c', s', hmoves, rfl⟩ := Engine.moves_of_next hn
  generalize hc : e.callers i = c at hmoves
  cases hmoves with
  | access => exact ⟨_, h.access hl hc⟩
  | insert => exact ⟨_, h.insert hl hc⟩
  | lock | written | looked | release =>
      refine ⟨_, h.put (by rw [hc]; rfl) (by rw [hc]; rfl) ?_⟩
      rw [hc]
      simp [Caller.outcome]
  | @lookup held version key todo values =>
      have hkeeps := hl.keeps i
      rw [hc] at hkeeps
      refine ⟨_, h.put (by rw [hc]; rfl) (by rw [hc]; rfl) ?_⟩
      have hheld : (e.shards.shardFor key : ℕ) ∈ held := by
        rw [val_shardFor_of_count hl.count]
        exact hkeeps key List.mem_cons_self
      rw [hc, getFrom_pick, if_pos hheld]
      simp [Caller.outcome]

end Ordered

/-! ### Every interleaving -/

theorem exists_perm_finRange (h : order.Nodup) :
    ∃ later, (order ++ later).Perm (List.finRange n) := by
  have hparts := List.filter_append_perm (fun i => i ∈ order) (List.finRange n)
  refine ⟨(List.finRange n).filter fun i => !decide (i ∈ order), .trans (.append_right _ ?_) hparts⟩
  refine (List.perm_ext_iff_of_nodup h ((List.nodup_finRange n).filter _)).mpr fun i => ?_
  simp

theorem run_ordered {choices : List (Fin n)} (hl : Locked s works e) (h : Ordered works s e order)
    (hrun : e.run works choices = some e') :
    Locked s works e' ∧ ∃ order', Ordered works s e' order' := by
  induction choices generalizing e order with
  | nil =>
      cases hrun
      exact ⟨hl, order, h⟩
  | cons i choices ih =>
      rw [Engine.run, List.foldlM_cons] at hrun
      obtain ⟨e₁, hnext, hrest⟩ := Option.bind_eq_some_iff.mp hrun
      obtain ⟨order₁, h₁⟩ := h.next hl hnext
      exact ih (hl.next hnext) h₁ hrest

/-- However the steps of some calls on several keys interleave, the calls come out as in one order, one
after the other: each that has returned gave what it gives alone at its place, so no reader saw part of
what a writer records, and once all have returned the shards are as the order leaves them.  As long as
some call is under way, one can take a step, and it need not be a reader that passes a writer by. -/
theorem serializable {s : Shards} {works : Fin n → Work} {choices : List (Fin n)} {e : Engine n}
    (h : (Engine.start works s).run works choices = some e) :
    (∃ order : List (Fin n), order.Perm (List.finRange n) ∧
      (∀ i values, (e.callers i).returned = some values → ∃ before later,
        order = before ++ i :: later ∧ values = (works i).answer (serial works s before)) ∧
      ((∀ i, (e.callers i).returned ≠ none) → e.shards = serial works s order)) ∧
    ((∃ i, (e.callers i).returned = none) →
      ∃ i, (e.callers i).returned = none ∧ (e.next works i).isSome ∧ ¬ e.GivesWay works i) := by
  obtain ⟨hl, order, hordered⟩ := run_ordered (.start s works) (.start s works) h
  refine ⟨?_, hl.exists_next⟩
  obtain ⟨waiting, hperm⟩ := exists_perm_finRange hordered.nodup
  have hmem {i : Fin n} {values : List (Option String)} (hi : (e.callers i).returned = some values) :
      i ∈ order := (hordered.mem i).mpr (by rw [Caller.eq_of_returned hi]; rfl)
  refine ⟨order ++ waiting, hperm, fun i values hi => ?_, fun hall => ?_⟩
  · obtain ⟨before, later, rfl⟩ := List.append_of_mem (hmem hi)
    refine ⟨before, later ++ waiting, by simp, ?_⟩
    rw [← hordered.outcome before i later rfl, Caller.eq_of_returned hi]
    rfl
  · have hreturned (i : Fin n) := Option.ne_none_iff_exists'.mp (hall i)
    have hnodup := hperm.nodup_iff.mpr (List.nodup_finRange n)
    obtain rfl : waiting = [] := by
      refine List.eq_nil_iff_forall_not_mem.mpr fun i hi => ?_
      obtain ⟨values, hvalues⟩ := hreturned i
      exact (List.nodup_append.mp hnodup).2.2 i (hmem hvalues) i hi rfl
    have hpending : e.pending order = [] := by
      refine List.flatMap_eq_nil_iff.mpr fun i _ => ?_
      obtain ⟨values, hvalues⟩ := hreturned i
      rw [Caller.eq_of_returned hvalues]
      rfl
    rw [List.append_nil, ← hordered.settled, hpending]
    rfl

/-! ### A reader between two writers -/

/-- Two shards without entries. -/
def sampleShards : Shards := ⟨#[.empty Height.ruler, .empty Height.ruler], by decide⟩

/-- Two calls that record values for keys in both shards at the same version, and one that reads them. -/
def sampleWorks : Fin 3 → Work
  | 0 => .write 0 ⟨[("tide", some "1"), ("wave", some "1")], by decide⟩
  | 1 => .write 0 ⟨[("tide", some "2"), ("wave", some "2")], by decide⟩
  | 2 => .read 0 ["tide", "wave"]

/-- The reader gets its locks as the first writer lets them go, and the second writer gets them from the
reader. -/
def sampleChoices : List (Fin 3) :=
  [0, 0, 0, 0, 0, 0, 0, 2, 0, 2, 2, 2, 2, 2, 2, 1, 2, 1, 1, 1, 1, 1, 1, 1]

theorem serializable_sample : ∃ e order before later,
    (Engine.start sampleWorks sampleShards).run sampleWorks sampleChoices = some e ∧
    (e.callers 2).returned = some [some "1", some "1"] ∧
    order.Perm (List.finRange 3) ∧ e.shards = serial sampleWorks sampleShards order ∧
    order = before ++ 2 :: later ∧
    [some "1", some "1"] = (serial sampleWorks sampleShards before).getMany 0 ["tide", "wave"] := by
  have hrun : ((Engine.start sampleWorks sampleShards).run sampleWorks sampleChoices).any (fun e =>
      (e.callers 2).returned = some [some "1", some "1"] ∧ ∀ i, (e.callers i).returned ≠ none) =
      true := by
    decide +kernel
  obtain ⟨e, he, hfacts⟩ := (Option.any_eq_true _ _).mp hrun
  obtain ⟨hreader, hall⟩ := of_decide_eq_true hfacts
  obtain ⟨⟨order, hperm, hanswers, hshards⟩, -⟩ := serializable he
  obtain ⟨before, later, horder, hanswer⟩ := hanswers 2 _ hreader
  exact ⟨e, order, before, later, he, hreader, hperm, hshards hall, horder, hanswer⟩

end Shards
end SnapshotStore

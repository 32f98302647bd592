import SnapshotStore.Proofs.Journal.Ledger
import SnapshotStore.Proofs.Replay

/-! # The records of a transaction

`Saved` lists what one step of a writer can do.  A transaction logs one record after the other, and
goes on only once it knows the outcome of the last one.  So, as far as the log is concerned, it is in
one of two states:

* `Ready`: the outcome of all its records is known, and the stored ones make up its staged writes;
* `Noted`: it was ready, and then one more record was taken.

`Progress` says which for each state of a writer, and a step of the writer keeps it
(`Progress.saved`). -/

namespace SnapshotStore
namespace Journal

variable {σ : Type} {j j' : Journal σ}

/-! ### Outcomes -/

/-- What is known about the outcomes of batches stays true. -/
def Grows (j j' : Journal σ) : Prop :=
  ∀ {n persisted}, j.outcome? n = some persisted → j'.outcome? n = some persisted

theorem Grows.refl (j : Journal σ) : Grows j j := fun h => h

theorem Grows.append (j : Journal σ) (tx : ℕ) (kind : RecordKind) (args : List String) :
    Grows j (j.append tx kind args) := by
  intro n persisted h
  rcases j.append_cases tx kind args with ⟨-, heq⟩ | ⟨-, heq⟩ <;> rwa [heq]

theorem Grows.handOver {number : ℕ} (h : j.handOver number = some j') : Grows j j' := by
  obtain ⟨b, -, -, rfl⟩ := handOver_cases h
  exact fun h => h

theorem Grows.notify (j : Journal σ) (number : ℕ) (persisted : Bool) :
    Grows j (j.notify number persisted) := by
  intro n b h
  rw [outcome?_notify]
  split
  · rw [h]
    rfl
  · exact h

theorem Grows.flusherStep [LogStore σ] {event : Event} (h : j.flusherStep event = some j') :
    Grows j j' := by
  unfold Journal.flusherStep at h
  split at h
  · next b hb =>
    obtain rfl := Option.some.inj h
    intro n persisted hn
    unfold Journal.write
    split
    · exact Grows.notify { j with taken := none, store := _ } b.number true hn
    · exact Grows.notify { j with taken := none, store := _ } b.number false hn
  · intro n persisted hn
    rwa [outcome?, (Turned.of_nextTask h).frame.2.1]

/-! ### Steps of a writer -/

/-- What a journal takes with the next step of a writer. -/
def taking (j : Journal σ) : Save → List (ℕ × Record)
  | .adding tx kind args =>
    if j.closed then [] else [(j.current.number, ⟨j.nextLsn, tx, kind, args⟩)]
  | _ => []

/-- What a writer can do with one step: what is taken, and the writer and the journal afterwards. -/
inductive Saved (j : Journal σ) : Save → List (ℕ × Record) → Save → Journal σ → Prop
  | refused {tx : ℕ} {kind : RecordKind} {args : List String} (hc : j.closed = true) :
      Saved j (.adding tx kind args) [] (.done false) j
  | taken {tx : ℕ} {kind : RecordKind} {args : List String} {save : Save}
      (h : save = .waiting j.current.number ∨ save = .handing j.current.number)
      (hc : j.closed = false) (hfull : save = .handing j.current.number →
        (j.append tx kind args).current.number ≠ j.current.number) :
      Saved j (.adding tx kind args) [(j.current.number, ⟨j.nextLsn, tx, kind, args⟩)] save
        (j.append tx kind args)
  | handed {number : ℕ} {j' : Journal σ} (h : j.handOver number = some j') :
      Saved j (.handing number) [] (.waiting number) j'
  | told {number : ℕ} {persisted : Bool} (h : j.outcome? number = some persisted) :
      Saved j (.waiting number) [] (.done persisted) j

variable {save save' : Save} {new : List (ℕ × Record)}

theorem Saved.of_step (h : save.step j = some (save', j')) :
    Saved j save (taking j save) save' j' := by
  cases save with
  | adding tx kind args =>
      simp only [Save.step] at h
      simp only [taking]
      split at h
      · next hc =>
        obtain ⟨rfl, rfl⟩ := Prod.mk.inj (Option.some.inj h)
        rw [if_pos hc]
        exact .refused hc
      · next hc =>
        obtain ⟨rfl, rfl⟩ := Prod.mk.inj (Option.some.inj h)
        rw [if_neg hc]
        refine .taken ?_ (by simpa using hc) ?_
        · split
          · exact .inl rfl
          · exact .inr rfl
        · split
          · simp
          · next hne => exact fun _ => hne
  | handing number =>
      obtain ⟨j₁, hj, h⟩ := Option.map_eq_some_iff.mp h
      obtain ⟨rfl, rfl⟩ := Prod.mk.inj h
      exact .handed hj
  | waiting number =>
      obtain ⟨persisted, ho, h⟩ := Option.map_eq_some_iff.mp h
      obtain ⟨rfl, rfl⟩ := Prod.mk.inj h
      exact .told ho
  | done persisted => simp [Save.step] at h

theorem Saved.grows (h : Saved j save new save' j') : Grows j j' := by
  cases h with
  | taken h => exact @Grows.append _ j _ _ _
  | handed h => exact Grows.handOver h
  | _ => exact Grows.refl j

theorem Saved.frame (h : Saved j save new save' j') :
    j'.store = j.store ∧ j'.outcomes = j.outcomes ∧ j'.capacity = j.capacity := by
  cases h with
  | taken h hc hfull =>
      next tx kind args =>
      rcases j.append_cases tx kind args with ⟨-, heq⟩ | ⟨-, heq⟩ <;> rw [heq] <;>
        exact ⟨rfl, rfl, rfl⟩
  | handed h =>
      obtain ⟨b, -, -, rfl⟩ := handOver_cases h
      exact ⟨rfl, rfl, rfl⟩
  | _ => exact ⟨rfl, rfl, rfl⟩

theorem Logged.saved {base : List Record} {noted : List (ℕ × Record)}
    {stored : List Batch} (h : Logged base j noted stored) (hs : Saved j save new save' j') :
    Logged base j' (noted ++ new) stored := by
  cases hs with
  | taken hs => exact h.append ..
  | handed hj =>
      rw [List.append_nil]
      exact h.handOver hj
  | _ => rwa [List.append_nil]

/-! ### The state of a transaction in the log -/

/-- The records that the store is known to have, in the order in which they were taken. -/
def durable (j : Journal σ) (L : List (ℕ × Record)) : List Record :=
  (L.filter fun e => j.outcome? e.1 = some true).map (·.2)

theorem durable_append (L L' : List (ℕ × Record)) :
    durable j (L ++ L') = durable j L ++ durable j L' := by
  simp [durable]

theorem filter_durable (L : List (ℕ × Record)) (p : Record → Bool) :
    (durable j L).filter p = durable j (L.filter fun e => p e.2) := by
  rw [durable, List.filter_map, List.filter_filter, durable, List.filter_filter]
  congr 1
  exact List.filter_congr fun e _ => Bool.and_comm _ _

/-- The outcome of all records of a transaction is known, no record is a commit, and the stored ones
make up its staged writes. -/
structure Ready (j : Journal σ) (L : List (ℕ × Record)) (w : Writes) : Prop where
  known : ∀ e ∈ L, j.outcome? e.1 ≠ none
  uncommitted : ∀ e ∈ L, e.2.kind ≠ .commit
  writes : (durable j L).foldl stage ∅ = w

/-- A transaction was ready, and then a record with some kind and arguments was taken into a batch. -/
def Noted (j : Journal σ) (L : List (ℕ × Record)) (w : Writes)
    (entry : RecordKind × List String) (number : ℕ) : Prop :=
  ∃ past r, L = past ++ [(number, r)] ∧ (r.kind, r.args) = entry ∧ Ready j past w

variable {L : List (ℕ × Record)} {w : Writes} {entry : RecordKind × List String} {number tx : ℕ}

theorem Ready.nil (j : Journal σ) : Ready j [] ∅ := ⟨by simp, by simp, rfl⟩

theorem Ready.grow (h : Ready j L w) (hj : Grows j j') : Ready j' L w where
  known e he := by
    obtain ⟨b, hb⟩ := Option.ne_none_iff_exists'.mp (h.known e he)
    simp [hj hb]
  uncommitted := h.uncommitted
  writes := by
    have hkept : durable j' L = durable j L := by
      unfold durable
      congr 1
      refine List.filter_congr fun e he => ?_
      obtain ⟨b, hb⟩ := Option.ne_none_iff_exists'.mp (h.known e he)
      rw [hb, hj hb]
    rw [hkept, h.writes]

theorem Noted.grow (h : Noted j L w entry number) (hj : Grows j j') :
    Noted j' L w entry number := by
  obtain ⟨past, r, rfl, hr, hpast⟩ := h
  exact ⟨past, r, rfl, hr, hpast.grow hj⟩

/-- The record that was taken last is stored. -/
theorem Noted.stored (h : Noted j L w entry number) (ho : j.outcome? number = some true)
    (hk : entry.1 ≠ .commit) :
    ∃ r : Record, (r.kind, r.args) = entry ∧ Ready j L (stage w r) := by
  obtain ⟨past, r, rfl, rfl, hpast⟩ := h
  refine ⟨r, rfl, fun e he => ?_, fun e he => ?_, ?_⟩
  · rcases List.mem_append.mp he with he | he
    · exact hpast.known e he
    · rw [List.mem_singleton.mp he]
      simp [ho]
  · rcases List.mem_append.mp he with he | he
    · exact hpast.uncommitted e he
    · rw [List.mem_singleton.mp he]
      exact hk
  · rw [durable_append, List.foldl_append, hpast.writes]
    simp [durable, ho]

theorem Noted.lost (h : Noted j L w entry number) (ho : j.outcome? number = some false)
    (hk : entry.1 ≠ .commit) : Ready j L w := by
  obtain ⟨past, r, rfl, rfl, hpast⟩ := h
  refine ⟨fun e he => ?_, fun e he => ?_, ?_⟩
  · rcases List.mem_append.mp he with he | he
    · exact hpast.known e he
    · rw [List.mem_singleton.mp he]
      simp [ho]
  · rcases List.mem_append.mp he with he | he
    · exact hpast.uncommitted e he
    · rw [List.mem_singleton.mp he]
      exact hk
  · rw [durable_append, List.foldl_append, hpast.writes]
    simp [durable, ho]

/-- How far the next record of a transaction has come. -/
def Progress (j : Journal σ) (L : List (ℕ × Record)) (w : Writes) (tx : ℕ)
    (entry : RecordKind × List String) : Save → Prop
  | .adding tx' kind args => tx' = tx ∧ (kind, args) = entry ∧ Ready j L w
  | .handing number => Noted j L w entry number
  | .waiting number => Noted j L w entry number
  | .done true => ∃ number, Noted j L w entry number ∧ j.outcome? number = some true
  | .done false =>
    Ready j L w ∨ ∃ number, Noted j L w entry number ∧ j.outcome? number = some false

theorem Progress.grow (h : Progress j L w tx entry save) (hj : Grows j j') :
    Progress j' L w tx entry save := by
  cases save with
  | adding tx' kind args => exact ⟨h.1, h.2.1, h.2.2.grow hj⟩
  | handing number => exact Noted.grow h hj
  | waiting number => exact Noted.grow h hj
  | done persisted =>
      cases persisted with
      | true =>
          obtain ⟨number, hn, ho⟩ := h
          exact ⟨number, hn.grow hj, hj ho⟩
      | false =>
          rcases h with hr | ⟨number, hn, ho⟩
          · exact .inl (hr.grow hj)
          · exact .inr ⟨number, hn.grow hj, hj ho⟩

theorem Progress.saved (h : Progress j L w tx entry save) (hs : Saved j save new save' j') :
    Progress j' (L ++ new) w tx entry save' := by
  cases hs with
  | refused =>
      rw [List.append_nil]
      exact .inl h.2.2
  | taken hs hc hfull =>
      next tx' kind args =>
      obtain ⟨-, hentry, hready⟩ := h
      have hnoted : Noted (j.append tx' kind args)
          (L ++ [(j.current.number, ⟨j.nextLsn, tx', kind, args⟩)]) w entry j.current.number :=
        ⟨L, _, rfl, hentry, hready.grow (Grows.append j tx' kind args)⟩
      rcases hs with rfl | rfl <;> exact hnoted
  | handed hj =>
      rw [List.append_nil]
      exact Noted.grow h (Grows.handOver hj)
  | told ho =>
      next persisted =>
      rw [List.append_nil]
      cases persisted with
      | true => exact ⟨_, h, ho⟩
      | false => exact .inr ⟨_, h, ho⟩

theorem Progress.of_taken (h : Progress j L w tx entry save) (hs : Saved j save new save' j')
    {e : ℕ × Record} (he : e ∈ new) :
    e.2.tx = tx ∧ (e.2.kind, e.2.args) = entry ∧ Ready j L w := by
  cases hs with
  | taken hs =>
      obtain rfl := List.mem_singleton.mp he
      exact h
  | _ => simp at he

/-! ### The contents of the store -/

/-- Records in the order in which they were taken. -/
def byLsn (rs : List Record) : List Record := rs.mergeSort fun a b => a.lsn ≤ b.lsn

theorem pairwise_byLsn (rs : List Record) : (byLsn rs).Pairwise fun a b => a.lsn ≤ b.lsn := by
  have h : (byLsn rs).Pairwise fun a b => decide (a.lsn ≤ b.lsn) = true := by
    refine List.pairwise_mergeSort (fun a b c hab hbc => ?_) (fun a b => ?_) rs
    · simp only [decide_eq_true_eq] at hab hbc ⊢
      omega
    · simp only [Bool.or_eq_true, decide_eq_true_eq]
      omega
  simpa using h

theorem byLsn_perm (rs : List Record) : (byLsn rs).Perm rs := List.mergeSort_perm _ _

/-- The records under some numbers are those under the one number after the other. -/
theorem perm_flatMap_recordsIn (noted : List (ℕ × Record)) {ns : List ℕ} (hn : ns.Nodup) :
    (ns.flatMap (recordsIn noted)).Perm ((noted.filter (·.1 ∈ ns)).map (·.2)) := by
  induction ns with
  | nil => simp
  | cons n ns ih =>
      obtain ⟨hnot, hn⟩ := List.nodup_cons.mp hn
      have hsplit := (List.filter_append_perm (fun e : ℕ × Record => decide (e.1 = n))
        (noted.filter (·.1 ∈ n :: ns))).map (·.2)
      rw [List.map_append, List.filter_filter, List.filter_filter] at hsplit
      refine List.Perm.trans ?_ hsplit
      rw [List.flatMap_cons]
      refine List.Perm.append (List.Perm.of_eq ?_) ((ih hn).trans (List.Perm.of_eq ?_))
      · unfold recordsIn
        congr 1
        refine List.filter_congr fun e _ => ?_
        simp only [List.mem_cons]
        grind
      · congr 1
        refine List.filter_congr fun e _ => ?_
        simp only [List.mem_cons]
        grind

section logged
variable {base : List Record} {noted : List (ℕ × Record)} {stored : List Batch}

theorem Logged.durable_perm (h : Logged base j noted stored) :
    (stored.flatMap (·.records)).Perm (durable j noted) := by
  have hrecords : stored.flatMap (·.records) =
      (stored.map (·.number)).flatMap (recordsIn noted) := by
    rw [List.flatMap_map]
    exact List.flatMap_congr h.kept
  have hkept : durable j noted = (noted.filter (·.1 ∈ stored.map (·.number))).map (·.2) := by
    unfold durable
    simp only [h.persisted]
  rw [hrecords, hkept]
  exact perm_flatMap_recordsIn noted h.once

theorem Logged.durable_pairwise (h : Logged base j noted stored) :
    (durable j noted).Pairwise fun a b => a.lsn < b.lsn := by
  have := h.ordered.sublist ((List.filter_sublist (p := fun e => j.outcome? e.1 = some true)
    (l := noted)).map (·.2.lsn))
  exact List.pairwise_map.mpr (List.pairwise_map.mp this)

theorem Logged.mem_durable (h : Logged base j noted stored) {r : Record} :
    r ∈ durable j noted ↔ ∃ b ∈ stored, r ∈ b.records := by
  rw [← h.durable_perm.mem_iff, List.mem_flatMap]

theorem Logged.nodup_contents (h : Logged base j noted stored) (hb : (base.map (·.lsn)).Nodup) :
    ((base ++ stored.flatMap (·.records)).map (·.lsn)).Nodup := by
  rw [List.map_append]
  have hkept : ((stored.flatMap (·.records)).map (·.lsn)).Nodup :=
    ((h.durable_perm.map _).nodup_iff).mpr
      (List.pairwise_map.mpr (h.durable_pairwise.imp fun hlt => Nat.ne_of_lt hlt))
  refine List.nodup_append.mpr ⟨hb, hkept, fun m hm n hn => ?_⟩
  obtain ⟨r, hr, rfl⟩ := List.mem_map.mp hm
  obtain ⟨q, hq, rfl⟩ := List.mem_map.mp hn
  obtain ⟨e, he, rfl⟩ := List.mem_map.mp (h.durable_perm.mem_iff.mp hq)
  exact Nat.ne_of_lt ((h.above r hr).2 e (List.mem_filter.mp he).1)

/-- In the order in which they were taken, the stored records are the old ones and then the new
ones. -/
theorem Logged.byLsn_contents (h : Logged base j noted stored) (hb : (base.map (·.lsn)).Nodup) :
    byLsn (base ++ stored.flatMap (·.records)) = byLsn base ++ durable j noted := by
  have hperm : (byLsn (base ++ stored.flatMap (·.records))).Perm (byLsn base ++ durable j noted) :=
    (byLsn_perm _).trans ((byLsn_perm base).symm.append h.durable_perm)
  have hsorted : (byLsn base ++ durable j noted).Pairwise fun a b => a.lsn ≤ b.lsn := by
    refine List.pairwise_append.mpr ⟨pairwise_byLsn base,
      h.durable_pairwise.imp fun hlt => Nat.le_of_lt hlt, fun r hr q hq => ?_⟩
    obtain ⟨e, he, rfl⟩ := List.mem_map.mp hq
    exact Nat.le_of_lt
      ((h.above r ((byLsn_perm base).mem_iff.mp hr)).2 e (List.mem_filter.mp he).1)
  refine hperm.eq_of_pairwise (fun a b ha hb' hab hba => ?_) (pairwise_byLsn _) hsorted
  refine List.inj_on_of_nodup_map (h.nodup_contents hb) ((byLsn_perm _).mem_iff.mp ha) ?_
    (Nat.le_antisymm hab hba)
  exact (byLsn_perm _).mem_iff.mp (hperm.mem_iff.mpr hb')

end logged
end Journal
end SnapshotStore

import SnapshotStore.Replay
import SnapshotStore.Proofs.Shards.History
import SnapshotStore.Proofs.State
import Mathlib.Data.List.Nodup

/-! # What a replay does

A replay applies the writes of a transaction when it meets the commit record: all writes and deletes
that it met of the transaction before (`stage`, `remember`).  `apply_eq` says what one record does.
`effects` lists what is applied, in order, and `flat_applyAll` says that the shards then hold these
writes on top of what they held, all at the version of replayed data.

If the records of every committed transaction end with the commit, the effects are the writes of the
transactions in the order of their commit records (`effects_eq`). -/

namespace SnapshotStore

/-! ### Shards with replayed data only -/

namespace Shards

/-- Well-formed shards with entries at the version of replayed data only. -/
structure Flat (s : Shards) : Prop where
  sound : s.Sound
  flat : ∀ {key version}, s.history key version ≠ none → version = replayVersion

/-- The replayed value of every key. -/
def replayed (s : Shards) : State := s.get replayVersion

variable {s : Shards}

theorem Flat.get_eq (h : s.Flat) (version : ℕ) (key : String) :
    s.get version key = s.replayed key := by
  rw [replayed, h.sound.get_eq_latest, h.sound.get_eq_latest]
  congr 1
  refine latest_eq_of_le (Nat.zero_le version) fun u hu _ => ?_
  by_contra hne
  exact absurd (h.flat hne) (Nat.ne_of_gt hu)

theorem Flat.setMany (h : s.Flat) (w : Writes) : (s.setMany replayVersion w).Flat where
  sound := h.sound.setMany replayVersion w
  flat {key version} hne := by
    rw [h.sound.history_setMany] at hne
    split at hne
    · assumption
    · exact h.flat hne

theorem Flat.replayed_setMany (h : s.Flat) (w : Writes) :
    (s.setMany replayVersion w).replayed = s.replayed.write w := by
  funext key
  rw [replayed, (h.setMany w).sound.get_eq_latest, State.write, replayed, h.sound.get_eq_latest]
  simp only [replayVersion, latest, h.sound.history_setMany, if_true]
  cases w.get? key <;> rfl

theorem Flat.create {count : ℕ} {towers : ℕ → ℕ → Height} (h : Shards.create count towers = .ok s) :
    s.Flat ∧ s.replayed = State.empty := by
  have hs := Sound.create h
  refine ⟨⟨hs, fun hne => absurd (history_create h _ _) hne⟩, funext fun key => ?_⟩
  rw [replayed, hs.get_eq_latest, latest_eq_none.mpr fun u _ => history_create h key u]
  rfl

end Shards

/-! ### Records that put a value under a key -/

namespace Record

/-- What a record puts under a key: a write with a key and a value puts the value there, and a delete with
a key puts nothing there.  A write or delete that lacks an argument does not count. -/
def put? (r : Record) : Option (String × Option String) :=
  match r.kind, r.args with
  | .set, key :: value :: _ => some (key, some value)
  | .del, key :: _ => some (key, none)
  | _, _ => none

theorem put?_of_isTerminal {r : Record} (h : r.kind.isTerminal = true) : r.put? = none := by
  obtain ⟨lsn, tx, kind, args⟩ := r
  cases kind <;> first | rfl | cases h

theorem of_put? {r : Record} {put : String × Option String} (h : r.put? = some put) :
    r.key? = some put.1 ∧ r.value? = put.2 := by
  obtain ⟨lsn, tx, kind, args⟩ := r
  cases kind with
  | set =>
      rcases args with _ | ⟨key, _ | ⟨value, more⟩⟩ <;> cases h
      exact ⟨rfl, rfl⟩
  | del =>
      rcases args with _ | ⟨key, more⟩ <;> cases h
      exact ⟨rfl, rfl⟩
  | commit => cases h
  | rollback => cases h

end Record

/-! ### The writes of a transaction -/

/-- The writes of a transaction after one more of its records. -/
def stage (w : Writes) (r : Record) : Writes :=
  match r.kind with
  | .set =>
    match r.key?, r.value? with
    | some key, some value => w.insert key (some value)
    | _, _ => w
  | .del =>
    match r.key? with
    | some key => w.insert key none
    | none => w
  | .commit => ∅
  | .rollback => ∅

theorem stage_eq (w : Writes) (r : Record) : stage w r =
    if r.kind.isTerminal then ∅ else r.put?.elim w fun put => w.insert put.1 put.2 := by
  obtain ⟨lsn, tx, kind, args⟩ := r
  cases kind <;> rcases args with _ | ⟨key, _ | ⟨value, more⟩⟩ <;> rfl

namespace Replay

/-- The writes of a transaction that a replay remembers. -/
def writesOf (p : Replay) (tx : ℕ) : Writes := (p.pending.get? tx).getD ∅

/-- What a replay remembers of a transaction after one more of its records. -/
def remember (open? : Option Writes) (r : Record) : Option Writes :=
  match r.kind with
  | .set =>
    match r.key?, r.value? with
    | some key, some value => some ((open?.getD ∅).insert key (some value))
    | _, _ => open?
  | .del =>
    match r.key? with
    | some key => some ((open?.getD ∅).insert key none)
    | none => open?
  | .commit => none
  | .rollback => none

theorem remember_eq (open? : Option Writes) (r : Record) : remember open? r =
    if r.kind.isTerminal then none
    else r.put?.elim open? fun put => some ((open?.getD ∅).insert put.1 put.2) := by
  obtain ⟨lsn, tx, kind, args⟩ := r
  cases kind <;> rcases args with _ | ⟨key, _ | ⟨value, more⟩⟩ <;> rfl

theorem getD_remember (open? : Option Writes) (r : Record) :
    (remember open? r).getD ∅ = stage (open?.getD ∅) r := by
  rw [remember_eq, stage_eq]
  split
  · rfl
  · cases r.put? <;> rfl

/-- What one record makes of a replay and of the shards. -/
theorem apply_eq (p : Replay) (s : Shards) (r : Record) : p.apply s r =
    (decide (r.kind = .commit),
      { pending :=
          if r.kind.isTerminal then p.pending.erase r.tx
          else r.put?.elim p.pending fun put => (p.note r.tx put.1 put.2).pending
        committed := p.committed + if r.kind = .commit then 1 else 0
        maxTx := max p.maxTx r.tx },
      if r.kind = .commit then (p.pending.get? r.tx).elim s (s.setMany replayVersion) else s) := by
  obtain ⟨lsn, tx, kind, args⟩ := r
  cases kind with
  | set => rcases args with _ | ⟨key, _ | ⟨value, more⟩⟩ <;> rfl
  | del => rcases args with _ | ⟨key, more⟩ <;> rfl
  | commit => cases h : p.pending.get? tx <;> simp [apply, h, RecordKind.isTerminal]
  | rollback => rfl

theorem commits_apply (p : Replay) (s : Shards) (r : Record) :
    (p.apply s r).1 = decide (r.kind = .commit) := by
  rw [apply_eq]

theorem committed_apply (p : Replay) (s : Shards) (r : Record) :
    (p.apply s r).2.1.committed = p.committed + if (p.apply s r).1 then 1 else 0 := by
  simp [apply_eq]

theorem maxTx_apply (p : Replay) (s : Shards) (r : Record) :
    (p.apply s r).2.1.maxTx = max p.maxTx r.tx := by
  rw [apply_eq]

theorem shards_apply (p : Replay) (s : Shards) (r : Record) : (p.apply s r).2.2 =
    if r.kind = .commit then (p.pending.get? r.tx).elim s (s.setMany replayVersion) else s := by
  rw [apply_eq]

theorem get?_pending_apply (p : Replay) (s : Shards) (r : Record) (tx : ℕ) :
    (p.apply s r).2.1.pending.get? tx =
      if tx = r.tx then remember (p.pending.get? tx) r else p.pending.get? tx := by
  rw [apply_eq, remember_eq]
  by_cases hend : r.kind.isTerminal = true
  · simp [hend, Table.get?_erase]
  · cases hput : r.put? with
    | none => simp [hend]
    | some put =>
        by_cases htx : tx = r.tx
        · simp [hend, note, htx]
        · simp [hend, note, Table.get?_insert, htx]

theorem writesOf_apply (p : Replay) (s : Shards) (r : Record) (tx : ℕ) :
    (p.apply s r).2.1.writesOf tx =
      if tx = r.tx then stage (p.writesOf tx) r else p.writesOf tx := by
  rw [writesOf, get?_pending_apply]
  split
  · exact getD_remember ..
  · rfl

/-- Only the commit of a transaction changes the shards. -/
theorem flat_apply (p : Replay) {s : Shards} (h : s.Flat) (r : Record) :
    (p.apply s r).2.2.Flat ∧ (p.apply s r).2.2.replayed =
      if r.kind = .commit then s.replayed.write (p.writesOf r.tx) else s.replayed := by
  rw [shards_apply, writesOf]
  by_cases hk : r.kind = .commit
  · rw [if_pos hk, if_pos hk]
    cases p.pending.get? r.tx with
    | none => exact ⟨h, (s.replayed.write_empty).symm⟩
    | some w => exact ⟨h.setMany w, h.replayed_setMany w⟩
  · rw [if_neg hk, if_neg hk]
    exact ⟨h, rfl⟩

/-! ### What is applied -/

/-- The writes that are applied for some records, one transaction after the other, if the open
transactions have some writes already. -/
def effects (f : ℕ → Writes) : List Record → List Writes
  | [] => []
  | r :: rs => (if r.kind = .commit then [f r.tx] else []) ++
      effects (fun tx => if tx = r.tx then stage (f tx) r else f tx) rs

theorem applyAll_cons (p : Replay) (s : Shards) (r : Record) (rs : List Record) :
    (p.applyAll s (r :: rs)).2 = ((p.apply s r).2.1.applyAll (p.apply s r).2.2 rs).2 := rfl

/-- The shards after a replay hold the effects on top of what they held. -/
theorem flat_applyAll (p : Replay) {s : Shards} (h : s.Flat) (rs : List Record) :
    (p.applyAll s rs).2.2.Flat ∧
      (p.applyAll s rs).2.2.replayed = s.replayed.writeAll (effects p.writesOf rs) := by
  induction rs generalizing p s with
  | nil => exact ⟨h, rfl⟩
  | cons r rs ih =>
      obtain ⟨hflat, hstep⟩ := flat_apply p h r
      obtain ⟨hall, hrest⟩ := ih (p.apply s r).2.1 hflat
      have hopen : (p.apply s r).2.1.writesOf =
          fun tx => if tx = r.tx then stage (p.writesOf tx) r else p.writesOf tx :=
        funext (writesOf_apply p s r)
      rw [applyAll_cons]
      refine ⟨hall, ?_⟩
      rw [hrest, hstep, hopen, effects, State.writeAll_append]
      congr 1
      split <;> rfl

theorem get_applyAll_fresh {count : ℕ} {towers : ℕ → ℕ → Height} {s : Shards}
    (hs : Shards.create count towers = .ok s) (rs : List Record) (version : ℕ) (key : String) :
    (fresh.applyAll s rs).2.2.get version key =
      State.empty.writeAll (effects (fun _ => ∅) rs) key := by
  obtain ⟨hflat, hempty⟩ := Shards.Flat.create hs
  obtain ⟨hall, hreplayed⟩ := flat_applyAll fresh hflat rs
  rw [hall.get_eq, hreplayed, hempty]
  rfl

theorem le_maxTx_applyAll (p : Replay) (s : Shards) (rs : List Record) :
    p.maxTx ≤ (p.applyAll s rs).2.1.maxTx ∧ ∀ r ∈ rs, r.tx ≤ (p.applyAll s rs).2.1.maxTx := by
  induction rs generalizing p s with
  | nil => exact ⟨Nat.le_refl _, by simp⟩
  | cons r rs ih =>
      obtain ⟨hle, hall⟩ := ih (p.apply s r).2.1 (p.apply s r).2.2
      rw [applyAll_cons]
      rw [maxTx_apply] at hle
      refine ⟨by omega, fun q hq => ?_⟩
      rcases List.mem_cons.mp hq with rfl | hq
      · omega
      · exact hall q hq

/-- The writes of open transactions after some records, if they have some writes already. -/
def staged (f : ℕ → Writes) (rs : List Record) (tx : ℕ) : Writes :=
  (rs.filter (·.tx = tx)).foldl stage (f tx)

theorem staged_cons (f : ℕ → Writes) (r : Record) (rs : List Record) :
    staged f (r :: rs) = staged (fun tx => if tx = r.tx then stage (f tx) r else f tx) rs := by
  funext tx
  by_cases htx : tx = r.tx
  · simp [staged, htx]
  · simp [staged, htx, Ne.symm htx]

theorem staged_append (f : ℕ → Writes) (rs ss : List Record) :
    staged f (rs ++ ss) = staged (staged f rs) ss := by
  funext tx
  rw [staged, List.filter_append, List.foldl_append]
  rfl

theorem writesOf_applyAll (p : Replay) (s : Shards) (rs : List Record) :
    (p.applyAll s rs).2.1.writesOf = staged p.writesOf rs := by
  induction rs generalizing p s with
  | nil => rfl
  | cons r rs ih => rw [applyAll_cons, ih, staged_cons, funext (writesOf_apply p s r)]

theorem effects_append (f : ℕ → Writes) (rs ss : List Record) :
    effects f (rs ++ ss) = effects f rs ++ effects (staged f rs) ss := by
  induction rs generalizing f with
  | nil => rfl
  | cons r rs ih => rw [List.cons_append, effects, effects, ih, List.append_assoc, staged_cons]

theorem effects_congr {f g : ℕ → Writes} {rs : List Record} (h : ∀ r ∈ rs, f r.tx = g r.tx) :
    effects f rs = effects g rs := by
  induction rs generalizing f g with
  | nil => rfl
  | cons r rs ih =>
      rw [effects, effects, h r (List.mem_cons_self ..)]
      congr 1
      refine ih fun q hq => ?_
      have hf := h q (List.mem_cons_of_mem _ hq)
      simp only [hf]

theorem effects_append_of_disjoint {rs ss : List Record} (h : ∀ r ∈ rs, ∀ q ∈ ss, r.tx ≠ q.tx) :
    effects (fun _ => ∅) (rs ++ ss) = effects (fun _ => ∅) rs ++ effects (fun _ => ∅) ss := by
  rw [effects_append]
  congr 1
  refine effects_congr fun q hq => ?_
  have hnone : rs.filter (·.tx = q.tx) = [] := by
    rw [List.filter_eq_nil_iff]
    simpa using fun r hr => h r hr q hq
  rw [staged, hnone]
  rfl

theorem filter_tx_concat (rs : List Record) (r : Record) (tx : ℕ) :
    (rs ++ [r]).filter (·.tx = tx) = rs.filter (·.tx = tx) ++ if r.tx = tx then [r] else [] := by
  rw [List.filter_append]
  congr 1
  by_cases h : r.tx = tx <;> simp [h]

/-- If the records of a committed transaction end with the commit, its writes are applied, and the
transactions take effect in the order of their commits. -/
theorem effects_eq {rs : List Record} (hn : rs.Nodup) (w : ℕ → Writes)
    (h : ∀ r ∈ rs, r.kind = .commit → ∃ qs, rs.filter (·.tx = r.tx) = qs ++ [r] ∧
      qs.foldl stage ∅ = w r.tx) :
    effects (fun _ => ∅) rs = (rs.filter (·.kind = .commit)).map fun r => w r.tx := by
  induction rs using List.reverseRecOn with
  | nil => rfl
  | append_singleton rs r ih =>
      obtain ⟨hrs, -, hne⟩ := List.nodup_append.mp hn
      have hih := ih hrs fun q hq hk => by
        obtain ⟨qs, hqs, hw⟩ := h q (List.mem_append_left _ hq) hk
        rw [filter_tx_concat] at hqs
        split at hqs
        · have := (List.append_inj' hqs rfl).2
          exact absurd (by simpa using this.symm) (hne q hq r (List.mem_singleton.mpr rfl))
        · exact ⟨qs, by simpa using hqs, hw⟩
      rw [effects_append, hih, List.filter_append, List.map_append]
      congr 1
      by_cases hk : r.kind = .commit
      · obtain ⟨qs, hqs, hw⟩ := h r (List.mem_append_right _ (List.mem_singleton.mpr rfl)) hk
        rw [filter_tx_concat, if_pos rfl] at hqs
        have hprefix := (List.append_inj' hqs rfl).1
        simp [effects, staged, hk, hprefix, hw]
      · simp [effects, hk]

end Replay
end SnapshotStore

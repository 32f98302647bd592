import SnapshotStore.Proofs.Replay.Interrupted
import SnapshotStore.Proofs.Replay.Order
import SnapshotStore.Proofs.Shards.VersionMap
import Mathlib.Data.Set.Card

/-! # What a replay commits

Any list of records says which values are committed: a commit record commits what waits for it, that is
what its transaction put last under each key since it ended before (`Waits`, `Commits`).

A replay leaves each key with what the last of the commits that have the key gave it, and everything else
as it was (`history_applyAll`, `lastWrite_effects`), whatever the shards held.  A key that a part of
the records commits is committed again by all of them, so replaying a first part, or everything, once more
makes no difference (`replay_commits`). -/

namespace SnapshotStore

namespace Replay

variable {rs : List Record} {r : Record} {key : String} {value : Option String} {tx : ℕ}

/-! ### What waits for a commit -/

/-- Some record has a property, and no record after it undoes that. -/
def Lasts (has undoes : Record → Prop) (rs : List Record) : Prop :=
  ∃ before r later, rs = before ++ r :: later ∧ has r ∧ ∀ q ∈ later, ¬ undoes q

/-- The value, or the delete, that the records of a transaction put last under a key, if the transaction
has not ended since. -/
def Waits (rs : List Record) (tx : ℕ) (key : String) (value : Option String) : Prop :=
  Lasts (fun r => r.tx = tx ∧ r.put? = some (key, value))
    (fun q => q.tx = tx ∧ (q.kind.isTerminal = true ∨ ∃ v, q.put? = some (key, v))) rs

/-- A transaction that has put something since it ended last. -/
def Pending (rs : List Record) (tx : ℕ) : Prop :=
  Lasts (fun r => r.tx = tx ∧ r.put?.isSome) (fun q => q.tx = tx ∧ q.kind.isTerminal = true) rs

/-- The record at a position is a commit, for which a value of a key has waited. -/
def Commits (rs : List Record) (i : ℕ) (key : String) (value : Option String) : Prop :=
  ∃ r, rs[i]? = some r ∧ r.kind = .commit ∧ Waits (rs.take i) r.tx key value

section lasts
variable {has undoes : Record → Prop}

theorem not_lasts_nil : ¬ Lasts has undoes [] := by
  rintro ⟨before, r, later, h, -⟩
  simp at h

theorem lasts_concat_iff :
    Lasts has undoes (rs ++ [r]) ↔ has r ∨ ¬ undoes r ∧ Lasts has undoes rs := by
  constructor
  · rintro ⟨before, q, later, hsplit, hhas, hlater⟩
    rcases List.eq_nil_or_concat later with rfl | ⟨later, last, rfl⟩
    · obtain ⟨-, hq⟩ := List.append_inj' hsplit rfl
      obtain rfl := List.singleton_inj.mp hq
      exact .inl hhas
    · rw [List.concat_eq_append] at hsplit hlater
      rw [← List.cons_append, ← List.append_assoc] at hsplit
      obtain ⟨rfl, hq⟩ := List.append_inj' hsplit rfl
      obtain rfl := List.singleton_inj.mp hq
      obtain ⟨hlater, hlast⟩ := List.forall_mem_append.mp hlater
      exact .inr ⟨hlast r (List.mem_singleton.mpr rfl), before, q, later, rfl, hhas, hlater⟩
  · rintro (hhas | ⟨hkept, before, q, later, rfl, hhas, hlater⟩)
    · exact ⟨rs, r, [], rfl, hhas, by simp⟩
    · refine ⟨before, q, later ++ [r], by simp, hhas, List.forall_mem_append.mpr ⟨hlater, ?_⟩⟩
      simpa using hkept

end lasts

theorem staged_concat (f : ℕ → Writes) (rs : List Record) (r : Record) (tx : ℕ) :
    staged f (rs ++ [r]) tx = if tx = r.tx then stage (staged f rs tx) r else staged f rs tx := by
  rw [staged_append, staged_cons]
  rfl

/-- A replay has staged what waits. -/
theorem get?_staged_iff :
    (staged (fun _ => ∅) rs tx).get? key = some value ↔ Waits rs tx key value := by
  induction rs using List.reverseRecOn with
  | nil =>
      exact iff_of_false (by simp [staged]) not_lasts_nil
  | append_singleton rs r ih =>
      rw [staged_concat, Waits, lasts_concat_iff, ← Waits, ← ih]
      by_cases htx : tx = r.tx
      · rw [if_pos htx, stage_eq]
        by_cases hend : r.kind.isTerminal = true
        · simp [hend, htx, Record.put?_of_isTerminal hend]
        · cases hput : r.put? with
          | none => simp [hend, htx]
          | some put =>
              obtain ⟨k, v⟩ := put
              by_cases hk : key = k
              · simp [hend, htx, hk]
              · simp [hend, htx, hk, Ne.symm hk, Table.get?_insert]
      · simp [htx, Ne.symm htx]

theorem isSome_foldl_remember_iff :
    ((rs.filter (·.tx = tx)).foldl remember none).isSome ↔ Pending rs tx := by
  induction rs using List.reverseRecOn with
  | nil => exact iff_of_false (by simp) not_lasts_nil
  | append_singleton rs r ih =>
      rw [filter_tx_concat, Pending, lasts_concat_iff, ← Pending, ← ih]
      by_cases htx : r.tx = tx
      · rw [if_pos htx, List.foldl_append, List.foldl_cons, List.foldl_nil, remember_eq]
        by_cases hend : r.kind.isTerminal = true
        · simp [hend, htx, Record.put?_of_isTerminal hend]
        · cases hput : r.put? with
          | none => simp [hend, htx]
          | some put => simp [hend, htx]
      · simp [htx]

theorem commits_concat_iff {i : ℕ} : Commits (rs ++ [r]) i key value ↔
    Commits rs i key value ∨ i = rs.length ∧ r.kind = .commit ∧ Waits rs r.tx key value := by
  unfold Commits
  rcases Nat.lt_trichotomy i rs.length with hlt | rfl | hgt
  · rw [List.getElem?_append_left hlt, List.take_append_of_le_length (Nat.le_of_lt hlt)]
    simp [Nat.ne_of_lt hlt]
  · simp
  · have hrs : rs[i]? = none := List.getElem?_eq_none (Nat.le_of_lt hgt)
    have hall : (rs ++ [r])[i]? = none := List.getElem?_eq_none (by simpa using hgt)
    simp [hrs, hall, Nat.ne_of_gt hgt]

/-- A value of a key that was committed, and the key was not committed again. -/
def CommitsLast (rs : List Record) (key : String) (value : Option String) : Prop :=
  ∃ i, Commits rs i key value ∧ ∀ j v, i < j → ¬ Commits rs j key v

/-! ### The last commit of a key -/

/-- What the last of some writes that have a key gives it. -/
def lastWrite (ws : List Writes) (key : String) : Option (Option String) :=
  ws.foldl (fun found w => (w.get? key).or found) none

theorem lastWrite_concat (ws : List Writes) (w : Writes) (key : String) :
    lastWrite (ws ++ [w]) key = (w.get? key).or (lastWrite ws key) := by
  rw [lastWrite, List.foldl_append]
  rfl

theorem lastWrite_append (ws vs : List Writes) (key : String) :
    lastWrite (ws ++ vs) key = (lastWrite vs key).or (lastWrite ws key) := by
  induction vs using List.reverseRecOn with
  | nil => simp [lastWrite]
  | append_singleton vs v ih =>
      rw [← List.append_assoc, lastWrite_concat, ih, lastWrite_concat, Option.or_assoc]

theorem lt_of_commits {i : ℕ} (h : Commits rs i key value) : i < rs.length := by
  obtain ⟨r, hr, -⟩ := h
  exact (List.getElem?_eq_some_iff.mp hr).1

/-- The effects of a replay give a key the value that is committed last, and no value if none is
committed. -/
theorem lastWrite_effects (rs : List Record) (key : String) :
    (∃ value, lastWrite (effects (fun _ => ∅) rs) key = some value ∧ CommitsLast rs key value) ∨
      lastWrite (effects (fun _ => ∅) rs) key = none ∧ ∀ i v, ¬ Commits rs i key v := by
  induction rs using List.reverseRecOn with
  | nil => exact .inr ⟨rfl, fun i v h => absurd (lt_of_commits h) (Nat.not_lt_zero i)⟩
  | append_singleton rs r ih =>
      rw [effects_concat]
      by_cases hnew : ∃ value, r.kind = .commit ∧ Waits rs r.tx key value
      · obtain ⟨value, hk, hwaits⟩ := hnew
        refine .inl ⟨value, ?_, rs.length, commits_concat_iff.mpr (.inr ⟨rfl, hk, hwaits⟩), ?_⟩
        · rw [if_pos hk, lastWrite_concat, get?_staged_iff.mpr hwaits, Option.some_or]
        · intro j v hj h
          have := lt_of_commits h
          rw [List.length_append, List.length_singleton] at this
          omega
      · have hold {i : ℕ} {v : Option String} : Commits (rs ++ [r]) i key v ↔ Commits rs i key v := by
          rw [commits_concat_iff, or_iff_left]
          exact fun h => hnew ⟨v, h.2⟩
        have hsame : lastWrite (effects (fun _ => ∅) rs ++
            if r.kind = .commit then [staged (fun _ => ∅) rs r.tx] else []) key =
              lastWrite (effects (fun _ => ∅) rs) key := by
          split
          · next hk =>
            have hnone : (staged (fun _ => ∅) rs r.tx).get? key = none := by
              rw [Option.eq_none_iff_forall_ne_some]
              exact fun v hv => hnew ⟨v, hk, get?_staged_iff.mp hv⟩
            rw [lastWrite_concat, hnone, Option.none_or]
          · rw [List.append_nil]
        simp only [hsame, CommitsLast, hold]
        exact ih

/-! ### The shards after a replay -/

variable {s : Shards} {m : VersionMap}

theorem history_apply (p : Replay) (hs : s.Sound) (r : Record) (key : String) (u : ℕ) :
    (p.apply s r).2.2.history key u = if r.kind = .commit ∧ u = replayVersion
      then ((p.writesOf r.tx).get? key).or (s.history key u) else s.history key u := by
  rw [shards_apply, writesOf]
  by_cases hk : r.kind = .commit
  · cases p.pending.get? r.tx with
    | none => simp
    | some w => simp [hk, hs.history_setMany]
  · simp [hk]

theorem exists_holds_apply (p : Replay) (h : s.Holds m) (r : Record) :
    ∃ m', (p.apply s r).2.2.Holds m' := by
  rw [shards_apply]
  split
  · cases p.pending.get? r.tx with
    | none => exact ⟨m, h⟩
    | some w => exact ⟨_, h.setMany replayVersion w⟩
  · exact ⟨m, h⟩

theorem applyAll_concat (p : Replay) (s : Shards) (rs : List Record) (r : Record) :
    (p.applyAll s (rs ++ [r])).2 = ((p.applyAll s rs).2.1.apply (p.applyAll s rs).2.2 r).2 := by
  induction rs generalizing p s with
  | nil => rfl
  | cons q rs ih => rw [List.cons_append, applyAll_cons, applyAll_cons, ih]

/-- A replay changes what its effects write, at its version. -/
theorem history_applyAll (p : Replay) (h : s.Holds m) (rs : List Record) :
    ∃ m', (p.applyAll s rs).2.2.Holds m' ∧ ∀ key u, (p.applyAll s rs).2.2.history key u =
      if u = replayVersion then (lastWrite (effects p.writesOf rs) key).or (s.history key u)
      else s.history key u := by
  induction rs using List.reverseRecOn with
  | nil => exact ⟨m, h, fun key u => by simp [applyAll, effects, lastWrite]⟩
  | append_singleton rs r ih =>
      obtain ⟨m₁, hholds, hhistory⟩ := ih
      obtain ⟨m₂, hholds'⟩ := exists_holds_apply (p.applyAll s rs).2.1 hholds r
      rw [applyAll_concat]
      refine ⟨m₂, hholds', fun key u => ?_⟩
      rw [history_apply _ hholds.sound, hhistory, writesOf_applyAll, effects_concat]
      by_cases hk : r.kind = .commit <;> by_cases hu : u = replayVersion <;>
        simp [hk, hu, lastWrite_concat, Option.or_assoc]

theorem history_applyAll_again (h : s.Holds m) (before later : List Record) (key : String) (u : ℕ) :
    (fresh.applyAll (fresh.applyAll s before).2.2 (before ++ later)).2.2.history key u =
      (fresh.applyAll s (before ++ later)).2.2.history key u := by
  obtain ⟨m₁, hholds, hpart⟩ := history_applyAll fresh h before
  obtain ⟨-, -, hall⟩ := history_applyAll fresh h (before ++ later)
  obtain ⟨-, -, hagain⟩ := history_applyAll fresh hholds (before ++ later)
  rw [hagain, hall, hpart]
  split
  · rw [effects_append, lastWrite_append, Option.or_assoc, Option.or_assoc]
    congr 1
    rw [← Option.or_assoc, Option.or_self]
  · rfl

/-! ### What a replay counts -/

theorem count_applyAll_cons (p : Replay) (s : Shards) (r : Record) (rs : List Record) :
    (p.applyAll s (r :: rs)).1 = ((p.apply s r).2.1.applyAll (p.apply s r).2.2 rs).1 +
      if (p.apply s r).1 then 1 else 0 := by
  rw [applyAll]
  dsimp only
  split <;> rfl

theorem count_applyAll (p : Replay) (s : Shards) (rs : List Record) :
    (p.applyAll s rs).1 = rs.countP (·.kind = .commit) := by
  induction rs generalizing p s with
  | nil => rfl
  | cons r rs ih => rw [count_applyAll_cons, ih, commits_apply, List.countP_cons]

theorem committed_applyAll (p : Replay) (s : Shards) (rs : List Record) :
    (p.applyAll s rs).2.1.committed = p.committed + (p.applyAll s rs).1 := by
  induction rs generalizing p s with
  | nil => rfl
  | cons r rs ih =>
      rw [applyAll_cons, ih, committed_apply, count_applyAll_cons]
      omega

theorem maxTx_applyAll (p : Replay) (s : Shards) (rs : List Record) :
    (p.applyAll s rs).2.1.maxTx = (rs.map (·.tx)).foldl max p.maxTx := by
  induction rs generalizing p s with
  | nil => rfl
  | cons r rs ih => rw [applyAll_cons, ih, maxTx_apply, List.map_cons, List.foldl_cons]

theorem maxTx_fresh (s : Shards) (rs : List Record) :
    (fresh.applyAll s rs).2.1.maxTx = (rs.map (·.tx)).max?.getD 0 := by
  rw [maxTx_applyAll]
  cases rs with
  | nil => rfl
  | cons r rs =>
      rw [List.map_cons, List.foldl_cons, List.max?_cons', Option.getD_some]
      exact congrArg (List.foldl max · _) (Nat.zero_max r.tx)

theorem pendingCount_fresh (s : Shards) (rs : List Record) :
    (fresh.applyAll s rs).2.1.pendingCount = {tx | Pending rs tx}.ncard := by
  have hkeys : {tx | Pending rs tx} = ((fresh.applyAll s rs).2.1.pending.keys.toFinset : Set ℕ) := by
    ext tx
    rw [Set.mem_ofPred_eq, ← isSome_foldl_remember_iff, Finset.mem_coe, List.mem_toFinset,
      Table.mem_keys_iff, get?_pending_applyAll, Option.isSome_iff_exists]
    rfl
  have hnodup : (fresh.applyAll s rs).2.1.pending.keys.Nodup := (fresh.applyAll s rs).2.1.pending.nodup
  rw [hkeys, Set.ncard_coe_finset, List.toFinset_card_of_nodup hnodup, Table.keys, List.length_map]
  rfl

/-! ### Replays of one log -/

theorem holds_of_history_eq {t : Shards} {m' : VersionMap} (hs : s.Holds m) (ht : t.Holds m')
    (h : ∀ key u, t.history key u = s.history key u) : t.Holds m := by
  have hm : m' = m := Finmap.ext_lookup fun k => by
    rw [← ht.history k.key k.version, h, hs.history]
  exact hm ▸ ht

/-- A replay of any records into any shards does what its commits say, and can be repeated.

* What is not at the version of replayed data stays as it was.
* A key has the value that is committed last, or stays as it was if none is committed.
* The replay gives back the number of commits and keeps it, counts the transactions that have put something
  since they ended last, and knows the highest number of a transaction.
* The shards hold the same if all records are replayed again, or if a first part of them was replayed
  before. -/
theorem replay_commits (h : s.Holds m) (rs : List Record) : ∃ m' : VersionMap,
    (fresh.applyAll s rs).2.2.Holds m' ∧
    (∀ key version, 0 < version → m'.lookup ⟨key, version⟩ = m.lookup ⟨key, version⟩) ∧
    (∀ key, (∃ value, CommitsLast rs key value ∧ m'.lookup ⟨key, 0⟩ = some value) ∨
      (∀ i value, ¬ Commits rs i key value) ∧ m'.lookup ⟨key, 0⟩ = m.lookup ⟨key, 0⟩) ∧
    (fresh.applyAll s rs).1 = rs.countP (·.kind = .commit) ∧
    (fresh.applyAll s rs).2.1.committed = rs.countP (·.kind = .commit) ∧
    (fresh.applyAll s rs).2.1.pendingCount = {tx | Pending rs tx}.ncard ∧
    (fresh.applyAll s rs).2.1.maxTx = (rs.map (·.tx)).max?.getD 0 ∧
    (fresh.applyAll (fresh.applyAll s rs).2.2 rs).2.2.Holds m' ∧
    ∀ before, before <+: rs → (fresh.applyAll (fresh.applyAll s before).2.2 rs).2.2.Holds m' := by
  obtain ⟨m', hholds, hhistory⟩ := history_applyAll fresh h rs
  have hlookup (key : String) (u : ℕ) : m'.lookup ⟨key, u⟩ = if u = 0 then
      (lastWrite (effects (fun _ => ∅) rs) key).or (m.lookup ⟨key, u⟩) else m.lookup ⟨key, u⟩ := by
    rw [← hholds.history, ← h.history]
    exact hhistory key u
  have hagain : ∀ before, before <+: rs →
      (fresh.applyAll (fresh.applyAll s before).2.2 rs).2.2.Holds m' := by
    rintro before ⟨later, rfl⟩
    obtain ⟨m₁, hbefore, -⟩ := history_applyAll fresh h before
    obtain ⟨m₂, hall, -⟩ := history_applyAll fresh hbefore (before ++ later)
    exact holds_of_history_eq hholds hall fun key u => history_applyAll_again h before later key u
  refine ⟨m', hholds, fun key version hpos => ?_, fun key => ?_, count_applyAll fresh s rs, ?_,
    pendingCount_fresh s rs, maxTx_fresh s rs, hagain rs (List.prefix_refl rs), hagain⟩
  · rw [hlookup, if_neg (Nat.ne_of_gt hpos)]
  · rw [hlookup, if_pos rfl]
    rcases lastWrite_effects rs key with ⟨value, hvalue, hlast⟩ | ⟨hnone, hno⟩
    · exact .inl ⟨value, hlast, by rw [hvalue, Option.some_or]⟩
    · exact .inr ⟨hno, by rw [hnone, Option.none_or]⟩
  · rw [committed_applyAll, count_applyAll]
    exact Nat.zero_add _

/-! ### Interleaved transactions -/

/-- Writes of two transactions that overtake each other, a write without a value, a transaction that is
committed twice, a commit of nothing, and a transaction that stays open. -/
def sampleRecords : List Record :=
  [⟨1, 4, .set, ["tide", "1"]⟩, ⟨2, 9, .set, ["tide", "2"]⟩, ⟨3, 4, .set, ["wave", "3"]⟩,
    ⟨4, 4, .set, ["ebb"]⟩, ⟨5, 9, .commit, []⟩, ⟨6, 4, .commit, []⟩, ⟨7, 9, .del, ["wave"]⟩,
    ⟨8, 9, .commit, []⟩, ⟨9, 4, .commit, []⟩, ⟨10, 6, .set, ["flood", "4"]⟩, ⟨11, 5, .rollback, []⟩]

/-- Three shards with older values. -/
def sampleShards : Shards :=
  Shards.after Shards.serve ⟨Array.ofFn fun _ : Fin 3 => SkipList.empty Height.ruler, by simp⟩
    [.set 0 "tide" (some "0"), .set 0 "ebb" (some "0"), .set 5 "wave" (some "old")]

theorem exists_holds_sampleShards : ∃ m, sampleShards.Holds m := by
  have hcreate : Shards.create 3 (fun _ => Height.ruler) =
      .ok ⟨Array.ofFn fun _ : Fin 3 => SkipList.empty Height.ruler, by simp⟩ := rfl
  exact ⟨_, (Shards.Holds.create hcreate).after _⟩

/-- The commits are applied in their order, on top of what was there, and once more without a trace. -/
theorem replay_commits_sample : (fresh.applyAll sampleShards sampleRecords).1 = 4 ∧
    (fresh.applyAll sampleShards sampleRecords).2.1.committed = 4 ∧
    {tx | Pending sampleRecords tx}.ncard = 1 ∧
    (fresh.applyAll sampleShards sampleRecords).2.1.maxTx = 9 ∧
    ∀ t ∈ [(fresh.applyAll sampleShards sampleRecords).2.2,
        (fresh.applyAll (fresh.applyAll sampleShards sampleRecords).2.2 sampleRecords).2.2,
        (fresh.applyAll (fresh.applyAll sampleShards (sampleRecords.take 7)).2.2 sampleRecords).2.2],
      Shards.answers Shards.serve t
        [.getMany 0 ["tide", "wave", "ebb", "flood"], .get 7 "wave", .versionCount] =
      [.values [some "1", none, some "0", none], .value (some "old"), .count 4] := by
  obtain ⟨m, hm⟩ := exists_holds_sampleShards
  obtain ⟨m', honce, -, -, hcount, hcommitted, hpending, hmax, htwice, hpart⟩ :=
    replay_commits hm sampleRecords
  refine ⟨hcount.trans (by decide), hcommitted.trans (by decide), ?_, hmax.trans (by decide),
    fun t ht => ?_⟩
  · rw [← hpending]
    decide +kernel
  · have hholds : t.Holds m' := by
      simp only [List.mem_cons, List.not_mem_nil, or_false] at ht
      rcases ht with rfl | rfl | rfl
      · exact honce
      · exact htwice
      · exact hpart _ (List.take_prefix 7 sampleRecords)
    rw [hholds.answers, ← honce.answers]
    decide +kernel

end Replay
end SnapshotStore

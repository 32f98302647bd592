import SnapshotStore.Database
import SnapshotStore.Proofs.Coordinator
import SnapshotStore.Proofs.Run.Durability

/-! # Recovery

A store has one life after the other (`Lives`): each starts with empty shards on the log that the
last one left, replays it (`boot`), and runs until it is stopped at some point.  A `Chronicle` says
what the log of such a history holds, and every further life keeps it (`Chronicle.next`):

* its commit records are those of the stored commits of all lives;
* a replay gives the state after these commits, in the order of lives and of end versions
  (`recoveredState`).

Hence recovery restores what was committed, and nothing else (`recovery_restores`). -/

namespace SnapshotStore
namespace Run

open Journal (LogStore AtomicStore Logged byLsn durable)

variable {σ : Type}

section stored
variable [LogStore σ]

/-! ### A coordinator on a log -/

/-- A database with empty shards, after it replayed a log. -/
def boot (store : σ) (shards : Shards) (batchSize threshold : ℕ) : Outcome Unit × Database σ :=
  (Database.create (Coordinator.create shards (some (Journal.start store batchSize)) threshold)
    false).recover

/-- A coordinator of a database that replayed a log. -/
def Booted (store : σ) (c : Coordinator σ) : Prop :=
  ∃ count towers shards batchSize threshold, Shards.create count towers = .ok shards ∧
    ∃ d : Database σ, boot store shards batchSize threshold = (.ok (), d) ∧ d.coordinator = c

variable {store : σ}

/-- What a coordinator has that replayed some records of a store: the effects of the replay at the
version of replayed data, all numbers of transactions behind it, no locks, and a new journal on the
store with numbers above those of the records. -/
structure Restored (rs : List Record) (store : σ) (c : Coordinator σ) : Prop where
  flat : c.shards.Flat
  replayed : c.shards.replayed = State.empty.writeAll (Replay.effects (fun _ => ∅) (byLsn rs))
  past : ∀ r ∈ rs, r.tx ≤ c.lastVersion
  locks : ∃ threshold, c.locks = LockTable.create threshold
  journal : ∃ batchSize first, 0 < first ∧ (∀ r ∈ rs, r.lsn < first) ∧
    c.journal = some { Journal.start store batchSize with nextLsn := first }

omit [LogStore σ] in
theorem Restored.logged {rs : List Record} {c : Coordinator σ} (h : Restored rs store c) :
    ∃ j, c.journal = some j ∧ Logged rs j [] [] ∧ j.store = store := by
  obtain ⟨batchSize, first, -, hlt, hj⟩ := h.journal
  exact ⟨_, hj, .of_fresh rfl rfl rfl hlt, rfl⟩

omit [LogStore σ] in
theorem Restored.fresh {rs : List Record} {c : Coordinator σ} (h : Restored rs store c) :
    Fresh c where
  sound := h.flat.sound
  locks := h.locks
  past hne := (h.flat.flat hne).trans_le (Nat.zero_le _)

/-- A journal that reads its records back gives the next ones higher numbers. -/
theorem recover_start {recovered : Journal.Recovered}
    (hread : LogStore.read store = .ok recovered) (batchSize : ℕ) :
    ∃ first, 0 < first ∧ (∀ r ∈ recovered.records, r.lsn < first) ∧
      (Journal.start store batchSize).recover = (.ok (byLsn recovered.records),
        { Journal.start store batchSize with nextLsn := first }) := by
  have hmem {r : Record} : r ∈ recovered.records ↔ r ∈ byLsn recovered.records :=
    (Journal.byLsn_perm _).mem_iff.symm
  unfold Journal.recover
  simp only [Journal.start, hread]
  have hbyLsn : (recovered.records.mergeSort fun a b => a.lsn ≤ b.lsn) = byLsn recovered.records := rfl
  rw [hbyLsn]
  cases hlast : (byLsn recovered.records).getLast? with
  | none =>
      rw [List.getLast?_eq_none_iff] at hlast
      refine ⟨1, Nat.one_pos, fun r hr => ?_, rfl⟩
      simp [hmem, hlast] at hr
  | some last =>
      refine ⟨max 1 (last.lsn + 1), by omega, fun r hr => ?_, rfl⟩
      obtain ⟨rs, hrs⟩ := List.getLast?_eq_some_iff.mp hlast
      have hle : r.lsn ≤ last.lsn := by
        have hsorted := Journal.pairwise_byLsn recovered.records
        rw [hmem, hrs] at hr
        rw [hrs] at hsorted
        rcases List.mem_append.mp hr with hr | hr
        · exact (List.pairwise_append.mp hsorted).2.2 r hr last (List.mem_singleton.mpr rfl)
        · rw [List.mem_singleton.mp hr]
      omega

/-- If a log can be read, recovery succeeds. -/
theorem Restored.of_read {recovered : Journal.Recovered}
    (hread : LogStore.read store = .ok recovered) {count : ℕ} {towers : ℕ → ℕ → Height}
    {shards : Shards} (hs : Shards.create count towers = .ok shards) (batchSize threshold : ℕ) :
    ∃ d, boot store shards batchSize threshold = (.ok (), d) ∧
      Restored recovered.records store d.coordinator := by
  obtain ⟨first, hpos, hlt, hrecover⟩ := recover_start hread batchSize
  obtain ⟨hflat, hempty⟩ := Shards.Flat.create hs
  obtain ⟨hall, hreplayed⟩ := Replay.flat_applyAll .fresh hflat (byLsn recovered.records)
  have hmax := (Replay.le_maxTx_applyAll .fresh shards (byLsn recovered.records)).2
  refine ⟨(Database.create ⟨shards, LockTable.create threshold,
    some { Journal.start store batchSize with nextLsn := first }, 0⟩ false).replay
    (byLsn recovered.records), ?_, ?_⟩
  · simp only [boot, Database.recover, Database.create, Coordinator.create, hrecover]
  · refine ⟨hall, ?_, fun r hr => ?_, ⟨threshold, rfl⟩, batchSize, first, hpos, hlt, rfl⟩
    · refine hreplayed.trans ?_
      rw [hempty]
      rfl
    · refine (hmax r ((Journal.byLsn_perm _).mem_iff.mpr hr)).trans ?_
      exact Nat.le_max_right ..

/-- A coordinator that replayed a log could read it. -/
theorem Booted.recovered {c : Coordinator σ} (h : Booted store c) :
    ∃ recovered, LogStore.read store = .ok recovered ∧ Restored recovered.records store c := by
  obtain ⟨count, towers, shards, batchSize, threshold, hs, d, hd, rfl⟩ := h
  cases hread : LogStore.read store with
  | ok recovered =>
      obtain ⟨d', hd', hrestored⟩ := Restored.of_read hread hs batchSize threshold
      obtain rfl : d' = d := (Prod.mk.inj (hd'.symm.trans hd)).2
      exact ⟨recovered, rfl, hrestored⟩
  | error fault =>
      simp [boot, Database.recover, Database.create, Coordinator.create, Journal.recover,
        Journal.start, hread] at hd

/-! ### What a log holds -/

/-- The state that recovery gives after some lives of a store: on top of nothing, the stored commits
of one life after the other, each life in the order of end versions. -/
def recoveredState (lives : List (System σ)) : State :=
  lives.foldl (fun m s => afterCommits m (storedCommits s.trace)) State.empty

omit [LogStore σ] in
theorem recoveredState_concat (past : List (System σ)) (s : System σ) :
    recoveredState (past ++ [s]) = afterCommits (recoveredState past) (storedCommits s.trace) :=
  List.foldl_append

/-- What a log holds after some lives. -/
structure Chronicle (lives : List (System σ)) (rs : List Record) : Prop where
  nodup : (rs.map (·.lsn)).Nodup
  state : State.empty.writeAll (Replay.effects (fun _ => ∅) (byLsn rs)) = recoveredState lives
  commits : ∀ id, (∃ r ∈ rs, r.tx = id ∧ r.kind = .commit) ↔
    ∃ s ∈ lives, ∃ x ∈ storedCommits s.trace, x.id = id

omit [LogStore σ] in
theorem chronicle_nil : Chronicle ([] : List (System σ)) [] :=
  ⟨by simp, by simp [byLsn, Replay.effects, recoveredState], by simp⟩

section life
variable {c : Coordinator σ} {s : System σ} {j : Journal σ} {base : List Record}

omit [LogStore σ] in
theorem Logging.lastVersion_lt (hv : Versioned c s) (h : Logging base j s) {e : ℕ × Record}
    (he : e ∈ noted s.trace) : c.lastVersion < e.2.tx :=
  (hv.numbered.bounds _ (mem_versions (h.began e he) rfl)).1

omit [LogStore σ] in
theorem Logging.past_lt (hv : Versioned c s) (h : Logging base j s) {r : Record}
    (hr : r ∈ durable j (noted s.trace)) : c.lastVersion < r.tx := by
  obtain ⟨e, he, rfl⟩ := List.mem_map.mp hr
  exact h.lastVersion_lt hv (List.mem_filter.mp he).1

omit [LogStore σ] in
/-- A commit record of a life is stored if and only if it is that of a stored commit. -/
theorem Logging.exists_commit_iff (h : Logging base j s) (id : ℕ) :
    (∃ r ∈ (stored s.trace).flatMap (·.records), r.tx = id ∧ r.kind = .commit) ↔
      ∃ x ∈ storedCommits s.trace, x.id = id := by
  have hstored : (∃ r ∈ (stored s.trace).flatMap (·.records), r.tx = id ∧ r.kind = .commit) ↔
      isStored s.trace id = true := by
    rw [isStored_iff]
    constructor
    · rintro ⟨r, hr, hk⟩
      obtain ⟨b, hb, hr⟩ := List.mem_flatMap.mp hr
      exact ⟨b, hb, r, hr, hk⟩
    · rintro ⟨b, hb, r, hr, hk⟩
      exact ⟨r, List.mem_flatMap.mpr ⟨b, hb, hr⟩, hk⟩
  rw [hstored]
  constructor
  · intro hs
    obtain ⟨b, hb, r, hr, rfl, hk⟩ := isStored_iff.mp hs
    obtain ⟨x, hx, hid, -⟩ := h.exists_of_commit (h.logged.mem_durable.mpr ⟨b, hb, hr⟩) hk
    exact ⟨x, mem_storedCommits.mpr ⟨mem_sealed.mp hx, hid ▸ hs⟩, hid⟩
  · rintro ⟨x, hx, rfl⟩
    exact (mem_storedCommits.mp hx).2

end life

theorem Chronicle.next {past : List (System σ)} {rs : List Record} {c : Coordinator σ}
    {s : System σ} (h : Chronicle past rs) (hc : Restored rs store c) (hr : Reachable c s) :
    Chronicle (past ++ [s]) (rs ++ (stored s.trace).flatMap (·.records)) := by
  obtain ⟨j₀, hj₀, hl, -⟩ := hc.logged
  obtain ⟨j, hlog, -⟩ := hr.logging hc.fresh hj₀ hl
  refine ⟨hlog.logged.nodup_contents h.nodup, ?_, fun id => ?_⟩
  · have hdisjoint : ∀ r ∈ byLsn rs, ∀ q ∈ durable j (noted s.trace), r.tx ≠ q.tx := by
      intro r hr' q hq
      have hle := hc.past r ((Journal.byLsn_perm rs).mem_iff.mp hr')
      have hlt := hlog.past_lt (hr.versioned hc.fresh) hq
      omega
    rw [hlog.logged.byLsn_contents h.nodup, Replay.effects_append_of_disjoint hdisjoint,
      State.writeAll_append, h.state, hlog.effects_durable, recoveredState_concat]
    exact (afterCommits_eq_writeAll _ (hlog.ordered.sublist List.filter_sublist)).symm
  · simp only [List.mem_append, or_and_right, exists_or, h.commits, hlog.exists_commit_iff,
      List.mem_singleton, exists_eq_left]

/-! ### What a life leaves -/

section life
variable {rs : List Record} {c : Coordinator σ} {s : System σ}

theorem Restored.reads {lives : List (System σ)} (hc : Restored rs store c) (h : Chronicle lives rs)
    (key : String) : (c.get key).1 = .ok (recoveredState lives key) := by
  obtain ⟨threshold, hlocks⟩ := hc.locks
  obtain ⟨_, -, hread⟩ :=
    Coordinator.get_of_atRest (hlocks ▸ LockTable.atRest_create threshold : c.locks.AtRest) key
  rw [hread, hc.flat.get_eq, hc.replayed, h.state]

/-- Everything that a read can see, apart from replayed data, was written by a stored commit. -/
theorem Restored.history (hc : Restored rs store c) (hr : Reachable c s) {key : String} {version : ℕ}
    {value : Option String} (hv : s.coordinator.shards.history key version = some value)
    (hne : version ≠ replayVersion) :
    ∃ x ∈ storedCommits s.trace, x.version = version ∧ x.writes.get? key = some value := by
  obtain ⟨j₀, hj₀, hl, -⟩ := hc.logged
  obtain ⟨j, hlog, hver⟩ := hr.logging hc.fresh hj₀ hl
  rcases (hr.committed hc.fresh).history.mp hv with hv | ⟨x, hx, hxv, hw⟩
  · have hsome : c.shards.history key version ≠ none := by simp [hv]
    exact absurd (hc.flat.flat hsome) hne
  · exact ⟨x, mem_storedCommits_of_applied hlog hver hx, hxv, hw⟩

theorem Restored.of_ended (hc : Restored rs store c) (hr : Reachable c s) {id : ℕ} {writes : Writes}
    (he : .ended id writes (.ok ()) ∈ s.trace) (hw : writes.isEmpty = false) :
    ∃ version, ⟨id, version, writes⟩ ∈ storedCommits s.trace := by
  obtain ⟨j₀, hj₀, hl, -⟩ := hc.logged
  obtain ⟨j, hlog, hver⟩ := hr.logging hc.fresh hj₀ hl
  rcases hr.effective.ended he with hempty | ⟨version, hx⟩
  · simp [hw] at hempty
  · exact ⟨version, mem_storedCommits_of_applied hlog hver hx⟩

/-- A transaction with a stored commit was asked to commit, and neither was it rolled back nor did its
commit fail. -/
theorem Restored.of_stored (hc : Restored rs store c) (hr : Reachable c s) {x : Attempt}
    (hx : x ∈ storedCommits s.trace) :
    .requested x.id .commit ∈ s.trace ∧ ¬ GaveUp s.trace x.id := by
  obtain ⟨j₀, hj₀, hl, -⟩ := hc.logged
  obtain ⟨j, hlog, hver⟩ := hr.logging hc.fresh hj₀ hl
  exact ⟨(hr.requested hc.fresh).sealed (mem_storedCommits.mp hx).1,
    not_gaveUp_of_stored hlog hver hx⟩

/-- If every stored commit has taken effect, the newest state is that of the past with the stored
commits. -/
theorem Restored.get_eq {past : List (System σ)} (h : Chronicle past rs) (hc : Restored rs store c)
    (hr : Reachable c s) (hall : ∀ x ∈ storedCommits s.trace, .applied x ∈ s.trace) {version : ℕ}
    (hle : s.coordinator.lastVersion ≤ version) (key : String) :
    recoveredState (past ++ [s]) key = s.coordinator.shards.get version key := by
  obtain ⟨j₀, hj₀, hl, -⟩ := hc.logged
  obtain ⟨j, hlog, hver⟩ := hr.logging hc.fresh hj₀ hl
  have hv := hr.versioned hc.fresh
  have hbase : c.lastVersion ≤ version := hv.numbered.le.trans hle
  rw [(hr.committed hc.fresh).get_eq hc.fresh hv hbase key, recoveredState_concat]
  refine afterCommits_congr ?_ (fun x => ?_) fun x hx y hy he => ?_
  · rw [initial, hc.flat.get_eq, hc.replayed, h.state]
  · rw [List.mem_filter, mem_applied, decide_eq_true_eq]
    constructor
    · intro hx
      exact ⟨hall x hx, ((hv.version_le (hv.applied (hall x hx))).2).trans hle⟩
    · rintro ⟨hx, -⟩
      exact mem_storedCommits_of_applied hlog hver hx
  · exact hv.eq_of_version (hv.applied (hall x hx)) (hv.applied (hall y hy)) he

end life

/-! ### Lives -/

section lives
variable [AtomicStore σ]

theorem Booted.restored {c : Coordinator σ} (h : Booted store c) :
    Restored (AtomicStore.contents store) store c := by
  obtain ⟨recovered, hread, hrestored⟩ := h.recovered
  rwa [← AtomicStore.contents_read hread]

/-- The lives of a store, and the records that they left in its log.  Every life replays what the last
one left, and is stopped at any point. -/
inductive Lives : List (System σ) → List Record → Prop
  | none : Lives [] []
  | life {past : List (System σ)} {store : σ} {c : Coordinator σ} {s : System σ} {j : Journal σ}
      (h : Lives past (AtomicStore.contents store)) (hb : Booted store c) (hr : Reachable c s)
      (hj : s.coordinator.journal = some j) : Lives (past ++ [s]) (AtomicStore.contents j.store)

theorem Lives.chronicle {lives : List (System σ)} {rs : List Record} (h : Lives lives rs) :
    Chronicle lives rs := by
  induction h with
  | none => exact chronicle_nil
  | life h hb hr hj ih =>
      obtain ⟨j₀, hj₀, -, hstore⟩ := hb.restored.logged
      obtain ⟨j, hj', hfilled⟩ := hr.filled hj₀
      obtain rfl := Option.some.inj (hj'.symm.trans hj)
      rw [hfilled.contents_eq, hstore]
      exact ih.next hb.restored hr

theorem Lives.restored {lives : List (System σ)} {rs : List Record} (h : Lives lives rs)
    {u : System σ} (hu : u ∈ lives) : ∃ rs' store c, Restored rs' store c ∧ Reachable c u := by
  induction h with
  | none => simp at hu
  | life h hb hr hj ih =>
      rcases List.mem_append.mp hu with hu | hu
      · exact ih hu
      · rw [List.mem_singleton.mp hu]
        exact ⟨_, _, _, hb.restored, hr⟩

theorem Lives.last {past : List (System σ)} {s : System σ} {rs : List Record}
    (h : Lives (past ++ [s]) rs) :
    ∃ rs' store c, Chronicle past rs' ∧ Restored rs' store c ∧ Reachable c s := by
  generalize hlives : past ++ [s] = lives at h
  cases h with
  | none => simp at hlives
  | life h hb hr hj =>
      obtain ⟨rfl, hs⟩ := List.append_inj' hlives rfl
      obtain rfl := List.singleton_inj.mp hs
      exact ⟨_, _, _, h.chronicle, hb.restored, hr⟩

/-- Recovery on a log that can be read succeeds.  A key then reads as after the stored commits of all
lives, in the order of lives and of end versions; these are the commits whose record is in the log.
Commits of writes that succeeded are among them, and so is whatever a read could see; transactions
that were rolled back, abandoned, or whose commit failed are not.  If every stored commit had taken
effect, recovery changes no key. -/
theorem recovery_restores {past : List (System σ)} {s : System σ} {rs : List Record}
    (h : Lives (past ++ [s]) rs) (hstore : AtomicStore.contents store = rs)
    {recovered : Journal.Recovered} (hread : LogStore.read store = .ok recovered) {count : ℕ}
    {towers : ℕ → ℕ → Height} {shards : Shards} (hs : Shards.create count towers = .ok shards)
    (batchSize threshold : ℕ) :
    ∃ d, boot store shards batchSize threshold = (.ok (), d) ∧
      (∀ key, (d.coordinator.get key).1 = .ok (recoveredState (past ++ [s]) key)) ∧
      (∀ id, (∃ r ∈ rs, r.tx = id ∧ r.kind = .commit) ↔
        ∃ u ∈ past ++ [s], ∃ x ∈ storedCommits u.trace, x.id = id) ∧
      (∀ u ∈ past ++ [s],
        (∀ id writes, .ended id writes (.ok ()) ∈ u.trace → writes.isEmpty = false →
          ∃ version, ⟨id, version, writes⟩ ∈ storedCommits u.trace) ∧
        (∀ key version value, u.coordinator.shards.history key version = some value →
          version ≠ replayVersion →
          ∃ x ∈ storedCommits u.trace, x.version = version ∧ x.writes.get? key = some value) ∧
        ∀ x ∈ storedCommits u.trace,
          .requested x.id .commit ∈ u.trace ∧ ¬ GaveUp u.trace x.id) ∧
      ((∀ x ∈ storedCommits s.trace, .applied x ∈ s.trace) →
        ∀ key version, s.coordinator.lastVersion ≤ version →
          recoveredState (past ++ [s]) key = s.coordinator.shards.get version key) := by
  obtain ⟨d, hd, hrestored⟩ := Restored.of_read hread hs batchSize threshold
  rw [AtomicStore.contents_read hread, hstore] at hrestored
  refine ⟨d, hd, hrestored.reads h.chronicle, h.chronicle.commits, fun u hu => ?_,
    fun hall key version hle => ?_⟩
  · obtain ⟨rs', store', c, hc, hr⟩ := h.restored hu
    exact ⟨fun id writes => hc.of_ended hr, fun key version value => hc.history hr,
      fun x => hc.of_stored hr⟩
  · obtain ⟨rs', store', c, hpast, hc, hr⟩ := h.last
    exact hc.get_eq hpast hr hall hle key

end lives
end stored

/-! ### Two lives -/

/-- A log in memory.  Its next writes fail or not as told, and all later ones succeed. -/
structure ScriptedLog where
  records : List Record
  failing : List Bool

instance : LogStore ScriptedLog where
  write log records :=
    match log.failing with
    | [] => (.ok (), { log with records := log.records ++ records })
    | true :: failing => (.error .logFailure, { log with failing })
    | false :: failing => (.ok (), ⟨log.records ++ records, failing⟩)
  read log := .ok ⟨log.records, ⟨1, 1, log.records.length, [], Journal.lastLsn? log.records⟩⟩

instance : AtomicStore ScriptedLog where
  contents log := log.records
  contents_ok h := by
    simp only [LogStore.write] at h
    split at h <;> simp_all [← (Prod.mk.inj h).2]
  contents_error h := by
    simp only [LogStore.write] at h
    split at h <;> simp_all [← (Prod.mk.inj h).2]
  contents_read h := by
    obtain rfl := Except.ok.inj h
    rfl

/-- What is left of a life in which one commit is stored and the record of the next one is lost. -/
def sampleLog : List Record :=
  [⟨1, 1, .set, ["k", "v"]⟩, ⟨2, 1, .commit, []⟩, ⟨3, 3, .set, ["k", "w"]⟩]

/-- The coordinator of a store with a log, after recovery. -/
def sampleBoot (store : ScriptedLog) : Coordinator ScriptedLog :=
  (boot store sample.shards 1 1).2.coordinator

theorem booted_sampleBoot (store : ScriptedLog) : Booted store (sampleBoot store) := by
  refine ⟨1, fun _ => Height.ruler, sample.shards, 1, 1, rfl, _, ?_, rfl⟩
  rfl

theorem sampleBoot_eq : sampleBoot ⟨sampleLog, []⟩ =
    ((Database.create ⟨sample.shards, LockTable.create 1,
      some { Journal.start ⟨sampleLog, []⟩ 1 with nextLsn := 4 }, 0⟩ false).replay
        sampleLog).coordinator := by
  have hsorted : sampleLog.mergeSort (fun a b => a.lsn ≤ b.lsn) = sampleLog :=
    List.mergeSort_of_pairwise (by decide)
  simp only [sampleBoot, boot, Database.recover, Database.create, Coordinator.create,
    Journal.recover, Journal.start, LogStore.read, hsorted]
  rfl

/-- After a commit that is stored, one whose record is lost, and a second life that never commits, the
value of the first commit is recovered. -/
theorem recovery_restores_sample :
    ∃ (s₁ s₂ : System ScriptedLog) (d : Database ScriptedLog),
      Lives ([s₁] ++ [s₂]) (sampleLog ++ [⟨4, 4, .set, ["k", "x"]⟩]) ∧
      boot ⟨sampleLog ++ [⟨4, 4, .set, ["k", "x"]⟩], []⟩ sample.shards 1 1 = (.ok (), d) ∧
      (d.coordinator.get "k").1 = .ok (some "v") := by
  have hfirst : ((System.start (sampleBoot ⟨[], [false, false, false, true]⟩)).run
      ([.begin] ++ Choice.write 0 "k" "v" ++ Choice.mint 0 ++ Choice.conclude 0 ++ [.begin] ++
        Choice.write 1 "k" "w" ++ Choice.mint 1 ++ Choice.conclude 1)).any (fun s =>
          s.coordinator.journal.map (·.store.records) = some sampleLog &&
            recoveredState [s] "k" = some "v") = true := by
    decide +kernel
  have hsecond : ((System.start (sampleBoot ⟨sampleLog, []⟩)).run
      ([.begin] ++ Choice.write 0 "k" "x")).any (fun s =>
        s.coordinator.journal.map (·.store.records) =
          some (sampleLog ++ [⟨4, 4, .set, ["k", "x"]⟩]) && (storedCommits s.trace).isEmpty) =
      true := by
    rw [sampleBoot_eq]
    decide +kernel
  obtain ⟨s₁, hr₁, hs₁⟩ := exists_reachable hfirst
  obtain ⟨s₂, hr₂, hs₂⟩ := exists_reachable hsecond
  simp only [Bool.and_eq_true, decide_eq_true_eq, Option.map_eq_some_iff] at hs₁ hs₂
  obtain ⟨⟨j₁, hj₁, hlog₁⟩, hvalue⟩ := hs₁
  obtain ⟨⟨j₂, hj₂, hlog₂⟩, hnone⟩ := hs₂
  have hlife₁ : Lives [s₁] sampleLog := hlog₁ ▸ Lives.none.life (booted_sampleBoot _) hr₁ hj₁
  have hlife₂ : Lives ([s₁] ++ [s₂]) (sampleLog ++ [⟨4, 4, .set, ["k", "x"]⟩]) :=
    hlog₂ ▸ hlife₁.life (booted_sampleBoot ⟨sampleLog, []⟩) hr₂ hj₂
  have hcontents : AtomicStore.contents
      (⟨sampleLog ++ [⟨4, 4, .set, ["k", "x"]⟩], []⟩ : ScriptedLog) = _ := rfl
  obtain ⟨d, hd, hget, -⟩ := recovery_restores hlife₂ hcontents rfl
    (show Shards.create 1 (fun _ => Height.ruler) = .ok sample.shards from rfl) 1 1
  have hstate : afterCommits (recoveredState [s₁]) [] = recoveredState [s₁] := by
    simp [afterCommits, inOrder]
  refine ⟨s₁, s₂, d, hlife₂, hd, (hget "k").trans ?_⟩
  rw [recoveredState_concat, List.isEmpty_iff.mp hnone, hstate, hvalue]

/-- Whether an event is the end of a commit that succeeded. -/
def Event.isSuccess : Event → Bool
  | .ended _ _ result => result.isOk
  | _ => false

/-- A commit without writes succeeds and leaves no record. -/
theorem succeeded_without_record :
    ¬ ∀ (lives : List (System ScriptedLog)) (rs : List Record), Lives lives rs → ∀ s ∈ lives,
      ∀ id writes, .ended id writes (.ok ()) ∈ s.trace → ∃ r ∈ rs, r.tx = id ∧ r.kind = .commit := by
  intro hall
  have hrun : ((System.start (sampleBoot ⟨[], []⟩)).run
      [.begin, .request 0 .commit, .advance 0]).any (fun s =>
        s.coordinator.journal.map (·.store.records) = some [] && s.trace.any Event.isSuccess) =
        true := by
    decide +kernel
  obtain ⟨s, hr, hs⟩ := exists_reachable hrun
  simp only [Bool.and_eq_true, decide_eq_true_eq, Option.map_eq_some_iff, List.any_eq_true] at hs
  obtain ⟨⟨j, hj, hlog⟩, e, he, hended⟩ := hs
  have hlife : Lives ([] ++ [s]) [] := hlog ▸ Lives.none.life (booted_sampleBoot _) hr hj
  cases e with
  | ended id writes result =>
      cases result with
      | ok u =>
          obtain ⟨r, hr, -⟩ := hall _ _ hlife s (by simp) id writes he
          simp at hr
      | error fault => simp [Event.isSuccess, Except.isOk, Except.toBool] at hended
  | _ => simp [Event.isSuccess] at hended

end Run
end SnapshotStore

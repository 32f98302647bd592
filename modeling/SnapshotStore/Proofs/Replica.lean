import SnapshotStore.Replica
import SnapshotStore.Proofs.Coordinator
import SnapshotStore.Proofs.Replay.Interrupted
import SnapshotStore.Proofs.Replication.Follower

/-! # Replicas that are restarted

A replica goes through rounds with its master, applies what they publish, and is restarted now and
then on the segments that it stored (`Follows`).  `Mirrors` says what it keeps all the time: its
segments hold the records that it recovered from and those that it got since, and its shards have the
effects of two replays, one for each.

So a key reads as after one replay of all stored records unless the last commit that writes it has
lost a write that was staged before the restart (`reads_as_replayed_iff`), which does happen
(`loses_staged_write`). -/

namespace SnapshotStore
namespace Replica

open Replication Segment

variable {r r' : Replica} {before after : List Record}

/-! ### Starting -/

/-- A replica on an archive, with empty shards, after its recovery. -/
def Boots (a : Archive) (r : Replica) : Prop :=
  ∃ count towers shards threshold r₀, Shards.create count towers = .ok shards ∧
    start a shards threshold = .ok r₀ ∧ r₀.recover = (.ok (), r)

/-- What a replica keeps.  It recovered from the first records and got the other ones since; those
that are no longer on the stream are applied. -/
structure Mirrors (r : Replica) (before after : List Record) : Prop where
  stored : ∃ segs, r.follower.archive.Holds segs ∧
    (Archive.recovered segs).records = before ++ after ∧
    r.follower.lastSegment = (segs.getLast?.map Prod.fst).getD ""
  rising : (before ++ after).Pairwise fun a b => a.lsn < b.lsn
  streaming : r.follower.streaming = true
  flat : r.database.coordinator.shards.Flat
  applied : ∃ applied, after = applied ++ r.follower.stream.flatten ∧
    r.replay.writesOf = Replay.staged (fun _ => ∅) applied ∧
    r.database.coordinator.shards.replayed = State.empty.writeAll
      (Replay.effects (fun _ => ∅) before ++ Replay.effects (fun _ => ∅) applied)
  unlocked : ∃ threshold, r.database.coordinator.locks = LockTable.create threshold

theorem start_of_holds {a : Archive} {segs : List (String × Bytes)} (h : a.Holds segs)
    (shards : Shards) (threshold : ℕ) : start a shards threshold =
      .ok ⟨Database.create (Coordinator.create shards none threshold) true,
        ⟨a, (segs.getLast?.map Prod.fst).getD "", [], true⟩, .fresh⟩ := by
  rw [start, Follower.start, h.last?_eq]
  rfl

theorem recover_of_holds {segs : List (String × Bytes)} (h : r.follower.archive.Holds segs)
    (hrising : (Archive.recovered segs).records.Pairwise fun a b => a.lsn < b.lsn) :
    r.recover =
      (.ok (), { r with database := r.database.replay (Archive.recovered segs).records }) := by
  have hread : Journal.LogStore.read (Journal.start r.follower.archive 1).store =
      .ok (Archive.recovered segs) := h.readLog_eq
  have hsorted : (Archive.recovered segs).records.mergeSort (fun a b => a.lsn ≤ b.lsn) =
      (Archive.recovered segs).records :=
    List.mergeSort_of_pairwise (hrising.imp fun hlt => by simpa using Nat.le_of_lt hlt)
  simp only [recover, Journal.recover, hread, hsorted]

theorem exists_boots {a : Archive} {segs : List (String × Bytes)} (h : a.Holds segs)
    (hrising : (Archive.recovered segs).records.Pairwise fun a b => a.lsn < b.lsn)
    {count : ℕ} {towers : ℕ → ℕ → Height} {shards : Shards}
    (hs : Shards.create count towers = .ok shards) (threshold : ℕ) :
    ∃ r, Boots a r :=
  ⟨_, count, towers, shards, threshold, _, hs, start_of_holds h shards threshold,
    recover_of_holds h hrising⟩

theorem Boots.eq {a : Archive} {segs : List (String × Bytes)} (hboot : Boots a r) (h : a.Holds segs)
    (hrising : (Archive.recovered segs).records.Pairwise fun a b => a.lsn < b.lsn) :
    ∃ count towers shards threshold, Shards.create count towers = .ok shards ∧
      r = ⟨(Database.create (Coordinator.create shards none threshold) true).replay
          (Archive.recovered segs).records,
        ⟨a, (segs.getLast?.map Prod.fst).getD "", [], true⟩, .fresh⟩ := by
  obtain ⟨count, towers, shards, threshold, r₀, hs, hstart, hrecover⟩ := hboot
  rw [start_of_holds h] at hstart
  obtain rfl := Except.ok.inj hstart
  rw [recover_of_holds h hrising] at hrecover
  exact ⟨count, towers, shards, threshold, hs, (Prod.mk.inj hrecover).2.symm⟩

theorem Boots.mirrors {a : Archive} {segs : List (String × Bytes)} {rs : List Record}
    (hboot : Boots a r) (h : a.Holds segs) (hrs : (Archive.recovered segs).records = rs)
    (hrising : rs.Pairwise fun a b => a.lsn < b.lsn) : Mirrors r rs [] := by
  subst hrs
  obtain ⟨count, towers, shards, threshold, hs, rfl⟩ := hboot.eq h hrising
  obtain ⟨hflat, hempty⟩ := Shards.Flat.create hs
  obtain ⟨hall, hreplayed⟩ := Replay.flat_applyAll .fresh hflat (Archive.recovered segs).records
  refine ⟨⟨segs, h, by rw [List.append_nil], rfl⟩, by rwa [List.append_nil], rfl, hall,
    ⟨[], rfl, rfl, ?_⟩, threshold, rfl⟩
  rw [Replay.effects, List.append_nil, ← hempty]
  exact hreplayed

/-! ### Rounds and their application -/

/-- Ends a round and leaves what it published on the stream. -/
def exchange (r : Replica) (reply : Outcome Bytes) : Replica :=
  { r with follower := (r.follower.receive reply).2 }

/-- The records that a round publishes. -/
def published (r : Replica) (reply : Outcome Bytes) : List Record :=
  ((r.exchange reply).follower.stream.drop r.follower.stream.length).flatten

/-- Takes the oldest records off the stream and applies them. -/
def applyNext (r : Replica) : Replica :=
  match r.follower.take with
  | (.records records, follower) => { r with follower }.applyRecords records
  | (_, _) => r

theorem applyStream_applyNext (r : Replica) : r.applyNext.applyStream = r.applyStream := by
  obtain ⟨database, ⟨archive, lastSegment, stream, streaming⟩, replay⟩ := r
  cases stream with
  | nil => cases streaming <;> rfl
  | cons records stream => rfl

theorem applyStream_eq (r : Replica) : r.applyStream = applyNext^[r.follower.stream.length] r := by
  generalize hn : r.follower.stream.length = n
  induction n generalizing r with
  | zero =>
      obtain ⟨database, ⟨archive, lastSegment, stream, streaming⟩, replay⟩ := r
      obtain rfl := List.length_eq_zero_iff.mp hn
      rfl
  | succ n ih =>
      have hnext : r.applyNext.follower.stream.length = n := by
        obtain ⟨database, ⟨archive, lastSegment, stream, streaming⟩, replay⟩ := r
        cases stream with
        | nil => cases hn
        | cons records stream => exact Nat.succ.inj hn
      rw [Function.iterate_succ_apply, ← ih r.applyNext hnext, applyStream_applyNext]

/-- What a master sends: no segment, or one that is named after the last one that the follower has and
goes on with higher record numbers. -/
def Continues (lastSegment : String) (stored : List Record) (reply : Outcome Bytes) : Prop :=
  ∀ d, carried? reply = some d → lastSegment < d.filename ∧
    (stored ++ (Journal.decode d.segment).records).Pairwise fun a b => a.lsn < b.lsn

theorem continues_of_carried? {lastSegment : String} {stored rs : List Record} {reply : Outcome Bytes}
    {d : Delivery} (hd : carried? reply = some d) (hrs : (Journal.decode d.segment).records = rs)
    (hlt : lastSegment < d.filename) (hrising : (stored ++ rs).Pairwise fun a b => a.lsn < b.lsn) :
    Continues lastSegment stored reply := by
  intro d' hd'
  obtain rfl := Option.some.inj (hd.symm.trans hd')
  exact ⟨hlt, hrs ▸ hrising⟩

theorem Mirrors.exchange (h : Mirrors r before after) {reply : Outcome Bytes}
    (hreply : Continues r.follower.lastSegment (before ++ after) reply) :
    Mirrors (r.exchange reply) before (after ++ r.published reply) := by
  obtain ⟨segs, hholds, hrecords, hlast⟩ := h.stored
  obtain ⟨applied, hafter, hstaged, hreplayed⟩ := h.applied
  have hle : ∀ s ∈ segs, s.1 ≤ r.follower.lastSegment := fun s hs => hlast ▸ hholds.le_last hs
  rcases Follower.receive_cases hholds h.streaming hle fun d hd => (hreply d hd).1 with
    hsame | ⟨archive, d, hd, hholds', hreceive⟩
  · have heq : r.exchange reply = r := by rw [Replica.exchange, hsame]
    rw [published, heq, List.drop_length, List.flatten_nil, List.append_nil]
    exact h
  · have heq : r.exchange reply = { r with follower := (⟨archive, d.filename,
        r.follower.stream ++ [(Journal.decode d.segment).records], true⟩ : Follower) } := by
      rw [Replica.exchange, hreceive]
    rw [published, heq, List.drop_left, List.flatten_singleton]
    refine ⟨⟨_, hholds', ?_, by simp⟩, ?_, rfl, h.flat, ⟨applied, ?_, hstaged, hreplayed⟩,
      h.unlocked⟩
    · rw [Archive.records_recovered_concat, hrecords, List.append_assoc]
    · rw [← List.append_assoc]
      exact (hreply d hd).2
    · rw [hafter]
      simp

theorem Mirrors.applyNext (h : Mirrors r before after) : Mirrors r.applyNext before after := by
  obtain ⟨segs, hholds, hrecords, hlast⟩ := h.stored
  obtain ⟨applied, hafter, hstaged, hreplayed⟩ := h.applied
  cases hstream : r.follower.stream with
  | nil =>
      have heq : r.applyNext = r := by
        simp only [Replica.applyNext, Follower.take, hstream]
        cases r.follower.streaming <;> rfl
      rwa [heq]
  | cons records stream =>
      have heq : r.applyNext =
          { r with follower := { r.follower with stream } }.applyRecords records := by
        simp only [Replica.applyNext, Follower.take, hstream]
      obtain ⟨hall, heffects⟩ := Replay.flat_applyAll r.replay h.flat records
      rw [heq]
      refine ⟨⟨segs, hholds, hrecords, hlast⟩, h.rising, h.streaming, hall,
        ⟨applied ++ records, ?_, ?_, ?_⟩, h.unlocked⟩
      · rw [hafter, hstream]
        simp [applyRecords]
      · refine (Replay.writesOf_applyAll ..).trans ?_
        rw [hstaged, Replay.staged_append]
      · refine heffects.trans ?_
        rw [hreplayed, hstaged, ← State.writeAll_append, Replay.effects_append, List.append_assoc]

/-! ### Histories -/

/-- Histories of a replica, with the records that it recovered from when it was started last and those
that it got since. -/
inductive Follows : Replica → List Record → List Record → Prop
  | start {r : Replica} {bound : ℕ} (hboot : Boots (.mount .empty bound) r) : Follows r [] []
  | exchange {r : Replica} {before after : List Record} {reply : Outcome Bytes}
      (h : Follows r before after)
      (hreply : Continues r.follower.lastSegment (before ++ after) reply) :
      Follows (r.exchange reply) before (after ++ r.published reply)
  | applyNext {r : Replica} {before after : List Record} (h : Follows r before after) :
      Follows r.applyNext before after
  | restart {r r' : Replica} {before after : List Record} {bound : ℕ} (h : Follows r before after)
      (hboot : Boots (r.follower.archive.reopen bound) r') : Follows r' (before ++ after) []

theorem Follows.mirrors (h : Follows r before after) : Mirrors r before after := by
  induction h with
  | start hboot => exact hboot.mirrors (Archive.holds_mount_empty _) rfl .nil
  | exchange _ hreply ih => exact ih.exchange hreply
  | applyNext _ ih => exact ih.applyNext
  | restart _ hboot ih =>
      obtain ⟨segs, hholds, hrecords, -⟩ := ih.stored
      exact hboot.mirrors (hholds.reopen _) hrecords ih.rising

theorem Follows.receive (h : Follows r before after) {reply : Outcome Bytes}
    (hreply : Continues r.follower.lastSegment (before ++ after) reply) :
    Follows (r.receive reply).2 before (after ++ r.published reply) := by
  have hall (n : ℕ) : Follows (Replica.applyNext^[n] (r.exchange reply)) before
      (after ++ r.published reply) := by
    induction n with
    | zero => exact h.exchange hreply
    | succ n ih =>
        rw [Function.iterate_succ_apply']
        exact ih.applyNext
  have heq : (r.receive reply).2 = (r.exchange reply).applyStream := rfl
  rw [heq, applyStream_eq]
  exact hall _

theorem follower_applyStream (r : Replica) :
    r.applyStream.follower = { r.follower with stream := [] } := by
  have hfold (records : List (List Record)) (q : Replica) :
      (records.foldl applyRecords q).follower = q.follower := by
    induction records generalizing q with
    | nil => rfl
    | cons rs records ih => exact ih (q.applyRecords rs)
  exact hfold ..

/-- A segment with a good name gets through. -/
theorem Follows.receive_segment (h : Follows r before after) {reply : Outcome Bytes}
    (hreply : Continues r.follower.lastSegment (before ++ after) reply) {d : Delivery}
    (hd : carried? reply = some d) {id : ℕ} (hid : id? d.filename = some id) :
    Follows (r.receive reply).2 before (after ++ (Journal.decode d.segment).records) ∧
      (r.receive reply).2.follower.lastSegment = d.filename ∧
      (r.receive reply).2.follower.stream = [] := by
  obtain ⟨segs, hholds, -, hlast⟩ := h.mirrors.stored
  have hafter : ∀ s ∈ segs, s.1 < d.filename := fun s hs =>
    lt_of_le_of_lt (hlast ▸ hholds.le_last hs) (hreply d hd).1
  obtain ⟨archive, -, haccept⟩ :=
    Follower.accept_of_id? hholds h.mirrors.streaming hid hafter d.segment
  have heq : (r.exchange reply).follower = ⟨archive, d.filename,
      r.follower.stream ++ [(Journal.decode d.segment).records], true⟩ := by
    rw [← haccept]
    show (r.follower.receive reply).2 = _
    rw [Follower.receive_eq, hd]
    rfl
  have hfollower : (r.receive reply).2.follower = ⟨archive, d.filename, [], true⟩ := by
    show (r.exchange reply).applyStream.follower = _
    rw [follower_applyStream, heq]
  have hfollows := h.receive hreply
  rw [published, heq, List.drop_left, List.flatten_singleton] at hfollows
  exact ⟨hfollows, congrArg Follower.lastSegment hfollower, congrArg Follower.stream hfollower⟩

theorem Follows.exists_boots (h : Follows r before after) {count : ℕ} {towers : ℕ → ℕ → Height}
    {shards : Shards} (hs : Shards.create count towers = .ok shards) (bound threshold : ℕ) :
    ∃ r', Boots (r.follower.archive.reopen bound) r' ∧
      r'.follower.lastSegment = r.follower.lastSegment := by
  obtain ⟨segs, hholds, hrecords, hlast⟩ := h.mirrors.stored
  have hrising : (Archive.recovered segs).records.Pairwise fun a b => a.lsn < b.lsn :=
    hrecords ▸ h.mirrors.rising
  obtain ⟨r', hboot⟩ := Replica.exists_boots (hholds.reopen bound) hrising hs threshold
  obtain ⟨_, _, _, _, _, heq⟩ := hboot.eq (hholds.reopen bound) hrising
  exact ⟨r', hboot, by rw [heq, hlast]⟩

/-! ### What a replica reads -/

theorem Mirrors.readLog_eq (h : Mirrors r before after) :
    ∃ recovered, r.follower.archive.readLog = .ok recovered ∧
      recovered.records = before ++ after := by
  obtain ⟨segs, hholds, hrecords, -⟩ := h.stored
  exact ⟨_, hholds.readLog_eq, hrecords⟩

theorem Mirrors.get_eq (h : Mirrors r before after) (hdone : r.follower.stream = []) (key : String) :
    (r.database.coordinator.get key).1 = .ok (State.empty.writeAll
      (Replay.effects (fun _ => ∅) before ++ Replay.effects (fun _ => ∅) after) key) := by
  obtain ⟨threshold, hlocks⟩ := h.unlocked
  obtain ⟨applied, hafter, -, hreplayed⟩ := h.applied
  rw [hdone, List.flatten_nil, List.append_nil] at hafter
  obtain ⟨_, -, hread⟩ := Coordinator.get_of_atRest
    (hlocks ▸ LockTable.atRest_create threshold : r.database.coordinator.locks.AtRest) key
  rw [hread, h.flat.get_eq, hreplayed, hafter]

/-! ### A sample

A transaction sets a key in the first segment and commits in the second one; the replica is restarted
in between. -/

/-- The write of a transaction. -/
def sampleWrite : Record := ⟨1, 1, .set, ["k", "v"]⟩

/-- Its commit. -/
def sampleCommit : Record := ⟨2, 1, .commit, []⟩

/-- A segment with one record. -/
def sampleSegment (r : Record) : Bytes := (Journal.encode [r]).toOption.getD []

/-- The reply with the segment of a record. -/
def sampleReply (r : Record) : Outcome Bytes :=
  .ok (Delivery.success (name r.lsn) (sampleSegment r)).encode

theorem decode_of_takeFrame? {data : Bytes} {records : List Record}
    (h : Journal.takeFrame? data = some (records, [])) : (Journal.decode data).records = records := by
  have hdata : data ≠ [] := by
    rintro rfl
    cases h
  rw [Journal.decode, if_neg (by simpa using hdata)]
  split
  · next hn => simp [h] at hn
  · next hs =>
    obtain ⟨rfl, rfl⟩ := Prod.mk.inj (Option.some.inj (h.symm.trans hs))
    rw [Journal.decode]
    simp

theorem Follows.receive_sample (h : Follows r before after) {q : Record}
    (hcarried : carried? (sampleReply q) = some (.success (name q.lsn) (sampleSegment q)))
    (htake : Journal.takeFrame? (sampleSegment q) = some ([q], []))
    (hid : id? (name q.lsn) = some q.lsn) (hlt : r.follower.lastSegment < name q.lsn)
    (hrising : ((before ++ after) ++ [q]).Pairwise fun a b => a.lsn < b.lsn) :
    Follows (r.receive (sampleReply q)).2 before (after ++ [q]) ∧
      (r.receive (sampleReply q)).2.follower.lastSegment = name q.lsn ∧
      (r.receive (sampleReply q)).2.follower.stream = [] := by
  have hrecords := decode_of_takeFrame? htake
  have hall := h.receive_segment (continues_of_carried? hcarried hrecords hlt hrising) hcarried hid
  rwa [show (Journal.decode (Delivery.success (name q.lsn) (sampleSegment q)).segment).records = [q]
    from hrecords] at hall

theorem sample_follows : ∃ r, Follows r [sampleWrite] [sampleCommit] ∧ r.follower.stream = [] := by
  obtain ⟨shards, hs⟩ : ∃ shards, Shards.create 1 (fun _ => Height.ruler) = .ok shards := ⟨_, rfl⟩
  have hempty := Archive.holds_mount_empty 1
  obtain ⟨r₀, hboot₀⟩ := exists_boots hempty .nil hs 1
  have hlast₀ : r₀.follower.lastSegment = "" := by
    obtain ⟨_, _, _, _, _, heq⟩ := hboot₀.eq hempty .nil
    rw [heq]
    rfl
  have hlt₁ : "" < name 1 := by decide +kernel
  have hlt₂ : name 1 < name 2 := by decide +kernel
  obtain ⟨h₁, hlast₁, -⟩ := (Follows.start hboot₀).receive_sample (q := sampleWrite)
    (by decide +kernel) (by decide +kernel) (by decide +kernel) (by rw [hlast₀]; exact hlt₁)
    (by simp)
  obtain ⟨r₁, hboot₁, hlast⟩ := h₁.exists_boots hs 1 1
  obtain ⟨h₂, -, hdone⟩ := (h₁.restart hboot₁).receive_sample (q := sampleCommit)
    (by decide +kernel) (by decide +kernel) (by decide +kernel)
    (by rw [hlast, hlast₁]; exact hlt₂) (by simp [sampleWrite, sampleCommit])
  exact ⟨_, h₂, hdone⟩

/-! ### What restarts change -/

/-- Once a replica has applied what it got, each key reads as after one replay of all records that it
stored, if and only if no value is lost: the last commit since the restart that writes the key does
not give it another value that was staged before the restart only. -/
theorem reads_as_replayed_iff (h : Follows r before after) (hdone : r.follower.stream = [])
    {count : ℕ} {towers : ℕ → ℕ → Height} {shards : Shards}
    (hs : Shards.create count towers = .ok shards) (key : String) (version : ℕ) :
    ∃ recovered value, r.follower.archive.readLog = .ok recovered ∧
      recovered.records = before ++ after ∧ (r.database.coordinator.get key).1 = .ok value ∧
      (value = (Replay.fresh.applyAll shards recovered.records).2.2.get version key ↔
        ∀ lost, Replay.Stale (Replay.staged (fun _ => ∅) before) after key lost → value = lost) := by
  obtain ⟨recovered, hread, hrecords⟩ := h.mirrors.readLog_eq
  refine ⟨recovered, _, hread, hrecords, h.mirrors.get_eq hdone key, ?_⟩
  rw [hrecords, Replay.get_applyAll_fresh hs, Replay.effects_append, State.writeAll_append,
    State.writeAll_append]
  exact Replay.writeAll_effects_iff

/-- After the sample history the key reads as replayed if and only if its value is not lost. -/
theorem reads_as_replayed_iff_sample :
    ∃ (r : Replica) (shards : Shards), Follows r [sampleWrite] [sampleCommit] ∧
      r.follower.stream = [] ∧ Shards.create 1 (fun _ => Height.ruler) = .ok shards ∧
      ∃ recovered value, r.follower.archive.readLog = .ok recovered ∧
        recovered.records = [sampleWrite] ++ [sampleCommit] ∧
        (r.database.coordinator.get "k").1 = .ok value ∧
        (value = (Replay.fresh.applyAll shards recovered.records).2.2.get 0 "k" ↔
          ∀ lost, Replay.Stale (Replay.staged (fun _ => ∅) [sampleWrite]) [sampleCommit] "k" lost →
            value = lost) := by
  obtain ⟨shards, hs⟩ : ∃ shards, Shards.create 1 (fun _ => Height.ruler) = .ok shards := ⟨_, rfl⟩
  obtain ⟨r, h, hdone⟩ := sample_follows
  exact ⟨r, shards, h, hdone, hs, reads_as_replayed_iff h hdone hs "k" 0⟩

/-- The write of the sample is lost: its key has no value although its transaction committed. -/
theorem loses_staged_write :
    ∃ (r : Replica) (shards : Shards) (recovered : Journal.Recovered),
      Follows r [sampleWrite] [sampleCommit] ∧ r.follower.stream = [] ∧
      Shards.create 1 (fun _ => Height.ruler) = .ok shards ∧
      r.follower.archive.readLog = .ok recovered ∧
      recovered.records = [sampleWrite, sampleCommit] ∧
      (r.database.coordinator.get "k").1 = .ok none ∧
      (Replay.fresh.applyAll shards recovered.records).2.2.get 0 "k" = some "v" := by
  obtain ⟨shards, hs⟩ : ∃ shards, Shards.create 1 (fun _ => Height.ruler) = .ok shards := ⟨_, rfl⟩
  obtain ⟨r, h, hdone⟩ := sample_follows
  obtain ⟨recovered, hread, hrecords⟩ := h.mirrors.readLog_eq
  refine ⟨r, shards, recovered, h, hdone, hs, hread, hrecords, h.mirrors.get_eq hdone "k", ?_⟩
  rw [hrecords, Replay.get_applyAll_fresh hs]
  rfl

end Replica
end SnapshotStore

import SnapshotStore.Proofs.Journal.Grouping
import SnapshotStore.Proofs.Run.Recovery
import SnapshotStore.Proofs.Segment.Truncation

/-! # Recovery from a log that was cut off

A store on an archive has one life after the other (`Archived`), each on the folder that the last one
left.  `Intact` says what such a folder holds: the frames of the batches that the lives stored, in
order, and for every position the frames wholly before it are the log of a history, which each further
life extends (`Intact.next`).  For the last life this is so because a run that stored some batches was
at an earlier point a run that stored the first ones of them (`Reachable.exists_of_prefix`).

Hence what recovery finds after the log was cut off at a position is the state after the commits whose
records lie in frames wholly before it (`truncation_restores`). -/

namespace SnapshotStore
namespace Run

open Journal (LogStore Logged Grouped Fits durable frame wholeWithin)
open Segment (Archive Folder Truncated)

variable {σ : Type}

/-! ### Earlier points of a run -/

section runs
variable [LogStore σ] {c : Coordinator σ} {s : System σ} {j₀ : Journal σ} {base : List Record}

theorem Reachable.trace_step (hj : c.journal = some j₀) (h : Reachable c s) {s' : System σ}
    {choice : Choice} (hs : s.next choice = some s') :
    ∃ new, s'.trace = s.trace ++ new ∧ (stored new = [] ∨ ∃ b, stored new = [b]) := by
  obtain ⟨j, hj, -⟩ := h.filled hj
  have hstep := Step.of_next hs
  cases hstep with
  | began c ps es => exact ⟨_, rfl, .inl rfl⟩
  | moved hm =>
      refine ⟨_, rfl, .inl ?_⟩
      rcases hm.journal hj with ⟨_, _, _, _, -, -, -, hnone, -⟩ | ⟨-, -, hnone, -⟩ <;> exact hnone
  | flushed hj hf =>
      refine ⟨_, rfl, ?_⟩
      rw [stored_flushEvents]
      exact (Journal.storing_cases _).imp_right fun ⟨b, _, hb⟩ => ⟨b, hb⟩

/-- A run was at the points where it had stored the first ones of its batches. -/
theorem Reachable.exists_of_prefix (hj : c.journal = some j₀) (h : Reachable c s)
    {bs : List Journal.Batch} (hbs : bs <+: stored s.trace) :
    ∃ s' es, Reachable c s' ∧ s.trace = s'.trace ++ es ∧ stored s'.trace = bs := by
  induction h with
  | start => exact ⟨_, [], .start, rfl, (List.prefix_nil.mp hbs).symm⟩
  | step hr hs ih =>
      next s s' choice =>
      obtain ⟨new, htrace, hnew⟩ := hr.trace_step hj hs
      have hearlier (hbs : bs <+: stored s.trace) :
          ∃ s₁ es, Reachable c s₁ ∧ s'.trace = s₁.trace ++ es ∧ stored s₁.trace = bs := by
        obtain ⟨s₁, es, hr₁, hes, hstored⟩ := ih hbs
        exact ⟨s₁, es ++ new, hr₁, by rw [htrace, hes, List.append_assoc], hstored⟩
      rw [htrace, stored_append] at hbs
      rcases hnew with hnone | ⟨b, hb⟩
      · rw [hnone, List.append_nil] at hbs
        exact hearlier hbs
      · rw [hb] at hbs
        rcases List.prefix_concat_iff.mp hbs with hbs | hbs
        · exact ⟨s', [], hr.step hs, (List.append_nil _).symm, by
            rw [htrace, stored_append, hb, hbs]⟩
        · exact hearlier hbs

/-- The journal of a run groups the records that it took, and no batch that is stored is empty. -/
theorem Reachable.grouped {first : ℕ} (hc : Fresh c) (hj : c.journal = some j₀)
    (hl : Logged base j₀ [] []) (hg : Grouped first j₀ []) (h : Reachable c s) :
    ∃ j, s.coordinator.journal = some j ∧ Grouped first j (noted s.trace) ∧
      ∀ b ∈ stored s.trace, b.records ≠ [] := by
  induction h with
  | start => exact ⟨j₀, hj, hg, by simp [System.start, stored]⟩
  | step hr hs ih =>
      obtain ⟨j, hj', hgrouped, hfilled⟩ := ih
      obtain ⟨j₁, hlog, -⟩ := hr.logging hc hj hl
      obtain rfl : j = j₁ := Option.some.inj (hj'.symm.trans hlog.journal)
      have hstep := Step.of_next hs
      cases hstep with
      | began c ps es =>
          refine ⟨j, hj', ?_, ?_⟩
          · rw [noted_append]
            exact (List.append_nil (noted es)).symm ▸ hgrouped
          · rw [stored_append]
            exact (List.append_nil (stored es)).symm ▸ hfilled
      | moved hm =>
          rw [noted_append, stored_append]
          rcases hm.journal hj' with ⟨_, _, _, j', -, hsaved, hj', hst, -⟩ | ⟨hj', hn, hst, -⟩
          · rw [hst, List.append_nil]
            exact ⟨j', hj', hgrouped.saved (fun e he => hlog.logged.number_le he) hsaved, hfilled⟩
          · rw [hn, hst, List.append_nil, List.append_nil]
            exact ⟨j, hj', hgrouped, hfilled⟩
      | flushed hj₁ hf =>
          next c ps es j₁ j' event =>
          obtain rfl : j₁ = j := Option.some.inj (hj₁.symm.trans hj')
          rw [noted_append, noted_flushEvents, List.append_nil, stored_append, stored_flushEvents]
          refine ⟨j', rfl, hgrouped.flusherStep hlog.logged.unknown hf, fun b hb => ?_⟩
          rcases List.mem_append.mp hb with hb | hb
          · exact hfilled b hb
          · rcases Journal.storing_cases j₁ with hnone | ⟨d, ht, hd⟩
            · simp [hnone] at hb
            · rw [hd, List.mem_singleton] at hb
              exact hgrouped.filled b (by simp [ht, hb])

end runs

/-! ### The commits before a position -/

/-- The commits of a run whose record is in some batches, in the order of their records. -/
def commitsIn (batches : List (List Record)) (es : List Event) : List Attempt :=
  (sealed es).filter fun x => batches.any fun b => b.any fun r => r.tx = x.id && r.kind = .commit

/-- The batches that a run stored, as records. -/
def batchesOf (s : System σ) : List (List Record) := (stored s.trace).map (·.records)

/-- The batches that a life stored have records, and these have positive numbers. -/
theorem Restored.batches [LogStore σ] {rs : List Record} {store : σ} {c : Coordinator σ}
    {s : System σ} (hc : Restored rs store c) (hr : Reachable c s) {b : List Record}
    (hb : b ∈ batchesOf s) : b ≠ [] ∧ ∀ r ∈ b, 0 < r.lsn := by
  obtain ⟨j₀, hj₀, hl, -⟩ := hc.logged
  obtain ⟨batchSize, first, hpos, -, hstart⟩ := hc.journal
  obtain rfl := Option.some.inj (hj₀.symm.trans hstart)
  obtain ⟨j, -, hgrouped, hfull⟩ := hr.grouped hc.fresh hj₀ hl (.start first store batchSize)
  obtain ⟨j', hlog, -⟩ := hr.logging hc.fresh hj₀ hl
  obtain ⟨d, hd, rfl⟩ := List.mem_map.mp hb
  refine ⟨hfull d hd, fun r hr => ?_⟩
  have hdurable : r ∈ durable j' (noted s.trace) := hlog.logged.mem_durable.mpr ⟨d, hd, hr⟩
  obtain ⟨e, he, rfl⟩ := List.mem_map.mp hdurable
  have hlsn : e.2.lsn ∈ (noted s.trace).map (·.2.lsn) :=
    List.mem_map_of_mem (List.mem_filter.mp he).1
  rw [hgrouped.lsns, List.mem_range'_1] at hlsn
  exact hpos.trans_le hlsn.1

/-- The state that lives of a store leave in the first bytes of a log with their batches: each life adds
the commits whose record is in a frame wholly within these bytes. -/
def stateWithin (n : ℕ) (m : State) : List (System σ) → State
  | [] => m
  | s :: lives =>
    stateWithin (n - ((batchesOf s).flatMap frame).length)
      (afterCommits m (commitsIn (wholeWithin n (batchesOf s)) s.trace)) lives

theorem stateWithin_concat (n : ℕ) (m : State) (past : List (System σ)) (s : System σ) :
    stateWithin n m (past ++ [s]) =
      afterCommits (stateWithin n m past) (commitsIn
        (wholeWithin (n - ((past.flatMap batchesOf).flatMap frame).length) (batchesOf s))
        s.trace) := by
  induction past generalizing n m with
  | nil => rfl
  | cons u past ih =>
      rw [List.cons_append, stateWithin, ih, List.flatMap_cons, List.flatMap_append,
        List.length_append, Nat.sub_sub]
      rfl

theorem afterCommits_commitsIn_nil (m : State) (es : List Event) :
    afterCommits m (commitsIn [] es) = m := by
  have hnil : commitsIn [] es = [] := List.filter_eq_nil_iff.mpr (by simp)
  simp [hnil, afterCommits, inOrder]

/-- The stored commits of an earlier point of a run are the commits whose record is in the batches that
it had stored. -/
theorem storedCommits_of_prefix {base : List Record} {j j' : Journal σ} {s s' : System σ}
    {es : List Event} (h : Logging base j s) (h' : Logging base j' s')
    (hs : s.trace = s'.trace ++ es) :
    storedCommits s'.trace = commitsIn (batchesOf s') s.trace := by
  have hstored (id : ℕ) : isStored s'.trace id =
      (batchesOf s').any fun b => b.any fun r => r.tx = id && r.kind = .commit := by
    rw [isStored, batchesOf, List.any_map]
    rfl
  have hlater : (sealed es).filter (fun x => isStored s'.trace x.id) = [] := by
    refine List.filter_eq_nil_iff.mpr fun x hx hstored => ?_
    obtain ⟨b, hb, r, hr, htx, hk⟩ := isStored_iff.mp hstored
    obtain ⟨y, hy, hid, -⟩ := h'.exists_of_commit (h'.logged.mem_durable.mpr ⟨b, hb, hr⟩) hk
    have honce := h.once
    rw [hs, sealed_append, List.map_append] at honce
    refine (List.nodup_append.mp honce).2.2 y.id (List.mem_map_of_mem hy) x.id
      (List.mem_map_of_mem hx) (hid.trans htx)
  rw [storedCommits, commitsIn, hs, sealed_append, List.filter_append]
  simp only [← hstored]
  rw [hlater, List.append_nil]

/-! ### Histories on an archive -/

/-- The lives of a store on an archive, and the folder that they left.  Every life replays what the
last one left, and is stopped at any point. -/
inductive Archived : List (System Archive) → Folder → Prop
  | none : Archived [] Folder.empty
  | life {past : List (System Archive)} {folder : Folder} {bound : ℕ} {c : Coordinator Archive}
      {s : System Archive} {j : Journal Archive} (h : Archived past folder)
      (hb : Booted (Archive.mount folder bound) c) (hr : Reachable c s)
      (hj : s.coordinator.journal = some j) : Archived (past ++ [s]) j.store.folder

/-- What a folder has after some lives of a store.  The frames wholly before any position are the log of
a history. -/
structure Intact (lives : List (System Archive)) (folder : Folder) : Prop where
  present : folder.ensure = folder
  stores : ∀ bound, (Archive.mount folder bound).Stores (lives.flatMap batchesOf)
  numbered : ∀ b ∈ lives.flatMap batchesOf, b ≠ [] ∧ ∀ r ∈ b, 0 < r.lsn
  chronicle : ∀ n, ∃ past : List (System Archive),
    Chronicle past (wholeWithin n (lives.flatMap batchesOf)).flatten ∧
      recoveredState past = stateWithin n State.empty lives

theorem intact_empty : Intact [] Folder.empty where
  present := rfl
  stores bound := Archive.stores_mount_empty bound
  numbered := by simp
  chronicle _ := ⟨[], chronicle_nil, rfl⟩

section life
variable {past : List (System Archive)} {folder : Folder} {bound : ℕ} {c : Coordinator Archive}
  {s : System Archive} {j : Journal Archive}

theorem Intact.restored (h : Intact past folder) (hb : Booted (Archive.mount folder bound) c) :
    Restored (past.flatMap batchesOf).flatten (Archive.mount folder bound) c := by
  obtain ⟨recovered, hread, hrestored⟩ := hb.recovered
  obtain ⟨recovered', hread', hrecords⟩ := (h.stores bound).readLog_eq
  obtain rfl : recovered' = recovered := Except.ok.inj (hread'.symm.trans hread)
  rwa [← hrecords]

/-- A life that was stopped earlier extends the log that it started with. -/
theorem Intact.exists_chronicle (h : Intact past folder)
    (hb : Booted (Archive.mount folder bound) c) (hr : Reachable c s) {batches : List (List Record)}
    (hbatches : batches <+: batchesOf s) {n : ℕ}
    (hn : ((past.flatMap batchesOf).flatMap frame).length ≤ n) :
    ∃ lives : List (System Archive),
      Chronicle lives ((past.flatMap batchesOf).flatten ++ batches.flatten) ∧
      recoveredState lives =
        afterCommits (stateWithin n State.empty past) (commitsIn batches s.trace) := by
  have hrestored := h.restored hb
  obtain ⟨j₀, hj₀, hl, -⟩ := hrestored.logged
  obtain ⟨bs, hbs, rfl⟩ := List.prefix_map_iff.mp hbatches
  obtain ⟨s', es, hr', htrace, rfl⟩ := hr.exists_of_prefix hj₀ hbs
  obtain ⟨lives, hchronicle, hstate⟩ := h.chronicle n
  rw [Journal.wholeWithin_of_le hn] at hchronicle
  obtain ⟨j, hlog, -⟩ := hr.logging hrestored.fresh hj₀ hl
  obtain ⟨j', hlog', -⟩ := hr'.logging hrestored.fresh hj₀ hl
  refine ⟨lives ++ [s'], ?_, ?_⟩
  · rw [← List.flatMap_def]
    exact hchronicle.next hrestored hr'
  · rw [recoveredState_concat, hstate, storedCommits_of_prefix hlog hlog' htrace]
    rfl

theorem Intact.numbered_next (h : Intact past folder) (hb : Booted (Archive.mount folder bound) c)
    (hr : Reachable c s) :
    ∀ b ∈ past.flatMap batchesOf ++ batchesOf s, b ≠ [] ∧ ∀ r ∈ b, 0 < r.lsn := by
  intro b hmem
  rcases List.mem_append.mp hmem with hmem | hmem
  · exact h.numbered b hmem
  · exact (h.restored hb).batches hr hmem

/-- A life adds its batches to those that it found. -/
theorem Intact.stores_next (h : Intact past folder) (hb : Booted (Archive.mount folder bound) c)
    (hr : Reachable c s) (hj : s.coordinator.journal = some j) :
    j.store.Stores (past.flatMap batchesOf ++ batchesOf s) := by
  obtain ⟨j₀, hj₀, -, hstore⟩ := (h.restored hb).logged
  obtain ⟨j', hj', hfilled⟩ := hr.filled hj₀
  obtain rfl : j' = j := Option.some.inj (hj'.symm.trans hj)
  rw [hstore] at hfilled
  have hnumbered := h.numbered_next hb hr
  have hfits : ∀ b ∈ past.flatMap batchesOf ++ batchesOf s, Fits b := by
    intro b hmem
    rcases List.mem_append.mp hmem with hmem | hmem
    · exact (h.stores bound).fits b hmem
    · obtain ⟨d, hd, rfl⟩ := List.mem_map.mp hmem
      exact Archive.fits_of_filled hfilled d hd
  have hlimit : (past.flatMap batchesOf ++ batchesOf s).length < Wire.wordLimit := by
    obtain ⟨lives, hchronicle, -⟩ :=
      h.exists_chronicle hb hr (List.prefix_refl _) (Nat.le_refl _)
    refine Journal.length_lt_of_fits (fun b hmem => (hnumbered b hmem).1) hfits ?_
      fun b hmem => (hnumbered b hmem).2
    rw [List.flatten_append]
    exact hchronicle.nodup
  refine (h.stores bound).filled hfilled ?_
  rwa [List.length_append, batchesOf, List.length_map] at hlimit

theorem Intact.next (h : Intact past folder) (hb : Booted (Archive.mount folder bound) c)
    (hr : Reachable c s) (hj : s.coordinator.journal = some j) :
    Intact (past ++ [s]) j.store.folder := by
  have hstores := h.stores_next hb hr hj
  have hlives : (past ++ [s]).flatMap batchesOf = past.flatMap batchesOf ++ batchesOf s := by
    rw [List.flatMap_append, List.flatMap_singleton]
  refine ⟨hstores.ensure_eq, fun bound' => ?_, hlives ▸ h.numbered_next hb hr, fun n => ?_⟩
  · rw [hlives]
    exact hstores.reopen bound'
  · rw [hlives, Journal.wholeWithin_append, List.flatten_append, stateWithin_concat]
    rcases Nat.le_total ((past.flatMap batchesOf).flatMap frame).length n with hle | hle
    · rw [Journal.wholeWithin_of_le hle]
      exact h.exists_chronicle hb hr (Journal.isPrefix_wholeWithin ..) hle
    · rw [Journal.wholeWithin_sub_of_le hle, List.flatten_nil, List.append_nil,
        afterCommits_commitsIn_nil]
      exact h.chronicle n

end life

theorem Archived.intact {lives : List (System Archive)} {folder : Folder}
    (h : Archived lives folder) : Intact lives folder := by
  induction h with
  | none => exact intact_empty
  | life h hb hr hj ih => exact ih.next hb hr hj

/-! ### What recovery finds -/

/-- The segments of a store are the frames of the batches that its lives stored, and everything after
any position can be removed from them.  Recovery then succeeds, and a key reads as after the commits
whose records lie in frames wholly before the position, each with all its writes, in the order of
lives and of end versions.

A write to an archive fails only if its batch fits in no frame, and leaves nothing in the segments
then, so that nothing is asked of writes here. -/
theorem truncation_restores {lives : List (System Archive)} {folder : Folder}
    (h : Archived lives folder) (bound : ℕ) :
    ∃ segs, (Archive.mount folder bound).segments = .ok segs ∧
      segs.flatMap (·.2) = (lives.flatMap batchesOf).flatMap frame ∧
      (∀ n ≤ (segs.flatMap (·.2)).length, ∃ folder', Truncated folder segs n folder') ∧
      ∀ n folder', Truncated folder segs n folder' →
        ∀ count towers shards, Shards.create count towers = .ok shards →
        ∀ bound' batchSize threshold, ∃ d,
          boot (Archive.mount folder' bound') shards batchSize threshold = (.ok (), d) ∧
          ∀ key, (d.coordinator.get key).1 = .ok (stateWithin n State.empty lives key) := by
  have hintact := h.intact
  have hstores := hintact.stores bound
  have hfolder : (Archive.mount folder bound).folder = folder := hintact.present
  obtain ⟨segs, hsegs, hframes⟩ := hstores.segments_eq
  refine ⟨segs, hsegs, hframes, fun n hn => ?_, fun n folder' ht count towers shards hs bound'
    batchSize threshold => ?_⟩
  · rw [← hfolder]
    exact hstores.exists_truncated hsegs hn
  · rw [← hfolder] at ht
    obtain ⟨recovered, hread, hrecords⟩ := hstores.readLog_truncated hsegs ht bound'
    have hread : LogStore.read (Archive.mount folder' bound') = .ok recovered := hread
    obtain ⟨d, hd, hrestored⟩ := Restored.of_read hread hs batchSize threshold
    obtain ⟨past, hchronicle, hstate⟩ := hintact.chronicle n
    rw [hrecords] at hrestored
    refine ⟨d, hd, fun key => ?_⟩
    rw [hrestored.reads hchronicle, hstate]

/-! ### A log that lacks its last byte -/

/-- The coordinator of a store on an empty folder. -/
def sampleLife : Coordinator Archive :=
  (boot (Archive.mount Folder.empty 100) sample.shards 1 1).2.coordinator

theorem booted_sampleLife : Booted (Archive.mount Folder.empty 100) sampleLife := by
  obtain ⟨recovered, hread, -⟩ := (Archive.stores_mount_empty 100).readLog_eq
  have hread : LogStore.read (Archive.mount Folder.empty 100) = .ok recovered := hread
  have hs : Shards.create 1 (fun _ => Height.ruler) = .ok sample.shards := rfl
  obtain ⟨d, hd, -⟩ := Restored.of_read hread hs 1 1
  exact ⟨1, fun _ => Height.ruler, sample.shards, 1, 1, hs, d, hd, by rw [sampleLife, hd]⟩

/-- Two commits on one key fill two segments.  If the last byte is missing, the first one is
recovered. -/
theorem truncation_restores_sample :
    ∃ (s : System Archive) (folder folder' : Folder) (segs : List (String × Bytes))
      (d : Database Archive), Archived [s] folder ∧
        (Archive.mount folder 100).segments = .ok segs ∧ (segs.flatMap (·.2)).length = 212 ∧
        Truncated folder segs 211 folder' ∧
        boot (Archive.mount folder' 100) sample.shards 1 1 = (.ok (), d) ∧
        (d.coordinator.get "k").1 = .ok (some "v") := by
  have hrun : ((System.start sampleLife).run
      ([.begin] ++ Choice.write 0 "k" "v" ++ Choice.mint 0 ++ Choice.conclude 0 ++ [.begin] ++
        Choice.write 1 "k" "w" ++ Choice.mint 1 ++ Choice.conclude 1)).any (fun s =>
          s.coordinator.journal.isSome && ((batchesOf s).flatMap frame).length = 212 &&
            stateWithin 211 State.empty [s] "k" = some "v") = true := by
    decide +kernel
  obtain ⟨s, hr, hs⟩ := exists_reachable hrun
  simp only [Bool.and_eq_true, decide_eq_true_eq, Option.isSome_iff_exists] at hs
  obtain ⟨⟨⟨j, hj⟩, hlength⟩, hstate⟩ := hs
  have harchived : Archived [s] j.store.folder := Archived.none.life booted_sampleLife hr hj
  obtain ⟨segs, hsegs, hframes, hexists, hreads⟩ := truncation_restores harchived 100
  have hbytes : (segs.flatMap (·.2)).length = 212 := by
    rw [hframes, List.flatMap_singleton, hlength]
  obtain ⟨folder', ht⟩ := hexists 211 (by omega)
  obtain ⟨d, hd, hget⟩ :=
    hreads 211 folder' ht 1 (fun _ => Height.ruler) sample.shards rfl 100 1 1
  exact ⟨s, j.store.folder, folder', segs, d, harchived, hsegs, hbytes, ht, hd,
    (hget "k").trans (by rw [hstate])⟩

end Run
end SnapshotStore

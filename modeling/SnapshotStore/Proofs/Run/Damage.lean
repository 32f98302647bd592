import SnapshotStore.Proofs.Run.Rollbacks
import SnapshotStore.Proofs.Run.Truncation
import SnapshotStore.Proofs.Segment.Damage

/-! # Recovery from a damaged log

A frame of a stored log is damaged, and with it the frames after it in its segment are lost, but the later
segments are not.  Recovery succeeds, and applies every commit whose record is left, with those of its writes
whose records are left.

The records of a transaction are stored in order, its commit last.  So all writes of a transaction are applied
or none, unless its commit is in a later segment and the damage takes some of its writes, but not all
(`damage_recovery`).  That does happen (`damage_tears_commit`). -/

namespace SnapshotStore

/-! ### What is left of a log -/

namespace Replay

open Journal (byLsn_perm)

variable {w : ℕ → Writes} {rs ss : List Record} {r q : Record}

/-- The writes of a transaction that a log has. -/
def writesOfTx (rs : List Record) (tx : ℕ) : List Record :=
  rs.filter fun q => q.tx = tx && !q.kind.isTerminal

/-- What they make up. -/
def written (rs : List Record) (tx : ℕ) : Writes := (writesOfTx rs tx).foldl stage ∅

/-- Whether a replay of what is left of a log applies a record: it is left, and so is a commit of its
transaction. -/
def Applies (left : List Record) (q : Record) : Prop :=
  q ∈ left ∧ ∃ r ∈ left, r.tx = q.tx ∧ r.kind = .commit

theorem mem_writesOfTx {tx : ℕ} :
    q ∈ writesOfTx rs tx ↔ q ∈ rs ∧ q.tx = tx ∧ q.kind.isTerminal = false := by
  simp [writesOfTx]

theorem writesOfTx_append (rs ss : List Record) (tx : ℕ) :
    writesOfTx (rs ++ ss) tx = writesOfTx rs tx ++ writesOfTx ss tx := List.filter_append ..

theorem writesOfTx_eq_filter (rs : List Record) (tx : ℕ) :
    writesOfTx rs tx = (rs.filter (·.tx = tx)).filter fun q => !q.kind.isTerminal := by
  rw [writesOfTx, List.filter_filter]
  exact List.filter_congr fun q _ => Bool.and_comm ..

theorem InTurn.nodup (h : InTurn w rs) : rs.Nodup := List.Nodup.of_map _ h.distinct

theorem InTurn.commit_unique (h : InTurn w rs) (hr : r ∈ rs) (hq : q ∈ rs) (hkr : r.kind = .commit)
    (hkq : q.kind = .commit) (htx : q.tx = r.tx) : q = r := by
  obtain ⟨qs, hqs, -⟩ := h.closed r hr hkr
  obtain ⟨qs', hqs', -⟩ := h.closed q hq hkq
  rw [htx, hqs] at hqs'
  exact (List.singleton_inj.mp (List.append_inj' hqs' rfl).2).symm

/-- Among the records that are left, a commit is the last one of its transaction, and all others are
writes. -/
theorem InTurn.closed_of_sublist (h : InTurn w rs)
    (hkept : ∀ r ∈ rs, r.kind = .commit → ∀ q ∈ rs, q.tx = r.tx → q.kind ≠ .rollback)
    (hsub : ss.Sublist rs) (hr : r ∈ ss) (hk : r.kind = .commit) :
    ss.filter (·.tx = r.tx) = writesOfTx ss r.tx ++ [r] := by
  obtain ⟨qs, hqs, -⟩ := h.closed r (hsub.subset hr) hk
  have hleft := hsub.filter (p := fun q => q.tx = r.tx)
  have hnodup := h.nodup.sublist (List.filter_sublist (p := fun q => q.tx = r.tx))
  rw [hqs] at hleft hnodup
  have hnot : r ∉ qs := fun hmem =>
    (List.nodup_append.mp hnodup).2.2 r hmem r (List.mem_singleton.mpr rfl) rfl
  obtain ⟨qs', last, hsplit, hqs', hlast⟩ := List.sublist_append_iff.mp hleft
  have hmem : r ∈ ss.filter (·.tx = r.tx) := List.mem_filter.mpr ⟨hr, by simp⟩
  obtain rfl : last = [r] := by
    rcases List.sublist_singleton.mp hlast with rfl | rfl
    · rw [hsplit, List.append_nil] at hmem
      exact absurd (hqs'.subset hmem) hnot
    · rfl
  have hwrite : ∀ q ∈ qs', q.kind.isTerminal = false := fun q hq => by
    have hq' : q ∈ ss.filter (·.tx = r.tx) := hsplit ▸ List.mem_append_left _ hq
    obtain ⟨hmem, htx⟩ := List.mem_filter.mp hq'
    have htx : q.tx = r.tx := by simpa using htx
    cases hkq : q.kind with
    | set => rfl
    | del => rfl
    | commit =>
        have hsame := h.commit_unique (hsub.subset hr) (hsub.subset hmem) hk hkq htx
        exact absurd (hqs'.subset (hsame ▸ hq)) hnot
    | rollback => exact absurd hkq (hkept r (hsub.subset hr) hk q (hsub.subset hmem) htx)
  rw [writesOfTx_eq_filter, hsplit, List.filter_append, List.filter_eq_self.mpr (by simpa using hwrite),
    List.filter_eq_nil_iff.mpr (by simp [hk, RecordKind.isTerminal]), List.append_nil]

/-- A replay of what is left of a log applies the commits that are left, in the order of their numbers, each
with those of its writes that are left. -/
theorem InTurn.effects_of_sublist (h : InTurn w rs)
    (hkept : ∀ r ∈ rs, r.kind = .commit → ∀ q ∈ rs, q.tx = r.tx → q.kind ≠ .rollback)
    (hsub : ss.Sublist rs) : effects (fun _ => ∅) (Journal.byLsn ss) =
      ((Journal.byLsn ss).filter (·.kind = .commit)).map fun r => written ss r.tx := by
  have hdistinct : (ss.map (·.lsn)).Nodup := h.distinct.sublist (hsub.map _)
  have hnodup : (Journal.byLsn ss).Nodup := (byLsn_perm ss).nodup_iff.mpr (List.Nodup.of_map _ hdistinct)
  refine effects_eq hnodup (written ss) fun r hr hk => ⟨writesOfTx ss r.tx, ?_, rfl⟩
  rw [filter_byLsn hdistinct]
  · exact h.closed_of_sublist hkept hsub ((byLsn_perm ss).mem_iff.mp hr) hk
  · refine (h.order.sublist (List.filter_sublist.trans hsub)).imp_of_mem
      fun {q q'} hq hq' hlt => hlt (.inl ?_)
    have hq : q.tx = r.tx := by simpa using (List.mem_filter.mp hq).2
    have hq' : q'.tx = r.tx := by simpa using (List.mem_filter.mp hq').2
    exact hq.trans hq'.symm

/-- No record of a transaction comes after its commit. -/
theorem InTurn.tx_ne_of_commit {earlier later : List Record} (h : InTurn w (earlier ++ later))
    (hr : r ∈ earlier) (hk : r.kind = .commit) (hq : q ∈ later) : q.tx ≠ r.tx := by
  intro htx
  obtain ⟨qs, hqs, -⟩ := h.closed r (List.mem_append_left _ hr) hk
  rw [List.filter_append] at hqs
  have hmem : q ∈ later.filter (·.tx = r.tx) := List.mem_filter.mpr ⟨hq, by simpa using htx⟩
  rcases List.eq_nil_or_concat (later.filter (·.tx = r.tx)) with hnil | ⟨init, last, hlast⟩
  · rw [hnil] at hmem
    cases hmem
  · rw [hlast, List.concat_eq_append, ← List.append_assoc] at hqs
    obtain rfl := List.singleton_inj.mp (List.append_inj' hqs rfl).2
    have hr' : last ∈ later.filter (·.tx = last.tx) := by
      rw [hlast, List.concat_eq_append]
      exact List.mem_append_right _ (List.mem_singleton.mpr rfl)
    exact (List.nodup_append.mp h.nodup).2.2 last hr last (List.mem_filter.mp hr').1 rfl

theorem InTurn.applies_iff (h : InTurn w rs) (hsub : ss.Sublist rs) (hr : r ∈ rs)
    (hk : r.kind = .commit) (htx : q.tx = r.tx) : Applies ss q ↔ q ∈ ss ∧ r ∈ ss := by
  refine and_congr_right fun _ => ⟨?_, fun hr => ⟨r, hr, htx.symm, hk⟩⟩
  rintro ⟨r', hr', htx', hk'⟩
  rwa [← h.commit_unique hr (hsub.subset hr') hk hk' (htx'.trans htx)]

section damage
variable {before gone after : List Record}

theorem sublist_left (before gone after : List Record) :
    (before ++ after).Sublist (before ++ gone ++ after) :=
  (List.sublist_append_left before gone).append_right after

theorem InTurn.not_left_of_gone (h : InTurn w (before ++ gone ++ after)) (hq : q ∈ gone) :
    q ∉ before ++ after := by
  obtain ⟨hfirst, -, hafter⟩ := List.nodup_append.mp h.nodup
  obtain ⟨-, -, hbefore⟩ := List.nodup_append.mp hfirst
  intro hleft
  rcases List.mem_append.mp hleft with hmem | hmem
  · exact hbefore q hmem q hq rfl
  · exact hafter q (List.mem_append_right _ hq) q hmem rfl

theorem InTurn.applies_of_before (h : InTurn w (before ++ gone ++ after)) (hr : r ∈ before)
    (hk : r.kind = .commit) (hq : q ∈ before ++ gone ++ after) (htx : q.tx = r.tx) :
    Applies (before ++ after) q := by
  rw [List.append_assoc] at h hq
  have hq : q ∈ before := by
    rcases List.mem_append.mp hq with hq | hq
    · exact hq
    · exact absurd htx (h.tx_ne_of_commit hr hk hq)
  exact ⟨List.mem_append_left _ hq, r, List.mem_append_left _ hr, htx.symm, hk⟩

theorem InTurn.not_applies_of_gone (h : InTurn w (before ++ gone ++ after)) (hr : r ∈ gone)
    (hk : r.kind = .commit) (htx : q.tx = r.tx) : ¬Applies (before ++ after) q := by
  have hmem : r ∈ before ++ gone ++ after := List.mem_append_left _ (List.mem_append_right _ hr)
  rw [h.applies_iff (sublist_left before gone after) hmem hk htx]
  exact fun happly => h.not_left_of_gone hr happly.2

theorem InTurn.applies_iff_of_after (h : InTurn w (before ++ gone ++ after)) (hr : r ∈ after)
    (hk : r.kind = .commit) (htx : q.tx = r.tx) :
    Applies (before ++ after) q ↔ q ∈ before ++ after := by
  rw [h.applies_iff (sublist_left before gone after) (List.mem_append_right _ hr) hk htx]
  exact and_iff_left (List.mem_append_right _ hr)

/-- All writes of a transaction are applied or none, unless its commit is after the damage, and the damage
takes some of its writes, but not all. -/
theorem InTurn.all_or_none_iff (h : InTurn w (before ++ gone ++ after))
    (hr : r ∈ before ++ gone ++ after) (hk : r.kind = .commit) :
    ((∀ q ∈ writesOfTx (before ++ gone ++ after) r.tx, Applies (before ++ after) q) ∨
        (∀ q ∈ writesOfTx (before ++ gone ++ after) r.tx, ¬Applies (before ++ after) q)) ↔
      ¬(r ∈ after ∧ (∃ q, q ∈ writesOfTx gone r.tx) ∧
        ∃ q, q ∈ writesOfTx (before ++ after) r.tx) := by
  obtain ⟨-, -, hdisjoint⟩ := List.nodup_append.mp h.nodup
  rcases List.mem_append.mp hr with hfirst | hlater
  · refine iff_of_true ?_ fun hcon => hdisjoint r hfirst r hcon.1 rfl
    rcases List.mem_append.mp hfirst with hbefore | hgone
    · refine .inl fun q hq => ?_
      obtain ⟨hmem, htx, -⟩ := mem_writesOfTx.mp hq
      exact h.applies_of_before hbefore hk hmem htx
    · exact .inr fun q hq => h.not_applies_of_gone hgone hk (mem_writesOfTx.mp hq).2.1
  · have happlies {q : Record} {rs : List Record} (hq : q ∈ writesOfTx rs r.tx) :
        Applies (before ++ after) q ↔ q ∈ before ++ after :=
      h.applies_iff_of_after hlater hk (mem_writesOfTx.mp hq).2.1
    simp only [hlater, true_and, not_and, not_exists]
    constructor
    · rintro (hall | hnone) ⟨q, hq⟩ q' hq'
      · have hwrite : q ∈ writesOfTx (before ++ gone ++ after) r.tx := by
          simp [writesOfTx_append, hq]
        exact h.not_left_of_gone (mem_writesOfTx.mp hq).1 ((happlies hq).mp (hall q hwrite))
      · have hwrite : q' ∈ writesOfTx (before ++ gone ++ after) r.tx :=
          ((sublist_left before gone after).filter _).subset hq'
        exact hnone q' hwrite ((happlies hq').mpr (mem_writesOfTx.mp hq').1)
    · intro hnot
      by_cases hsome : ∃ q, q ∈ writesOfTx gone r.tx
      · refine .inr fun q hq happly => hnot hsome q ?_
        exact mem_writesOfTx.mpr ⟨(happlies hq).mp happly, (mem_writesOfTx.mp hq).2⟩
      · refine .inl fun q hq => (happlies hq).mpr ?_
        obtain ⟨hmem, hwrite⟩ := mem_writesOfTx.mp hq
        rcases List.mem_append.mp hmem with hmem | hmem
        · rcases List.mem_append.mp hmem with hmem | hmem
          · exact List.mem_append_left _ hmem
          · exact absurd ⟨q, mem_writesOfTx.mpr ⟨hmem, hwrite⟩⟩ hsome
        · exact List.mem_append_right _ hmem

end damage

end Replay

/-! ### Recovery -/

namespace Run

open Journal (LogStore Damaged Fits byLsn frame)
open Replay (Applies written writesOfTx)
open Segment (Archive Folder)

theorem Archived.storedLog {lives : List (System Archive)} {folder : Folder}
    (h : Archived lives folder) : StoredLog Archive (lives.flatMap batchesOf).flatten := by
  induction h with
  | none => exact .none
  | life h hb hr hj ih =>
      next past folder bound c s j =>
      obtain ⟨found, hread, hrecords⟩ := (h.intact.stores bound).readLog_eq
      have hread : LogStore.read (Archive.mount folder bound) = .ok found := hread
      rw [← hrecords] at ih
      have hnext := ih.life (.replayed hread hb) hr
      have hlast : (stored s.trace).flatMap (·.records) = (batchesOf s).flatten := List.flatMap_def ..
      rwa [hrecords, hlast, ← List.flatten_append, ← List.flatMap_singleton batchesOf s,
        ← List.flatMap_append] at hnext

theorem Restored.get_replayed {σ : Type} [LogStore σ] {rs : List Record} {store : σ}
    {c : Coordinator σ} (hc : Restored rs store c) (key : String) : (c.get key).1 =
      .ok (State.empty.writeAll (Replay.effects (fun _ => ∅) (byLsn rs)) key) := by
  obtain ⟨threshold, hlocks⟩ := hc.locks
  obtain ⟨_, -, hread⟩ :=
    Coordinator.get_of_atRest (hlocks ▸ LockTable.atRest_create threshold : c.locks.AtRest) key
  rw [hread, hc.flat.get_eq, hc.replayed]

/-- The segments of a store are made of frames.  If one of these is damaged, recovery succeeds and applies the
commits that are left, in the order of their numbers, each with those of its writes that are left.  So all
writes of a transaction are applied or none, unless its commit is in a later segment, and some of its writes
are lost, but not all. -/
theorem damage_recovery {lives : List (System Archive)} {folder : Folder} (h : Archived lives folder)
    (bound : ℕ) :
    ∃ segs, (Archive.mount folder bound).segments = .ok segs ∧
      (∀ s ∈ segs, ∃ stored : List (List Record), (∀ d ∈ stored, Fits d) ∧ s.2 = stored.flatMap frame) ∧
      ∀ earlier name kept b lost later tail,
        segs = earlier ++ (name, (kept ++ b :: lost).flatMap frame) :: later →
        (∀ d ∈ kept ++ b :: lost, Fits d) → Damaged b lost tail →
        let before := (Archive.recovered earlier).records ++ kept.flatten
        let gone := (b :: lost).flatten
        let after := (Archive.recovered later).records
        (lives.flatMap batchesOf).flatten = before ++ gone ++ after ∧
          (∃ folder', folder.changeFile name (fun _ => kept.flatMap frame ++ tail) = .ok folder' ∧
            ∀ count towers shards, Shards.create count towers = .ok shards →
            ∀ bound' batchSize threshold, ∃ d,
              boot (Archive.mount folder' bound') shards batchSize threshold = (.ok (), d) ∧
              ∀ key, (d.coordinator.get key).1 = .ok (State.empty.writeAll
                (((byLsn (before ++ after)).filter (·.kind = .commit)).map
                  fun r => written (before ++ after) r.tx) key)) ∧
          ∀ r ∈ before ++ gone ++ after, r.kind = .commit →
            (((∀ q ∈ writesOfTx (before ++ gone ++ after) r.tx, Applies (before ++ after) q) ∨
                (∀ q ∈ writesOfTx (before ++ gone ++ after) r.tx, ¬Applies (before ++ after) q)) ↔
              ¬(r ∈ after ∧ (∃ q, q ∈ writesOfTx gone r.tx) ∧
                ∃ q, q ∈ writesOfTx (before ++ after) r.tx)) := by
  have hstores := h.intact.stores bound
  obtain ⟨segs, hsegs, -⟩ := hstores.segments_eq
  refine ⟨segs, hsegs, fun s hs => hstores.exists_frames hsegs hs, ?_⟩
  rintro earlier name kept b lost later tail rfl hfits hdamaged before gone after
  have hrecords : (lives.flatMap batchesOf).flatten = before ++ gone ++ after :=
    hstores.records_eq hsegs hfits
  have hlog := h.storedLog
  rw [hrecords] at hlog
  obtain ⟨w, hturn⟩ := hlog.inTurn
  obtain ⟨folder', hchange, hread⟩ := hstores.readLog_damaged hsegs hfits hdamaged
  have hfolder : (Archive.mount folder bound).folder = folder := h.intact.present
  rw [hfolder] at hchange
  refine ⟨hrecords, ⟨folder', hchange, fun count towers shards hs bound' batchSize threshold => ?_⟩,
    fun r hr hk => hturn.all_or_none_iff hr hk⟩
  obtain ⟨found, hfound, hleft⟩ := hread bound'
  have hfound : LogStore.read (Archive.mount folder' bound') = .ok found := hfound
  obtain ⟨d, hd, hrestored⟩ := Restored.of_read hfound hs batchSize threshold
  rw [hleft] at hrestored
  refine ⟨d, hd, fun key => ?_⟩
  rw [hrestored.get_replayed, hturn.effects_of_sublist
    (fun r hr hk q hq htx => hlog.not_rolledBack hr hk hq htx) (Replay.sublist_left before gone after)]

/-! ### A commit without its last write -/

/-- A transaction writes a key twice and commits. -/
def tornWork : List Choice :=
  [.begin] ++ Choice.write 0 "k" "v" ++ Choice.write 0 "k" "w" ++ Choice.mint 0 ++ Choice.conclude 0

/-- A record that it logs. -/
def tornRecord : ℕ → Record
  | 1 => ⟨1, 1, .set, ["k", "v"]⟩
  | 2 => ⟨2, 1, .set, ["k", "w"]⟩
  | lsn => ⟨lsn, 1, .commit, []⟩

/-- Its writes fill a segment, and its commit is in the next one. -/
def tornSegments : List (String × Bytes) :=
  [(Segment.name 1, [[tornRecord 1], [tornRecord 2]].flatMap frame),
    (Segment.name 2, [[tornRecord 3]].flatMap frame)]

theorem fits_tornRecord : ∀ d ∈ [[tornRecord 1], [tornRecord 2], [tornRecord 3]], Fits d := by
  have hshort : ∀ d ∈ [[tornRecord 1], [tornRecord 2], [tornRecord 3]],
      (Journal.payload d).length < Wire.shortLimit ∧ ∀ r ∈ d, r.fits = true := by
    decide +kernel
  exact fun d hd => ⟨(hshort d hd).1, (hshort d hd).2⟩

theorem exists_torn : ∃ (s : System Archive) (folder : Folder), Archived [s] folder ∧
    batchesOf s = [[tornRecord 1], [tornRecord 2], [tornRecord 3]] ∧
    (Archive.mount folder 100).segments = .ok tornSegments := by
  have hrun : ((System.start sampleLife).run tornWork).any (fun s =>
      batchesOf s = [[tornRecord 1], [tornRecord 2], [tornRecord 3]] &&
        s.coordinator.journal.any fun j =>
          tornSegments.all (fun x => (Segment.id? x.1).isSome &&
            j.store.folder.readFile x.1 = .ok x.2) &&
          j.store.folder.names.keys.all (· ∈ tornSegments.map Prod.fst)) = true := by
    decide +kernel
  obtain ⟨s, hr, hs⟩ := exists_reachable hrun
  obtain ⟨hbatches, hs⟩ := Bool.and_eq_true_iff.mp hs
  obtain ⟨j, hj, hfiles⟩ := (Option.any_eq_true _ _).mp hs
  simp only [Bool.and_eq_true, List.all_eq_true, decide_eq_true_eq] at hfiles
  have harchived : Archived [s] j.store.folder := Archived.none.life booted_sampleLife hr hj
  have hfolder : (Archive.mount j.store.folder 100).folder = j.store.folder :=
    harchived.intact.present
  obtain ⟨top, vols, hlaid, -⟩ := harchived.intact.stores 100
  have hholds : (Archive.mount j.store.folder 100).Holds tornSegments :=
    .of_files hlaid.holds.plain (by decide +kernel) (hfolder ▸ hfiles.1) (hfolder ▸ hfiles.2)
  exact ⟨s, j.store.folder, harchived, of_decide_eq_true hbatches, hholds.segments_eq⟩

theorem recovered_torn :
    (Archive.recovered (tornSegments.take 1)).records = [tornRecord 1, tornRecord 2] ∧
      (Archive.recovered (tornSegments.drop 1)).records = [tornRecord 3] := by
  have hfits := fits_tornRecord
  simp only [List.forall_mem_cons] at hfits
  obtain ⟨h₁, h₂, h₃, -⟩ := hfits
  have hdecode (stored : List (List Record)) (h : ∀ d ∈ stored, Fits d) (name : String) :
      (Archive.recovered [(name, stored.flatMap frame)]).records = stored.flatten := by
    rw [Archive.records_recovered_cons, Journal.records_decode_frames h]
    exact List.append_nil _
  exact ⟨hdecode [[tornRecord 1], [tornRecord 2]] (by simp [h₁, h₂]) _,
    hdecode [[tornRecord 3]] (by simp [h₃]) _⟩

/-- If the record of the commit is damaged, nothing is applied. -/
theorem damage_recovery_sample : ∃ (s : System Archive) (folder folder' : Folder)
    (d : Database Archive), Archived [s] folder ∧
      folder.changeFile (Segment.name 2) (fun _ => (frame [tornRecord 3]).take 20) = .ok folder' ∧
      boot (Archive.mount folder' 100) sample.shards 1 1 = (.ok (), d) ∧
      (d.coordinator.get "k").1 = .ok none := by
  obtain ⟨s, folder, harchived, -, htorn⟩ := exists_torn
  obtain ⟨segs, hsegs, -, hdamage⟩ := damage_recovery harchived 100
  have hsplit : segs = tornSegments.take 1 ++
      (Segment.name 2, ([] ++ [tornRecord 3] :: []).flatMap frame) :: [] :=
    Except.ok.inj (hsegs.symm.trans htorn)
  have hfits : ∀ d ∈ [] ++ [tornRecord 3] :: [], Fits d :=
    fun d hd => fits_tornRecord d (List.mem_cons_of_mem _ (List.mem_cons_of_mem _ hd))
  have hdamaged : Damaged [tornRecord 3] [] ((frame [tornRecord 3]).take 20) := .cut (by decide +kernel)
  obtain ⟨-, ⟨folder', hchange, hboot⟩, -⟩ := hdamage _ _ _ _ _ _ _ hsplit hfits hdamaged
  obtain ⟨d, hd, hget⟩ := hboot 1 (fun _ => Height.ruler) sample.shards rfl 100 1 1
  refine ⟨s, folder, folder', d, harchived, hchange, hd, (hget "k").trans ?_⟩
  have hsorted : byLsn [tornRecord 1, tornRecord 2] = [tornRecord 1, tornRecord 2] :=
    List.mergeSort_of_pairwise (by decide)
  have hcommits : (byLsn [tornRecord 1, tornRecord 2]).filter (·.kind = .commit) = [] := by
    rw [hsorted]
    decide
  rw [recovered_torn.1]
  exact congrArg (fun commits => Except.ok (State.empty.writeAll (List.map _ commits) "k")) hcommits

/-- If a byte of the second write is changed, the first one is applied alone. -/
theorem damage_tears_commit : ∃ (s : System Archive) (folder folder' : Folder)
    (d : Database Archive), Archived [s] folder ∧
      batchesOf s = [[tornRecord 1], [tornRecord 2], [tornRecord 3]] ∧
      (Archive.mount folder 100).segments = .ok tornSegments ∧
      folder.changeFile (Segment.name 1)
        (fun _ => frame [tornRecord 1] ++ (frame [tornRecord 2]).set 40 255) = .ok folder' ∧
      boot (Archive.mount folder' 100) sample.shards 1 1 = (.ok (), d) ∧
      (d.coordinator.get "k").1 = .ok (some "v") := by
  obtain ⟨s, folder, harchived, hbatches, hsegs⟩ := exists_torn
  have hsplit : (Archive.mount folder 100).segments = .ok ([] ++ (Segment.name 1,
      ([[tornRecord 1]] ++ [tornRecord 2] :: []).flatMap frame) :: tornSegments.drop 1) := hsegs
  have hfits : ∀ d ∈ [[tornRecord 1]] ++ [tornRecord 2] :: [], Fits d :=
    fun d hd => fits_tornRecord d (List.mem_append_left [[tornRecord 3]] hd)
  have hdamaged : Damaged [tornRecord 2] [] ((frame [tornRecord 2]).set 40 255) :=
    .of_checksum (List.append_nil _).symm (by decide +kernel)
  obtain ⟨folder', hchange, hread⟩ :=
    (harchived.intact.stores 100).readLog_damaged hsplit hfits hdamaged
  obtain ⟨found, hfound, hleft⟩ := hread 100
  have hfound : LogStore.read (Archive.mount folder' 100) = .ok found := hfound
  have hs : Shards.create 1 (fun _ => Height.ruler) = .ok sample.shards := rfl
  obtain ⟨d, hd, hrestored⟩ := Restored.of_read hfound hs 1 1
  have hleft : found.records = [tornRecord 1, tornRecord 3] :=
    hleft.trans (congrArg ([tornRecord 1] ++ ·) recovered_torn.2)
  have hsorted : byLsn [tornRecord 1, tornRecord 3] = [tornRecord 1, tornRecord 3] :=
    List.mergeSort_of_pairwise (by decide)
  refine ⟨s, folder, folder', d, harchived, hbatches, hsegs, ?_, hd, ?_⟩
  · rwa [show (Archive.mount folder 100).folder = folder from harchived.intact.present] at hchange
  · rw [hrestored.get_replayed, hleft, hsorted]
    decide

end Run
end SnapshotStore

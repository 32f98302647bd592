import SnapshotStore.Proofs.Segment.Volume

/-! # The log has what was acknowledged

An archive is used by writing batches, of which some fail, by shipping segments and by opening the
folder anew (`Action`).  `Usage` has, beside the archive, which batches were acknowledged and what
failed writes left behind, each with the segment that it went to.

These are the batches and the torn ends of the volumes of the archive (`Told`), whatever is done
(`Told.step`).  So the log always reads as the acknowledged batches, in the order in which they were
written, and the damaged segments are those that a failed write left something in
(`readLog_acknowledged`). -/

namespace SnapshotStore
namespace Segment
namespace Archive

open Journal (Fits frame)

/-! ### Usage -/

/-- Appends one batch as a frame, when the write has a given fate. -/
def writeBatchWith (fate : Handle → Bytes → WriteFate) (a : Archive) (records : List Record) :
    Outcome Unit × Archive :=
  match Journal.encode records with
  | .error fault => (.error fault, a)
  | .ok frame => a.appendWith fate frame

theorem writeBatch_eq (a : Archive) (records : List Record) :
    a.writeBatch records = a.writeBatchWith Folder.fate records := rfl

/-- What is done with a log. -/
inductive Action where
  | write (records : List Record) (fate : WriteFate)
  | ship (name : String)
  | reopen
deriving DecidableEq

namespace Action

/-- Whether a batch is to be written. -/
def isWrite : Action → Bool
  | write _ _ => true
  | _ => false

/-- Whether a write that fails leaves less than the whole frame. -/
def Proper : Action → Prop
  | write records fate => fate.Proper (frame records)
  | _ => True

instance (action : Action) : Decidable action.Proper :=
  match action with
  | write _ .stored => .isTrue trivial
  | write records (.failed _ written _) =>
    inferInstanceAs (Decidable (written < (frame records).length))
  | ship _ => .isTrue trivial
  | reopen => .isTrue trivial

/-- The batch that is to be acknowledged: one that fits in a frame, which is stored. -/
def stored? : Action → Option (List Record)
  | write records .stored => (Journal.encode records).toOption.map fun _ => records
  | _ => none

end Action

/-- What a write leaves of some bytes in spite of its failure. -/
def leftover (data : Bytes) : WriteFate → Bytes
  | .stored => []
  | .failed _ written cutBack => if cutBack then [] else data.take written

/-- An archive in use: the batches that were acknowledged, and what failed writes left, each with the
name of its segment. -/
structure Usage where
  archive : Archive
  acknowledged : List (String × List Record)
  torn : List (String × Bytes)

namespace Usage

/-- A new archive. -/
def start (bound : ℕ) : Usage := ⟨mount Folder.empty bound, [], []⟩

/-- What a failed write of a batch leaves, with the segment that it leaves it in. -/
def leaves (a : Archive) (records : List Record) (fate : WriteFate) : List (String × Bytes) :=
  match Journal.encode records with
  | .error _ => []
  | .ok frame =>
    (a.destination.toList.map fun name => (name, leftover frame fate)).filter (!·.2.isEmpty)

/-- The archive after an action, with what was acknowledged and what was left. -/
def step (u : Usage) : Action → Usage
  | .write records fate =>
    match u.archive.writeBatchWith (fun _ _ => fate) records with
    | (.ok (), archive) =>
      { u with
        archive
        acknowledged := u.acknowledged ++ u.archive.destination.toList.map (·, records) }
    | (.error _, archive) => { u with archive, torn := u.torn ++ leaves u.archive records fate }
  | .ship name => { u with archive := (u.archive.ship name).2 }
  | .reopen => { u with archive := u.archive.reopen u.archive.bound }

/-- The frames that were acknowledged in a segment. -/
def framesIn (u : Usage) (name : String) : List Bytes :=
  (u.acknowledged.filter (·.1 = name)).map fun x => frame x.2

/-- What failed writes left in a segment. -/
def tornIn (u : Usage) (name : String) : Bytes := (u.torn.filter (·.1 = name)).flatMap (·.2)

end Usage

/-! ### The invariant -/

/-- Batches of volumes with the names of their segments. -/
def batchesOf (vols : List Volume) : List (String × List Record) :=
  vols.flatMap fun v => v.batches.map (name v.id, ·)

/-- Torn ends of volumes with the names of their segments. -/
def tornOf (vols : List Volume) : List (String × Bytes) :=
  (vols.filter (!·.torn.isEmpty)).map fun v => (name v.id, v.torn)

/-- What was acknowledged and what was left are the batches and the torn ends of some volumes. -/
structure Told (bound : ℕ) (u : Usage) (vols : List Volume) : Prop where
  laid : u.archive.Laid bound vols
  acknowledged : u.acknowledged = batchesOf vols
  torn : u.torn = tornOf vols

variable {bound : ℕ} {u : Usage} {vols vols' : List Volume} {v : Volume}

theorem told_start (h : 0 < bound) : Told bound (.start bound) [] :=
  ⟨laid_mount_empty (max_le (Nat.le_refl _) h), rfl, rfl⟩

theorem batchesOf_eq (h : vols = vols' ++ [v] ∨ vols = vols' ∧ v = .fresh (vols.length + 1)) :
    batchesOf vols = batchesOf vols' ++ v.batches.map (name v.id, ·) := by
  rcases h with rfl | ⟨rfl, rfl⟩
  · simp [batchesOf]
  · simp [batchesOf, Volume.fresh]

theorem tornOf_eq (h : vols = vols' ++ [v] ∨ vols = vols' ∧ v = .fresh (vols.length + 1))
    (hv : v.torn = []) : tornOf vols = tornOf vols' := by
  rcases h with rfl | ⟨rfl, rfl⟩
  · simp [tornOf, hv]
  · rfl

/-- A write adds its batch or its torn end to a volume, and a batch that is stored is acknowledged. -/
theorem Told.write (h : Told bound u vols) (hlimit : vols.length + 1 < Wire.wordLimit)
    {records : List Record} (hfits : Fits records) {fate : WriteFate}
    (hproper : fate.Proper (frame records)) :
    ∃ vols', vols'.length ≤ vols.length + 1 ∧ Told bound (u.step (.write records fate)) vols' ∧
      (u.step (.write records fate)).acknowledged.map (·.2) =
        u.acknowledged.map (·.2) ++ (Action.write records fate).stored?.toList := by
  obtain ⟨a', vols', v, happend, hname, hwhole, hlaid, hvols⟩ :=
    h.laid.append hlimit hfits (fun _ _ => fate) (fun _ => rfl) hproper
  have hwrite : u.archive.writeBatchWith (fun _ _ => fate) records = (fate.outcome, a') := by
    rw [writeBatchWith, hfits.encode_eq]
    exact happend
  have hlength : (vols' ++ [v.after records fate]).length ≤ vols.length + 1 := by
    rw [List.length_append, List.length_singleton]
    rcases hvols with rfl | ⟨rfl, -⟩
    · rw [List.length_append, List.length_singleton]
      omega
    · exact Nat.le_refl _
  refine ⟨_, hlength, ?_⟩
  rw [Usage.step, hwrite]
  cases fate with
  | stored =>
      refine ⟨⟨hlaid, ?_, ?_⟩, ?_⟩
      · show u.acknowledged ++ u.archive.destination.toList.map (·, records) = _
        rw [h.acknowledged, batchesOf_eq hvols, hname, List.append_assoc]
        simp [batchesOf, Volume.after]
      · show u.torn = _
        rw [h.torn, tornOf_eq hvols hwhole]
        simp [tornOf, Volume.after, hwhole]
      · simp [WriteFate.outcome, hname, Action.stored?, hfits.encode_eq, Except.toOption]
  | failed cause written cutBack =>
      refine ⟨⟨hlaid, ?_, ?_⟩, (List.append_nil _).symm⟩
      · show u.acknowledged = _
        rw [h.acknowledged, batchesOf_eq hvols]
        simp [batchesOf, Volume.after]
      · show u.torn ++ Usage.leaves u.archive records _ = _
        rw [h.torn, tornOf_eq hvols hwhole, Usage.leaves, hfits.encode_eq, hname, tornOf, tornOf,
          List.filter_append, List.map_append]
        congr 1
        have hafter : (v.after records (.failed cause written cutBack)).torn =
            leftover (frame records) (.failed cause written cutBack) := rfl
        cases hl : leftover (frame records) (.failed cause written cutBack) with
        | nil => simp [hafter, hl]
        | cons b bytes =>
            simp [hafter, hl]
            rfl

theorem step_of_not_fits {records : List Record} (h : ¬ Fits records) (fate : WriteFate) :
    u.step (.write records fate) = u ∧ (Action.write records fate).stored? = none := by
  cases hencode : Journal.encode records with
  | ok bytes => exact absurd (Journal.encode_eq_ok_iff.mp hencode).1 h
  | error fault =>
      refine ⟨?_, ?_⟩
      · rw [Usage.step, writeBatchWith, hencode]
        simp [Usage.leaves, hencode]
      · cases fate <;> simp [Action.stored?, hencode, Except.toOption]

/-- Whatever is done, the archive has what was acknowledged and what was left, and what is to be
acknowledged is. -/
theorem Told.step (h : Told bound u vols) {action : Action} (hproper : action.Proper)
    (hlimit : vols.length + [action].countP (·.isWrite) < Wire.wordLimit) :
    ∃ vols', vols'.length ≤ vols.length + [action].countP (·.isWrite) ∧
      Told bound (u.step action) vols' ∧ (u.step action).acknowledged.map (·.2) =
        u.acknowledged.map (·.2) ++ action.stored?.toList := by
  cases action with
  | write records fate =>
      by_cases hfits : Fits records
      · exact h.write hlimit hfits hproper
      · obtain ⟨hstep, hstored⟩ := step_of_not_fits (u := u) hfits fate
        rw [hstep, hstored]
        exact ⟨vols, Nat.le_add_right .., h, (List.append_nil _).symm⟩
  | ship name =>
      exact ⟨vols, Nat.le_refl _, ⟨h.laid.ship name, h.acknowledged, h.torn⟩,
        (List.append_nil _).symm⟩
  | reopen =>
      exact ⟨vols, Nat.le_refl _, ⟨h.laid.reopen h.laid.bound, h.acknowledged, h.torn⟩,
        (List.append_nil _).symm⟩

theorem Told.run (h : Told bound u vols) {actions : List Action}
    (hproper : ∀ action ∈ actions, action.Proper)
    (hlimit : vols.length + actions.countP (·.isWrite) < Wire.wordLimit) :
    ∃ vols', Told bound (actions.foldl Usage.step u) vols' ∧
      (actions.foldl Usage.step u).acknowledged.map (·.2) =
        u.acknowledged.map (·.2) ++ actions.filterMap Action.stored? := by
  induction actions generalizing u vols with
  | nil => exact ⟨vols, h, (List.append_nil _).symm⟩
  | cons action actions ih =>
      have hcount : (action :: actions).countP (·.isWrite) =
          [action].countP (·.isWrite) + actions.countP (·.isWrite) := by
        rw [← List.countP_append]
        rfl
      rw [hcount] at hlimit
      obtain ⟨vols₁, hlength, htold, hacknowledged⟩ :=
        h.step (hproper action (List.mem_cons_self ..)) (by omega)
      obtain ⟨vols', htold', hacknowledged'⟩ :=
        ih htold (fun x hx => hproper x (List.mem_cons_of_mem _ hx)) (by omega)
      refine ⟨vols', htold', ?_⟩
      rw [List.foldl_cons, hacknowledged', hacknowledged, List.append_assoc]
      cases hs : action.stored? <;> simp [hs]

/-! ### Segments -/

theorem Laid.name_ne {a : Archive} {A B : List Volume} (h : a.Laid bound (A ++ v :: B)) {w : Volume}
    (hw : w ∈ A ++ B) : name w.id ≠ name v.id := by
  have hholds := h.holds
  rw [List.map_append, List.map_cons] at hholds
  refine hholds.ne_of_mem (s := w.entry) ?_
  rw [← List.map_append]
  exact List.mem_map_of_mem hw

theorem Told.framesIn_eq (h : Told bound u vols) (hv : v ∈ vols) :
    u.framesIn (name v.id) = v.batches.map frame := by
  obtain ⟨A, B, rfl⟩ := List.append_of_mem hv
  have hother {C : List Volume} (hC : ∀ w ∈ C, w ∈ A ++ B) :
      (batchesOf C).filter (·.1 = name v.id) = [] := by
    rw [List.filter_eq_nil_iff]
    intro x hx
    obtain ⟨w, hw, hx⟩ := List.mem_flatMap.mp hx
    obtain ⟨b, -, rfl⟩ := List.mem_map.mp hx
    simpa using h.laid.name_ne (hC w hw)
  have hsplit : batchesOf (A ++ v :: B) =
      batchesOf A ++ (v.batches.map (name v.id, ·) ++ batchesOf B) := by
    simp [batchesOf]
  rw [Usage.framesIn, h.acknowledged, hsplit, List.filter_append, List.filter_append,
    hother fun w hw => List.mem_append_left _ hw, hother fun w hw => List.mem_append_right _ hw,
    List.filter_eq_self.mpr (by simp)]
  simp

theorem Told.tornIn_eq (h : Told bound u vols) (hv : v ∈ vols) : u.tornIn (name v.id) = v.torn := by
  obtain ⟨A, B, rfl⟩ := List.append_of_mem hv
  have hother {C : List Volume} (hC : ∀ w ∈ C, w ∈ A ++ B) :
      (tornOf C).filter (·.1 = name v.id) = [] := by
    rw [List.filter_eq_nil_iff]
    intro x hx
    obtain ⟨w, hw, rfl⟩ := List.mem_map.mp hx
    simpa using h.laid.name_ne (hC w (List.mem_filter.mp hw).1)
  have hsplit : tornOf (A ++ v :: B) = tornOf A ++ (tornOf [v] ++ tornOf B) := by
    rw [tornOf, ← List.singleton_append, List.filter_append, List.filter_append, List.map_append,
      List.map_append]
    rfl
  rw [Usage.tornIn, h.torn, hsplit, List.filter_append, List.filter_append,
    hother fun w hw => List.mem_append_left _ hw, hother fun w hw => List.mem_append_right _ hw]
  cases ht : v.torn <;> simp [tornOf, ht]

/-- The log and the segments of an archive in use. -/
theorem Told.readLog_eq (h : Told bound u vols) :
    ∃ segs recovered, u.archive.segments = .ok segs ∧ u.archive.readLog = .ok recovered ∧
      recovered.records = u.acknowledged.flatMap (·.2) ∧
      recovered.report.damaged = u.torn.map (·.1) ∧
      (segs.map (·.1)).Pairwise (· < ·) ∧
      (∀ s ∈ segs, s.2 = (u.framesIn s.1).flatten ++ u.tornIn s.1 ∧
        (u.framesIn s.1).dropLast.flatten.length < bound) ∧
      (∀ x ∈ u.acknowledged, x.1 ∈ segs.map (·.1)) ∧
      (u.torn.map (·.1)).Sublist (segs.map (·.1)) ∧ ∀ x ∈ u.torn, x.2 ≠ [] := by
  obtain ⟨recovered, hread, hrecords, hdamaged⟩ := h.laid.readLog_eq
  refine ⟨vols.map Volume.entry, recovered, h.laid.segments_eq, hread, ?_, ?_, h.laid.holds.sorted,
    fun s hs => ?_, fun x hx => ?_, ?_, fun x hx => ?_⟩
  · rw [hrecords, h.acknowledged, batchesOf, List.flatMap_assoc, List.flatMap_def, List.flatten_flatten,
      List.map_map]
    refine congrArg List.flatten (List.map_congr_left fun v _ => ?_)
    simp [List.flatMap_def]
  · rw [hdamaged, h.torn, tornOf, List.map_map]
    rfl
  · obtain ⟨v, hv, rfl⟩ := List.mem_map.mp hs
    have hframes : u.framesIn v.entry.1 = v.batches.map frame := h.framesIn_eq hv
    have htorn : u.tornIn v.entry.1 = v.torn := h.tornIn_eq hv
    rw [hframes, htorn, ← List.flatMap_def, ← List.map_dropLast, ← List.flatMap_def]
    exact ⟨rfl, (h.laid.sound v hv).full⟩
  · rw [h.acknowledged] at hx
    obtain ⟨v, hv, hx⟩ := List.mem_flatMap.mp hx
    obtain ⟨b, -, rfl⟩ := List.mem_map.mp hx
    rw [List.map_map]
    exact List.mem_map.mpr ⟨v, hv, rfl⟩
  · rw [h.torn, tornOf, List.map_map, List.map_map]
    exact List.filter_sublist.map _
  · rw [h.torn] at hx
    obtain ⟨v, hv, rfl⟩ := List.mem_map.mp hx
    simpa using (List.mem_filter.mp hv).2

/-- However a log is used, it reads as the batches that were acknowledged, in the order in which they
were written: those that fit in a frame and whose write was to succeed.  The damaged segments are
those in which a failed write left something, each once.  A segment has the frames that were
acknowledged in it and then what was left, and the frames but the last one are shorter than the bound.

The numbers of segments have eight bytes, and a write takes one number at most. -/
theorem readLog_acknowledged (hbound : 0 < bound) {actions : List Action}
    (hproper : ∀ action ∈ actions, action.Proper)
    (hlimit : actions.countP (·.isWrite) < Wire.wordLimit) :
    let u := actions.foldl Usage.step (.start bound)
    u.acknowledged.map (·.2) = actions.filterMap Action.stored? ∧
      ∃ segs recovered, u.archive.segments = .ok segs ∧ u.archive.readLog = .ok recovered ∧
        recovered.records = u.acknowledged.flatMap (·.2) ∧
        recovered.report.damaged = u.torn.map (·.1) ∧
        (segs.map (·.1)).Pairwise (· < ·) ∧
        (∀ s ∈ segs, s.2 = (u.framesIn s.1).flatten ++ u.tornIn s.1 ∧
          (u.framesIn s.1).dropLast.flatten.length < bound) ∧
        (∀ x ∈ u.acknowledged, x.1 ∈ segs.map (·.1)) ∧
        (u.torn.map (·.1)).Sublist (segs.map (·.1)) ∧ ∀ x ∈ u.torn, x.2 ≠ [] := by
  obtain ⟨vols, htold, hstored⟩ := (told_start hbound).run hproper (by simpa using hlimit)
  exact ⟨hstored, htold.readLog_eq⟩

/-- A log with a torn end, a sealed segment and one that was opened anew. -/
def sampleActions : List Action :=
  [.write [⟨1, 1, .commit, []⟩] .stored, .write [⟨2, 2, .commit, []⟩] (.failed .noSpace 3 false),
    .write [⟨3, 3, .commit, []⟩] .stored, .write [⟨4, 4, .commit, []⟩] .stored,
    .write [⟨5, 5, .commit, []⟩] .stored, .ship (name 3),
    .write [⟨6, 6, .commit, []⟩] (.failed .noSpace 5 true), .reopen,
    .write [⟨7, 7, .commit, []⟩] .stored]

theorem readLog_sampleActions :
    ∃ recovered, (sampleActions.foldl Usage.step (.start 60)).archive.readLog = .ok recovered ∧
      recovered.records.map (·.lsn) = [1, 3, 4, 5, 7] ∧ recovered.report.damaged = [name 1] := by
  have hproper : ∀ action ∈ sampleActions, action.Proper := by decide +kernel
  obtain ⟨hstored, segs, recovered, -, hread, hrecords, hdamaged, -⟩ :=
    readLog_acknowledged (show 0 < 60 by decide) hproper (by decide)
  refine ⟨recovered, hread, ?_, ?_⟩
  · rw [hrecords, List.flatMap_def, hstored]
    decide +kernel
  · rw [hdamaged]
    decide +kernel

end Archive
end Segment
end SnapshotStore

import SnapshotStore.Replication.Follower
import SnapshotStore.Proofs.Segment.Archive

/-! # Rounds of a follower

A round changes a follower only if the reply carries a segment with a good name
(`receive_cases`): then the segment is stored under this name and its records are published.  A
master that is asked for the segment after some name gives one whose name is after it
(`lt_filename_of_deliver`). -/

namespace SnapshotStore
namespace Replication

open Segment

/-- The answer in a reply, if it carries a segment. -/
def carried? (reply : Outcome Bytes) : Option Delivery :=
  match reply with
  | .error _ => none
  | .ok bytes =>
    match Delivery.decode bytes with
    | .error _ => none
    | .ok d => if d.hasSegment then some d else none

theorem lt_filename_of_deliver {a : Archive} {q : Query} {d : Delivery}
    (h : (deliver a q).1 = .ok d) (hd : d.hasSegment = true) : q.lastSegment < d.filename := by
  unfold deliver at h
  split at h
  · cases h
  · cases h
    simp [Delivery.hasSegment, Delivery.noData, Delivery.success] at hd
  · next filename hnext =>
    have hlt : q.lastSegment < filename := by
      unfold Archive.next? at hnext
      cases hnames : a.segmentNames with
      | error fault => simp [hnames, bind, Except.bind] at hnext
      | ok names =>
          rw [hnames] at hnext
          have hfind := Except.ok.inj hnext
          simpa using List.find?_some hfind
    split at h
    · cases h
    · cases h
      exact hlt

namespace Follower

variable {f : Follower} {segs : List (String × Bytes)}

theorem receive_eq (f : Follower) (reply : Outcome Bytes) :
    (f.receive reply).2 =
      (carried? reply).elim f fun d => (f.accept d.filename d.segment).2 := by
  unfold receive carried?
  cases reply with
  | error fault => rfl
  | ok bytes =>
      dsimp only
      cases Delivery.decode bytes with
      | error fault => rfl
      | ok d =>
          cases hok : d.ok <;> by_cases hname : d.filename = "" <;>
            simp [Delivery.hasSegment, hok, hname]

theorem accept_of_id?_eq_none {filename : String} (hid : id? filename = none) (segment : Bytes) :
    (f.accept filename segment).2 = f := by
  obtain ⟨fault, hstore⟩ := Archive.store_of_id?_eq_none (a := f.archive) hid segment
  simp only [accept, hstore]

theorem accept_of_id? (h : f.archive.Holds segs) (hstreaming : f.streaming = true)
    {filename : String} {id : ℕ} (hid : id? filename = some id)
    (hlast : ∀ s ∈ segs, s.1 < filename) (segment : Bytes) :
    ∃ archive, archive.Holds (segs ++ [(filename, segment)]) ∧ (f.accept filename segment).2 =
      ⟨archive, filename, f.stream ++ [(Journal.decode segment).records], true⟩ := by
  obtain ⟨archive, hstore, hholds⟩ := h.store_concat hid hlast segment
  refine ⟨archive, hholds, ?_⟩
  simp only [accept, hstore, publish, hstreaming, if_true]

/-- A round leaves a follower as it is, or stores and publishes what the reply carries. -/
theorem receive_cases (h : f.archive.Holds segs) (hstreaming : f.streaming = true)
    (hlast : ∀ s ∈ segs, s.1 ≤ f.lastSegment) {reply : Outcome Bytes}
    (hreply : ∀ d, carried? reply = some d → f.lastSegment < d.filename) :
    (f.receive reply).2 = f ∨ ∃ archive d, carried? reply = some d ∧
      archive.Holds (segs ++ [(d.filename, d.segment)]) ∧ (f.receive reply).2 =
        ⟨archive, d.filename, f.stream ++ [(Journal.decode d.segment).records], true⟩ := by
  rw [receive_eq]
  cases hd : carried? reply with
  | none => exact .inl rfl
  | some d =>
      cases hid : id? d.filename with
      | none => exact .inl (accept_of_id?_eq_none hid d.segment)
      | some id =>
          have hafter : ∀ s ∈ segs, s.1 < d.filename := fun s hs =>
            lt_of_le_of_lt (hlast s hs) (hreply d hd)
          obtain ⟨archive, hholds, haccept⟩ := accept_of_id? h hstreaming hid hafter d.segment
          exact .inr ⟨archive, d, rfl, hholds, haccept⟩

end Follower
end Replication
end SnapshotStore

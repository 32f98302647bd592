import SnapshotStore.Replication.Follower
import SnapshotStore.Proofs.Replication.Message
import SnapshotStore.Proofs.Segment.Storing

/-! # Bytes from a peer

A master answers requests and a replica gets replies that may be any bytes at all, and neither side
can tell what is in its folder besides segments.  The master answers every request with bytes that
can be read, and changes no file (`answers_answer`).  A reply changes a replica only if it lands:
it can be read, it carries a segment under a good name, and nothing is in the way of storing it.
Then the segment is stored, it becomes the last one, and its records are published
(`Follower.receive_of_lands`); any other reply does none of these (`Follower.receive_of_not_lands`).
So over many replies the segments, the position and the stream stay together
(`Follower.exists_landed`). -/

namespace SnapshotStore
namespace Replication

open Segment Archive

/-! ### Requests -/

/-- The answer that is due to the bytes of a request. -/
inductive Answers (a : Archive) (request : Bytes) : Delivery → Prop
  | garbled {fault : Fault} (h : Query.decode request = .error fault) : Answers a request .failure
  | unlisted {q : Query} {fault : Fault} (hq : Query.decode request = .ok q)
      (h : a.segmentNames = .error fault) : Answers a request .failure
  | upToDate {q : Query} {names : List String} (hq : Query.decode request = .ok q)
      (hnames : a.segmentNames = .ok names) (h : ∀ k ∈ names, ¬ q.lastSegment < k) :
      Answers a request .noData
  | segment {q : Query} {names : List String} {name : String} {data : Bytes}
      (hq : Query.decode request = .ok q) (hnames : a.segmentNames = .ok names)
      (hleast : IsLeast {k | k ∈ names ∧ q.lastSegment < k} name)
      (hdata : a.segment? name = some data) : Answers a request (.success name data)

section master

variable {a : Archive} {request : Bytes} {d : Delivery}

theorem Answers.fits (h : Answers a request d)
    (hsizes : ∀ bytes ∈ a.folder.contents, bytes.length < Wire.wordLimit) :
    Names d.filename ∧ d.segment.length < Wire.wordLimit := by
  cases h with
  | garbled => exact ⟨.inl rfl, by decide⟩
  | unlisted => exact ⟨.inl rfl, by decide⟩
  | upToDate => exact ⟨.inl rfl, by decide⟩
  | segment _ _ _ hdata =>
      obtain ⟨hid, hfile⟩ := segment?_eq_some_iff.mp hdata
      exact ⟨.inr hid, Folder.length_lt_of_file? (by decide) hsizes hfile⟩

end master

/-! ### Replies -/

namespace Follower

/-- A reply that carries a segment which can be stored under its name. -/
structure Lands (f : Follower) (reply : Bytes) (d : Delivery) : Prop where
  decoded : Delivery.decode reply = .ok d
  ok : d.ok = true
  named : (id? d.filename).isSome
  stored : (f.archive.store d.filename d.segment).1 = .ok ()

variable {f : Follower} {reply : Bytes} {d : Delivery}

/-- A segment that lands is stored, becomes the last one and is published. -/
theorem receive_of_lands (h : f.Lands reply d) (hfiles : f.archive.folder.Apart)
    (hstreaming : f.streaming = true) :
    ∃ archive, archive.folder.Apart ∧
      archive.segment? = Function.update f.archive.segment? d.filename (some d.segment) ∧
      f.receive (.ok reply) =
        (.ok (.received d.filename (Journal.decode d.segment).records.length),
          ⟨archive, d.filename, f.stream ++ [(Journal.decode d.segment).records], true⟩) := by
  obtain ⟨archive, hstore, hfiles', hsegment⟩ :=
    ((store_eq_ok_iff hfiles).mp h.stored).store hfiles d.segment
  obtain ⟨id, hid⟩ := Option.isSome_iff_exists.mp h.named
  have hne : d.filename ≠ "" := (empty_lt_of_id? hid).ne'
  refine ⟨archive, hfiles', hsegment, ?_⟩
  rw [receive, h.decoded]
  simp [Delivery.hasSegment, h.ok, hne, accept, hstore, publish, hstreaming]

/-- A reply that does not land changes no segment, and neither the position nor the stream. -/
theorem receive_of_not_lands (h : ∀ d, ¬ f.Lands reply d) (hfiles : f.archive.folder.Apart) :
    ∃ archive, archive.folder.Apart ∧ archive.segment? = f.archive.segment? ∧
      (f.receive (.ok reply)).2 = { f with archive } ∧
      ∀ name n, (f.receive (.ok reply)).1 ≠ .ok (.received name n) := by
  unfold receive
  dsimp only
  cases hdecode : Delivery.decode reply with
  | error fault => exact ⟨f.archive, hfiles, rfl, rfl, fun _ _ h => by cases h⟩
  | ok d =>
      dsimp only
      split
      · exact ⟨f.archive, hfiles, rfl, rfl, fun _ _ h => by cases h⟩
      · next hok =>
        split
        · exact ⟨f.archive, hfiles, rfl, rfl, fun _ _ h => by cases h⟩
        · have hadmits : ¬ f.archive.Admits d.filename := fun hadmits =>
            h d ⟨hdecode, by simpa using hok, hadmits.named, (store_eq_ok_iff hfiles).mpr hadmits⟩
          obtain ⟨fault, archive, hstore, hfiles', hsegment⟩ :=
            store_of_not_admits hadmits hfiles d.segment
          rw [accept, hstore]
          exact ⟨archive, hfiles', hsegment, rfl, fun _ _ h => by cases h⟩

/-! ### Many replies -/

/-- The replica after it got some replies. -/
def receiveAll (f : Follower) (replies : List Bytes) : Follower :=
  replies.foldl (fun f reply => (f.receive (.ok reply)).2) f

/-- What a replica became when the segments of some answers landed, one after the other. -/
structure Landed (f : Follower) (landed : List Delivery) (f' : Follower) : Prop where
  files : f'.archive.folder.Apart
  streaming : f'.streaming = true
  segments : f'.archive.segment? = landed.foldl
    (fun (segments : String → Option Bytes) d =>
      Function.update segments d.filename (some d.segment)) f.archive.segment?
  last : f'.lastSegment = (landed.getLast?.map (·.filename)).getD f.lastSegment
  stream : f'.stream = f.stream ++ landed.map fun d => (Journal.decode d.segment).records

variable {f' : Follower} {landed : List Delivery}

/-- With one more reply at most one more segment lands. -/
theorem Landed.receive (h : f.Landed landed f') (reply : Bytes) :
    ∃ more : Option Delivery, (∀ d ∈ more, Delivery.decode reply = .ok d) ∧
      f.Landed (landed ++ more.toList) (f'.receive (.ok reply)).2 := by
  by_cases hlands : ∃ d, f'.Lands reply d
  · obtain ⟨d, hd⟩ := hlands
    obtain ⟨archive, hfiles, hsegment, hreceive⟩ := receive_of_lands hd h.files h.streaming
    rw [hreceive]
    refine ⟨some d, fun d' hd' => ?_, hfiles, rfl, ?_, by simp, ?_⟩
    · obtain rfl := Option.mem_some.mp hd'
      exact hd.decoded
    · rw [Option.toList_some, List.foldl_append, ← h.segments]
      exact hsegment
    · rw [Option.toList_some, List.map_append, ← List.append_assoc, ← h.stream]
      rfl
  · obtain ⟨archive, hfiles, hsegment, hreceive, -⟩ :=
      receive_of_not_lands (not_exists.mp hlands) h.files
    rw [hreceive]
    refine ⟨none, fun d hd => (by cases hd), ?_⟩
    rw [Option.toList_none, List.append_nil]
    exact ⟨hfiles, h.streaming, hsegment.trans h.segments, h.last, h.stream⟩

/-- After any replies, the same answers among them have reached the segments, the position and the
stream. -/
theorem exists_landed (hfiles : f.archive.folder.Apart) (hstreaming : f.streaming = true)
    (replies : List Bytes) :
    ∃ landed, landed.Sublist (replies.filterMap fun reply => (Delivery.decode reply).toOption) ∧
      f.Landed landed (f.receiveAll replies) := by
  induction replies using List.reverseRecOn with
  | nil => exact ⟨[], .slnil, hfiles, hstreaming, rfl, rfl, (List.append_nil _).symm⟩
  | append_singleton replies reply ih =>
      obtain ⟨landed, hsub, hlanded⟩ := ih
      obtain ⟨more, hdecoded, hmore⟩ := hlanded.receive reply
      refine ⟨landed ++ more.toList, ?_, ?_⟩
      · rw [List.filterMap_append]
        refine hsub.append ?_
        cases more with
        | none => exact List.nil_sublist _
        | some d =>
            rw [List.filterMap_cons, hdecoded d rfl]
            exact List.Sublist.refl _
      · rw [receiveAll, List.foldl_append]
        exact hmore

end Follower

end Replication
end SnapshotStore

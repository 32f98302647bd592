import SnapshotStore.Replication.Message
import SnapshotStore.Proofs.Segment.Name
import SnapshotStore.Proofs.Wire

/-! # Messages arrive as they were sent

A question about a segment, and an answer that fits its length fields, are read back from their wire
forms (`Query.decode_encode`, `Delivery.decode_encode`).  The names of segments are short. -/

namespace SnapshotStore

open Segment

theorem Text.length_encode_le (s : String) : (Text.encode s).length ≤ 4 * s.toList.length := by
  have hlen (cs : List Char) : String.utf8Len cs ≤ 4 * cs.length := by
    induction cs with
    | nil => simp
    | cons c cs ih =>
        have hc := c.utf8Size_le_four
        rw [String.utf8Len_cons, List.length_cons]
        omega
  have hsize := String.utf8ByteSize_ofList s.toList
  rw [String.ofList_toList] at hsize
  exact hsize.trans_le (hlen s.toList)

namespace Replication

/-- Whether a text is a segment name, or no text at all. -/
def Names (s : String) : Prop := s = "" ∨ (id? s).isSome

theorem Names.length_lt {s : String} (h : Names s) : (Text.encode s).length < Wire.wordLimit := by
  refine Nat.lt_of_le_of_lt (Text.length_encode_le s) ?_
  rcases h with rfl | hid
  · decide
  · obtain ⟨n, hn⟩ := Option.isSome_iff_exists.mp hid
    obtain ⟨digits, hs, hlen, -⟩ := id?_eq_some_iff.mp hn
    rw [hs, List.length_append, List.length_append, hlen]
    decide

theorem Query.decode_encode {q : Query} (h : Names q.lastSegment) : Query.decode q.encode = .ok q :=
  ((Wire.Reader.reads_text h.length_lt).map (f := Query.mk)).parse

theorem Delivery.decode_encode {d : Delivery} (hname : Names d.filename)
    (hsegment : d.segment.length < Wire.wordLimit) : Delivery.decode d.encode = .ok d := by
  refine Wire.Reader.Reads.parse (a := d) ?_
  unfold Delivery.encode Delivery.reader
  rw [List.append_assoc]
  refine (Wire.Reader.reads_flag d.ok).bind ((Wire.Reader.reads_text hname.length_lt).bind ?_)
  exact (Wire.Reader.reads_blob hsegment).map

end Replication
end SnapshotStore

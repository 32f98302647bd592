import SnapshotStore.Proofs.Replication.Follower
import SnapshotStore.Proofs.Replication.Link
import SnapshotStore.Proofs.Replication.Message
import SnapshotStore.Proofs.Segment.Rolling

/-! # The parts of a round

A replica that has the first segments of its master asks for the next one (`Task.step_requestAfter`),
which the master finds, reads and seals (`Task.step_found`); the replica stores it at the end of its own
and publishes its records (`Follower.receive_success`), or nothing happens
(`Follower.receive_noData`).  While the master works on the request, its segments may grow
(`Task.Due.grows`): the one that was asked for keeps its place, and if it was read, its bytes too. -/

namespace SnapshotStore

open Segment

/-! ### Asking for the next segment -/

/-- The name of the last of some segments, empty if there are none. -/
def Segment.lastName (segs : List (String × Bytes)) : String :=
  (segs.getLast?.map Prod.fst).getD ""

namespace Segment.Archive

variable {a : Archive} {segs : List (String × Bytes)} {n : ℕ}

theorem Holds.names (h : a.Holds segs) {s : String × Bytes} (hs : s ∈ segs) :
    ∃ id, id? s.1 = some id := Option.isSome_iff_exists.mp ((h.mem_iff s).mp hs).1

theorem Holds.empty_lt (h : a.Holds segs) {s : String × Bytes} (hs : s ∈ segs) : "" < s.1 := by
  obtain ⟨id, hid⟩ := h.names hs
  exact empty_lt_of_id? hid

theorem Holds.names_lastName (h : a.Holds segs) (n : ℕ) :
    Replication.Names (lastName (segs.take n)) := by
  cases hl : (segs.take n).getLast? with
  | none => exact .inl (by rw [lastName, hl]; rfl)
  | some s =>
      obtain ⟨id, hid⟩ := h.names (List.mem_of_mem_take (List.mem_of_getLast? hl))
      refine .inr ?_
      rw [lastName, hl]
      exact Option.isSome_iff_exists.mpr ⟨id, hid⟩

theorem Holds.lt_of_mem_take (h : a.Holds segs) {s q : String × Bytes} (hs : segs[n]? = some s)
    (hq : q ∈ segs.take n) : q.1 < s.1 := by
  obtain ⟨hn, rfl⟩ := List.getElem?_eq_some_iff.mp hs
  obtain ⟨i, hi, rfl⟩ := List.mem_take_iff_getElem.mp hq
  have hsorted := List.pairwise_map.mp h.sorted
  exact List.pairwise_iff_getElem.mp hsorted i n _ hn (by omega)

theorem Holds.next?_eq (h : a.Holds segs) (after : String) :
    a.next? after = .ok ((segs.find? fun s => after < s.1).map Prod.fst) := by
  rw [next?, h.segmentNames_eq]
  refine congrArg Except.ok ?_
  rw [List.find?_map]
  rfl

/-- The first segment after those up to some place is the one at this place. -/
theorem Holds.next?_lastName (h : a.Holds segs) (n : ℕ) :
    a.next? (lastName (segs.take n)) = .ok (segs[n]?.map Prod.fst) := by
  have hsorted : ((segs.take n).map Prod.fst).Pairwise (· < ·) :=
    h.sorted.sublist ((List.take_sublist n segs).map _)
  have hbefore : (segs.take n).find? (fun s => lastName (segs.take n) < s.1) = none := by
    rw [List.find?_eq_none]
    intro s hs
    rw [decide_eq_true_eq, not_lt]
    exact le_last_of_sorted hsorted hs
  have hafter : (segs.drop n).find? (fun s => lastName (segs.take n) < s.1) = segs[n]? := by
    cases hs : segs[n]? with
    | none => rw [List.drop_of_length_le (List.getElem?_eq_none_iff.mp hs), List.find?_nil]
    | some s =>
        obtain ⟨hn, rfl⟩ := List.getElem?_eq_some_iff.mp hs
        rw [List.drop_eq_getElem_cons hn, List.find?_cons_of_pos]
        cases hl : (segs.take n).getLast? with
        | none =>
            rw [lastName, hl, decide_eq_true_eq]
            exact h.empty_lt (List.getElem_mem hn)
        | some q =>
            rw [lastName, hl, decide_eq_true_eq]
            exact h.lt_of_mem_take hs (List.mem_of_getLast? hl)
  generalize lastName (segs.take n) = last at hbefore hafter ⊢
  rw [h.next?_eq, ← hafter]
  conv_lhs => rw [← List.take_append_drop n segs]
  rw [List.find?_append, hbefore, Option.none_or]

end Segment.Archive

namespace Replication

variable {segs segs' given : List (String × Bytes)} {n : ℕ}

/-! ### The end of a round -/

namespace Follower

variable {f : Follower}

theorem receive_noData (f : Follower) : f.receive (.ok Delivery.noData.encode) = (.ok .upToDate, f) := by
  have hdecode : Delivery.decode Delivery.noData.encode = .ok Delivery.noData :=
    Delivery.decode_encode (.inl rfl) (by decide)
  rw [receive, hdecode]
  rfl

/-- A segment after all others is stored and its records are published. -/
theorem receive_success (h : f.archive.Holds segs) (hstreaming : f.streaming = true)
    {s : String × Bytes} {id : ℕ} (hid : id? s.1 = some id) (hlast : ∀ q ∈ segs, q.1 < s.1)
    (hlength : s.2.length < Wire.wordLimit) :
    ∃ archive, archive.Holds (segs ++ [s]) ∧
      f.receive (.ok (Delivery.success s.1 s.2).encode) =
        (.ok (.received s.1 (Journal.decode s.2).records.length),
          ⟨archive, s.1, f.stream ++ [(Journal.decode s.2).records], true⟩) := by
  have hnames : Names (Delivery.success s.1 s.2).filename :=
    .inr (Option.isSome_iff_exists.mpr ⟨id, hid⟩)
  have hne : s.1 ≠ "" := (empty_lt_of_id? hid).ne'
  obtain ⟨archive, hstore, hholds⟩ := h.store_concat hid hlast s.2
  refine ⟨archive, hholds, ?_⟩
  rw [receive, Delivery.decode_encode hnames hlength]
  simp [Delivery.hasSegment, Delivery.success, hne, accept, hstore, publish, hstreaming]

theorem start_reopen (h : f.archive.Holds segs) (bound : ℕ) :
    start (f.archive.reopen bound) = .ok ⟨f.archive.reopen bound, lastName segs, [], true⟩ := by
  rw [start, (h.reopen bound).last?_eq]
  rfl

end Follower

/-! ### The work on a request -/

namespace Task

variable {a a' : Archive} {t t' : Task}

/-- What the work on a request has found is a segment. -/
def Known (segs : List (String × Bytes)) : Task → Prop
  | found filename => ∃ data, (filename, data) ∈ segs
  | _ => True

/-- The work on a request of a replica that has the first `n` segments.  The answer may be that there
are no others, even if there are some by now. -/
def Due (segs given : List (String × Bytes)) (n : ℕ) (request : Bytes) : Task → Prop
  | asked request' => request' = request
  | found filename => ∃ data, segs[n]? = some (filename, data)
  | answered d => d = .noData ∨ ∃ s ∈ given, segs[n]? = some s ∧ d = .success s.1 s.2

/-- The request of a replica that has the first `n` segments. -/
abbrev requestAfter (segs : List (String × Bytes)) (n : ℕ) : Bytes :=
  (Query.mk (lastName (segs.take n))).encode

theorem Due.known {request : Bytes} (h : t.Due segs given n request) : t.Known segs := by
  cases t with
  | asked _ => trivial
  | found filename =>
      obtain ⟨data, hs⟩ := h
      exact ⟨data, List.mem_of_getElem? hs⟩
  | answered _ => trivial

theorem Due.grows {request : Bytes} (h : t.Due segs given n request)
    (hgrows : Archive.Grows given segs segs') : t.Due segs' given n request := by
  cases t with
  | asked _ => exact h
  | found filename =>
      obtain ⟨data, hs⟩ := h
      obtain ⟨data', hs', -⟩ := hgrows n _ hs
      exact ⟨data', hs'⟩
  | answered d =>
      refine h.imp_right ?_
      rintro ⟨s, hgiven, hs, hd⟩
      exact ⟨s, hgiven, hgrows.getElem?_final hs hgiven, hd⟩

theorem Due.append {request : Bytes} (h : t.Due segs given n request) (more : List (String × Bytes)) :
    t.Due segs (given ++ more) n request := by
  cases t with
  | asked _ => exact h
  | found filename => exact h
  | answered d =>
      refine h.imp_right ?_
      rintro ⟨s, hgiven, hs⟩
      exact ⟨s, List.mem_append_left _ hgiven, hs⟩

theorem step_asked (h : a.Holds segs) (request : Bytes) :
    ∃ t', (asked request).step a = some (t', a) ∧ t'.Known segs ∧ t'.sent = [] := by
  cases hq : Query.decode request with
  | error fault => exact ⟨answered .failure, by simp only [step, hq], trivial, rfl⟩
  | ok q =>
      have hnext := h.next?_eq q.lastSegment
      cases hfind : segs.find? fun s => q.lastSegment < s.1 with
      | none =>
          rw [hfind] at hnext
          exact ⟨answered .noData, by simp only [step, hq, hnext, Option.map_none], trivial, rfl⟩
      | some s =>
          rw [hfind] at hnext
          refine ⟨found s.1, by simp only [step, hq, hnext, Option.map_some], ?_, rfl⟩
          exact ⟨s.2, List.mem_of_find?_eq_some hfind⟩

theorem step_requestAfter (h : a.Holds segs) (n : ℕ) :
    (asked (requestAfter segs n)).step a =
      some (segs[n]?.elim (answered .noData) fun s => found s.1, a) := by
  have hdecode : Query.decode (requestAfter segs n) = .ok ⟨lastName (segs.take n)⟩ :=
    Query.decode_encode (h.names_lastName n)
  have hnext := h.next?_lastName n
  cases hs : segs[n]? with
  | none =>
      rw [hs] at hnext
      simp only [step, hdecode, hnext, Option.map_none, Option.elim_none]
  | some s =>
      rw [hs] at hnext
      simp only [step, hdecode, hnext, Option.map_some, Option.elim_some]

theorem step_found (h : a.Rolling segs) {s : String × Bytes} (hs : s ∈ segs) :
    ∃ a', (found s.1).step a = some (answered (.success s.1 s.2), a') ∧ a'.Rolling segs ∧
      a'.Sealed s ∧ a'.upcoming = a.upcoming ∧
      ∀ active, a'.active = some active → a.active = some active := by
  obtain ⟨a', hship, hrolling, hsealed, hupcoming, -, hactive⟩ := h.ship hs
  exact ⟨a', by simp only [step, hship], hrolling, hsealed, hupcoming, hactive⟩

theorem sent_success {s : String × Bytes} (h : "" < s.1) :
    (answered (.success s.1 s.2)).sent = [s] := by
  simp [sent, Delivery.hasSegment, Delivery.success, h.ne']

theorem Due.step (h : a.Rolling segs) (ht : t.Due segs given n (requestAfter segs n))
    (hstep : t.step a = some (t', a')) :
    t'.Due segs (given ++ t'.sent) n (requestAfter segs n) := by
  cases t with
  | asked request =>
      obtain rfl : request = requestAfter segs n := ht
      rw [step_requestAfter h.holds n] at hstep
      obtain ⟨rfl, -⟩ := Prod.mk.inj (Option.some.inj hstep)
      cases hs : segs[n]? with
      | none => exact .inl rfl
      | some s => exact ⟨s.2, hs⟩
  | found filename =>
      obtain ⟨data, hs⟩ := ht
      have hmem := List.mem_of_getElem? hs
      obtain ⟨a₁, hfound, -⟩ := step_found h hmem
      obtain ⟨rfl, -⟩ := Prod.mk.inj (Option.some.inj (hfound.symm.trans hstep))
      rw [sent_success (h.holds.empty_lt hmem)]
      exact .inr ⟨(filename, data), by simp, hs, rfl⟩
  | answered d => cases hstep

/-- The answer that there are no others is right when it is given. -/
theorem Due.getElem?_eq_none (h : a.Rolling segs) (ht : t.Due segs given n (requestAfter segs n))
    (hstep : t.step a = some (answered .noData, a')) : segs[n]? = none := by
  cases t with
  | asked request =>
      obtain rfl : request = requestAfter segs n := ht
      rw [step_requestAfter h.holds n] at hstep
      cases hs : segs[n]? with
      | none => rfl
      | some s => simp [hs] at hstep
  | found filename =>
      obtain ⟨data, hs⟩ := ht
      have hmem := List.mem_of_getElem? hs
      obtain ⟨a₁, hfound, -⟩ := step_found h hmem
      rw [hfound] at hstep
      have hlt := h.holds.empty_lt hmem
      simp [Delivery.noData, Delivery.success] at hstep
      exact absurd hstep.1.1 hlt.ne'
  | answered d => cases hstep

end Task

end Replication
end SnapshotStore

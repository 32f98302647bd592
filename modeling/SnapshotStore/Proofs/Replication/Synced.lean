import SnapshotStore.Proofs.Replication.Round
import Mathlib.Algebra.Order.BigOperators.Group.List
import Mathlib.Algebra.Order.Group.Nat

/-! # A replica that is in step with its master

`Synced segs n` says what a link has at any time: the master has some segments, of which those that were
given out take no more appends (`Serves`), and the replica has the first `n` of them, all given out, and
works on the next one (`Follows`).  There is one lemma for each step. -/

namespace SnapshotStore
namespace Replication

open Segment

variable {segs segs' : List (String × Bytes)} {n used limit : ℕ} {l l' : Link}

/-! ### The invariant -/

/-- The number of bytes in some segments. -/
def total (segs : List (String × Bytes)) : ℕ := (segs.map fun s => s.2.length).sum

/-- The records in some segments, each in a list of its own. -/
def recordLists (segs : List (String × Bytes)) : List (List Record) :=
  segs.map fun s => (Journal.decode s.2).records

theorem length_le_total {s : String × Bytes} (hs : s ∈ segs) : s.2.length ≤ total segs :=
  List.le_sum_of_mem (List.mem_map_of_mem (f := fun s => s.2.length) hs)

@[simp] theorem total_append (segs segs' : List (String × Bytes)) :
    total (segs ++ segs') = total segs + total segs' := by
  simp [total]

/-- What a link has on its master, whose segments have at most `used` bytes with those that are to be
appended, and whose next segment has at most the number `limit`: what was given out is still there, and
takes no more appends. -/
structure Serves (segs : List (String × Bytes)) (used limit : ℕ) (l : Link) : Prop where
  rolling : l.master.Rolling segs
  appending : ∀ x, l.appending = some x → l.master.active = some x.1
  bytes : total segs + (l.appending.elim 0 fun x => x.2.1.length) ≤ used
  upcoming : l.master.upcoming ≤ limit
  served : ∀ s ∈ l.served, s ∈ segs ∧ l.master.Sealed s
  others : ∀ t ∈ l.others, t.Known segs

/-- What a link has on its replica: it has the first `n` segments, which were given out, has published
those that came since it was started, and asks for the next one. -/
structure Follows (segs : List (String × Bytes)) (n : ℕ) (l : Link) : Prop where
  le : n ≤ segs.length
  holds : l.follower.archive.Holds (segs.take n)
  served : ∀ s ∈ segs.take n, s ∈ l.served
  last : l.follower.lastSegment = lastName (segs.take n)
  streaming : l.follower.streaming = true
  resumed : l.resumed ≤ n
  published : l.taken ++ l.follower.stream = recordLists ((segs.take n).drop l.resumed)
  round : ∀ t, l.round = some (some t) → t.Due segs l.served n (Task.requestAfter segs n)

theorem serves_start {folder : Folder} {bound : ℕ} (bound' : ℕ)
    (h : (Archive.mount folder bound).Rolling segs)
    (hupcoming : (Archive.mount folder bound).upcoming ≤ limit) :
    Serves segs (total segs) limit (.start folder bound bound') where
  rolling := h
  appending _ hx := by cases hx
  bytes := le_refl _
  upcoming := hupcoming
  served s hs := by cases hs
  others t ht := by cases ht

theorem follows_start (segs : List (String × Bytes)) (folder : Folder) (bound bound' : ℕ) :
    Follows segs 0 (.start folder bound bound') where
  le := Nat.zero_le _
  holds := Archive.holds_mount_empty bound'
  served s hs := by simp at hs
  last := rfl
  streaming := rfl
  resumed := le_refl _
  published := rfl
  round t ht := by cases ht

/-! ### Steps of the master -/

theorem Follows.grows (h : Follows segs n l) (hgrows : Archive.Grows l.served segs segs')
    (master : Archive) (appending : Option (Active × Bytes × WriteFate)) :
    Follows segs' n { l with master, appending } := by
  have htake : segs'.take n = segs.take n := hgrows.take_eq h.le h.served
  refine ⟨h.le.trans hgrows.length_le, ?_, ?_, ?_, h.streaming, h.resumed, ?_, fun t ht => ?_⟩
  · exact htake ▸ h.holds
  · exact htake ▸ h.served
  · exact htake ▸ h.last
  · exact htake ▸ h.published
  · rw [Task.requestAfter, htake]
    exact (h.round t ht).grows hgrows

theorem Task.Known.grows {t : Task} {given : List (String × Bytes)} (h : t.Known segs)
    (hgrows : Archive.Grows given segs segs') : t.Known segs' := by
  cases t with
  | found filename =>
      obtain ⟨data, hs⟩ := h
      obtain ⟨i, hi⟩ := List.mem_iff_getElem?.mp hs
      obtain ⟨data', hs', -⟩ := hgrows i _ hi
      exact ⟨data', List.mem_of_getElem? hs'⟩
  | _ => trivial

theorem Serves.append (h : Serves segs used limit l) (hlimit : limit + 1 < Wire.wordLimit)
    {data : Bytes} {fate : WriteFate} (hnext : l.next (.append data fate) = some l') :
    ∃ segs' master appending, l' = { l with master, appending } ∧
      Archive.Grows l.served segs segs' ∧ Serves segs' (used + data.length) (limit + 1) l' := by
  cases happending : l.appending with
  | some x => simp [Link.next, happending] at hnext
  | none =>
      obtain ⟨active, master, more, htarget, hrolling, hactive, hempty, hupcoming, hsealed⟩ :=
        h.rolling.target (Nat.lt_of_le_of_lt (Nat.succ_le_succ h.upcoming) hlimit)
      have hgrows := Archive.grows_append l.served segs more
      simp only [Link.next, happending, htarget, Option.isSome_none, Bool.false_eq_true, if_false,
        Option.some.injEq] at hnext
      subst hnext
      have hzero : total more = 0 := by
        refine List.sum_eq_zero fun k hk => ?_
        obtain ⟨s, hs, rfl⟩ := List.mem_map.mp hk
        rw [hempty s hs, List.length_nil]
      refine ⟨segs ++ more, master, some (active, data, fate), rfl, hgrows, hrolling, ?_, ?_,
        hupcoming.trans (Nat.succ_le_succ h.upcoming), ?_, fun t ht => (h.others t ht).grows hgrows⟩
      · rintro x ⟨⟩
        exact hactive
      · have hbytes := h.bytes
        rw [happending] at hbytes
        simp only [total_append, Option.elim_some, Option.elim_none] at hbytes ⊢
        omega
      · intro s hs
        obtain ⟨hmem, hs⟩ := h.served s hs
        exact ⟨List.mem_append_left _ hmem, hsealed s hmem hs⟩

theorem Serves.write (h : Serves segs used limit l) (hnext : l.next .write = some l') :
    ∃ segs' master, l' = { l with master, appending := none } ∧
      Archive.Grows l.served segs segs' ∧ Serves segs' used limit l' := by
  cases happending : l.appending with
  | none => simp [Link.next, happending] at hnext
  | some x =>
      obtain ⟨active, data, fate⟩ := x
      have hactive := h.appending _ happending
      obtain ⟨older, old, new, rfl, hrolling, hlength, hupcoming, hsealed⟩ :=
        h.rolling.writeTo hactive data fate
      have hnot : (active.name, old) ∉ l.served := fun hs =>
        (h.served _ hs).2 active hactive rfl
      have hgrows : Archive.Grows l.served (older ++ [(active.name, old)])
          (older ++ [(active.name, new)]) := Archive.grows_replace hnot new
      simp only [Link.next, happending, Option.map_some, Option.some.injEq] at hnext
      subst hnext
      refine ⟨_, _, rfl, hgrows, hrolling, ?_, ?_, hupcoming.trans_le h.upcoming, ?_,
        fun t ht => (h.others t ht).grows hgrows⟩
      · rintro x ⟨⟩
      · have hbytes := h.bytes
        rw [happending] at hbytes
        simp only [total_append, Option.elim_some, Option.elim_none] at hbytes ⊢
        simp only [total, List.map_cons, List.map_nil, List.sum_cons, List.sum_nil] at hbytes ⊢
        omega
      · intro s hs
        obtain ⟨hmem, hseal⟩ := h.served s hs
        exact ⟨hgrows.mem hmem hs, hsealed s hseal⟩

/-- The work on a request may give out a segment, but changes none. -/
theorem Serves.work (h : Serves segs used limit l) {t t' : Task} (ht : t.Known segs)
    (hwork : l.work t = some (t', l')) :
    ∃ master, t.step l.master = some (t', master) ∧ t'.Known segs ∧
      l' = { l with master, served := l.served ++ t'.sent } ∧ Serves segs used limit l' := by
  rw [Link.work] at hwork
  split at hwork
  · cases hwork
  · next hlocks =>
    obtain ⟨⟨t₁, master⟩, hstep, heq⟩ := Option.map_eq_some_iff.mp hwork
    obtain ⟨rfl, rfl⟩ := Prod.mk.inj heq
    refine ⟨master, hstep, ?_⟩
    cases t with
    | asked request =>
        obtain ⟨t₂, hasked, hknown, hsent⟩ := Task.step_asked h.rolling.holds request
        obtain ⟨rfl, rfl⟩ := Prod.mk.inj (Option.some.inj (hasked.symm.trans hstep))
        refine ⟨hknown, rfl, h.rolling, h.appending, h.bytes, h.upcoming, ?_, h.others⟩
        rw [hsent, List.append_nil]
        exact h.served
    | found filename =>
        obtain ⟨data, hs⟩ := ht
        obtain ⟨a', hfound, hrolling, hsealed, hupcoming, hactive⟩ := Task.step_found h.rolling hs
        obtain ⟨rfl, rfl⟩ := Prod.mk.inj (Option.some.inj (hfound.symm.trans hstep))
        refine ⟨trivial, rfl, hrolling, fun x hx => ?_, h.bytes, hupcoming.trans_le h.upcoming, ?_,
          h.others⟩
        · have hx : l.appending = some x := hx
          simp [hx, Task.locks] at hlocks
        · intro s hmem
          rw [Task.sent_success (h.rolling.holds.empty_lt hs)] at hmem
          rcases List.mem_append.mp hmem with hmem | hmem
          · obtain ⟨hmem, hseal⟩ := h.served s hmem
            exact ⟨hmem, fun active ha => hseal active (hactive active ha)⟩
          · rw [List.mem_singleton.mp hmem]
            exact ⟨hs, hsealed⟩
    | answered d => cases hstep

/-! ### Steps of both -/

/-- The invariant of a link. -/
structure Synced (segs : List (String × Bytes)) (n used limit : ℕ) (l : Link) : Prop where
  serves : Serves segs used limit l
  follows : Follows segs n l

theorem Follows.serve (h : Follows segs n l) (master : Archive) (others : List Task)
    (more : List (String × Bytes)) :
    Follows segs n { l with master, others, served := l.served ++ more } :=
  ⟨h.le, h.holds, fun s hs => List.mem_append_left _ (h.served s hs), h.last, h.streaming, h.resumed,
    h.published, fun t ht => (h.round t ht).append more⟩

theorem Follows.request_eq (h : Follows segs n l) : l.follower.request = Task.requestAfter segs n := by
  rw [Follower.request, h.last]

theorem Synced.call (h : Synced segs n used limit l) (request : Bytes) :
    Synced segs n used limit { l with others := l.others ++ [.asked request] } where
  serves :=
    { h.serves with
      others := fun t ht => by
        rcases List.mem_append.mp ht with ht | ht
        · exact h.serves.others t ht
        · rw [List.mem_singleton.mp ht]
          trivial }
  follows := { h.follows with }

theorem Synced.serve (h : Synced segs n used limit l) {i : ℕ} (hnext : l.next (.serve i) = some l') :
    Synced segs n used limit l' ∧ l'.appending = l.appending ∧ l'.round = l.round ∧
      l'.rounds = l.rounds := by
  rw [Link.next] at hnext
  split at hnext
  · cases hnext
  · next t ht =>
    obtain ⟨⟨t', l₁⟩, hwork, rfl⟩ := Option.map_eq_some_iff.mp hnext
    obtain ⟨master, -, hknown, rfl, hserves⟩ :=
      h.serves.work (h.serves.others t (List.mem_of_getElem? ht)) hwork
    refine ⟨⟨{ hserves with others := fun q hq => ?_ }, h.follows.serve ..⟩, rfl, rfl, rfl⟩
    rcases List.mem_or_eq_of_mem_set hq with hq | rfl
    · exact hserves.others q hq
    · exact hknown

theorem Synced.answer (h : Synced segs n used limit l) (hnext : l.next .answer = some l') :
    Synced segs n used limit l' ∧ l'.appending = l.appending ∧ l'.rounds = l.rounds ∧
      ∃ t, l'.round = some (some t) ∧ (t = .answered .noData → segs[n]? = none) := by
  rw [Link.next] at hnext
  split at hnext
  · next t ht =>
    obtain ⟨⟨t', l₁⟩, hwork, rfl⟩ := Option.map_eq_some_iff.mp hnext
    have hdue := h.follows.round t ht
    obtain ⟨master, hstep, -, rfl, hserves⟩ := h.serves.work hdue.known hwork
    refine ⟨⟨{ hserves with }, { h.follows.serve master l.others t'.sent with
      round := fun q hq => ?_ }⟩, rfl, rfl, t', rfl, ?_⟩
    · obtain rfl : t' = q := Option.some.inj (Option.some.inj hq)
      exact hdue.step h.serves.rolling hstep
    · rintro rfl
      exact hdue.getElem?_eq_none h.serves.rolling hstep
  · cases hnext

theorem Synced.ask (h : Synced segs n used limit l) {lost : Bool}
    (hnext : l.next (.ask lost) = some l') :
    Synced segs n used limit l' ∧ l'.appending = l.appending ∧ l'.rounds = l.rounds ∧
      l'.round = some (if lost then none else some (.asked l.follower.request)) := by
  rw [Link.next] at hnext
  split at hnext
  · cases hnext
  · obtain rfl := Option.some.inj hnext
    refine ⟨⟨{ h.serves with }, { h.follows with round := fun q hq => ?_ }⟩, rfl, rfl, rfl⟩
    cases lost with
    | true => cases hq
    | false =>
        obtain rfl : Task.asked l.follower.request = q := Option.some.inj (Option.some.inj hq)
        exact h.follows.request_eq

/-- The end of a round in which a replica that has the first `n` segments gets the next one, or hears
that there is none. -/
def nextRound (segs : List (String × Bytes)) (n : ℕ) : Outcome Round :=
  .ok (segs[n]?.elim .upToDate fun s => .received s.1 (Journal.decode s.2).records.length)

/-- The replica has stored the next segment and published its records. -/
theorem Follows.receive (h : Follows segs n l) {s : String × Bytes} (hs : segs[n]? = some s)
    (hgiven : s ∈ l.served) {archive : Archive} (hholds : archive.Holds (segs.take n ++ [s]))
    (rounds : List (Outcome Round)) : Follows segs (n + 1) { l with
      follower := ⟨archive, s.1, l.follower.stream ++ [(Journal.decode s.2).records], true⟩
      round := none
      rounds } := by
  have htake : segs.take (n + 1) = segs.take n ++ [s] := by
    rw [List.take_add_one, hs, Option.toList_some]
  refine ⟨(List.getElem?_eq_some_iff.mp hs).1, htake ▸ hholds, fun q hq => ?_, ?_, rfl,
    Nat.le_succ_of_le h.resumed, ?_, fun t ht => by cases ht⟩
  · rw [htake] at hq
    rcases List.mem_append.mp hq with hq | hq
    · exact h.served q hq
    · exact List.mem_singleton.mp hq ▸ hgiven
  · simp [htake, lastName]
  · have hle : l.resumed ≤ (segs.take n).length := by
      rw [List.length_take]
      exact Nat.le_min.mpr ⟨h.resumed, h.resumed.trans h.le⟩
    show l.taken ++ (l.follower.stream ++ [(Journal.decode s.2).records]) = _
    rw [← List.append_assoc, h.published, htake, List.drop_append_of_le_length hle]
    simp [recordLists]

/-- A reply brings the next segment, or nothing. -/
theorem Synced.receive (h : Synced segs n used limit l) (hused : used < Wire.wordLimit)
    (hnext : l.next .receive = some l') :
    l'.appending = l.appending ∧ l'.round = none ∧
      ((n < segs.length ∧ Synced segs (n + 1) used limit l' ∧
          l'.rounds = l.rounds ++ [nextRound segs n]) ∨
        (l.round = some (some (.answered .noData)) ∧ Synced segs n used limit l' ∧
          l'.rounds = l.rounds ++ [.ok .upToDate])) := by
  rw [Link.next] at hnext
  split at hnext
  · next d hd =>
    rcases h.follows.round _ hd with rfl | ⟨s, hgiven, hs, rfl⟩
    · rw [Follower.receive_noData] at hnext
      obtain rfl := Option.some.inj hnext
      refine ⟨rfl, rfl, .inr ⟨hd, ⟨{ h.serves with }, { h.follows with round := ?_ }⟩, rfl⟩⟩
      rintro t ⟨⟩
    · have hmem := List.mem_of_getElem? hs
      obtain ⟨hn, -⟩ := List.getElem?_eq_some_iff.mp hs
      obtain ⟨id, hid⟩ := h.serves.rolling.holds.names hmem
      have hlength : s.2.length < Wire.wordLimit :=
        Nat.lt_of_le_of_lt (length_le_total hmem)
          (Nat.lt_of_le_of_lt (Nat.le_trans (Nat.le_add_right ..) h.serves.bytes) hused)
      have hlast : ∀ q ∈ segs.take n, q.1 < s.1 := fun q hq =>
        h.serves.rolling.holds.lt_of_mem_take hs hq
      obtain ⟨archive, hholds, hreceive⟩ := Follower.receive_success h.follows.holds
        h.follows.streaming hid hlast hlength
      rw [hreceive] at hnext
      obtain rfl := Option.some.inj hnext
      refine ⟨rfl, rfl, .inl ⟨hn, ⟨{ h.serves with }, h.follows.receive hs hgiven hholds _⟩, ?_⟩⟩
      simp [nextRound, hs]
  · cases hnext

theorem Synced.lose (h : Synced segs n used limit l) {fault : Fault}
    (hnext : l.next (.lose fault) = some l') : Synced segs n used limit l' := by
  rw [Link.next] at hnext
  split at hnext
  · cases hnext
  · next t ht =>
    obtain rfl := Option.some.inj hnext
    refine ⟨{ h.serves with others := fun q hq => ?_ }, { h.follows with round := ?_ }⟩
    · rcases List.mem_append.mp hq with hq | hq
      · exact h.serves.others q hq
      · obtain rfl : t = some q := by simpa using hq
        exact (h.follows.round q ht).known
    · rintro q ⟨⟩

theorem Synced.take (h : Synced segs n used limit l) (hnext : l.next .take = some l') :
    Synced segs n used limit l' ∧ l'.appending = l.appending ∧ l'.round = l.round ∧
      l'.rounds = l.rounds := by
  cases hstream : l.follower.stream with
  | nil =>
      cases hstreaming : l.follower.streaming <;>
        simp [Link.next, Follower.take, hstream, hstreaming] at hnext
  | cons records stream =>
      simp only [Link.next, Follower.take, hstream, Option.some.injEq] at hnext
      subst hnext
      refine ⟨⟨{ h.serves with }, { h.follows with published := ?_ }⟩, rfl, rfl, rfl⟩
      rw [← h.follows.published, hstream]
      simp

theorem Synced.restart (h : Synced segs n used limit l) {bound : ℕ}
    (hnext : l.next (.restart bound) = some l') :
    Synced segs n used limit l' ∧ l'.appending = l.appending ∧ l'.round = none ∧
      l'.rounds = l.rounds := by
  have hstart := Follower.start_reopen h.follows.holds bound
  have hholds := h.follows.holds.reopen bound
  have hlength : (segs.take n).length = n := List.length_take_of_le h.follows.le
  cases hround : l.round with
  | some t => simp [Link.next, hround] at hnext
  | none =>
      simp only [Link.next, hround, hstart, hholds.segments_eq, Option.some.injEq] at hnext
      subst hnext
      refine ⟨⟨{ h.serves with }, ?_⟩, rfl, rfl, rfl⟩
      refine ⟨h.follows.le, hholds, h.follows.served, rfl, rfl, ?_, ?_, ?_⟩
      · exact Nat.le_of_eq hlength
      · show [] = recordLists ((segs.take n).drop (segs.take n).length)
        rw [List.drop_length]
        rfl
      · rintro t ⟨⟩

end Replication
end SnapshotStore

import SnapshotStore.Proofs.Replication.Synced

/-! # Every segment is shipped once, in order and final

`ships_every_segment_once` is the statement on a whole run of a master and its replica.  Every step keeps
the two in step (`Synced.next`), so every run does (`Synced.run`).

Without appends and losses (`Calm`) the segments of the master stay as they are, and each round that ends
takes the replica to the next one (`Calm.run`).  Then every round that is under way can be ended, because
the work on a request comes to an end (`Calm.admits`). -/

namespace SnapshotStore
namespace Replication

open Segment

variable {segs segs' : List (String × Bytes)} {n used limit : ℕ} {l l' : Link} {turn : Turn}
  {turns : List Turn}

/-! ### Any steps -/

theorem Synced.next (h : Synced segs n used limit l) (hused : used + turn.bytes < Wire.wordLimit)
    (hlimit : limit + (if turn.isAppend then 1 else 0) < Wire.wordLimit)
    (hnext : l.next turn = some l') : ∃ segs' n',
      Synced segs' n' (used + turn.bytes) (limit + if turn.isAppend then 1 else 0) l' := by
  cases turn with
  | append data fate =>
      obtain ⟨segs', master, appending, rfl, hgrows, hserves⟩ := h.serves.append hlimit hnext
      exact ⟨segs', n, hserves, h.follows.grows hgrows master appending⟩
  | write =>
      obtain ⟨segs', master, rfl, hgrows, hserves⟩ := h.serves.write hnext
      exact ⟨segs', n, hserves, h.follows.grows hgrows master none⟩
  | call request =>
      obtain rfl := Option.some.inj hnext
      exact ⟨segs, n, h.call request⟩
  | serve i => exact ⟨segs, n, (h.serve hnext).1⟩
  | ask lost => exact ⟨segs, n, (h.ask hnext).1⟩
  | answer => exact ⟨segs, n, (h.answer hnext).1⟩
  | receive =>
      obtain ⟨-, -, ⟨-, h', -⟩ | ⟨-, h', -⟩⟩ := h.receive hused hnext
      · exact ⟨segs, n + 1, h'⟩
      · exact ⟨segs, n, h'⟩
  | lose fault => exact ⟨segs, n, h.lose hnext⟩
  | take => exact ⟨segs, n, (h.take hnext).1⟩
  | restart bound => exact ⟨segs, n, (h.restart hnext).1⟩

theorem Synced.run (h : Synced segs n used limit l)
    (hused : used + (turns.map Turn.bytes).sum < Wire.wordLimit)
    (hlimit : limit + turns.countP Turn.isAppend < Wire.wordLimit) (hrun : l.run turns = some l') :
    ∃ segs' n', Synced segs' n' (used + (turns.map Turn.bytes).sum)
      (limit + turns.countP Turn.isAppend) l' := by
  induction turns generalizing segs n used limit l with
  | nil =>
      obtain rfl := Option.some.inj hrun
      exact ⟨segs, n, h⟩
  | cons turn turns ih =>
      rw [Link.run_cons] at hrun
      obtain ⟨l₁, hnext, hrun⟩ := Option.bind_eq_some_iff.mp hrun
      have hsum : used + ((turn :: turns).map Turn.bytes).sum =
          used + turn.bytes + (turns.map Turn.bytes).sum := by
        rw [List.map_cons, List.sum_cons, Nat.add_assoc]
      have hcount : limit + (turn :: turns).countP Turn.isAppend =
          limit + (if turn.isAppend then 1 else 0) + turns.countP Turn.isAppend := by
        rw [List.countP_cons]
        omega
      rw [hsum] at hused ⊢
      rw [hcount] at hlimit ⊢
      obtain ⟨segs₁, n₁, h₁⟩ := h.next (Nat.lt_of_le_of_lt (Nat.le_add_right ..) hused)
        (Nat.lt_of_le_of_lt (Nat.le_add_right ..) hlimit) hnext
      exact ih h₁ hused hlimit hrun

/-! ### Steps without appends and losses -/

/-- A link that is in step while nothing is appended and no message is lost: an answer that there is no
next segment is still right. -/
structure Calm (segs : List (String × Bytes)) (n used limit : ℕ) (l : Link) : Prop where
  synced : Synced segs n used limit l
  appending : l.appending = none
  asked : l.round ≠ some none
  fresh : l.round = some (some (.answered .noData)) → segs[n]? = none

theorem Calm.next (h : Calm segs n used limit l) (hcalm : turn.isCalm = true)
    (hreceive : turn.isReceive = false) (hnext : l.next turn = some l') :
    Calm segs n used limit l' ∧ l'.rounds = l.rounds := by
  cases turn with
  | append data fate => cases hcalm
  | write => simp [Link.next, h.appending] at hnext
  | call request =>
      obtain rfl := Option.some.inj hnext
      exact ⟨⟨h.synced.call request, h.appending, h.asked, h.fresh⟩, rfl⟩
  | serve i =>
      obtain ⟨h', happending, hround, hrounds⟩ := h.synced.serve hnext
      exact ⟨⟨h', happending ▸ h.appending, hround ▸ h.asked, hround ▸ h.fresh⟩, hrounds⟩
  | ask lost =>
      obtain ⟨h', happending, hrounds, hround⟩ := h.synced.ask hnext
      obtain rfl : lost = false := by simpa [Turn.isCalm] using hcalm
      exact ⟨⟨h', happending ▸ h.appending, by simp [hround], by simp [hround]⟩, hrounds⟩
  | answer =>
      obtain ⟨h', happending, hrounds, t, hround, hfresh⟩ := h.synced.answer hnext
      refine ⟨⟨h', happending ▸ h.appending, by simp [hround], fun ht => hfresh ?_⟩, hrounds⟩
      exact Option.some.inj (Option.some.inj (hround.symm.trans ht))
  | receive => cases hreceive
  | lose fault => cases hcalm
  | take =>
      obtain ⟨h', happending, hround, hrounds⟩ := h.synced.take hnext
      exact ⟨⟨h', happending ▸ h.appending, hround ▸ h.asked, hround ▸ h.fresh⟩, hrounds⟩
  | restart bound =>
      obtain ⟨h', happending, hround, hrounds⟩ := h.synced.restart hnext
      exact ⟨⟨h', happending ▸ h.appending, by simp [hround], by simp [hround]⟩, hrounds⟩

theorem Calm.receive (h : Calm segs n used limit l) (hused : used < Wire.wordLimit)
    (hnext : l.next .receive = some l') : Calm segs (min (n + 1) segs.length) used limit l' ∧
      l'.rounds = l.rounds ++ [nextRound segs n] := by
  obtain ⟨happending, hround, ⟨hn, h', hrounds⟩ | ⟨hd, h', hrounds⟩⟩ := h.synced.receive hused hnext
  · rw [Nat.min_eq_left hn]
    exact ⟨⟨h', happending ▸ h.appending, by simp [hround], by simp [hround]⟩, hrounds⟩
  · have hnone := h.fresh hd
    have hn : segs.length ≤ n := List.getElem?_eq_none_iff.mp hnone
    rw [Nat.min_eq_right (Nat.le_succ_of_le hn), ← Nat.le_antisymm h.synced.follows.le hn]
    refine ⟨⟨h', happending ▸ h.appending, by simp [hround], by simp [hround]⟩, ?_⟩
    rw [hrounds, nextRound, hnone, Option.elim_none]

theorem nextRound_min (segs : List (String × Bytes)) (n i : ℕ) :
    nextRound segs (min n segs.length + i) = nextRound segs (n + i) := by
  rcases Nat.le_total n segs.length with hn | hn
  · rw [Nat.min_eq_left hn]
  · have hnone (m : ℕ) (hm : segs.length ≤ m) : segs[m + i]? = none :=
      List.getElem?_eq_none (Nat.le_add_right_of_le hm)
    rw [Nat.min_eq_right hn, nextRound, nextRound, hnone _ (le_refl _), hnone n hn]

/-- After some rounds the replica has as many segments more, or all. -/
theorem Calm.run (h : Calm segs n used limit l) (hused : used < Wire.wordLimit)
    (hcalm : ∀ turn ∈ turns, turn.isCalm = true) (hrun : l.run turns = some l') :
    Calm segs (min (n + turns.countP Turn.isReceive) segs.length) used limit l' ∧
      l'.rounds = l.rounds ++
        (List.range (turns.countP Turn.isReceive)).map fun i => nextRound segs (n + i) := by
  induction turns generalizing n l with
  | nil =>
      obtain rfl := Option.some.inj hrun
      rw [List.countP_nil, Nat.add_zero, Nat.min_eq_left h.synced.follows.le]
      exact ⟨h, (List.append_nil _).symm⟩
  | cons turn turns ih =>
      rw [Link.run_cons] at hrun
      obtain ⟨l₁, hnext, hrest⟩ := Option.bind_eq_some_iff.mp hrun
      have hcalm' := fun t ht => hcalm t (List.mem_cons_of_mem _ ht)
      cases hreceive : turn.isReceive with
      | false =>
          obtain ⟨h₁, hrounds⟩ := h.next (hcalm turn (List.mem_cons_self ..)) hreceive hnext
          rw [List.countP_cons_of_neg (by simp [hreceive]), ← hrounds]
          exact ih h₁ hcalm' hrest
      | true =>
          obtain rfl : turn = .receive := by
            cases turn <;> first | rfl | cases hreceive
          obtain ⟨h₁, hrounds⟩ := h.receive hused hnext
          obtain ⟨h', hrounds'⟩ := ih h₁ hcalm' hrest
          rw [List.countP_cons_of_pos rfl]
          refine ⟨?_, ?_⟩
          · have hmin : min (min (n + 1) segs.length + turns.countP Turn.isReceive) segs.length =
                min (n + (turns.countP Turn.isReceive + 1)) segs.length := by omega
            rw [← hmin]
            exact h'
          · rw [hrounds', hrounds, List.range_succ_eq_map, List.map_cons, List.map_map,
              List.append_assoc]
            refine congrArg (l.rounds ++ nextRound segs n :: ·) (List.map_congr_left fun i _ => ?_)
            rw [nextRound_min, Function.comp_apply, Nat.add_right_comm, Nat.add_assoc, Nat.succ_eq_add_one]

/-- Some more rounds can be made without appends and losses. -/
def Link.Admits (l : Link) (k : ℕ) : Prop :=
  ∃ turns, (l.run turns).isSome ∧ (∀ turn ∈ turns, turn.isCalm = true) ∧
    turns.countP Turn.isReceive = k

theorem Link.admits_zero (l : Link) : l.Admits 0 := ⟨[], rfl, by simp, rfl⟩

theorem Link.Admits.of_run {k : ℕ} (hrun : l.run turns = some l')
    (hcalm : ∀ turn ∈ turns, turn.isCalm = true) (h : l'.Admits k) :
    l.Admits (turns.countP Turn.isReceive + k) := by
  obtain ⟨more, hmore, hall, rfl⟩ := h
  refine ⟨turns ++ more, ?_, List.forall_mem_append.mpr ⟨hcalm, hall⟩, List.countP_append⟩
  rw [Link.run_append, hrun]
  exact hmore

/-- A round that is under way can be ended, and the next one begun. -/
theorem Calm.admits (h : Calm segs n used limit l) (hused : used < Wire.wordLimit) (k : ℕ) :
    l.Admits k := by
  have hend (j : ℕ) : ∀ turn ∈ List.replicate j Turn.answer ++ [Turn.receive], turn.isCalm = true := by
    simp +contextual [Turn.isCalm, or_imp]
  have hone (j : ℕ) : (List.replicate j Turn.answer ++ [Turn.receive]).countP Turn.isReceive = 1 := by
    simp [List.countP_replicate, Turn.isReceive]
  induction k generalizing n l with
  | zero => exact l.admits_zero
  | succ k ih =>
      have hmore {turns : List Turn} {l' : Link} (hrun : l.run turns = some l')
          (hcalm : ∀ turn ∈ turns, turn.isCalm = true)
          (hcount : turns.countP Turn.isReceive = 1) : l.Admits (k + 1) := by
        have hall := Link.Admits.of_run hrun hcalm (ih (h.run hused hcalm hrun).1)
        rwa [hcount, Nat.add_comm] at hall
      cases hround : l.round with
      | none =>
          obtain ⟨j, l', -, hrun, -⟩ := Link.exists_round h.appending hround
          exact hmore hrun (List.forall_mem_cons.mpr ⟨rfl, hend j⟩) (hone j)
      | some t =>
          cases t with
          | none => exact absurd hround h.asked
          | some t =>
              obtain ⟨j, l', -, hrun, -⟩ := Link.exists_end h.appending hround
              exact hmore hrun (hend j) (hone j)

/-! ### The whole system -/

/-- Whatever is appended, asked, lost and restarted, in any order: the replica has the first `n` segments
of its master, byte for byte, and has published the records of those that came since it was started, each
once and in order; what was given out never changes again.  From then on without appends and losses, each
round brings one segment more, until the replica has all and hears so, and there can be any number of
rounds.

Segment numbers and the bytes of all segments stay below the limit of a 64-bit word. -/
theorem ships_every_segment_once {folder : Folder} (hplain : folder.Plain) (bound bound' : ℕ)
    {turns : List Turn} {l : Link}
    (hids : ∀ k ∈ folder.names.keys, ∀ id, id? k = some id →
      id + 1 + turns.countP Turn.isAppend < Wire.wordLimit)
    (happends : 1 + turns.countP Turn.isAppend < Wire.wordLimit)
    (hbytes : ∀ segs, (Archive.mount folder bound).segments = .ok segs →
      total segs + (turns.map Turn.bytes).sum < Wire.wordLimit)
    (hrun : (Link.start folder bound bound').run turns = some l) :
    ∃ segs n, l.master.segments = .ok segs ∧ (segs.map Prod.fst).Pairwise (· < ·) ∧
      n ≤ segs.length ∧ l.follower.archive.segments = .ok (segs.take n) ∧
      l.follower.lastSegment = lastName (segs.take n) ∧ (∀ s ∈ l.served, s ∈ segs) ∧
      l.resumed ≤ n ∧
      l.taken ++ l.follower.stream = recordLists ((segs.take n).drop l.resumed) ∧
      (l.appending = none → l.round = none → ∀ turns' l',
        (∀ turn ∈ turns', turn.isCalm = true) → l.run turns' = some l' →
          l'.master.segments = .ok segs ∧
          l'.follower.archive.segments = .ok (segs.take (n + turns'.countP Turn.isReceive)) ∧
          l'.rounds = l.rounds ++
            (List.range (turns'.countP Turn.isReceive)).map (fun i => nextRound segs (n + i)) ∧
          ∀ k, l'.Admits k) := by
  have hpos : 1 ≤ Wire.wordLimit - 1 - turns.countP Turn.isAppend := by omega
  have hlimit : Wire.wordLimit - 1 - turns.countP Turn.isAppend < Wire.wordLimit := by omega
  obtain ⟨segs₀, hrolling, hupcoming⟩ := Archive.rolling_mount hplain bound hpos hlimit
    fun k hk id hid => by
      have := hids k hk id hid
      omega
  have hused := hbytes segs₀ hrolling.holds.segments_eq
  have hstart : Synced segs₀ 0 _ _ (Link.start folder bound bound') :=
    ⟨serves_start bound' hrolling hupcoming, follows_start segs₀ folder bound bound'⟩
  obtain ⟨segs, n, h⟩ := hstart.run hused (by omega) hrun
  refine ⟨segs, n, h.serves.rolling.holds.segments_eq, h.serves.rolling.holds.sorted, h.follows.le,
    h.follows.holds.segments_eq, h.follows.last, fun s hs => (h.serves.served s hs).1,
    h.follows.resumed, h.follows.published, fun happending hround turns' l' hcalm hrun' => ?_⟩
  have hcalm₀ : Calm segs n _ _ l := ⟨h, happending, by simp [hround], by simp [hround]⟩
  obtain ⟨h', hrounds⟩ := hcalm₀.run hused hcalm hrun'
  refine ⟨h'.synced.serves.rolling.holds.segments_eq, ?_, hrounds, h'.admits hused⟩
  rw [h'.synced.follows.holds.segments_eq, ← List.take_eq_take_min]

/-- A request is lost, a second segment is begun while the reply with the first one is under way, and the
replica is restarted. -/
def sampleTurns : List Turn :=
  [.append [1, 2, 3] .stored, .ask true, .write, .lose (.replication "timeout"), .ask false, .answer,
    .answer, .append [4] .stored, .receive, .write, .take, .restart 8]

theorem ships_every_segment_once_sample : ∃ l segs n,
    (Link.start .empty 8 8).run sampleTurns = some l ∧
      l.rounds = [.error (.replication "timeout"), .ok (.received (name 1) 0)] ∧
      l.master.segments = .ok segs ∧ (name 1, [1, 2, 3]) ∈ segs ∧ 1 ≤ n ∧
      l.follower.archive.segments = .ok (segs.take n) ∧ l.Admits 2 := by
  have hends : ((Link.start .empty 8 8).run sampleTurns).map
      (fun l => (l.rounds, l.served, l.resumed)) =
      some ([.error (.replication "timeout"), .ok (.received (name 1) 0)],
        [(name 1, [1, 2, 3])], 1) := by
    decide +kernel
  have hidle : ((Link.start .empty 8 8).run sampleTurns).map
      (fun l => (l.appending.isNone, l.round.isNone)) = some (true, true) := by
    decide +kernel
  obtain ⟨l, hrun, hl⟩ := Option.map_eq_some_iff.mp hends
  rw [hrun] at hidle
  simp only [Option.map_some, Option.some.injEq, Prod.mk.injEq, Option.isNone_iff_eq_none] at hidle hl
  obtain ⟨hrounds, hserved, hresumed⟩ := hl
  obtain ⟨happending, hround⟩ := hidle
  obtain ⟨segs, n, hmaster, -, -, hfollower, -, hkept, hn, -, hcalm⟩ :=
    ships_every_segment_once Folder.plain_empty 8 8
      (fun k hk => by cases hk) (by decide) (fun segs hsegs => by
        rw [(Archive.holds_mount_empty 8).segments_eq] at hsegs
        obtain rfl := Except.ok.inj hsegs
        decide) hrun
  obtain ⟨-, -, -, hmore⟩ := hcalm happending hround [] l (by simp) rfl
  exact ⟨l, segs, n, hrun, hrounds, hmaster, hkept _ (by simp [hserved]), hresumed ▸ hn, hfollower,
    hmore 2⟩

end Replication
end SnapshotStore

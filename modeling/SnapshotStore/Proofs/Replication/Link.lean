import SnapshotStore.Replication.Follower
import Mathlib.Data.Nat.Notation

/-! # A master and a replica

A `Link` is a master that takes appends and answers requests, and a replica that polls it.  With each step
(`Link.next`) somebody makes a part of an append, a part of the work on a request, or a part of a round;
requests and replies may be lost, others ask the master too, and the replica is restarted between rounds.

An append locks the active segment from the choice of its segment to the end of its write, and so does
the reading of a segment that is sent; the search for a segment takes no lock.  Parts that nothing comes
between make the operation itself: an append (`Link.append_write`), an answer (`Task.outcome_step`) and a
round (`Link.exists_round`).

A full stream only delays the end of a round until something is taken off it, so it has no bound here. -/

namespace SnapshotStore
namespace Replication

open Segment

/-! ### The work on a request -/

/-- The work on a request: its bytes have come in, a segment to send was found, or it was answered. -/
inductive Task where
  | asked (request : Bytes)
  | found (filename : String)
  | answered (delivery : Delivery)

namespace Task

/-- The next step of the work; nothing if the request was answered. -/
def step (a : Archive) : Task → Option (Task × Archive)
  | asked request =>
    match Query.decode request with
    | .error _ => some (answered .failure, a)
    | .ok q =>
      match a.next? q.lastSegment with
      | .error _ => some (answered .failure, a)
      | .ok none => some (answered .noData, a)
      | .ok (some filename) => some (found filename, a)
  | found filename =>
    match a.ship filename with
    | (.error _, a) => some (answered .failure, a)
    | (.ok data, a) => some (answered (.success filename data), a)
  | answered _ => none

/-- The number of steps that are left at most. -/
def left : Task → ℕ
  | asked _ => 2
  | found _ => 1
  | answered _ => 0

/-- The work goes on until the request is answered, and comes to an end. -/
theorem answered_or_step (a : Archive) (t : Task) : (∃ d, t = answered d) ∨
    ∃ t' a', t.step a = some (t', a') ∧ t'.left < t.left := by
  cases t with
  | asked request =>
      refine .inr ?_
      cases hq : Query.decode request with
      | error fault => exact ⟨answered .failure, a, by simp only [step, hq], Nat.zero_lt_two⟩
      | ok q =>
          rcases hn : a.next? q.lastSegment with fault | _ | filename
          · exact ⟨answered .failure, a, by simp only [step, hq, hn], Nat.zero_lt_two⟩
          · exact ⟨answered .noData, a, by simp only [step, hq, hn], Nat.zero_lt_two⟩
          · exact ⟨found filename, a, by simp only [step, hq, hn], Nat.one_lt_two⟩
  | found filename =>
      refine .inr ?_
      rcases hs : a.ship filename with ⟨fault | data, a'⟩
      · exact ⟨answered .failure, a', by simp only [step, hs], Nat.zero_lt_one⟩
      · exact ⟨answered (.success filename data), a', by simp only [step, hs], Nat.zero_lt_one⟩
  | answered d => exact .inl ⟨d, rfl⟩

/-- Whether the next step reads a segment, for which it needs the lock. -/
def locks : Task → Bool
  | found _ => true
  | _ => false

/-- The segment that an answer gives out. -/
def sent : Task → List (String × Bytes)
  | answered d => if d.hasSegment then [(d.filename, d.segment)] else []
  | _ => []

/-- What the work comes to if nothing comes between. -/
def outcome (a : Archive) : Task → Delivery × Archive
  | asked request => answer a request
  | found filename =>
    match a.ship filename with
    | (.error _, a) => (.failure, a)
    | (.ok data, a) => (.success filename data, a)
  | answered d => (d, a)

theorem outcome_step {a a' : Archive} {t t' : Task} (h : t.step a = some (t', a')) :
    t'.outcome a' = t.outcome a := by
  cases t with
  | asked request =>
      show t'.outcome a' = answer a request
      rw [answer]
      cases hq : Query.decode request with
      | error fault =>
          simp only [step, hq, Option.some.injEq, Prod.mk.injEq] at h
          obtain ⟨rfl, rfl⟩ := h
          rfl
      | ok q =>
          simp only [deliver]
          cases hn : a.next? q.lastSegment with
          | error fault =>
              simp only [step, hq, hn, Option.some.injEq, Prod.mk.injEq] at h
              obtain ⟨rfl, rfl⟩ := h
              rfl
          | ok next =>
              cases next with
              | none =>
                  simp only [step, hq, hn, Option.some.injEq, Prod.mk.injEq] at h
                  obtain ⟨rfl, rfl⟩ := h
                  rfl
              | some filename =>
                  simp only [step, hq, hn, Option.some.injEq, Prod.mk.injEq] at h
                  obtain ⟨rfl, rfl⟩ := h
                  simp only [outcome]
                  rcases a.ship filename with ⟨_ | data, a'⟩ <;> rfl
  | found filename =>
      simp only [outcome]
      rcases hs : a.ship filename with ⟨_ | data, a₁⟩ <;>
        simp only [step, hs, Option.some.injEq, Prod.mk.injEq] at h <;>
        obtain ⟨rfl, rfl⟩ := h <;> rfl
  | answered d => simp [step] at h

end Task

/-! ### Steps -/

/-- A master with the append under way, if any, and the requests that it works on, and a replica with
its round, if one is under way: the work on its request, or nothing if that is lost.

`served` are the segments that the master gave out, `rounds` the ends of the replica's rounds, `taken`
the lists that were taken off the stream since the replica was started, and `resumed` the number of
segments that it had then. -/
structure Link where
  master : Archive
  appending : Option (Active × Bytes × WriteFate)
  others : List Task
  follower : Follower
  round : Option (Option Task)
  served : List (String × Bytes)
  rounds : List (Outcome Round)
  taken : List (List Record)
  resumed : ℕ

/-- Who makes the next step. -/
inductive Turn where
  | append (data : Bytes) (fate : WriteFate)
  | write
  | call (request : Bytes)
  | serve (other : ℕ)
  | ask (lost : Bool)
  | answer
  | receive
  | lose (fault : Fault)
  | take
  | restart (bound : ℕ)

namespace Turn

/-- The bytes that are to be appended. -/
def bytes : Turn → ℕ
  | append data _ => data.length
  | _ => 0

/-- Whether an append is begun. -/
def isAppend : Turn → Bool
  | append _ _ => true
  | _ => false

/-- Whether a reply arrives. -/
def isReceive : Turn → Bool
  | receive => true
  | _ => false

/-- Whether a step neither begins an append nor loses a message. -/
def isCalm : Turn → Bool
  | append _ _ => false
  | ask lost => !lost
  | lose _ => false
  | _ => true

end Turn

namespace Link

/-- A master on a folder, and a replica that has nothing yet. -/
def start (folder : Folder) (bound bound' : ℕ) : Link :=
  ⟨.mount folder bound, none, [], ⟨.mount .empty bound', "", [], true⟩, none, [], [], [], 0⟩

/-- The master works on a request, unless it needs a lock that is taken. -/
def work (l : Link) (t : Task) : Option (Task × Link) :=
  if l.appending.isSome && t.locks then none
  else (t.step l.master).map fun (t, master) => (t, { l with master, served := l.served ++ t.sent })

/-- One step; nothing if whoever is to make it cannot move. -/
def next (l : Link) : Turn → Option Link
  | .append data fate =>
    if l.appending.isSome then none
    else match l.master.target with
      | (.error _, master) => some { l with master }
      | (.ok active, master) => some { l with master, appending := some (active, data, fate) }
  | .write => l.appending.map fun (active, data, fate) =>
    { l with master := (l.master.writeTo active data fate).2, appending := none }
  | .call request => some { l with others := l.others ++ [.asked request] }
  | .serve i =>
    match l.others[i]? with
    | none => none
    | some t => (l.work t).map fun (t, l) => { l with others := l.others.set i t }
  | .ask lost =>
    match l.round with
    | some _ => none
    | none => some { l with round := some (if lost then none else some (.asked l.follower.request)) }
  | .answer =>
    match l.round with
    | some (some t) => (l.work t).map fun (t, l) => { l with round := some (some t) }
    | _ => none
  | .receive =>
    match l.round with
    | some (some (.answered d)) =>
      let (round, follower) := l.follower.receive (.ok d.encode)
      some { l with follower, round := none, rounds := l.rounds ++ [round] }
    | _ => none
  | .lose fault =>
    match l.round with
    | none => none
    | some t =>
      let (round, follower) := l.follower.receive (.error fault)
      some { l with
        follower
        round := none
        rounds := l.rounds ++ [round]
        others := l.others ++ t.toList }
  | .take =>
    match l.follower.take with
    | (.records records, follower) => some { l with follower, taken := l.taken ++ [records] }
    | _ => none
  | .restart bound =>
    match l.round, Follower.start (l.follower.archive.reopen bound) with
    | none, .ok follower =>
      some { l with
        follower
        taken := []
        resumed := (follower.archive.segments.toOption.map List.length).getD 0 }
    | _, _ => none

/-- The link after some steps, if all of them can be made. -/
def run (l : Link) (turns : List Turn) : Option Link := turns.foldlM next l

theorem run_cons (l : Link) (turn : Turn) (turns : List Turn) :
    l.run (turn :: turns) = (l.next turn).bind fun l => l.run turns := rfl

theorem run_append (l : Link) (turns more : List Turn) :
    l.run (turns ++ more) = (l.run turns).bind fun l => l.run more := List.foldlM_append

/-! ### Operations that nothing comes between -/

variable {l : Link}

/-- The parts of an append make one append. -/
theorem append_write (h : l.appending = none) (data : Bytes) (fate : WriteFate) :
    ∃ l', l.next (.append data fate) = some l' ∧
      (if l'.appending.isSome then l'.next .write else some l') =
        some { l with master := (l.master.appendWith (fun _ _ => fate) data).2 } := by
  rw [Archive.appendWith]
  rcases htarget : l.master.target with ⟨fault | active, master⟩
  · refine ⟨{ l with master }, by simp [next, h, htarget], by simp [h]⟩
  · refine ⟨{ l with master, appending := some (active, data, fate) }, by simp [next, h, htarget], ?_⟩
    simp [next, h]

/-- The master answers the replica. -/
theorem exists_answers (h : l.appending = none) {t : Task} (ht : l.round = some (some t)) :
    ∃ k l', l.run (List.replicate k .answer) = some l' ∧ l'.master = (t.outcome l.master).2 ∧
      l'.round = some (some (.answered (t.outcome l.master).1)) ∧ l'.follower = l.follower ∧
      l'.rounds = l.rounds := by
  induction hleft : t.left using Nat.strongRecOn generalizing l t with
  | ind m ih =>
    obtain ⟨d, rfl⟩ | ⟨t', master, hstep, hlt⟩ := t.answered_or_step l.master
    · exact ⟨0, l, rfl, rfl, ht, rfl, rfl⟩
    · have hnext : l.next .answer = some { l with
          master, served := l.served ++ t'.sent, round := some (some t') } := by
        simp [next, ht, work, h, hstep]
      obtain ⟨k, l', hrun, hends⟩ := ih _ (hleft ▸ hlt) (l := { l with
        master, served := l.served ++ t'.sent, round := some (some t') }) h rfl rfl
      refine ⟨k + 1, l', ?_, ?_⟩
      · rw [List.replicate_succ, run_cons, hnext]
        exact hrun
      · rw [Task.outcome_step hstep] at hends
        exact hends

theorem exists_end (h : l.appending = none) {t : Task} (ht : l.round = some (some t)) :
    ∃ k l' ending, l.run (List.replicate k .answer ++ [.receive]) = some l' ∧
      ending = l.follower.receive (.ok (t.outcome l.master).1.encode) ∧
      l'.rounds = l.rounds ++ [ending.1] ∧ l'.follower = ending.2 ∧
      l'.master = (t.outcome l.master).2 := by
  obtain ⟨k, l₁, hrun, hmaster, hanswered, hfollower, hrounds⟩ := exists_answers h ht
  rcases hreceive : l.follower.receive (.ok (t.outcome l.master).1.encode) with ⟨round, follower⟩
  refine ⟨k, { l₁ with follower, round := none, rounds := l₁.rounds ++ [round] }, _, ?_, rfl, ?_, rfl,
    hmaster⟩
  · rw [run_append, hrun, Option.bind_some, run_cons]
    simp only [next, hanswered, hfollower, hreceive, Option.bind_some]
    rfl
  · rw [hrounds]

/-- The parts of a round make one round. -/
theorem exists_round (h : l.appending = none) (hround : l.round = none) :
    ∃ k l' round, l.run (.ask false :: (List.replicate k .answer ++ [.receive])) = some l' ∧
      l.follower.sync l.master = (round, l'.follower, l'.master) ∧
      l'.rounds = l.rounds ++ [round] := by
  let asked : Link := { l with round := some (some (.asked l.follower.request)) }
  have hask : l.next (.ask false) = some asked := by
    simp only [next, hround, Bool.false_eq_true, if_false, asked]
  obtain ⟨k, l', ending, hrun, hending, hrounds, hfollower, hmaster⟩ := exists_end (l := asked) h rfl
  have hending : ending = l.follower.receive (.ok (answer l.master l.follower.request).1.encode) :=
    hending
  have hmaster : l'.master = (answer l.master l.follower.request).2 := hmaster
  refine ⟨k, l', ending.1, by rw [run_cons, hask]; exact hrun, ?_, hrounds⟩
  simp only [Follower.sync, Replication.serve, hfollower, hmaster, hending]

end Link

end Replication
end SnapshotStore

import SnapshotStore.Command
import SnapshotStore.Reply
import SnapshotStore.Proofs.State

/-! # The ideal store

The ideal store is what clients of a database may think they talk to.  It has one committed state and at
most one session for each client.  A session has the committed state as it was when the session began, the
writes of its client, and the keys that were committed since then (`Ideal.Session`).

Within a session, a client sees its own writes on top of that state.  A commit takes effect if none of the
keys that it writes was committed since its session began, and ends the session in either case.

When its log fails, the store loses the command under way: a write has not happened, and a commit or a
rollback has ended the session without an effect (`Ideal.lose`).  Of every input comes one or the other
(`Ideal.Takes`), and a run is a sequence of such inputs (`Ideal.Answers`). -/

namespace SnapshotStore

/-- A session: the committed state when it began, its writes, and the keys committed since. -/
structure Ideal.Session where
  snapshot : State
  staged : Writes
  stale : List String

/-- A committed state and the sessions of clients. -/
structure Ideal where
  committed : State
  sessions : String → Option Ideal.Session

/-- What clients do: one of them sends a line of text, or goes away. -/
inductive Input where
  | line (client text : String)
  | gone (client : String)

/-- The replies to some inputs, in order, and what is left of whoever replied. -/
def transcript {δ : Type} (feed : δ → Input → Option Reply × δ) (d : δ) :
    List Input → List (Option Reply) × δ
  | [] => ([], d)
  | input :: inputs =>
    let (reply, d) := feed d input
    let (replies, d) := transcript feed d inputs
    (reply :: replies, d)

namespace Ideal

namespace Session

/-- A session that begins at a state. -/
def begin (m : State) : Session := ⟨m, ∅, []⟩

/-- A session with one more write: a value, or a delete. -/
def stage (u : Session) (key : String) (value : Option String) : Session :=
  { u with staged := u.staged.insert key value }

/-- A session after somebody else has committed some keys. -/
def outdate (u : Session) (keys : List String) : Session := { u with stale := u.stale ++ keys }

/-- What the session sees. -/
def view (u : Session) : State := u.snapshot.write u.staged

/-- Whether a key that the session writes was committed since it began. -/
def interfered (u : Session) : Bool := u.staged.keys.any fun key => u.stale.contains key

end Session

variable (s : Ideal) (client : String)

/-- The ideal store without sessions. -/
def start (m : State) : Ideal := ⟨m, fun _ => none⟩

/-- Gives a client a session, or ends it. -/
def put (u : Option Session) : Ideal :=
  { s with sessions := fun other => if other = client then u else s.sessions other }

/-- Commits some writes, which all open sessions are told. -/
def commit (w : Writes) : Ideal where
  committed := s.committed.write w
  sessions other := (s.sessions other).map fun u => u.outdate w.keys

/-- What a client sees. -/
def view : State :=
  match s.sessions client with
  | some u => u.view
  | none => s.committed

/-- Writes a key: within the session of the client, or else at once. -/
def write (key : String) (value : Option String) : Ideal :=
  match s.sessions client with
  | some u => s.put client (some (u.stage key value))
  | none => s.commit ((∅ : Writes).insert key value)

/-- Runs one command of a client. -/
def run : Command → Reply × Ideal
  | .get key => (.ofValue? (s.view client key), s)
  | .set key value => (.ok, s.write client key (some value))
  | .del key => (.ok, s.write client key none)
  | .begin =>
    match s.sessions client with
    | some _ => (.error "transaction already started", s)
    | none => (.ok, s.put client (some (.begin s.committed)))
  | .commit =>
    match s.sessions client with
    | some u =>
      if u.interfered then (.error "transaction interfered", s.put client none)
      else (.ok, (s.put client none).commit u.staged)
    | none => (.error "invalid transaction", s)
  | .rollback =>
    match s.sessions client with
    | some _ => (.ok, s.put client none)
    | none => (.error "invalid transaction", s)

/-- Takes one input.  A line that is no command changes nothing. -/
def feed : Input → Option Reply × Ideal
  | .line client text =>
    match Command.parse text with
    | .ok command => (some (s.run client command).1, (s.run client command).2)
    | .error fault => (some (.ofFault fault), s)
  | .gone client => (none, s.put client none)

/-! ### A log that may fail -/

/-- What is left when the log fails during a command. -/
def lose : Command → Ideal
  | .commit | .rollback => s.put client none
  | _ => s

/-- What may come of an input: it is taken as usual, or lost, if the log fails. -/
inductive Takes (fails : Prop) (s : Ideal) : Input → Option Reply → Ideal → Prop where
  | fed (input : Input) : Takes fails s input (s.feed input).1 (s.feed input).2
  | lost {client text : String} {command : Command} (hfails : fails)
      (hparse : Command.parse text = .ok command) :
      Takes fails s (.line client text) (some (.ofFault .logFailure)) (s.lose client command)

/-- What may come of some inputs, one after the other. -/
inductive Answers (fails : Prop) : Ideal → List Input → List (Option Reply) → Ideal → Prop where
  | nil (s : Ideal) : Answers fails s [] [] s
  | cons {s s₁ s₂ : Ideal} {input : Input} {inputs : List Input} {reply : Option Reply}
      {replies : List (Option Reply)} (hfirst : Takes fails s input reply s₁)
      (hrest : Answers fails s₁ inputs replies s₂) :
      Answers fails s (input :: inputs) (reply :: replies) s₂

theorem Takes.mono {fails fails' : Prop} (hmono : fails → fails') {s s' : Ideal} {input : Input}
    {reply : Option Reply} (h : Takes fails s input reply s') : Takes fails' s input reply s' := by
  cases h with
  | fed => exact .fed input
  | lost hfails hparse => exact .lost (hmono hfails) hparse

theorem Answers.eq_transcript {fails : Prop} (hnot : ¬fails) {s s' : Ideal} {inputs : List Input}
    {replies : List (Option Reply)} (h : Answers fails s inputs replies s') :
    replies = (transcript feed s inputs).1 := by
  induction h with
  | nil => rfl
  | cons hfirst _ ih =>
      cases hfirst with
      | fed => exact congrArg (_ :: ·) ih
      | lost hfails => exact absurd hfails hnot

/-! ### Small facts -/

variable {s client} {u : Option Session}

theorem sessions_put (other : String) :
    (s.put client u).sessions other = if other = client then u else s.sessions other := rfl

theorem put_self (h : s.sessions client = u) : s.put client u = s := by
  obtain ⟨committed, sessions⟩ := s
  simp only [put, Ideal.mk.injEq, true_and]
  funext other
  split
  · next heq => rw [heq, ← h]
  · rfl

theorem rollback_eq_put (s : Ideal) (client : String) :
    (s.run client .rollback).2 = s.put client none := by
  cases h : s.sessions client with
  | none => simp only [run, h, put_self h]
  | some u => simp only [run, h]

theorem commit_of_isEmpty {w : Writes} (hw : w.isEmpty = true) : s.commit w = s := by
  have hentries : w.entries = [] := List.isEmpty_iff.mp hw
  have hkeys : w.keys = [] := by rw [Table.keys, hentries, List.map_nil]
  have hget (key : String) : w.get? key = none := by rw [Table.get?, hentries]; rfl
  obtain ⟨committed, sessions⟩ := s
  simp only [commit, hkeys, Session.outdate, List.append_nil, Ideal.mk.injEq]
  exact ⟨funext fun key => State.write_of_none (hget key), funext fun _ => Option.map_id'⟩

end Ideal
end SnapshotStore

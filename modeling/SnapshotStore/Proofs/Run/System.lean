import SnapshotStore.Proofs.Journal.Ledger
import SnapshotStore.Transaction.Statement

/-! # Runs of a coordinator

A `System` is a coordinator with any number of clients, each with a transaction and the operation
it has under way, and a trace of what happened.  With each step (`System.next`) somebody begins a
transaction, an idle client starts an operation, a client moves its operation on by one step, or
the flusher makes a step; a `Choice` says who.  A statement that commits at once is a client that
writes and commits.  A client that never moves again has abandoned its transaction.

`Move` lists what one step of a client can do, and `Step` what one step of a system can do
(`Step.of_next`).  Every invariant of runs is a case analysis of these two. -/

namespace SnapshotStore
namespace Run

open Journal (LogStore)

variable {σ : Type}

/-! ### Traces -/

/-- A commit from its end version on: who commits, at which version, and the writes. -/
structure Attempt where
  id : ℕ
  version : ℕ
  writes : Writes

/-- What is noted of a run. -/
inductive Event where
  | began (id : ℕ)
  | requested (id : ℕ) (request : Request)
  | read (id : ℕ) (key : String) (value : Option String)
  | minted (attempt : Attempt)
  | noted (batch : ℕ) (record : Record)
  | sealed (attempt : Attempt)
  | stored (batch : Journal.Batch)
  | applied (attempt : Attempt)
  | ended (id : ℕ) (writes : Writes) (result : Outcome Unit)

/-! ### Clients -/

/-- A transaction and the operation on it that is under way. -/
structure Client where
  transaction : Transaction
  activity : Activity

/-- The record that the log takes from a writer with its next step, if any, and its batch. -/
def notesOf (c : Coordinator σ) (save : Save) : List Event :=
  match c.journal, save with
  | some j, .adding tx kind args =>
    if j.closed then [] else [.noted j.current.number ⟨j.nextLsn, tx, kind, args⟩]
  | _, _ => []

theorem notesOf_done (c : Coordinator σ) (persisted : Bool) : notesOf c (.done persisted) = [] := by
  unfold notesOf
  split <;> simp_all

namespace Client

variable (p : Client)

/-- The number of the transaction, which is the version that it reads at. -/
def id : ℕ := p.transaction.id

/-- The staged writes. -/
def writes : Writes := p.transaction.writes

/-- The commit of a client at an end version. -/
def attempt (version : ℕ) : Attempt := ⟨p.id, version, p.writes⟩

/-- A client that has just begun a transaction. -/
def fresh (t : Transaction) : Client := ⟨t, .answered (.ok none)⟩

/-- Whether no operation is under way. -/
def isIdle : Bool := p.activity.answer?.isSome

variable {p} in
theorem exists_answered (h : p.isIdle = true) : ∃ answer, p.activity = .answered answer := by
  unfold isIdle at h
  cases ha : p.activity with
  | answered answer => exact ⟨answer, rfl⟩
  | _ => simp [ha, Activity.answer?] at h

/-- Starts an operation. -/
def request (r : Request) : Client :=
  let (t, a) := p.transaction.request r
  ⟨t, a⟩

/-- What is noted when an operation starts: the request, and a read that is answered at once with
a value read before. -/
def requestEvents (r : Request) : List Event :=
  if p.transaction.finished then []
  else .requested p.id r :: match r with
    | .get key =>
      match p.writes.get? key, p.transaction.cache.get? key with
      | none, some value => [.read p.id key (some value)]
      | _, _ => []
    | _ => []

/-- Moves the operation under way on. -/
def advance (c : Coordinator σ) : Option (Client × Coordinator σ) :=
  (p.activity.step p.transaction c).map fun (t, a, c) => (⟨t, a⟩, c)

/-- What is noted of the next step of the operation under way. -/
def advanceEvents (c : Coordinator σ) : List Event :=
  match p.activity with
  | .reading key (.done value) => [.read p.id key value]
  | .writing _ _ save => notesOf c save
  | .committing (.locking _ []) => [.minted (p.attempt c.mint.1)]
  | .committing (.logging _ version (.done true)) => [.applied (p.attempt version)]
  | .committing (.logging _ version save) =>
    (notesOf c save).flatMap fun e => [e, .sealed (p.attempt version)]
  | .committing (.done result) => [.ended p.id p.writes result]
  | .discarding save => notesOf c save
  | _ => []

end Client

/-! ### Systems -/

/-- A coordinator, its clients, and what happened so far. -/
structure System (σ : Type) where
  coordinator : Coordinator σ
  clients : List Client
  trace : List Event

/-- Who makes the next step. -/
inductive Choice where
  | begin
  | request (client : ℕ) (request : Request)
  | advance (client : ℕ)
  | flush (event : Journal.Event)

/-- A coordinator without clients. -/
def System.start (c : Coordinator σ) : System σ := ⟨c, [], []⟩

section stored
variable [LogStore σ]

/-- What is noted of the next step of the flusher: a batch that the log takes. -/
def flushEvents (j : Journal σ) : List Event := j.storing.map .stored

namespace System

/-- One step; nothing if whoever is chosen cannot move. -/
def next (s : System σ) : Choice → Option (System σ)
  | .begin =>
    let (t, c) := s.coordinator.begin
    some ⟨c, s.clients ++ [Client.fresh t], s.trace ++ [.began t.id]⟩
  | .request i r =>
    match s.clients[i]? with
    | none => none
    | some p =>
      if p.isIdle then
        some ⟨s.coordinator, s.clients.set i (p.request r), s.trace ++ p.requestEvents r⟩
      else none
  | .advance i =>
    match s.clients[i]? with
    | none => none
    | some p => (p.advance s.coordinator).map fun (p', c) =>
      ⟨c, s.clients.set i p', s.trace ++ p.advanceEvents s.coordinator⟩
  | .flush event =>
    match s.coordinator.journal with
    | none => none
    | some j => (j.flusherStep event).map fun j' =>
      ⟨{ s.coordinator with journal := some j' }, s.clients, s.trace ++ flushEvents j⟩

/-- The system after some steps, if all of them can be made. -/
def run (s : System σ) (choices : List Choice) : Option (System σ) := choices.foldlM next s

theorem run_append (s : System σ) (before after : List Choice) :
    s.run (before ++ after) = (s.run before).bind (·.run after) := by
  simp [run, List.foldlM_append]

theorem exists_of_run_concat {s s' : System σ} {choices : List Choice} {choice : Choice}
    (h : s.run (choices ++ [choice]) = some s') :
    ∃ s₁, s.run choices = some s₁ ∧ s₁.next choice = some s' := by
  rw [run_append] at h
  obtain ⟨s₁, hrun, hlast⟩ := Option.bind_eq_some_iff.mp h
  obtain ⟨s₂, hs, hnil⟩ := Option.bind_eq_some_iff.mp hlast
  obtain rfl := Option.some.inj hnil
  exact ⟨s₁, hrun, hs⟩

end System

/-- A system that a coordinator gets to by some steps. -/
inductive Reachable (c : Coordinator σ) : System σ → Prop
  | start : Reachable c (.start c)
  | step {s s' : System σ} {choice : Choice} (h : Reachable c s) (hs : s.next choice = some s') :
      Reachable c s'

theorem Reachable.run {c : Coordinator σ} {s s' : System σ} {choices : List Choice}
    (h : Reachable c s) (hr : s.run choices = some s') : Reachable c s' := by
  induction choices generalizing s with
  | nil => exact Option.some.inj hr ▸ h
  | cons choice choices ih =>
      obtain ⟨s₁, hs, hr⟩ := Option.bind_eq_some_iff.mp hr
      exact ih (h.step hs) hr

theorem exists_reachable {c : Coordinator σ} {choices : List Choice} {P : System σ → Bool}
    (h : ((System.start c).run choices).any P = true) : ∃ s, Reachable c s ∧ P s = true := by
  obtain ⟨s, hs, hP⟩ := (Option.any_eq_true P _).mp h
  exact ⟨s, Reachable.start.run hs, hP⟩

end stored

namespace Choice

/-- A client and the flusher store one record, in a log with batches of one record. -/
def save (i : ℕ) : List Choice :=
  [.advance i, .advance i, .flush .handedOver, .flush .handedOver, .advance i]

/-- A client writes a key. -/
def write (i : ℕ) (key value : String) : List Choice :=
  .request i (.set key value) :: save i ++ [.advance i]

/-- A client that wrote one key commits up to its end version. -/
def mint (i : ℕ) : List Choice := .request i .commit :: List.replicate 3 (.advance i)

/-- A client that has its end version, and finds its key clear, takes effect and answers. -/
def conclude (i : ℕ) : List Choice :=
  List.replicate 2 (.advance i) ++ save i ++ List.replicate 4 (.advance i)

end Choice

/-! ### What a step of a client can do -/

/-- The request that stages a value or a delete. -/
def writeRequest (key : String) : Option String → Request
  | some value => .set key value
  | none => .del key

/-- The writer that logs a value or a delete. -/
def writeSave (id : ℕ) (key : String) : Option String → Save
  | some value => .adding id .set [key, value]
  | none => .adding id .del [key]

/-- The transaction after a value was read from the shards. -/
def remember (t : Transaction) (key : String) : Option String → Transaction
  | some value => { t with cache := t.cache.insert key value }
  | none => t

/-- What a record is logged for. -/
inductive Purpose where
  | staging (key : String) (value : Option String)
  | sealing (held : List ℕ) (version : ℕ)
  | discarding

namespace Purpose

/-- The operation that logs a record. -/
def activity (save : Save) : Purpose → Activity
  | staging key value => .writing key value save
  | sealing held version => .committing (.logging held version save)
  | discarding => .discarding save

/-- What is noted when records are logged: the record of a commit seals it. -/
def marks (t : Transaction) (notes : List Event) : Purpose → List Event
  | sealing _ version => notes.flatMap fun e => [e, .sealed ⟨t.id, version, t.writes⟩]
  | _ => notes

end Purpose

/-- What a client with a transaction can do with one step from an activity: what is noted, and the
client and the coordinator afterwards. -/
inductive Move (c : Coordinator σ) (t : Transaction) :
    Activity → List Event → Client → Coordinator σ → Prop
  -- an idle client starts an operation
  | refuse {answer : Answer} (hf : t.finished = true) :
      Move c t (.answered answer) [] ⟨t, .answered (.error .finished)⟩ c
  | echo {answer : Answer} {key : String} {value : Option String} (hf : t.finished = false)
      (hw : t.writes.get? key = some value) :
      Move c t (.answered answer) [.requested t.id (.get key)] ⟨t, .answered (.ok value)⟩ c
  | reread {answer : Answer} {key value : String} (hf : t.finished = false)
      (hw : t.writes.get? key = none) (hc : t.cache.get? key = some value) :
      Move c t (.answered answer) [.requested t.id (.get key), .read t.id key (some value)]
        ⟨t, .answered (.ok (some value))⟩ c
  | look {answer : Answer} {key : String} (hf : t.finished = false)
      (hw : t.writes.get? key = none) :
      Move c t (.answered answer) [.requested t.id (.get key)]
        ⟨t, .reading key (.asking key t.id)⟩ c
  | write {answer : Answer} (key : String) (value : Option String) (hf : t.finished = false) :
      Move c t (.answered answer) [.requested t.id (writeRequest key value)]
        ⟨t, .writing key value (writeSave t.id key value)⟩ c
  | commitNothing {answer : Answer} (hf : t.finished = false) (hw : t.writes.isEmpty = true) :
      Move c t (.answered answer) [.requested t.id .commit]
        ⟨{ t with finished := true }, .committing (.done (.ok ()))⟩ c
  | commit {answer : Answer} (hf : t.finished = false) (hw : t.writes.isEmpty = false) :
      Move c t (.answered answer) [.requested t.id .commit]
        ⟨{ t with finished := true }, .committing (.locking [] (Commit.sortedKeys t.writes))⟩ c
  | rollbackNothing {answer : Answer} (hf : t.finished = false) :
      Move c t (.answered answer) [.requested t.id .rollback]
        ⟨{ t with finished := true, writes := ∅, cache := ∅ }, .answered (.ok none)⟩ c
  | rollback {answer : Answer} (hf : t.finished = false) :
      Move c t (.answered answer) [.requested t.id .rollback]
        ⟨{ t with finished := true, writes := ∅, cache := ∅ },
          .discarding (.adding t.id .rollback [])⟩ c
  -- look-ups
  | vacant {key asked : String} {version : ℕ} (hk : c.locks.byKey.get? asked = none) :
      Move c t (.reading key (.asking asked version)) []
        ⟨t, .reading key (.reading asked version)⟩ c
  | watch {key asked : String} {version lock : ℕ} (hk : c.locks.byKey.get? asked = some lock) :
      Move c t (.reading key (.asking asked version)) []
        ⟨t, .reading key (.watching asked version lock)⟩ { c with locks := c.locks.borrow lock }
  | pass {key asked : String} {version lock : ℕ}
      (ho : c.locks.owner lock = unlocked ∨ version ≤ c.locks.owner lock) :
      Move c t (.reading key (.watching asked version lock)) []
        ⟨t, .reading key (.reading asked version)⟩ { c with locks := c.locks.drop lock }
  | see {key asked : String} {version : ℕ} :
      Move c t (.reading key (.reading asked version)) []
        ⟨t, .reading key (.done (c.shards.get version asked))⟩ c
  | tell {key : String} {value : Option String} :
      Move c t (.reading key (.done value)) [.read t.id key value]
        ⟨remember t key value, .answered (.ok value)⟩ c
  -- logging
  | log {c' : Coordinator σ} {purpose : Purpose} {save save' : Save}
      (h : c.logStep save = some (save', c')) :
      Move c t (purpose.activity save) (purpose.marks t (notesOf c save))
        ⟨t, purpose.activity save'⟩ c'
  | stage {key : String} {value : Option String} :
      Move c t (.writing key value (.done true)) []
        ⟨{ t with writes := t.writes.insert key value }, .answered (.ok none)⟩ c
  | unstage {key : String} {value : Option String} :
      Move c t (.writing key value (.done false)) [] ⟨t, .answered (.error .logFailure)⟩ c
  -- commits
  | lock {key : String} {held : List ℕ} {todo : List String} :
      Move c t (.committing (.locking held (key :: todo))) []
        ⟨t, .committing (.contending held (c.locks.lockFor key).1 todo)⟩
        { c with locks := (c.locks.lockFor key).2 }
  | acquire {held : List ℕ} {lock : ℕ} {todo : List String} {locks : LockTable}
      (h : c.locks.tryAcquire lock t.id = (true, locks)) :
      Move c t (.committing (.contending held lock todo)) []
        ⟨t, .committing (.locking (held ++ [lock]) todo)⟩ { c with locks }
  | lose {held : List ℕ} {lock : ℕ} {todo : List String} (ho : c.locks.owner lock ≠ unlocked) :
      Move c t (.committing (.contending held lock todo)) []
        ⟨t, .committing (.releasing held held (.error .interfered))⟩
        { c with locks := c.locks.drop lock }
  | mint {held : List ℕ} :
      Move c t (.committing (.locking held [])) [.minted ⟨t.id, c.mint.1, t.writes⟩]
        ⟨t, .committing (.checking held c.mint.1 t.writes.keys)⟩ c.mint.2
  | conflict {key : String} {held : List ℕ} {version : ℕ} {todo : List String}
      (h : c.shards.existsBetween t.id version key = true) :
      Move c t (.committing (.checking held version (key :: todo))) []
        ⟨t, .committing (.releasing held held (.error .interfered))⟩ c
  | clear {key : String} {held : List ℕ} {version : ℕ} {todo : List String}
      (h : c.shards.existsBetween t.id version key = false) :
      Move c t (.committing (.checking held version (key :: todo))) []
        ⟨t, .committing (.checking held version todo)⟩ c
  | pledge {held : List ℕ} {version : ℕ} :
      Move c t (.committing (.checking held version [])) []
        ⟨t, .committing (.logging held version (.adding t.id .commit []))⟩ c
  | apply {held : List ℕ} {version : ℕ} :
      Move c t (.committing (.logging held version (.done true)))
        [.applied ⟨t.id, version, t.writes⟩] ⟨t, .committing (.releasing held held (.ok ()))⟩
        { c with shards := c.shards.setMany version t.writes }
  | abort {held : List ℕ} {version : ℕ} :
      Move c t (.committing (.logging held version (.done false))) []
        ⟨t, .committing (.releasing held held (.error .logFailure))⟩ c
  | free {held todo : List ℕ} {lock : ℕ} {result : Outcome Unit} :
      Move c t (.committing (.releasing held (lock :: todo) result)) []
        ⟨t, .committing (.releasing held todo result)⟩
        { c with locks := c.locks.release lock t.id }
  | leave {held : List ℕ} {result : Outcome Unit} :
      Move c t (.committing (.releasing held [] result)) []
        ⟨t, .committing (.done result)⟩ { c with locks := held.foldl LockTable.drop c.locks }
  | finish {result : Outcome Unit} :
      Move c t (.committing (.done result)) [.ended t.id t.writes result]
        ⟨t, .answered (result.map fun _ => none)⟩ c
  | discarded {persisted : Bool} :
      Move c t (.discarding (.done persisted)) []
        ⟨t, .answered (if persisted then .ok none else .error .logFailure)⟩ c

theorem Move.of_request {p : Client} (c : Coordinator σ) (hi : p.isIdle = true) (r : Request) :
    Move c p.transaction p.activity (p.requestEvents r) (p.request r) c := by
  obtain ⟨t, a⟩ := p
  obtain ⟨answer, rfl⟩ : ∃ answer, a = .answered answer := Client.exists_answered hi
  cases hf : t.finished with
  | true =>
      simp only [Client.requestEvents, Client.request, Transaction.request, hf, if_true]
      exact .refuse hf
  | false =>
      simp only [Client.requestEvents, Client.request, Transaction.request, hf]
      cases r with
      | get key =>
          cases hw : t.writes.get? key with
          | some value => simpa [Client.writes, Client.id, hw] using Move.echo hf hw
          | none =>
              cases hc : t.cache.get? key with
              | some value => simpa [Client.writes, Client.id, hw, hc] using Move.reread hf hw hc
              | none => simpa [Client.writes, Client.id, hw, hc] using Move.look hf hw
      | set key value => exact .write key (some value) hf
      | del key => exact .write key none hf
      | commit =>
          cases hw : t.writes.isEmpty with
          | true => simpa [Client.id, Commit.start, hw] using Move.commitNothing hf hw
          | false => simpa [Client.id, Commit.start, hw] using Move.commit hf hw
      | rollback =>
          cases hw : t.writes.isEmpty with
          | true => simpa [Client.id, hw] using Move.rollbackNothing hf
          | false => simpa [Client.id, hw] using Move.rollback hf

theorem Move.of_log {c c' : Coordinator σ} {t : Transaction} {save save' : Save}
    (purpose : Purpose) (h : c.logStep save = some (save', c')) :
    Move c t (purpose.activity save) (purpose.marks t (notesOf c save))
      ⟨t, purpose.activity save'⟩ c' := .log h

theorem Move.of_lookup {c c' : Coordinator σ} {t : Transaction} {key : String} {l l' : Lookup}
    (h : l.step c = some (l', c')) :
    Move c t (.reading key l) [] ⟨t, .reading key l'⟩ c' := by
  cases l with
  | asking asked version =>
      simp only [Lookup.step] at h
      cases hp : c.locks.peek asked with
      | none =>
          simp only [hp, Option.some.injEq, Prod.mk.injEq] at h
          obtain ⟨rfl, rfl⟩ := h
          exact .vacant (by simpa [LockTable.peek] using hp)
      | some found =>
          simp only [hp, Option.some.injEq, Prod.mk.injEq] at h
          obtain ⟨rfl, rfl⟩ := h
          obtain ⟨lock, hk, rfl⟩ := Option.map_eq_some_iff.mp hp
          exact .watch hk
  | watching asked version lock =>
      simp only [Lookup.step] at h
      split at h
      · next ho =>
        obtain ⟨rfl, rfl⟩ := Prod.mk.inj (Option.some.inj h)
        exact .pass ho
      · simp at h
  | reading asked version =>
      obtain ⟨rfl, rfl⟩ := Prod.mk.inj (Option.some.inj h)
      exact .see
  | done value => simp [Lookup.step] at h

/-- The steps of a commit, apart from its last one. -/
theorem Move.of_commit {c c' : Coordinator σ} {t : Transaction} {a a' : Commit}
    (h : a.step t.id t.writes c = some (a', c')) :
    Move c t (.committing a) (Client.advanceEvents ⟨t, .committing a⟩ c) ⟨t, .committing a'⟩ c' := by
  cases a with
  | locking held todo =>
      cases todo with
      | nil =>
          obtain ⟨rfl, rfl⟩ := Prod.mk.inj (Option.some.inj h)
          exact .mint
      | cons key todo =>
          obtain ⟨rfl, rfl⟩ := Prod.mk.inj (Option.some.inj h)
          exact .lock
  | contending held lock todo =>
      simp only [Commit.step] at h
      split at h <;> obtain ⟨rfl, rfl⟩ := Prod.mk.inj (Option.some.inj h)
      · next locks ha => exact .acquire ha
      · next locks ha =>
        obtain ⟨ho, rfl⟩ : c.locks.owner lock ≠ unlocked ∧ locks = c.locks := by
          unfold LockTable.tryAcquire LockTable.exchange at ha
          split at ha
          · simp at ha
          · next ho => exact ⟨ho, (Prod.mk.inj ha).2.symm⟩
        exact .lose ho
  | checking held version todo =>
      cases todo with
      | nil =>
          obtain ⟨rfl, rfl⟩ := Prod.mk.inj (Option.some.inj h)
          exact .pledge
      | cons key todo =>
          simp only [Commit.step] at h
          split at h <;> obtain ⟨rfl, rfl⟩ := Prod.mk.inj (Option.some.inj h)
          · next he => exact .conflict he
          · next he => exact .clear (by simpa using he)
  | logging held version save =>
      have hlog {save' : Save} {c' : Coordinator σ} (hs : c.logStep save = some (save', c')) :
          Move c t (.committing (.logging held version save))
            ((notesOf c save).flatMap fun e => [e, .sealed ⟨t.id, version, t.writes⟩])
            ⟨t, .committing (.logging held version save')⟩ c' :=
        .of_log (.sealing held version) hs
      cases save with
      | done persisted =>
          cases persisted with
          | true =>
              obtain ⟨rfl, rfl⟩ := Prod.mk.inj (Option.some.inj h)
              exact .apply
          | false =>
              obtain ⟨rfl, rfl⟩ := Prod.mk.inj (Option.some.inj h)
              simp only [Client.advanceEvents, notesOf_done, List.flatMap_nil]
              exact .abort
      | _ =>
          obtain ⟨⟨save', c''⟩, hs, h⟩ := Option.map_eq_some_iff.mp h
          obtain ⟨rfl, rfl⟩ := Prod.mk.inj h
          exact hlog hs
  | releasing held todo result =>
      cases todo with
      | nil =>
          obtain ⟨rfl, rfl⟩ := Prod.mk.inj (Option.some.inj h)
          exact .leave
      | cons lock todo =>
          obtain ⟨rfl, rfl⟩ := Prod.mk.inj (Option.some.inj h)
          exact .free
  | done result => simp [Commit.step] at h

theorem Move.of_advance {p p' : Client} {c c' : Coordinator σ}
    (h : p.advance c = some (p', c')) :
    Move c p.transaction p.activity (p.advanceEvents c) p' c' := by
  obtain ⟨t, a⟩ := p
  obtain ⟨⟨t', a', c''⟩, hs, h⟩ := Option.map_eq_some_iff.mp h
  obtain ⟨rfl, rfl⟩ := Prod.mk.inj h
  cases a with
  | reading key lookup =>
      cases lookup with
      | done value =>
          obtain ⟨rfl, rfl, rfl⟩ := by simpa only [Activity.step, Option.some.injEq,
            Prod.mk.injEq] using hs
          cases value <;> exact .tell
      | _ =>
          simp only [Activity.step, Option.map_eq_some_iff, Prod.exists, Prod.mk.injEq] at hs
          obtain ⟨l, d, hl, rfl, rfl, rfl⟩ := hs
          exact .of_lookup hl
  | writing key value save =>
      cases save with
      | done persisted =>
          simp only [Client.advanceEvents, notesOf_done]
          cases persisted with
          | true =>
              obtain ⟨rfl, rfl, rfl⟩ := by simpa only [Activity.step, Option.some.injEq,
                Prod.mk.injEq] using hs
              exact .stage
          | false =>
              obtain ⟨rfl, rfl, rfl⟩ := by simpa only [Activity.step, Option.some.injEq,
                Prod.mk.injEq] using hs
              exact .unstage
      | _ =>
          simp only [Activity.step, Option.map_eq_some_iff, Prod.exists, Prod.mk.injEq] at hs
          obtain ⟨l, d, hl, rfl, rfl, rfl⟩ := hs
          exact .of_log (.staging key value) hl
  | committing commit =>
      cases commit with
      | done result =>
          obtain ⟨rfl, rfl, rfl⟩ := by simpa only [Activity.step, Option.some.injEq,
            Prod.mk.injEq] using hs
          exact .finish
      | _ =>
          simp only [Activity.step, Option.map_eq_some_iff, Prod.exists, Prod.mk.injEq] at hs
          obtain ⟨l, d, hl, rfl, rfl, rfl⟩ := hs
          exact .of_commit hl
  | discarding save =>
      cases save with
      | done persisted =>
          simp only [Client.advanceEvents, notesOf_done]
          cases persisted <;>
            (obtain ⟨rfl, rfl, rfl⟩ := by simpa only [Activity.step, Option.some.injEq,
              Prod.mk.injEq] using hs) <;>
            exact .discarded
      | _ =>
          simp only [Activity.step, Option.map_eq_some_iff, Prod.exists, Prod.mk.injEq] at hs
          obtain ⟨l, d, hl, rfl, rfl, rfl⟩ := hs
          exact .of_log .discarding hl
  | answered answer => simp [Activity.step] at hs

/-! ### What a step of a system can do -/

section stored
variable [LogStore σ]

/-- The steps of a system: a new client, a step of one client while the others stand still, or a
step of the flusher. -/
inductive Step : System σ → System σ → Prop
  | began (c : Coordinator σ) (ps : List Client) (es : List Event) :
      Step ⟨c, ps, es⟩ ⟨c.mint.2, ps ++ [.fresh (.fresh c.mint.1)], es ++ [.began c.mint.1]⟩
  | moved {c c' : Coordinator σ} {A B : List Client} {t : Transaction} {a : Activity} {p' : Client}
      {es new : List Event} (h : Move c t a new p' c') :
      Step ⟨c, A ++ ⟨t, a⟩ :: B, es⟩ ⟨c', A ++ p' :: B, es ++ new⟩
  | flushed {c : Coordinator σ} {ps : List Client} {es : List Event} {j j' : Journal σ}
      {event : Journal.Event} (hj : c.journal = some j) (h : j.flusherStep event = some j') :
      Step ⟨c, ps, es⟩ ⟨{ c with journal := some j' }, ps, es ++ flushEvents j⟩

theorem exists_split_of_getElem? {ps : List Client} {i : ℕ} {p : Client} (h : ps[i]? = some p) :
    ∃ A B, ps = A ++ p :: B ∧ ∀ p', ps.set i p' = A ++ p' :: B := by
  obtain ⟨hi, rfl⟩ := List.getElem?_eq_some_iff.mp h
  refine ⟨ps.take i, ps.drop (i + 1), by simp, fun p' => ?_⟩
  rw [List.set_eq_take_append_cons_drop, if_pos hi]

/-! ### What each choice does -/

namespace System

variable {s s' : System σ} {i : ℕ}

theorem of_request {r : Request} (h : s.next (.request i r) = some s') :
    ∃ p, s.clients[i]? = some p ∧ p.isIdle = true ∧
      s' = ⟨s.coordinator, s.clients.set i (p.request r), s.trace ++ p.requestEvents r⟩ := by
  simp only [next] at h
  split at h
  · simp at h
  · next p hp =>
    split at h
    · next hi => exact ⟨p, hp, hi, (Option.some.inj h).symm⟩
    · simp at h

theorem of_advance (h : s.next (.advance i) = some s') :
    ∃ p p' c', s.clients[i]? = some p ∧ p.advance s.coordinator = some (p', c') ∧
      s' = ⟨c', s.clients.set i p', s.trace ++ p.advanceEvents s.coordinator⟩ := by
  simp only [next] at h
  split at h
  · simp at h
  · next p hp =>
    obtain ⟨⟨p', c'⟩, ha, rfl⟩ := Option.map_eq_some_iff.mp h
    exact ⟨p, p', c', hp, ha, rfl⟩

theorem of_flush {event : Journal.Event} (h : s.next (.flush event) = some s') :
    ∃ j j', s.coordinator.journal = some j ∧ j.flusherStep event = some j' ∧
      s' = ⟨{ s.coordinator with journal := some j' }, s.clients, s.trace ++ flushEvents j⟩ := by
  simp only [next] at h
  split at h
  · simp at h
  · next j hj =>
    obtain ⟨j', hf, rfl⟩ := Option.map_eq_some_iff.mp h
    exact ⟨j, j', hj, hf, rfl⟩

end System

theorem Step.of_next {s s' : System σ} {choice : Choice} (h : s.next choice = some s') :
    Step s s' := by
  obtain ⟨c, ps, es⟩ := s
  cases choice with
  | begin =>
      obtain rfl := Option.some.inj h
      exact .began c ps es
  | request i r =>
      obtain ⟨p, hp, hi, rfl⟩ := System.of_request h
      obtain ⟨A, B, rfl, hset⟩ := exists_split_of_getElem? hp
      simp only [hset]
      exact .moved (.of_request c hi r)
  | advance i =>
      obtain ⟨p, p', c', hp, ha, rfl⟩ := System.of_advance h
      obtain ⟨A, B, rfl, hset⟩ := exists_split_of_getElem? hp
      simp only [hset]
      exact .moved (.of_advance ha)
  | flush event =>
      obtain ⟨j, j', hj, hf, rfl⟩ := System.of_flush h
      exact .flushed hj hf

theorem System.exists_trace_of_run {s s' : System σ} {choices : List Choice}
    (h : s.run choices = some s') : ∃ new, s'.trace = s.trace ++ new := by
  induction choices generalizing s with
  | nil =>
      obtain rfl := Option.some.inj h
      exact ⟨[], (List.append_nil _).symm⟩
  | cons choice choices ih =>
      obtain ⟨s₁, hs, h⟩ := Option.bind_eq_some_iff.mp h
      obtain ⟨old, hold⟩ : ∃ old, s₁.trace = s.trace ++ old := by
        cases Step.of_next hs <;> exact ⟨_, rfl⟩
      obtain ⟨new, hnew⟩ := ih h
      exact ⟨old ++ new, by rw [hnew, hold, List.append_assoc]⟩

end stored
end Run
end SnapshotStore

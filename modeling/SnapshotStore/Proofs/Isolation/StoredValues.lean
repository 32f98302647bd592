import SnapshotStore.Proofs.Isolation.Refinement
import SnapshotStore.Proofs.Reply

/-! # Stored values are read back

Once a write of a value was answered with `OK`, a client that may see the value reads it until somebody writes
the key again (`Ideal.Retains`), also while the log fails.  What leaves the value there depends on who has
staged the key by then: a reader that has staged it must not discard it, and a reader that has not must not
see another commit of the key (`Input.Spares`).

The answer to the read is the text of the value, so a client takes it for the value unless it is the text of
a status (`Database.stored_values_read_back`).  Every answer that is no such value is understood as it was
meant. -/

namespace SnapshotStore

open Journal (LogStore)

/-! ### Inputs that leave a value there -/

section spares
variable (staged : String → Option Writes) (reader key client : String) (reply : Option Reply)

/-- Whether a client has staged a key. -/
def stages : Bool := (staged client).any fun w => (w.get? key).isSome

/-- A command of the reader itself that, with its reply, leaves there what it sees at a key: it does not write
the key, and if it has staged the key, only a commit ends its session. -/
def Command.Keeps : Command → Prop
  | .set other _ | .del other => other = key → reply ≠ some .ok
  | .commit => stages staged key reader = true → reply = some .ok
  | .rollback => stages staged key reader = false
  | .get _ | .begin => True

/-- A command of another client that, with its reply, leaves there what is committed at a key: a write of the
key is at most staged, and a commit has none. -/
def Command.Spares : Command → Prop
  | .set other _ | .del other => other = key → reply = some .ok → (staged client).isSome = true
  | .commit => stages staged key client = true → reply ≠ some .ok
  | .get _ | .begin | .rollback => True

/-- An input that, with its reply, leaves there what a reader sees at a key.  What others commit does not
matter to a reader that has staged the key. -/
def Input.Spares : Input → Option Reply → Prop
  | .line client text, reply => ∀ command ∈ (Command.parse text).toOption,
    if client = reader then command.Keeps staged reader key reply
    else stages staged key reader = true ∨ command.Spares staged key client reply
  | .gone client, _ => client = reader → stages staged key reader = false

instance : (command : Command) → Decidable (command.Keeps staged reader key reply)
  | .set other _ | .del other => inferInstanceAs (Decidable (other = key → reply ≠ some .ok))
  | .commit => inferInstanceAs (Decidable (_ = true → reply = some .ok))
  | .rollback => inferInstanceAs (Decidable (_ = false))
  | .get _ | .begin => .isTrue trivial

instance : (command : Command) → Decidable (command.Spares staged key client reply)
  | .set other _ | .del other => inferInstanceAs (Decidable (other = key → reply = some .ok → _ = true))
  | .commit => inferInstanceAs (Decidable (_ = true → reply ≠ some .ok))
  | .get _ | .begin | .rollback => .isTrue trivial

instance : (input : Input) → (reply : Option Reply) → Decidable (input.Spares staged reader key reply)
  | .line _ _, _ => inferInstanceAs (Decidable (∀ _ ∈ Except.toOption _, ite _ _ _))
  | .gone client, _ => inferInstanceAs (Decidable (client = reader → _ = false))

theorem Input.spares_line_iff {staged : String → Option Writes} {reader key client text : String}
    {command : Command} {reply : Option Reply} (hparse : Command.parse text = .ok command) :
    (Input.line client text).Spares staged reader key reply ↔
      if client = reader then command.Keeps staged reader key reply
      else stages staged key reader = true ∨ command.Spares staged key client reply := by
  simp [Input.Spares, hparse, Except.toOption]

end spares

namespace Ideal

/-- What the clients with a session have staged. -/
def staged (s : Ideal) (client : String) : Option Writes := (s.sessions client).map (·.staged)

/-- What a reader sees at a key is a value.  It has staged the value, or staged nothing there, and the value
is committed. -/
def Retains (s : Ideal) (reader key value : String) : Prop :=
  match s.sessions reader with
  | none => s.committed key = some value
  | some u => u.staged.get? key = some (some value) ∨
      (u.staged.get? key = none ∧ u.snapshot key = some value ∧ s.committed key = some value)

variable {fails : Prop} {s s' : Ideal} {client reader key other value : String} {w : Writes}

theorem stages_of_none (h : s.sessions client = none) : stages s.staged key client = false := by
  simp only [stages, staged, h, Option.map_none, Option.any_none]

theorem stages_of_some {u : Session} (h : s.sessions client = some u) :
    stages s.staged key client = (u.staged.get? key).isSome := by
  simp only [stages, staged, h, Option.map_some, Option.any_some]

theorem retains_of_none (h : s.sessions reader = none) :
    s.Retains reader key value ↔ s.committed key = some value := by
  simp only [Retains, h]

theorem retains_of_some {u : Session} (h : s.sessions reader = some u) :
    s.Retains reader key value ↔ u.staged.get? key = some (some value) ∨
      (u.staged.get? key = none ∧ u.snapshot key = some value ∧ s.committed key = some value) := by
  simp only [Retains, h]

namespace Retains

theorem view_eq (h : s.Retains reader key value) : s.view reader key = some value := by
  unfold Ideal.view
  cases hu : s.sessions reader with
  | none => exact (retains_of_none hu).mp h
  | some u =>
      obtain hstaged | ⟨hstaged, hsnapshot, -⟩ := (retains_of_some hu).mp h
      · exact State.write_of_some hstaged
      · exact (State.write_of_none hstaged).trans hsnapshot

theorem committed_eq (h : s.Retains reader key value) (hnot : stages s.staged key reader = false) :
    s.committed key = some value := by
  cases hu : s.sessions reader with
  | none => exact (retains_of_none hu).mp h
  | some u =>
      rw [stages_of_some hu] at hnot
      obtain hstaged | ⟨-, -, hcommitted⟩ := (retains_of_some hu).mp h
      · simp [hstaged] at hnot
      · exact hcommitted

/-- The sessions of others do not matter. -/
theorem put (h : s.Retains reader key value) (hne : client ≠ reader) (u : Option Session) :
    (s.put client u).Retains reader key value := by
  unfold Retains at h ⊢
  rw [sessions_put, if_neg hne.symm]
  exact h

/-- The reader ends a session in which it has not staged the key. -/
theorem leave (h : s.Retains reader key value) (hnot : stages s.staged key reader = false) :
    (s.put reader none).Retains reader key value :=
  (retains_of_none (if_pos rfl)).mpr (h.committed_eq hnot)

/-- Commits without the key do not matter, and neither do others to a reader that has staged it. -/
theorem commit (h : s.Retains reader key value)
    (hw : stages s.staged key reader = true ∨ w.get? key = none) :
    (s.commit w).Retains reader key value := by
  have hcommitted (hnone : w.get? key = none) : (s.commit w).committed key = s.committed key :=
    State.write_of_none hnone
  have hsessions : (s.commit w).sessions reader = (s.sessions reader).map fun u => u.outdate w.keys := rfl
  cases hu : s.sessions reader with
  | none =>
      rw [stages_of_none hu] at hw
      rw [hu] at hsessions
      rw [retains_of_none hsessions, hcommitted (hw.resolve_left Bool.false_ne_true)]
      exact (retains_of_none hu).mp h
  | some u =>
      rw [stages_of_some hu] at hw
      rw [hu] at hsessions
      rw [retains_of_some hsessions]
      obtain hstaged | ⟨hstaged, hsnapshot, hold⟩ := (retains_of_some hu).mp h
      · exact .inl hstaged
      · rw [hstaged] at hw
        exact .inr ⟨hstaged, hsnapshot, (hcommitted (hw.resolve_left Bool.false_ne_true)).trans hold⟩

theorem write_own (h : s.Retains reader key value) (hne : other ≠ key) (v : Option String) :
    (s.write reader other v).Retains reader key value := by
  unfold Ideal.write
  cases hu : s.sessions reader with
  | none => exact h.commit (.inr (Table.get?_insert_of_ne _ hne.symm _))
  | some u =>
      have hstage : (u.stage other v).staged.get? key = u.staged.get? key :=
        Table.get?_insert_of_ne _ hne.symm _
      have hsessions : (s.put reader (some (u.stage other v))).sessions reader =
          some (u.stage other v) := if_pos rfl
      rw [retains_of_some hsessions, hstage]
      exact (retains_of_some hu).mp h

theorem write_other (h : s.Retains reader key value) (hne : client ≠ reader)
    (hspares : stages s.staged key reader = true ∨ (other = key → (s.staged client).isSome = true))
    (v : Option String) : (s.write client other v).Retains reader key value := by
  unfold Ideal.write
  cases hu : s.sessions client with
  | some u => exact h.put hne _
  | none =>
      refine h.commit (hspares.imp_right fun hsome => Table.get?_insert_of_ne _ (fun heq => ?_) _)
      have hsession := hsome heq.symm
      simp [staged, hu] at hsession

theorem begin (h : s.Retains reader key value) (hu : s.sessions client = none) :
    (s.put client (some (.begin s.committed))).Retains reader key value := by
  by_cases hclient : client = reader
  · subst hclient
    have hcommitted : s.committed key = some value := (retains_of_none hu).mp h
    have hsessions : (s.put client (some (.begin s.committed))).sessions client =
        some (.begin s.committed) := if_pos rfl
    exact (retains_of_some hsessions).mpr (.inr ⟨rfl, hcommitted, hcommitted⟩)
  · exact h.put hclient _

theorem commit_own (h : s.Retains reader key value) {u : Session} (hu : s.sessions reader = some u) :
    ((s.put reader none).commit u.staged).Retains reader key value := by
  have hsessions : ((s.put reader none).commit u.staged).sessions reader = none := by
    simp only [Ideal.commit, sessions_put, if_true, Option.map_none]
  rw [retains_of_none hsessions]
  obtain hstaged | ⟨hstaged, -, hcommitted⟩ := (retains_of_some hu).mp h
  · exact State.write_of_some hstaged
  · exact (State.write_of_none hstaged).trans hcommitted

theorem commit_other (h : s.Retains reader key value) (hne : client ≠ reader) {u : Session}
    (hu : s.sessions client = some u)
    (hspares : stages s.staged key reader = true ∨ stages s.staged key client = false) :
    ((s.put client none).commit u.staged).Retains reader key value := by
  have hstaged : stages (s.put client none).staged key reader = stages s.staged key reader := by
    unfold stages staged
    rw [sessions_put, if_neg hne.symm]
  refine (h.put hne none).commit ?_
  rw [hstaged]
  refine hspares.imp_right fun hnot => ?_
  rwa [stages_of_some hu, Option.isSome_eq_false_iff, Option.isNone_iff_eq_none] at hnot

/-- The reader runs a command that keeps the value. -/
theorem run_own (h : s.Retains reader key value) {command : Command}
    (hkeeps : command.Keeps s.staged reader key (some (s.run reader command).1)) :
    (s.run reader command).2.Retains reader key value := by
  cases command with
  | get => exact h
  | set other v => exact h.write_own (fun heq => hkeeps heq rfl) (some v)
  | del other => exact h.write_own (fun heq => hkeeps heq rfl) none
  | begin =>
      cases hu : s.sessions reader with
      | some u => simpa only [Ideal.run, hu] using h
      | none => simpa only [Ideal.run, hu] using h.begin hu
  | commit =>
      unfold Command.Keeps at hkeeps
      cases hu : s.sessions reader with
      | none => simpa only [Ideal.run, hu] using h
      | some u =>
          cases hinterfered : u.interfered with
          | true =>
              simp only [Ideal.run, hu, hinterfered, if_true] at hkeeps ⊢
              exact h.leave (Bool.eq_false_iff.mpr fun hholds => by cases hkeeps hholds)
          | false =>
              simp only [Ideal.run, hu, hinterfered, Bool.false_eq_true, if_false]
              exact h.commit_own hu
  | rollback =>
      cases hu : s.sessions reader with
      | none => simpa only [Ideal.run, hu] using h
      | some u =>
          simp only [Ideal.run, hu]
          exact h.leave hkeeps

/-- Another client runs a command that spares the value, or the reader has staged the key. -/
theorem run_other (h : s.Retains reader key value) (hne : client ≠ reader) {command : Command}
    (hspares : stages s.staged key reader = true ∨
      command.Spares s.staged key client (some (s.run client command).1)) :
    (s.run client command).2.Retains reader key value := by
  cases command with
  | get => exact h
  | set other v => exact h.write_other hne (hspares.imp_right fun hs heq => hs heq rfl) (some v)
  | del other => exact h.write_other hne (hspares.imp_right fun hs heq => hs heq rfl) none
  | begin =>
      cases hu : s.sessions client with
      | some u => simpa only [Ideal.run, hu] using h
      | none => simpa only [Ideal.run, hu] using h.begin hu
  | commit =>
      unfold Command.Spares at hspares
      cases hu : s.sessions client with
      | none => simpa only [Ideal.run, hu] using h
      | some u =>
          cases hinterfered : u.interfered with
          | true =>
              simp only [Ideal.run, hu, hinterfered, if_true]
              exact h.put hne none
          | false =>
              simp only [Ideal.run, hu, hinterfered, Bool.false_eq_true, if_false] at hspares ⊢
              refine h.commit_other hne hu (hspares.imp_right fun hs => ?_)
              exact Bool.eq_false_iff.mpr fun hholds => hs hholds rfl
  | rollback =>
      cases hu : s.sessions client with
      | none => simpa only [Ideal.run, hu] using h
      | some u =>
          simp only [Ideal.run, hu]
          exact h.put hne none

theorem lose_own (h : s.Retains reader key value) {command : Command}
    (hkeeps : command.Keeps s.staged reader key (some (.ofFault .logFailure))) :
    (s.lose reader command).Retains reader key value := by
  cases command with
  | commit =>
      refine h.leave (Bool.eq_false_iff.mpr fun hholds => ?_)
      exact absurd (hkeeps hholds) (by decide)
  | rollback => exact h.leave hkeeps
  | _ => exact h

theorem lose_other (h : s.Retains reader key value) (hne : client ≠ reader) (command : Command) :
    (s.lose client command).Retains reader key value := by
  cases command with
  | commit => exact h.put hne none
  | rollback => exact h.put hne none
  | _ => exact h

/-- An input that spares the value leaves it there. -/
theorem takes (h : s.Retains reader key value) {input : Input} {reply : Option Reply}
    (htakes : Takes fails s input reply s') (hspares : input.Spares s.staged reader key reply) :
    s'.Retains reader key value := by
  cases htakes with
  | @lost client text command _ hparse =>
      rw [Input.spares_line_iff hparse] at hspares
      by_cases hclient : client = reader
      · rw [if_pos hclient] at hspares
        subst hclient
        exact h.lose_own hspares
      · exact h.lose_other hclient command
  | fed =>
      cases input with
      | gone client =>
          by_cases hclient : client = reader
          · have hnot := hspares hclient
            subst hclient
            exact h.leave hnot
          · exact h.put hclient none
      | line client text =>
          rw [Ideal.feed] at hspares ⊢
          cases hparse : Command.parse text with
          | error fault => exact h
          | ok command =>
              rw [hparse] at hspares
              rw [Input.spares_line_iff hparse] at hspares
              by_cases hclient : client = reader
              · rw [if_pos hclient] at hspares
                subst hclient
                exact h.run_own hspares
              · rw [if_neg hclient] at hspares
                exact h.run_other hclient hspares

end Retains

/-- A value is there for the client that writes it, and outside of sessions for everybody. -/
theorem retains_write (s : Ideal) (key value : String)
    (hsees : reader = client ∨ (s.sessions client = none ∧ s.sessions reader = none)) :
    (s.write client key (some value)).Retains reader key value := by
  have hstaged (w : Writes) : (w.insert key (some value)).get? key = some (some value) :=
    Table.get?_insert_self ..
  unfold Ideal.write
  cases hu : s.sessions client with
  | none =>
      have hreader : s.sessions reader = none := by
        obtain rfl | ⟨-, hreader⟩ := hsees
        · exact hu
        · exact hreader
      refine (retains_of_none ?_).mpr (State.write_of_some (hstaged ∅))
      simp only [Ideal.commit, hreader, Option.map_none]
  | some u =>
      obtain rfl : reader = client := by
        obtain hsame | ⟨hnone, -⟩ := hsees
        · exact hsame
        · rw [hu] at hnone
          cases hnone
      exact (retains_of_some (if_pos rfl)).mpr (.inl (hstaged u.staged))

theorem Takes.eq_write {text : String} (h : Takes fails s (.line client text) (some .ok) s')
    (hparse : Command.parse text = .ok (.set key value)) :
    s' = s.write client key (some value) := by
  generalize hreply : some Reply.ok = reply at h
  generalize hinput : Input.line client text = input at h
  cases h with
  | lost => cases hreply
  | fed =>
      subst hinput
      rw [Ideal.feed, hparse]
      rfl

end Ideal

/-! ### The database -/

namespace Database

variable {σ : Type} [LogStore σ] {d : Database σ} {client key : String}

/-- A database stays a replica, or stays none. -/
theorem isReplica_feed (d : Database σ) (input : Input) : (d.feed input).2.isReplica = d.isReplica := by
  have hfinish (client : String) (r : Request) : (d.finish client r).2.isReplica = d.isReplica := by
    unfold finish
    split <;> rfl
  have hwrite (client : String) (r : Request) : (d.write client r).2.isReplica = d.isReplica := by
    unfold write
    split
    · rfl
    · split <;> rfl
  cases input with
  | gone client => exact hfinish client .rollback
  | line client text =>
      rw [feed, execute]
      cases Command.parse text with
      | error fault => rfl
      | ok command =>
          cases command with
          | get key =>
              show (d.get client key).2.isReplica = d.isReplica
              unfold get
              split <;> rfl
          | set key value => exact hwrite client (.set key value)
          | del key => exact hwrite client (.del key)
          | begin =>
              show (d.begin client).2.isReplica = d.isReplica
              unfold begin
              split <;> rfl
          | commit => exact hfinish client .commit
          | rollback => exact hfinish client .rollback

theorem isReplica_transcript (d : Database σ) (inputs : List Input) :
    (transcript feed d inputs).2.isReplica = d.isReplica := by
  induction inputs generalizing d with
  | nil => rfl
  | cons input inputs ih => exact (ih _).trans (d.isReplica_feed input)

/-- Only reads are answered with values. -/
theorem eq_get_of_value {command : Command} {v : String} (h : (d.run client command).1 = .value v) :
    ∃ key, command = .get key := by
  have hreply (answer : Answer) : replyTo (fun _ => .ok) answer ≠ .value v := by
    cases answer <;> exact Reply.noConfusion
  have hfinish (r : Request) : (d.finish client r).1 ≠ .value v := by
    unfold finish
    split
    · exact Reply.noConfusion
    · exact hreply _
  have hwrite (r : Request) : (d.write client r).1 ≠ .value v := by
    unfold write
    split
    · exact Reply.noConfusion
    · split <;> exact hreply _
  cases command with
  | get key => exact ⟨key, rfl⟩
  | set key value => exact absurd h (hwrite (.set key value))
  | del key => exact absurd h (hwrite (.del key))
  | begin =>
      have hbegin : (d.begin client).1 = .value v := h
      unfold begin at hbegin
      split at hbegin <;> cases hbegin
  | commit => exact absurd h (hfinish .commit)
  | rollback => exact absurd h (hfinish .rollback)

/-- What the clients with a session have staged. -/
def staged (d : Database σ) (client : String) : Option Writes := (d.sessions.get? client).map (·.writes)

/-- Inputs, one after the other, that leave there what a reader sees at a key. -/
def Spares (reader key : String) (d : Database σ) : List Input → Prop
  | [] => True
  | input :: inputs => input.Spares d.staged reader key (d.feed input).1 ∧
      Spares reader key (d.feed input).2 inputs

instance decidableSpares (reader key : String) (d : Database σ) :
    (inputs : List Input) → Decidable (d.Spares reader key inputs)
  | [] => .isTrue trivial
  | input :: inputs =>
    have := decidableSpares reader key (d.feed input).2 inputs
    inferInstanceAs (Decidable (input.Spares d.staged reader key (d.feed input).1 ∧
      Spares reader key (d.feed input).2 inputs))

omit [LogStore σ] in
theorem staged_eq {s : Ideal} (h : Matches d s) : d.staged = s.staged := by
  funext client
  unfold staged Ideal.staged
  obtain ⟨hd, hi⟩ | ⟨t, u, hd, hi, htracks⟩ := h.session client
  · rw [hd, hi]
    rfl
  · rw [hd, hi, Option.map_some, Option.map_some, htracks.staged]

theorem exists_retains {s : Ideal} (h : Matches d s) (hcalm : d.coordinator.Calm) {reader value : String}
    (hretains : s.Retains reader key value) {inputs : List Input} (hspares : d.Spares reader key inputs) :
    ∃ s', Matches (transcript feed d inputs).2 s' ∧ s'.Retains reader key value := by
  induction inputs generalizing d s with
  | nil => exact ⟨s, h, hretains⟩
  | cons input inputs ih =>
      obtain ⟨hfirst, hrest⟩ := hspares
      obtain ⟨s₁, htakes, hmatches⟩ := feed_takes h hcalm input
      rw [staged_eq h] at hfirst
      exact ih hmatches (feed_follows hcalm input).calm (hretains.takes htakes hfirst) hrest

/-- A read is answered with the value that was stored, as long as it is spared. -/
theorem execute_get_of_stored {s : Ideal} (h : Matches d s) (hcalm : d.coordinator.Calm)
    {line key value : String} (hset : Command.parse line = .ok (.set key value))
    (hok : (d.execute client line).1 = .ok) {reader : String}
    (hsees : reader = client ∨ (d.sessions.get? client = none ∧ d.sessions.get? reader = none))
    {later : List Input} (hspares : (d.execute client line).2.Spares reader key later)
    {ask : String} (hask : Command.parse ask = .ok (.get key)) :
    ((transcript feed (d.execute client line).2 later).2.execute reader ask).1 = .value value := by
  have hsees : reader = client ∨ (s.sessions client = none ∧ s.sessions reader = none) :=
    hsees.imp_right fun hnone => ⟨h.session_eq_none hnone.1, h.session_eq_none hnone.2⟩
  have hstep : d.coordinator.Follows (d.execute client line).2.coordinator :=
    feed_follows hcalm (.line client line)
  obtain ⟨s₁, htakes, hstored⟩ := feed_takes h hcalm (.line client line)
  simp only [feed, hok] at htakes hstored
  obtain rfl := htakes.eq_write hset
  obtain ⟨s₂, hlater, hretains⟩ := exists_retains hstored hstep.calm (s.retains_write key value hsees) hspares
  rw [execute, hask]
  refine (get_ideal hlater (transcript_follows hstep.calm later).calm reader key).1.trans ?_
  rw [hretains.view_eq]
  rfl

/-- After a write was answered with `OK`, the answer to a read of its key is the text of the value, as long as
what comes in between spares it, whatever clients did before and whether the log fails.  The text is taken for
the value exactly if it is not that of a status.  All other replies are understood as they were meant, and
these are all replies to lines that are no read. -/
theorem stored_values_read_back {c : Coordinator σ} (hfresh : Run.Fresh c)
    (hjournal : ∀ j, c.journal = some j → ∃ store batchSize first,
      j = { Journal.start store batchSize with nextLsn := first })
    (isReplica : Bool) (history : List Input) :
    (∀ client line key value, Command.parse line = .ok (.set key value) →
      let d := (transcript feed (.create c isReplica) history).2
      (d.execute client line).1 = .ok →
      ∀ reader, (reader = client ∨ (d.sessions.get? client = none ∧ d.sessions.get? reader = none)) →
      ∀ later, (d.execute client line).2.Spares reader key later →
      ∀ ask, Command.parse ask = .ok (.get key) →
      let reply := ((transcript feed (d.execute client line).2 later).2.execute reader ask).1
      reply = .value value ∧ (Reply.parse reply.render = .value value ↔ ¬ Reply.IsStatus value)) ∧
    (∀ reply : Reply, Reply.parse reply.render = reply ↔ ∀ v, reply = .value v → ¬ Reply.IsStatus v) ∧
    ∀ (d : Database σ) client line, (∀ key, Command.parse line ≠ .ok (.get key)) →
      Reply.parse (d.execute client line).1.render = (d.execute client line).1 := by
  refine ⟨?_, Reply.parse_render_iff, ?_⟩
  · intro client line key value hset d hok reader hsees later hspares ask hask reply
    have hvalue : reply = .value value := by
      cases isReplica with
      | true =>
          have hreplica : d.isReplica = true := isReplica_transcript (.create c true) history
          rw [execute, hset] at hok
          have hrefused : (d.write client (.set key value)).1 = .ofFault .readOnly := by
            rw [Database.write, if_pos hreplica]
          cases hrefused.symm.trans hok
      | false =>
          have hcalm := hfresh.calm hjournal
          obtain ⟨s, -, hmatches⟩ := transcript_answers (.start hfresh) hcalm history
          exact execute_get_of_stored hmatches (transcript_follows hcalm history).calm hset hok hsees
            hspares hask
    exact ⟨hvalue, by rw [hvalue]; exact Reply.parse_value_iff⟩
  · intro d client line hline
    rw [Reply.parse_render_iff]
    intro v hv
    unfold execute at hv
    cases hparse : Command.parse line with
    | error fault =>
        rw [hparse] at hv
        cases hv
    | ok command =>
        rw [hparse] at hv
        obtain ⟨key, rfl⟩ := eq_get_of_value hv
        exact absurd hparse (hline key)

/-! ### Samples

One client sets a key while another one has a session that read the key before.  Then the other one commits a
key that the first one has deleted in a session of its own, so the commit of the first one fails, and so does
what it does next.  The value `OK` is not read back. -/

/-- What the two clients send before. -/
def storedHistory : List Input := [.line "b" "BEGIN", .line "b" "GET k", .line "b" "SET j w"]

/-- What they send afterwards. -/
def storedLater : List Input :=
  [.line "a" "BEGIN", .line "a" "del j", .line "b" "GET  k", .line "b" "COMMIT", .line "a" "COMMIT",
    .line "a" "BEGIN", .line "a" "ROLLBACK", .line "b" "", .line "b" "COMMIT now", .line "b" "BEGIN",
    .line "b" "DEL k", .gone "b", .gone "a", .line "b" "ROLLBACK"]

theorem stored_values_read_back_sample :
    let d := (transcript feed (.create Run.sample false) storedHistory).2
    let d₁ := (d.execute "a" "set k\tv").2
    (d.execute "a" "set k\tv").1 = .ok ∧
    (transcript feed d₁ storedLater).1 = [some .ok, some .ok, some .nil, some .ok,
      some (.error "transaction interfered"), some .ok, some .ok,
      some (.error "invalid command: empty command"), some (.error "invalid command: bad amount of args"),
      some .ok, some .ok, none, none, some (.error "invalid transaction")] ∧
    d₁.Spares "a" "k" storedLater ∧
    ((transcript feed d₁ storedLater).2.execute "a" "GET k").1 = .value "v" ∧
    Reply.parse (Reply.value "v").render = .value "v" := by
  intro d d₁
  have hok : (d.execute "a" "set k\tv").1 = .ok := by decide +kernel
  have hreplies : (transcript feed d₁ storedLater).1 = [some .ok, some .ok, some .nil, some .ok,
      some (.error "transaction interfered"), some .ok, some .ok,
      some (.error "invalid command: empty command"), some (.error "invalid command: bad amount of args"),
      some .ok, some .ok, none, none, some (.error "invalid transaction")] := by decide +kernel
  have hspares : d₁.Spares "a" "k" storedLater := by decide +kernel
  obtain ⟨hstored, hreply, -⟩ := stored_values_read_back Run.fresh_sample
    (fun _ hj => ⟨_, 1, 1, (Option.some.inj hj).symm⟩) false storedHistory
  obtain ⟨hvalue, -⟩ := hstored "a" "set k\tv" "k" "v" (by decide +kernel) hok "a" (.inl rfl) storedLater
    hspares "GET k" (by decide +kernel)
  have hplain : ¬ Reply.IsStatus "v" := by
    rw [← Reply.parse_value_iff]
    decide +kernel
  refine ⟨hok, hreplies, hspares, hvalue, (hreply _).mpr ?_⟩
  rintro _ ⟨⟩
  exact hplain

/-- The value `OK` is stored and read, but its text is taken for a status. -/
theorem stored_status_misread :
    let d := Database.create Run.sample false
    let d₁ := (d.execute "c" "SET k OK").2
    Command.parse "SET k OK" = .ok (.set "k" "OK") ∧ (d.execute "c" "SET k OK").1 = .ok ∧
      (d₁.execute "c" "GET k").1 = .value "OK" ∧
      Reply.parse (d₁.execute "c" "GET k").1.render = .ok ∧
      Reply.parse (d₁.execute "c" "GET k").1.render ≠ .value "OK" := by
  decide +kernel

end Database
end SnapshotStore

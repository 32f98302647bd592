import SnapshotStore.Proofs.Replica.Clients

/-! # Sessions on a replica

The batches that a replica applies change its contents in place (`Serving.after`): nothing keeps the
state that a session began with.  A session only remembers the values that it found.  So each `GET` of a
session is answered from the state at the first `GET` of its key that found a value, or from the present
one if there was none (`source`, `answer_eq`).

What this means for two `GET`s of a session is said by `session_reads`: a key that was found keeps its
value, a key that was missing may appear, and a commit that writes both keys is torn if it comes between
the two states that they are answered from.  Both happen (`session_tears_commit`). -/

namespace SnapshotStore

open Journal (LogStore)

variable {σ : Type}

/-! ### Reading without writes -/

/-- A transaction that stages nothing shows the value that it found before, or the present one, which it
then remembers. -/
theorem Coordinator.perform_get_of_isEmpty [LogStore σ] {c : Coordinator σ} {t : Transaction}
    (h : c.locks.AtRest) (hf : t.finished = false) (hw : t.writes.isEmpty = true) (key : String) :
    ∃ t' locks, c.perform t (.get key) =
        (.ok ((t.cache.get? key).or (c.shards.get t.id key)), t', { c with locks }) ∧
      ∀ k, t'.cache.get? k = (t.cache.get? k).or (if key = k then c.shards.get t.id k else none) := by
  have hnone : t.writes.get? key = none := by
    rw [Table.get?, List.isEmpty_iff.mp hw]
    rfl
  cases hc : t.cache.get? key with
  | some value =>
      have hask : t.request (.get key) = (t, .answered (.ok (some value))) := by
        simp [Transaction.request, hf, hnone, hc]
      refine ⟨t, c.locks, perform_of_complete hask
        (Activity.complete_of_answered (Activity.advance_of_answered ..)), fun k => ?_⟩
      split
      · next hk => rw [← hk, hc, Option.some_or]
      · rw [Option.or_none]
  | none =>
      obtain ⟨locks, -, hrun⟩ := perform_get_of_none h hf key hnone hc
      refine ⟨_, locks, hrun, fun k => ?_⟩
      by_cases hk : key = k
      · subst hk
        rw [if_pos rfl, hc, Option.none_or]
        cases hv : c.shards.get t.id key with
        | none => exact hc
        | some value => exact Table.get?_insert_self ..
      · rw [if_neg hk, Option.or_none]
        cases hv : c.shards.get t.id key with
        | none => rfl
        | some value => exact Table.get?_insert_of_ne _ (Ne.symm hk) value

/-! ### Commands of others -/

namespace Database

variable [LogStore σ]

/-- A command leaves the sessions of other clients alone. -/
theorem get?_sessions_run (d : Database σ) {client other : String} (hne : client ≠ other)
    (command : Command) :
    (d.run other command).2.sessions.get? client = d.sessions.get? client := by
  have hinsert (t : Transaction) : (d.sessions.insert other t).get? client =
      d.sessions.get? client := Table.get?_insert_of_ne _ hne t
  have herase : (d.sessions.erase other).get? client = d.sessions.get? client := by
    rw [Table.get?_erase, if_neg hne]
  have hwrite (q : Request) : (d.write other q).2.sessions.get? client = d.sessions.get? client := by
    unfold write
    split
    · rfl
    · split
      · exact hinsert _
      · rfl
  have hfinish (q : Request) : (d.finish other q).2.sessions.get? client = d.sessions.get? client := by
    unfold finish
    split
    · rfl
    · exact herase
  cases command with
  | get key =>
      show (d.get other key).2.sessions.get? client = _
      unfold get
      split
      · exact hinsert _
      · rfl
  | set key value => exact hwrite (.set key value)
  | del key => exact hwrite (.del key)
  | begin =>
      show (d.begin other).2.sessions.get? client = _
      unfold begin
      split
      · rfl
      · exact hinsert _
  | commit => exact hfinish .commit
  | rollback => exact hfinish .rollback

end Database

namespace Replica

open Segment

variable {r : Replica} {client k l : String} {asked : Turn} {turns early late : List Turn}

/-! ### Turns of a session -/

/-- The command in a request, with its client. -/
def Turn.command? : Turn → Option (String × Command)
  | .request client bytes =>
    match Text.decode bytes with
    | .ok line => (Command.parse line).toOption.map (client, ·)
    | .error _ => none
  | .gone _ | .batch _ => none

/-- Whether a turn ends the session of a client. -/
def Turn.Ends (client : String) (turn : Turn) : Prop :=
  turn = .gone client ∨ turn.command? = some (client, .commit) ∨
    turn.command? = some (client, .rollback)

theorem turn_of_command? {turn : Turn} {command : Command} (h : turn.command? = some (client, command)) :
    r.turn turn = { r with database := (r.database.run client command).2 } := by
  unfold Turn.command? at h
  split at h
  · next bytes =>
    split at h
    · next line hline =>
      obtain ⟨command', hcommand, heq⟩ := Option.map_eq_some_iff.mp h
      obtain ⟨rfl, rfl⟩ := Prod.mk.inj heq
      cases hparse : Command.parse line with
      | error fault => simp [hparse, Except.toOption] at hcommand
      | ok command =>
          obtain rfl : command = command' := by simpa [hparse, Except.toOption] using hcommand
          rw [Replica.turn, Database.handle_of_parse hline hparse]
    · cases h
  all_goals cases h

theorem turn_of_command?_eq_none {bytes : Bytes}
    (h : (Turn.request client bytes).command? = none) : r.turn (.request client bytes) = r := by
  have hsame : (r.database.handle client bytes).2 = r.database := by
    unfold Turn.command? at h
    unfold Database.handle
    cases hline : Text.decode bytes with
    | error fault => rfl
    | ok line =>
        cases hparse : Command.parse line with
        | error fault => simp only [Database.execute, hparse]
        | ok command => simp [hline, hparse, Except.toOption] at h
  rw [Replica.turn, hsame]

/-! ### The contents of a replica -/

/-- The value of every key. -/
def contents (r : Replica) : State := r.database.coordinator.shards.replayed

/-- The writes of the transactions that a run commits. -/
def applied (r : Replica) (turns : List Turn) : List Writes :=
  Replay.effects r.replay.writesOf (batches turns).flatten

/-- A replica that clients cannot change, with replayed data only. -/
structure Serving (r : Replica) : Prop where
  guarded : r.database.Guarded r.database.coordinator.shards
  flat : r.database.coordinator.shards.Flat

theorem Boots.serving {a : Archive} (h : Boots a r) : Serving r where
  guarded := h.guarded
  flat := by
    obtain ⟨_, _, shards, threshold, records, hs, hdatabase, -⟩ := h.database_eq
    rw [hdatabase]
    exact (Replay.flat_applyAll .fresh (Shards.Flat.create hs).1 records).1

theorem Serving.of_guarded (h : Serving r) {d : Database Archive}
    (hd : d.Guarded r.database.coordinator.shards) : Serving { r with database := d } := by
  refine ⟨?_, ?_⟩
  · show d.Guarded d.coordinator.shards
    rwa [hd.contents]
  · show d.coordinator.shards.Flat
    rw [hd.contents]
    exact h.flat

/-- A turn keeps the form of a replica and commits what it applies. -/
theorem Serving.turn (h : Serving r) (turn : Turn) : Serving (r.turn turn) ∧
    (r.turn turn).contents = r.contents.writeAll (applied r [turn]) ∧
    (r.turn turn).replay.writesOf = Replay.staged r.replay.writesOf (batches [turn]).flatten := by
  have hclient {d : Database Archive} (hd : d.Guarded r.database.coordinator.shards) :
      Serving { r with database := d } ∧
        ({ r with database := d } : Replica).contents = r.contents :=
    ⟨h.of_guarded hd, congrArg Shards.replayed hd.contents⟩
  cases turn with
  | request client bytes =>
      obtain ⟨hserving, hcontents⟩ := hclient (h.guarded.handle client bytes)
      exact ⟨hserving, hcontents, rfl⟩
  | gone client =>
      obtain ⟨hserving, hcontents⟩ := hclient (h.guarded.disconnect client)
      exact ⟨hserving, hcontents, rfl⟩
  | batch records =>
      obtain ⟨hflat, hreplayed⟩ := Replay.flat_applyAll r.replay h.flat records
      have hbatches : (batches [.batch records]).flatten = records := List.append_nil _
      rw [applied, hbatches]
      exact ⟨⟨{ h.guarded with contents := rfl }, hflat⟩, hreplayed, Replay.writesOf_applyAll ..⟩

theorem batches_append (turns late : List Turn) :
    batches (turns ++ late) = batches turns ++ batches late := List.filterMap_append ..

theorem after_append (r : Replica) (turns late : List Turn) :
    r.after (turns ++ late) = (r.after turns).after late := List.foldl_append ..

theorem Serving.after (h : Serving r) (turns : List Turn) : Serving (r.after turns) ∧
    (r.after turns).contents = r.contents.writeAll (applied r turns) ∧
    (r.after turns).replay.writesOf = Replay.staged r.replay.writesOf (batches turns).flatten := by
  induction turns using List.reverseRecOn with
  | nil => exact ⟨h, rfl, rfl⟩
  | append_singleton turns turn ih =>
      obtain ⟨hserving, hcontents, hstaged⟩ := ih
      obtain ⟨hserving', hcontents', hstaged'⟩ := hserving.turn turn
      rw [after_append]
      refine ⟨hserving', hcontents'.trans ?_, hstaged'.trans ?_⟩
      · rw [hcontents, applied, applied, applied, hstaged, batches_append, List.flatten_append,
          Replay.effects_append, State.writeAll_append]
      · rw [hstaged, batches_append, List.flatten_append, Replay.staged_append]

theorem Serving.applied_append (h : Serving r) (turns late : List Turn) :
    applied r (turns ++ late) = applied r turns ++ applied (r.after turns) late := by
  rw [applied, applied, applied, (h.after turns).2.2, batches_append, List.flatten_append,
    Replay.effects_append]

/-! ### What a session remembers -/

/-- A client has a session that found some values. -/
def Remembers (r : Replica) (client : String) (found : State) : Prop :=
  ∃ t, r.database.sessions.get? client = some t ∧ ∀ key, t.cache.get? key = found key

theorem Remembers.of_eq {q : Replica} {found : State} (h : Remembers r client found)
    (heq : q.database.sessions.get? client = r.database.sessions.get? client) :
    Remembers q client found := by rwa [Remembers, heq]

/-- A `GET` of a session shows what the session found, or the present value, which it then remembers. -/
theorem Remembers.get {found : State} (hr : Serving r) (h : Remembers r client found) (key : String) :
    (r.database.run client (.get key)).1 = .ofValue? ((found key).or (r.contents key)) ∧
      Remembers { r with database := (r.database.run client (.get key)).2 } client
        fun k => (found k).or (if key = k then r.contents k else none) := by
  obtain ⟨t, ht, hfound⟩ := h
  obtain ⟨t', locks, hrun, hcache⟩ := Coordinator.perform_get_of_isEmpty hr.guarded.unlocked
    (hr.guarded.running ht) (hr.guarded.unwritten ht) key
  rw [hr.flat.get_eq, hfound] at hrun
  have hget : r.database.run client (.get key) =
      (.ofValue? ((found key).or (r.contents key)), ⟨{ r.database.coordinator with locks },
        r.database.sessions.insert client t', r.database.isReplica⟩) := by
    show r.database.get client key = _
    rw [Database.get, ht]
    simp only [hrun]
    rfl
  rw [hget]
  refine ⟨rfl, t', Table.get?_insert_self .., fun k => ?_⟩
  rw [hcache, hfound, hr.flat.get_eq]
  rfl

/-- Only the `GET`s of a client change what its session remembers, while the session is open. -/
theorem Remembers.turn {found : State} {turn : Turn} (hr : Serving r)
    (h : Remembers r client found) (hopen : ¬turn.Ends client) : Remembers (r.turn turn) client fun key =>
      (found key).or (if turn.command? = some (client, .get key) then r.contents key else none) := by
  have hother (heq : (r.turn turn).database.sessions.get? client = r.database.sessions.get? client)
      (hnot : ∀ key, turn.command? ≠ some (client, .get key)) : Remembers (r.turn turn) client
        fun key => (found key).or
          (if turn.command? = some (client, .get key) then r.contents key else none) := by
    simp only [if_neg (hnot _), Option.or_none]
    exact h.of_eq heq
  cases hcommand : turn.command? with
  | none =>
      rw [hcommand] at hother
      refine hother ?_ (by simp)
      cases turn with
      | request other bytes => rw [turn_of_command?_eq_none hcommand]
      | gone other =>
          have hne : client ≠ other := by
            rintro rfl
            exact hopen (.inl rfl)
          exact r.database.get?_sessions_run hne .rollback
      | batch records => rfl
  | some command =>
      obtain ⟨other, command⟩ := command
      have hturn : r.turn turn = _ := turn_of_command? hcommand
      rw [hcommand] at hother
      by_cases hne : client = other
      · subst hne
        have hstay : (r.database.run client command).2 = r.database →
            (r.turn turn).database.sessions.get? client = r.database.sessions.get? client := by
          intro heq
          rw [hturn, heq]
        cases command with
        | get key =>
            rw [hturn]
            simpa using (h.get hr key).2
        | set key value =>
            exact hother (hstay (congrArg Prod.snd (hr.guarded.write_eq client (.set key value))))
              (by simp)
        | del key =>
            exact hother (hstay (congrArg Prod.snd (hr.guarded.write_eq client (.del key)))) (by simp)
        | begin =>
            obtain ⟨t, ht, -⟩ := h
            have hcontains : r.database.sessions.contains client = true := by
              rw [Table.contains, ht]
              rfl
            exact hother (hstay (congrArg Prod.snd (if_pos hcontains))) (by simp)
        | commit => exact absurd (.inr (.inl hcommand)) hopen
        | rollback => exact absurd (.inr (.inr hcommand)) hopen
      · refine hother ?_ (by simp [Ne.symm hne])
        rw [hturn]
        exact r.database.get?_sessions_run hne command

/-! ### The state that an answer is taken from -/

/-- How many turns of a session come before the first `GET` of a key that finds it; all if none does. -/
def source (client key : String) : Replica → List Turn → ℕ
  | _, [] => 0
  | r, turn :: turns =>
    if turn.command? = some (client, .get key) ∧ (r.contents key).isSome then 0
    else source client key (r.turn turn) turns + 1

theorem source_le (r : Replica) (turns : List Turn) : source client key r turns ≤ turns.length := by
  induction turns generalizing r with
  | nil => exact Nat.le_refl 0
  | cons turn turns ih =>
      rw [source]
      split
      · exact Nat.zero_le _
      · exact Nat.succ_le_succ (ih _)

/-- What a session remembers of a key, or else the present value, is the value at its source. -/
theorem Remembers.after {found : State} (hr : Serving r) (h : Remembers r client found)
    (hopen : ∀ turn ∈ turns, ¬turn.Ends client) : ∃ found', Remembers (r.after turns) client found' ∧
      ∀ key, (found' key).or ((r.after turns).contents key) =
        (found key).or ((r.after (turns.take (source client key r turns))).contents key) := by
  induction turns generalizing r found with
  | nil => exact ⟨found, h, fun _ => rfl⟩
  | cons turn turns ih =>
      obtain ⟨hturn, hturns⟩ := List.forall_mem_cons.mp hopen
      obtain ⟨found', hfound', hshown⟩ := ih (hr.turn turn).1 (h.turn hr hturn) hturns
      refine ⟨found', hfound', fun key => (hshown key).trans ?_⟩
      rw [source]
      by_cases hask : turn.command? = some (client, .get key)
      · rw [if_pos hask]
        cases hv : r.contents key with
        | some value =>
            rw [if_pos ⟨hask, rfl⟩, List.take_zero]
            simp [Replica.after, hv]
        | none =>
            rw [if_neg (by simp), Option.or_none]
            rfl
      · rw [if_neg hask, if_neg fun h => hask h.1, Option.or_none]
        rfl

/-! ### Answers -/

/-- A client has just begun a session on a replica that took some turns before. -/
def Opened (client : String) (r : Replica) : Prop :=
  ∃ a r₀ before bytes, Boots a r₀ ∧
    (r₀.after before).database.sessions.contains client = false ∧
    (Turn.request client bytes).command? = some (client, .begin) ∧
    r = (r₀.after before).turn (.request client bytes)

/-- The answer to a `GET` of a client after some turns. -/
def answer (r : Replica) (client key : String) (turns : List Turn) : Reply :=
  ((r.after turns).database.run client (.get key)).1

theorem Opened.serving (h : Opened client r) : Serving r := by
  obtain ⟨a, r₀, before, bytes, hboot, -, -, rfl⟩ := h
  exact ((hboot.serving.after before).1.turn _).1

theorem Opened.remembers (h : Opened client r) : Remembers r client State.empty := by
  obtain ⟨a, r₀, before, bytes, -, hnew, hbegin, rfl⟩ := h
  have hrun : (r₀.after before).database.run client .begin =
      (.ok, ⟨(r₀.after before).database.coordinator.mint.2,
        (r₀.after before).database.sessions.insert client
          (.fresh ((r₀.after before).database.coordinator.lastVersion + 1)),
        (r₀.after before).database.isReplica⟩) := by
    show (r₀.after before).database.begin client = _
    rw [Database.begin, hnew]
    rfl
  rw [turn_of_command? hbegin, hrun]
  exact ⟨_, Table.get?_insert_self .., fun _ => rfl⟩

/-- Every `GET` of a session is answered from the state at its source. -/
theorem Opened.answer_eq (h : Opened client r) (hopen : ∀ turn ∈ turns, ¬turn.Ends client)
    (key : String) : answer r client key turns =
      .ofValue? ((r.after (turns.take (source client key r turns))).contents key) := by
  obtain ⟨found, hfound, hshown⟩ := h.remembers.after h.serving hopen
  rw [answer, (hfound.get (h.serving.after turns).1 key).1, hshown]
  rfl

theorem source_of_isSome (hask : asked.command? = some (client, .get k)) (late : List Turn)
    (h : ((r.after (early.take (source client k r early))).contents k).isSome = true) :
    source client k r (early ++ asked :: late) = source client k r early := by
  induction early generalizing r with
  | nil => exact if_pos ⟨hask, h⟩
  | cons turn early ih =>
      rw [List.cons_append, source, source]
      rw [source] at h
      split
      · rfl
      · next hnot =>
        rw [if_neg hnot] at h
        rw [ih h]

/-! ### Commits that are shown -/

/-- How many of the commits since its beginning a session shows with the answer to a `GET`. -/
def seen (r : Replica) (client key : String) (turns : List Turn) : ℕ :=
  (applied r (turns.take (source client key r turns))).length

/-- Of some commits, two answers show the first ones, and one shows a commit that writes both keys and
that the other one misses. -/
def Torn (commits : List Writes) (m n : ℕ) (k l : String) : Prop :=
  ∃ i w, commits[i]? = some w ∧ w.get? k ≠ none ∧ w.get? l ≠ none ∧ ¬(i < m ↔ i < n)

/-- The commits that a run applies between two of its turns. -/
def between (r : Replica) (turns : List Turn) (m n : ℕ) : List Writes :=
  applied (r.after (turns.take (min m n))) ((turns.take (max m n)).drop (min m n))

theorem Serving.take_applied (h : Serving r) (turns : List Turn) (n : ℕ) :
    (applied r turns).take (applied r (turns.take n)).length = applied r (turns.take n) := by
  conv => lhs; arg 2; rw [← List.take_append_drop n turns, h.applied_append]
  exact List.take_left

theorem Serving.length_applied_take_mono (h : Serving r) (turns : List Turn) {m n : ℕ} (hmn : m ≤ n) :
    (applied r (turns.take m)).length ≤ (applied r (turns.take n)).length := by
  rw [← List.take_append_drop m (turns.take n), List.take_take, Nat.min_eq_left hmn,
    h.applied_append, List.length_append]
  exact Nat.le_add_right _ _

theorem Serving.between_eq (h : Serving r) (turns : List Turn) {m n : ℕ} (hmn : m ≤ n) :
    between r turns m n = ((applied r turns).take (applied r (turns.take n)).length).drop
      (applied r (turns.take m)).length := by
  have hsplit := h.applied_append ((turns.take n).take m) ((turns.take n).drop m)
  rw [List.take_append_drop, List.take_take, Nat.min_eq_left hmn] at hsplit
  rw [between, Nat.min_eq_left hmn, Nat.max_eq_right hmn, h.take_applied, hsplit, List.drop_left]

theorem between_comm (r : Replica) (turns : List Turn) (m n : ℕ) :
    between r turns m n = between r turns n m := by
  rw [between, between, Nat.min_comm, Nat.max_comm]

theorem torn_comm {commits : List Writes} {m n : ℕ} :
    Torn commits m n k l ↔ Torn commits n m k l := by
  rw [Torn, Torn]
  simp only [Iff.comm (a := _ < m)]

theorem torn_iff_mem {commits : List Writes} {m n : ℕ} (h : m ≤ n) : Torn commits m n k l ↔
    ∃ w ∈ (commits.take n).drop m, w.get? k ≠ none ∧ w.get? l ≠ none := by
  constructor
  · rintro ⟨i, w, hw, hk, hl, hi⟩
    refine ⟨w, List.mem_iff_getElem?.mpr ⟨i - m, ?_⟩, hk, hl⟩
    rw [List.getElem?_drop, List.getElem?_take_of_lt (by omega), ← hw]
    congr 1
    omega
  · rintro ⟨w, hw, hk, hl⟩
    obtain ⟨i, hi⟩ := List.mem_iff_getElem?.mp hw
    rw [List.getElem?_drop, List.getElem?_take] at hi
    split at hi
    · exact ⟨m + i, w, hi, hk, hl, by omega⟩
    · cases hi

theorem Serving.torn_iff (h : Serving r) (turns : List Turn) (m n : ℕ) :
    Torn (applied r turns) (applied r (turns.take m)).length (applied r (turns.take n)).length k l ↔
      ∃ w ∈ between r turns m n, w.get? k ≠ none ∧ w.get? l ≠ none := by
  rcases Nat.le_total m n with hmn | hmn
  · rw [torn_iff_mem (h.length_applied_take_mono turns hmn), h.between_eq turns hmn]
  · rw [torn_comm, between_comm, torn_iff_mem (h.length_applied_take_mono turns hmn),
      h.between_eq turns hmn]

/-! ### Two reads of a session -/

theorem Opened.answer_eq_seen (h : Opened client r) (hopen : ∀ turn ∈ turns ++ late, ¬turn.Ends client)
    (key : String) : answer r client key turns =
      .ofValue? (r.contents.writeAll
        ((applied r (turns ++ late)).take (seen r client key turns)) key) := by
  rw [h.answer_eq (fun turn hturn => hopen turn (List.mem_append_left _ hturn)),
    (h.serving.after _).2.1, h.serving.applied_append, List.take_append_of_le_length, seen,
    h.serving.take_applied]
  rw [seen]
  have hsource : source client key r turns ≤ turns.length := source_le r turns
  have hle := h.serving.length_applied_take_mono turns hsource
  rwa [List.take_length] at hle

theorem Opened.answer_repeats (h : Opened client r) (hask : asked.command? = some (client, .get k))
    (hopen : ∀ turn ∈ early ++ asked :: late, ¬turn.Ends client)
    (hfound : answer r client k early ≠ .nil) :
    answer r client k (early ++ asked :: late) = answer r client k early := by
  have hearly := h.answer_eq (fun turn hturn => hopen turn (List.mem_append_left _ hturn)) k
  rw [hearly] at hfound ⊢
  have hsome : ((r.after (early.take (source client k r early))).contents k).isSome = true := by
    cases hv : (r.after (early.take (source client k r early))).contents k with
    | none => exact absurd (by rw [hv]; rfl) hfound
    | some value => rfl
  rw [h.answer_eq hopen, source_of_isSome hask late hsome,
    List.take_append_of_le_length (source_le r early)]

/-- Two `GET`s of a session on a replica.  Each of them shows the first commits since the session began,
up to the source of its answer.  For one key they give the same answer if and only if the first one found
the key or the second one does not.  For two keys they tear a commit that writes both if and only if it is
applied between their sources. -/
theorem session_reads (h : Opened client r) (hask : asked.command? = some (client, .get k))
    (hopen : ∀ turn ∈ early ++ asked :: late, ¬turn.Ends client) (l : String) :
    answer r client k early = .ofValue? (r.contents.writeAll
        ((applied r (early ++ asked :: late)).take (seen r client k early)) k) ∧
      answer r client l (early ++ asked :: late) = .ofValue? (r.contents.writeAll
        ((applied r (early ++ asked :: late)).take
          (seen r client l (early ++ asked :: late))) l) ∧
      (answer r client k (early ++ asked :: late) = answer r client k early ↔
        answer r client k early ≠ .nil ∨ answer r client k (early ++ asked :: late) = .nil) ∧
      (Torn (applied r (early ++ asked :: late)) (seen r client k early)
          (seen r client l (early ++ asked :: late)) k l ↔
        ∃ w ∈ between r (early ++ asked :: late) (source client k r early)
          (source client l r (early ++ asked :: late)), w.get? k ≠ none ∧ w.get? l ≠ none) := by
  refine ⟨h.answer_eq_seen hopen k, ?_, ⟨fun hsame => ?_, ?_⟩, ?_⟩
  · have hall : ∀ turn ∈ (early ++ asked :: late) ++ [], ¬turn.Ends client := by
      rwa [List.append_nil]
    have hlast := h.answer_eq_seen hall l
    rwa [List.append_nil] at hlast
  · by_cases hfound : answer r client k early = .nil
    · exact .inr (hsame.trans hfound)
    · exact .inl hfound
  · rintro (hfound | hnil)
    · exact h.answer_repeats hask hopen hfound
    · by_cases hfound : answer r client k early = .nil
      · rw [hnil, hfound]
      · exact h.answer_repeats hask hopen hfound
  · have htake : early.take (source client k r early) =
        (early ++ asked :: late).take (source client k r early) :=
      (List.take_append_of_le_length (source_le r early)).symm
    rw [seen, seen, htake]
    exact h.serving.torn_iff ..

/-! ### A sample

A client begins a session once a first transaction is applied, and a second one is applied while the
session is open. -/

/-- A transaction that writes one key. -/
def firstCommit : List Record := [⟨1, 1, .set, ["a", "0"]⟩, ⟨2, 1, .commit, []⟩]

/-- A transaction that writes two keys. -/
def secondCommit : List Record :=
  [⟨3, 2, .set, ["a", "1"]⟩, ⟨4, 2, .set, ["b", "1"]⟩, ⟨5, 2, .commit, []⟩]

/-- A read of a key. -/
def sampleGet (key : String) : Turn := .request "c" (Text.encode ("GET " ++ key))

/-- The session reads both keys before the second transaction and one of them after it. -/
def sampleSession : List Turn :=
  [sampleGet "a", sampleGet "b", .batch secondCommit, sampleGet "b"]

theorem command?_encode {line : String} {command : Command} (h : Command.parse line = .ok command) :
    (Turn.request client (Text.encode line)).command? = some (client, command) := by
  simp [Turn.command?, Text.decode_encode, h, Except.toOption]

theorem command?_sampleGet :
    (sampleGet "a").command? = some ("c", .get "a") ∧
      (sampleGet "b").command? = some ("c", .get "b") :=
  ⟨command?_encode (by decide +kernel), command?_encode (by decide +kernel)⟩

theorem Turn.not_ends_of_get {turn : Turn} {other : String}
    (h : turn.command? = some (other, .get k)) : ¬turn.Ends client := by
  rintro (rfl | hend | hend)
  · cases h
  · simp [h] at hend
  · simp [h] at hend

theorem sampleSession_open : ∀ turn ∈ sampleSession, ¬turn.Ends "c" := by
  obtain ⟨ha, hb⟩ := command?_sampleGet
  have hbatch : ¬(Turn.batch secondCommit).Ends "c" := by simp [Turn.Ends, Turn.command?]
  simp [sampleSession, Turn.not_ends_of_get ha, Turn.not_ends_of_get hb, hbatch]

/-- The sample session can begin on a replica that has the first transaction. -/
theorem exists_opened : ∃ r, Opened "c" r ∧
    r.contents = State.empty.writeAll (Replay.effects (fun _ => ∅) firstCommit) ∧
    r.replay.writesOf = Replay.staged (fun _ => ∅) firstCommit := by
  obtain ⟨shards, hs⟩ : ∃ shards, Shards.create 1 (fun _ => Height.ruler) = .ok shards := ⟨_, rfl⟩
  obtain ⟨r₀, hboot⟩ := exists_boots (Archive.holds_mount_empty 1) .nil hs 1
  obtain ⟨_, _, shards, threshold, hs, heq⟩ := hboot.eq (Archive.holds_mount_empty 1) .nil
  have hempty : r₀.contents = State.empty := by
    rw [heq]
    exact (Shards.Flat.create hs).2
  have hnone : r₀.replay.writesOf = fun _ => ∅ := by
    rw [heq]
    rfl
  have hnew : (r₀.after [.batch firstCommit]).database.sessions.contains "c" = false := by
    rw [heq]
    rfl
  obtain ⟨hserving, hcontents, hstaged⟩ := hboot.serving.after [.batch firstCommit]
  obtain ⟨-, hcontents', hstaged'⟩ := hserving.turn (.request "c" (Text.encode "BEGIN"))
  refine ⟨_, ⟨_, r₀, [.batch firstCommit], _, hboot, hnew, command?_encode (by decide +kernel), rfl⟩,
    hcontents'.trans ?_, hstaged'.trans ?_⟩
  · rw [hcontents, hempty, applied, hnone]
    rfl
  · rw [hstaged, hnone]
    rfl

theorem Opened.contents_after (h : Opened "c" r)
    (hcontents : r.contents = State.empty.writeAll (Replay.effects (fun _ => ∅) firstCommit))
    (hstaged : r.replay.writesOf = Replay.staged (fun _ => ∅) firstCommit) (turns : List Turn) :
    (r.after turns).contents = (State.empty.writeAll (Replay.effects (fun _ => ∅) firstCommit)).writeAll
      (Replay.effects (Replay.staged (fun _ => ∅) firstCommit) (batches turns).flatten) := by
  rw [(h.serving.after turns).2.1, applied, hcontents, hstaged]

/-- What the sample session sees: it misses the second transaction at first, then shows one of its writes,
and misses the other one. -/
theorem sampleSession_source (h : Opened "c" r)
    (hcontents : r.contents = State.empty.writeAll (Replay.effects (fun _ => ∅) firstCommit))
    (hstaged : r.replay.writesOf = Replay.staged (fun _ => ∅) firstCommit) :
    source "c" "b" r (sampleSession.take 1) = 1 ∧ source "c" "b" r (sampleSession.take 3) = 3 ∧
      source "c" "a" r sampleSession = 0 := by
  obtain ⟨ha, hb⟩ := command?_sampleGet
  have hbatch : (Turn.batch secondCommit).command? = none := rfl
  have ha₀ : r.contents "a" = some "0" := by rw [hcontents]; rfl
  have hb₁ : (r.turn (sampleGet "a")).contents "b" = none := by
    rw [show r.turn (sampleGet "a") = r.after [sampleGet "a"] from rfl,
      h.contents_after hcontents hstaged]
    rfl
  refine ⟨?_, ?_, ?_⟩
  · simp [sampleSession, source, ha]
  · simp [sampleSession, source, ha, hb, hbatch, hb₁]
  · simp [sampleSession, source, ha, ha₀]

/-- Two `GET`s of the sample session. -/
theorem session_reads_sample : ∃ r, Opened "c" r ∧
    answer r "c" "b" (sampleSession.take 3) = .ofValue? (r.contents.writeAll
      ((applied r sampleSession).take (seen r "c" "b" (sampleSession.take 3))) "b") ∧
    answer r "c" "a" sampleSession = .ofValue? (r.contents.writeAll
      ((applied r sampleSession).take (seen r "c" "a" sampleSession)) "a") ∧
    (answer r "c" "b" sampleSession = answer r "c" "b" (sampleSession.take 3) ↔
      answer r "c" "b" (sampleSession.take 3) ≠ .nil ∨ answer r "c" "b" sampleSession = .nil) ∧
    (Torn (applied r sampleSession) (seen r "c" "b" (sampleSession.take 3))
        (seen r "c" "a" sampleSession) "b" "a" ↔
      ∃ w ∈ between r sampleSession (source "c" "b" r (sampleSession.take 3))
        (source "c" "a" r sampleSession), w.get? "b" ≠ none ∧ w.get? "a" ≠ none) := by
  obtain ⟨r, h, -, -⟩ := exists_opened
  have hopen : ∀ turn ∈ sampleSession.take 3 ++ [sampleGet "b"], ¬turn.Ends "c" := sampleSession_open
  exact ⟨r, h, session_reads h command?_sampleGet.2 hopen "a"⟩

/-- The sample session gets two answers for one key, and the last two of its answers tear the second
transaction. -/
theorem session_tears_commit : ∃ r, Opened "c" r ∧ (∀ turn ∈ sampleSession, ¬turn.Ends "c") ∧
    answer r "c" "b" (sampleSession.take 1) = .nil ∧
    answer r "c" "b" (sampleSession.take 3) = .value "1" ∧
    answer r "c" "a" sampleSession = .value "0" ∧
    Torn (applied r sampleSession) (seen r "c" "b" (sampleSession.take 3))
      (seen r "c" "a" sampleSession) "b" "a" := by
  obtain ⟨r, h, hcontents, hstaged⟩ := exists_opened
  obtain ⟨hb₁, hb₃, ha⟩ := sampleSession_source h hcontents hstaged
  have hopen (n : ℕ) : ∀ turn ∈ sampleSession.take n, ¬turn.Ends "c" := fun turn hturn =>
    sampleSession_open turn (List.mem_of_mem_take hturn)
  have happlied (turns : List Turn) : applied r turns =
      Replay.effects (Replay.staged (fun _ => ∅) firstCommit) (batches turns).flatten := by
    rw [applied, hstaged]
  refine ⟨r, h, sampleSession_open, ?_, ?_, ?_, ?_⟩
  · rw [h.answer_eq (hopen 1), hb₁, h.contents_after hcontents hstaged]
    rfl
  · rw [h.answer_eq (hopen 3), hb₃, h.contents_after hcontents hstaged]
    rfl
  · rw [h.answer_eq sampleSession_open, ha, h.contents_after hcontents hstaged]
    rfl
  · rw [seen, seen, hb₃, ha, happlied, happlied, happlied]
    exact ⟨0, _, rfl, by decide, by decide, by decide⟩

end Replica
end SnapshotStore

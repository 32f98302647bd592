import SnapshotStore.Node
import SnapshotStore.Proofs.Alone.Operations
import SnapshotStore.Proofs.Replica

/-! # The clients of a replica

A replica serves clients while it applies what its master publishes.  A run of it is a list of
turns (`Turn`): requests of clients, which can be any bytes, lost connections, and batches of records
that are applied.

The database of a replica stays guarded (`Guarded`): it refuses to write, has no journal, nobody owns
a lock, and no session has staged a write, so a commit or rollback has nothing to do.  Every command
keeps this and the shards (`Guarded.run`).  So clients cannot change what a replica holds
(`clients_change_nothing`).  A node that is built as a replica starts as these replicas do
(`boots_of_build`). -/

namespace SnapshotStore

open Journal (LogStore)

variable {σ : Type}

/-! ### Finishing a transaction without writes -/

theorem Coordinator.perform_finish [LogStore σ] {c : Coordinator σ} {t : Transaction} {q : Request}
    (h : c.Calm) (hf : t.finished = false) (hw : t.writes.isEmpty = true)
    (hq : q = .commit ∨ q = .rollback) : ∃ t', c.perform t q = (.ok none, t', c) := by
  rcases hq with rfl | rfl
  · exact ⟨_, perform_commit_nothing hf hw⟩
  · obtain ⟨t', hrun⟩ := perform_rollback h hf
    exact ⟨t', by rw [hrun, if_pos hw]⟩

/-! ### Commands -/

namespace Database

variable {d : Database σ} {shards : Shards} {c : Coordinator σ} {t : Transaction} {q : Request}
  {client : String}

/-- The database of a replica with some contents, which its clients cannot change. -/
structure Guarded (shards : Shards) (d : Database σ) : Prop where
  contents : d.coordinator.shards = shards
  readOnly : d.isReplica = true
  unlogged : d.coordinator.journal = none
  unlocked : d.coordinator.locks.AtRest
  running : ∀ {client t}, d.sessions.get? client = some t → t.finished = false
  unwritten : ∀ {client t}, d.sessions.get? client = some t → t.writes.isEmpty = true

namespace Guarded

theorem create (shards : Shards) (threshold : ℕ) :
    (Database.create (Coordinator.create shards none threshold) true :
      Database σ).Guarded shards where
  contents := rfl
  readOnly := rfl
  unlogged := rfl
  unlocked := LockTable.atRest_create threshold
  running h := by cases h
  unwritten h := by cases h

theorem calm (h : d.Guarded shards) : d.coordinator.Calm where
  locks := h.unlocked
  journal j hj := by simp [h.unlogged] at hj

/-- Locks that come and go, and versions that are handed out, change nothing. -/
theorem later (h : d.Guarded shards) (hs : c.shards = d.coordinator.shards)
    (hj : c.journal = d.coordinator.journal) (hl : c.locks.AtRest) :
    Guarded shards { d with coordinator := c } :=
  { h with contents := hs.trans h.contents, unlogged := hj.trans h.unlogged, unlocked := hl }

theorem put (h : d.Guarded shards) (hf : t.finished = false) (hw : t.writes.isEmpty = true)
    (client : String) : Guarded shards { d with sessions := d.sessions.insert client t } where
  contents := h.contents
  readOnly := h.readOnly
  unlogged := h.unlogged
  unlocked := h.unlocked
  running hget := by
    rw [Table.get?_insert] at hget
    split at hget
    · exact Option.some.inj hget ▸ hf
    · exact h.running hget
  unwritten hget := by
    rw [Table.get?_insert] at hget
    split at hget
    · exact Option.some.inj hget ▸ hw
    · exact h.unwritten hget

theorem drop (h : d.Guarded shards) (client : String) :
    Guarded shards { d with sessions := d.sessions.erase client } where
  contents := h.contents
  readOnly := h.readOnly
  unlogged := h.unlogged
  unlocked := h.unlocked
  running hget := by
    rw [Table.get?_erase] at hget
    split at hget
    · cases hget
    · exact h.running hget
  unwritten hget := by
    rw [Table.get?_erase] at hget
    split at hget
    · cases hget
    · exact h.unwritten hget

theorem begin (h : d.Guarded shards) (client : String) : (d.begin client).2.Guarded shards := by
  unfold Database.begin
  split
  · exact h
  · exact (h.later (c := d.coordinator.mint.2) rfl rfl h.unlocked).put rfl rfl client

section stored
variable [LogStore σ]

theorem get (h : d.Guarded shards) (client key : String) : (d.get client key).2.Guarded shards := by
  unfold Database.get
  split
  · next t ht =>
    obtain ⟨value, t', locks, hlocks, hrun, -, hwrites, hf, -⟩ :=
      Coordinator.perform_get h.unlocked (h.running ht) key
    simp only [hrun]
    exact (h.later (c := { d.coordinator with locks }) rfl rfl hlocks).put hf
      (hwrites ▸ h.unwritten ht) client
  · obtain ⟨locks, hlocks, hrun⟩ := Coordinator.get_of_atRest h.unlocked key
    simp only [hrun]
    exact h.later rfl rfl hlocks

theorem write_eq (h : d.Guarded shards) (client : String) (q : Request) :
    d.write client q = (.ofFault .readOnly, d) := if_pos h.readOnly

theorem write (h : d.Guarded shards) (client : String) (q : Request) :
    (d.write client q).2.Guarded shards := by rwa [h.write_eq]

theorem finish_eq (h : d.Guarded shards) (hq : q = .commit ∨ q = .rollback)
    (ht : d.sessions.get? client = some t) :
    d.finish client q = (.ok, { d with sessions := d.sessions.erase client }) := by
  obtain ⟨t', hrun⟩ := Coordinator.perform_finish h.calm (h.running ht) (h.unwritten ht) hq
  rw [finish, ht]
  simp only [hrun, replyTo]

theorem finish (h : d.Guarded shards) (hq : q = .commit ∨ q = .rollback) (client : String) :
    (d.finish client q).2.Guarded shards := by
  cases ht : d.sessions.get? client with
  | none =>
      rw [Database.finish, ht]
      exact h
  | some t =>
      rw [h.finish_eq hq ht]
      exact h.drop client

/-- Every command leaves the shards alone. -/
theorem run (h : d.Guarded shards) (client : String) (command : Command) :
    (d.run client command).2.Guarded shards := by
  cases command with
  | get key => exact h.get client key
  | set key value => exact h.write client (.set key value)
  | del key => exact h.write client (.del key)
  | begin => exact h.begin client
  | commit => exact h.finish (.inl rfl) client
  | rollback => exact h.finish (.inr rfl) client

theorem handle (h : d.Guarded shards) (client : String) (request : Bytes) :
    (d.handle client request).2.Guarded shards := by
  unfold Database.handle
  split
  · next line _ =>
    cases hcommand : Command.parse line with
    | ok command =>
        simp only [execute, hcommand]
        exact h.run client command
    | error fault =>
        simp only [execute, hcommand]
        exact h
  · exact h

theorem disconnect (h : d.Guarded shards) (client : String) :
    (d.disconnect client).Guarded shards := h.finish (.inr rfl) client

end stored
end Guarded

/-! ### Requests -/

section stored
variable [LogStore σ]

theorem handle_of_parse {request : Bytes} {line : String} {command : Command}
    (hline : Text.decode request = .ok line) (hcommand : Command.parse line = .ok command)
    (d : Database σ) (client : String) : d.handle client request =
      (Text.encode (d.run client command).1.render, (d.run client command).2) := by
  simp only [handle, hline, execute, hcommand]

theorem Guarded.run_write (h : d.Guarded shards) {command : Command}
    (hw : command.keyword.isWrite = true) (client : String) :
    (d.run client command).1 = .ofFault .readOnly := by
  cases command with
  | set key value => exact congrArg Prod.fst (h.write_eq client (.set key value))
  | del key => exact congrArg Prod.fst (h.write_eq client (.del key))
  | _ => cases hw

theorem Guarded.run_finish (h : d.Guarded shards) {command : Command}
    (hc : command = .commit ∨ command = .rollback) (hopen : d.sessions.contains client = true) :
    (d.run client command).1 = .ok := by
  obtain ⟨t, ht⟩ := Option.isSome_iff_exists.mp hopen
  rcases hc with rfl | rfl
  · exact congrArg Prod.fst (h.finish_eq (.inl rfl) ht)
  · exact congrArg Prod.fst (h.finish_eq (.inr rfl) ht)

theorem contains_begin (d : Database σ) (client : String) :
    (d.run client .begin).2.sessions.contains client = true := by
  show (d.begin client).2.sessions.contains client = true
  unfold begin
  split
  · assumption
  · exact congrArg Option.isSome (Table.get?_insert_self ..)

end stored
end Database

/-! ### Runs -/

namespace Replica

open Segment

variable {r : Replica}

/-- What happens to a replica: a request of a client, a client that goes away, or a list of records
that is taken off the stream. -/
inductive Turn where
  | request (client : String) (bytes : Bytes)
  | gone (client : String)
  | batch (records : List Record)

/-- The records that a turn applies. -/
def Turn.records? : Turn → Option (List Record)
  | .batch records => some records
  | .request _ _ | .gone _ => none

/-- Takes one turn. -/
def turn (r : Replica) : Turn → Replica
  | .request client bytes => { r with database := (r.database.handle client bytes).2 }
  | .gone client => { r with database := r.database.disconnect client }
  | .batch records => r.applyRecords records

/-- A replica after some turns. -/
def after (r : Replica) (turns : List Turn) : Replica := turns.foldl turn r

/-- The batches of a run. -/
def batches (turns : List Turn) : List (List Record) := turns.filterMap Turn.records?

theorem of_bind {α β : Type} {x : Outcome α} {f : α → Outcome β} {b : β} (h : x >>= f = .ok b) :
    ∃ a, x = .ok a ∧ f a = .ok b := by
  cases x with
  | error fault => cases h
  | ok a => exact ⟨a, rfl, h⟩

/-- A node that is built as a replica has recovered from its folder. -/
theorem boots_of_build {config : Config} {folder : Folder}
    (h : Node.build config folder = .ok (.replica r)) :
    Boots (.mount folder config.maxSegmentSize) r := by
  obtain ⟨-, -, h⟩ := of_bind h
  obtain ⟨shards, hs, h⟩ := of_bind h
  dsimp only at h
  split at h
  · obtain ⟨r₀, hstart, h⟩ := of_bind h
    split at h
    · next q hrecover =>
      obtain rfl := Service.replica.inj (Except.ok.inj h)
      exact ⟨_, _, shards, _, r₀, hs, hstart, hrecover⟩
    · cases h
  · split at h
    · cases h
    · cases h

theorem Boots.database_eq {a : Archive} (h : Boots a r) :
    ∃ count towers shards threshold records, Shards.create count towers = .ok shards ∧
      r.database = (Database.create (Coordinator.create shards none threshold) true).replay records ∧
      r.replay = .fresh := by
  obtain ⟨count, towers, shards, threshold, r₀, hs, hstart, hrecover⟩ := h
  obtain ⟨follower, -, hstart⟩ := of_bind hstart
  obtain rfl := Except.ok.inj hstart
  unfold recover at hrecover
  split at hrecover
  · cases hrecover
  · obtain rfl := congrArg Prod.snd hrecover
    exact ⟨_, _, _, _, _, hs, rfl, rfl⟩

/-- A replica starts without sessions and without locks. -/
theorem Boots.guarded {a : Archive} (h : Boots a r) :
    r.database.Guarded r.database.coordinator.shards := by
  obtain ⟨_, _, shards, threshold, records, -, hdatabase, -⟩ := h.database_eq
  rw [hdatabase]
  exact { Database.Guarded.create (σ := Archive) shards threshold with contents := rfl }

/-- A replica with clients keeps up with one that has none. -/
structure Shadows (r q : Replica) : Prop where
  guarded : r.database.Guarded q.database.coordinator.shards
  replay : r.replay = q.replay

theorem Shadows.batch {q : Replica} (h : Shadows r q) (records : List Record) :
    Shadows (r.applyRecords records) (q.applyRecords records) := by
  have hrun : (r.replay.applyAll r.database.coordinator.shards records).2 =
      (q.replay.applyAll q.database.coordinator.shards records).2 := by
    rw [h.replay, h.guarded.contents]
  exact ⟨{ h.guarded with contents := congrArg Prod.snd hrun }, congrArg Prod.fst hrun⟩

theorem Shadows.after {q : Replica} (h : Shadows r q) (turns : List Turn) :
    Shadows (r.after turns) ((batches turns).foldl applyRecords q) := by
  induction turns generalizing r q with
  | nil => exact h
  | cons turn turns ih =>
      cases turn with
      | request client bytes => exact ih ⟨h.guarded.handle client bytes, h.replay⟩
      | gone client => exact ih ⟨h.guarded.disconnect client, h.replay⟩
      | batch records => exact ih (h.batch records)

/-- Whatever clients do, a replica holds what the batches alone leave there.  It refuses every write,
and every session can be ended. -/
theorem clients_change_nothing {a : Archive} (hboot : Boots a r) (turns : List Turn) :
    (r.after turns).database.coordinator.shards =
        ((batches turns).foldl applyRecords r).database.coordinator.shards ∧
      ∀ client request line command, Text.decode request = .ok line →
        Command.parse line = .ok command →
        (command.keyword.isWrite = true → ((r.after turns).database.handle client request).1 =
          Text.encode "ERROR(replica does not support writes)") ∧
        (command = .commit ∨ command = .rollback →
          (r.after turns).database.sessions.contains client = true →
          ((r.after turns).database.handle client request).1 = Text.encode "OK") := by
  have hall := Shadows.after ⟨hboot.guarded, rfl⟩ turns
  refine ⟨hall.guarded.contents, fun client request line command hline hcommand => ?_⟩
  rw [Database.handle_of_parse hline hcommand]
  refine ⟨fun hw => ?_, fun hc hopen => ?_⟩
  · rw [hall.guarded.run_write hw]
    rfl
  · rw [hall.guarded.run_finish hc hopen]
    rfl

/-- A client opens a session, and a transaction of the master is applied. -/
def sampleTurns : List Turn :=
  [.request "c" (Text.encode "BEGIN"), .batch [sampleWrite, sampleCommit]]

/-- Then a write is refused, and the session can be committed. -/
theorem clients_change_nothing_sample : ∃ r, Boots (.mount .empty 1) r ∧
    (r.after sampleTurns).database.coordinator.shards =
      (r.applyRecords [sampleWrite, sampleCommit]).database.coordinator.shards ∧
    ((r.after sampleTurns).database.handle "c" (Text.encode "SET k w")).1 =
      Text.encode "ERROR(replica does not support writes)" ∧
    ((r.after sampleTurns).database.handle "c" (Text.encode "COMMIT")).1 = Text.encode "OK" := by
  obtain ⟨shards, hs⟩ : ∃ shards, Shards.create 1 (fun _ => Height.ruler) = .ok shards := ⟨_, rfl⟩
  obtain ⟨r, hboot⟩ := exists_boots (Archive.holds_mount_empty 1) .nil hs 1
  have hbegin : Command.parse "BEGIN" = .ok .begin := by decide +kernel
  have hopen : (r.after sampleTurns).database.sessions.contains "c" = true := by
    show (r.database.handle "c" (Text.encode "BEGIN")).2.sessions.contains "c" = true
    rw [Database.handle_of_parse (Text.decode_encode _) hbegin]
    exact r.database.contains_begin "c"
  obtain ⟨hsame, hanswers⟩ := clients_change_nothing hboot sampleTurns
  exact ⟨r, hboot, hsame,
    (hanswers "c" _ "SET k w" (.set "k" "w") (Text.decode_encode _) (by decide +kernel)).1 rfl,
    (hanswers "c" _ "COMMIT" .commit (Text.decode_encode _) (by decide +kernel)).2 (.inl rfl) hopen⟩

end Replica
end SnapshotStore

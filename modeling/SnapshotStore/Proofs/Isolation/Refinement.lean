import SnapshotStore.Database
import SnapshotStore.Proofs.Alone.Operations
import SnapshotStore.Proofs.Isolation.Ideal
import SnapshotStore.Proofs.Run.Commits

/-! # The database is an ideal store

Clients that send their commands one at a time cannot tell a database from the ideal store: it answers as an
ideal store with a log that fails when its own log does (`Database.transcript_answers`), so as the ideal store
itself if its log never fails (`Database.replies_ideal`).

The newest version of the shards is the committed state of the ideal store (`Shows`), and the transaction of
each open session has its begin version where the ideal session has its state: a key was committed since
then if the shards hold a later version of it (`Tracks`).  Every command keeps this (`Matches`), whether it is
run or lost (`Runs`). -/

namespace SnapshotStore

open Journal (LogStore)

/-! ### The shards and the committed state -/

/-- The newest versions up to a number are those of a state. -/
structure Shows (shards : Shards) (last : ℕ) (m : State) : Prop where
  sound : shards.Sound
  past : ∀ {key version}, shards.history key version ≠ none → version ≤ last
  newest : shards.get last = m

namespace Shows

variable {shards : Shards} {last v : ℕ} {m : State}

theorem get_eq (h : Shows shards last m) (hv : last ≤ v) : shards.get v = m := by
  rw [← h.newest]
  funext key
  rw [h.sound.get_eq_latest, h.sound.get_eq_latest, latest_eq_of_le hv]
  intro u hlast _
  by_contra hu
  exact absurd (h.past hu) (by omega)

theorem later (h : Shows shards last m) (hv : last ≤ v) : Shows shards v m where
  sound := h.sound
  past hne := Nat.le_trans (h.past hne) hv
  newest := h.get_eq hv

theorem get_setMany_of_lt (h : Shows shards last m) {u : ℕ} (hu : u < v) (w : Writes) :
    (shards.setMany v w).get u = shards.get u := by
  funext key
  rw [(h.sound.setMany v w).get_eq_latest, h.sound.get_eq_latest]
  refine congrArg Option.join (latest_congr fun x hx => ?_)
  rw [h.sound.history_setMany, if_neg (by omega)]

/-- Writes at a new version are on top of what the shards show. -/
theorem setMany (h : Shows shards last m) (hv : last < v) (w : Writes) :
    Shows (shards.setMany v w) v (m.write w) where
  sound := h.sound.setMany v w
  past {key version} hne := by
    rw [h.sound.history_setMany] at hne
    split at hne
    · next heq => exact Nat.le_of_eq heq
    · exact Nat.le_of_lt (Nat.lt_of_le_of_lt (h.past hne) hv)
  newest := by
    funext key
    rw [(h.sound.setMany v w).get_eq_latest]
    cases hw : w.get? key with
    | some value =>
        rw [State.write_of_some hw, latest_eq_of_last (x := value) (Nat.le_refl v)]
        · rfl
        · rw [h.sound.history_setMany, if_pos rfl, hw]
          rfl
        · intro u hlow hhigh
          omega
    | none =>
        rw [State.write_of_none hw, ← h.get_eq (Nat.le_of_lt hv), h.sound.get_eq_latest]
        refine congrArg Option.join (latest_congr fun x _ => ?_)
        rw [h.sound.history_setMany, hw, Option.none_or, ite_self]

end Shows

/-! ### Transactions and sessions -/

/-- A transaction that reads what a session sees. -/
structure Tracks (shards : Shards) (last : ℕ) (t : Transaction) (u : Ideal.Session) : Prop where
  running : t.finished = false
  begun : t.id ≤ last
  snapshot : shards.get t.id = u.snapshot
  staged : t.writes = u.staged
  recalls : t.Recalls shards
  stale : ∀ key, key ∈ u.stale ↔ ∃ version, t.id < version ∧ shards.history key version ≠ none

namespace Tracks

variable {shards : Shards} {last v : ℕ} {m : State} {t : Transaction} {u : Ideal.Session}

theorem begin (h : Shows shards last m) :
    Tracks shards (last + 1) (.fresh (last + 1)) (.begin m) where
  running := rfl
  begun := Nat.le_refl _
  snapshot := h.get_eq (Nat.le_succ last)
  staged := rfl
  recalls hc := absurd hc (by simp [Transaction.fresh])
  stale key := by
    refine iff_of_false (by simp [Ideal.Session.begin]) ?_
    rintro ⟨version, hlow, hne⟩
    have hlow : last + 1 < version := hlow
    have hle : version ≤ last := h.past hne
    omega

theorem later (h : Tracks shards last t u) (hv : last ≤ v) : Tracks shards v t u :=
  { h with begun := Nat.le_trans h.begun hv }

theorem stage (h : Tracks shards last t u) (key : String) (value : Option String) :
    Tracks shards last { t with writes := t.writes.insert key value } (u.stage key value) :=
  { h with staged := congrArg (Table.insert · key value) h.staged, recalls := h.recalls }

/-- The keys of somebody else's commit get stale. -/
theorem setMany (h : Tracks shards last t u) (hs : Shows shards last m) (hv : last < v) (w : Writes) :
    Tracks (shards.setMany v w) v t (u.outdate w.keys) where
  running := h.running
  begun := Nat.le_of_lt (Nat.lt_of_le_of_lt h.begun hv)
  snapshot := (hs.get_setMany_of_lt (Nat.lt_of_le_of_lt h.begun hv) w).trans h.snapshot
  staged := h.staged
  recalls {key value} hc := by
    rw [hs.get_setMany_of_lt (Nat.lt_of_le_of_lt h.begun hv) w]
    exact h.recalls hc
  stale key := by
    rw [Ideal.Session.outdate, List.mem_append, h.stale, w.mem_keys_iff]
    constructor
    · rintro (⟨version, hlow, hne⟩ | ⟨value, hw⟩)
      · refine ⟨version, hlow, ?_⟩
        rw [hs.sound.history_setMany, if_neg (by have := hs.past hne; omega)]
        exact hne
      · refine ⟨v, Nat.lt_of_le_of_lt h.begun hv, ?_⟩
        rw [hs.sound.history_setMany, if_pos rfl, hw]
        simp
    · rintro ⟨version, hlow, hne⟩
      rw [hs.sound.history_setMany] at hne
      split at hne
      · cases hw : w.get? key with
        | some value => exact .inr ⟨value, rfl⟩
        | none =>
            rw [hw, Option.none_or] at hne
            exact .inl ⟨version, hlow, hne⟩
      · exact .inl ⟨version, hlow, hne⟩

theorem existsBetween_eq (h : Tracks shards last t u) (hs : Shows shards last m) (key : String) :
    shards.existsBetween t.id (last + 1) key = u.stale.contains key := by
  rw [Bool.eq_iff_iff, hs.sound.existsBetween_iff, List.contains_iff_mem, h.stale]
  constructor
  · rintro ⟨version, hlow, -, hne⟩
    exact ⟨version, hlow, hne⟩
  · rintro ⟨version, hlow, hne⟩
    exact ⟨version, hlow, Nat.le_succ_of_le (hs.past hne), hne⟩

theorem interfered_eq (h : Tracks shards last t u) (hs : Shows shards last m) :
    t.writes.keys.any (shards.existsBetween t.id (last + 1)) = u.interfered := by
  rw [Ideal.Session.interfered, ← h.staged]
  exact congrArg (List.any _) (funext (h.existsBetween_eq hs))

end Tracks

/-! ### The database and the ideal store -/

variable {σ : Type} {d : Database σ} {s : Ideal} {c : Coordinator σ} {client key : String}

/-- A database that is no replica and has the state and the sessions of an ideal store. -/
structure Matches (d : Database σ) (s : Ideal) : Prop where
  primary : d.isReplica = false
  shows : Shows d.coordinator.shards d.coordinator.lastVersion s.committed
  sessions : ∀ client, Option.Rel (Tracks d.coordinator.shards d.coordinator.lastVersion)
    (d.sessions.get? client) (s.sessions client)

theorem Run.Fresh.calm (h : Run.Fresh c)
    (hjournal : ∀ j, c.journal = some j → ∃ store batchSize first,
      j = { Journal.start store batchSize with nextLsn := first }) : c.Calm where
  locks := by
    obtain ⟨threshold, hlocks⟩ := h.locks
    exact hlocks ▸ LockTable.atRest_create threshold
  journal j hj := by
    obtain ⟨store, batchSize, first, rfl⟩ := hjournal j hj
    exact Journal.atRest_start store batchSize first

namespace Matches

theorem start (h : Run.Fresh c) :
    Matches (.create c false) (.start (c.shards.get c.lastVersion)) where
  primary := rfl
  shows := ⟨h.sound, h.past, rfl⟩
  sessions _ := .none

/-- A client has a session in both or in none. -/
theorem session (h : Matches d s) (client : String) :
    (d.sessions.get? client = none ∧ s.sessions client = none) ∨
      ∃ t u, d.sessions.get? client = some t ∧ s.sessions client = some u ∧
        Tracks d.coordinator.shards d.coordinator.lastVersion t u := by
  have hrel := h.sessions client
  generalize d.sessions.get? client = found at hrel
  generalize s.sessions client = ideal at hrel
  cases hrel with
  | none => exact .inl ⟨rfl, rfl⟩
  | some htracks => exact .inr ⟨_, _, rfl, rfl, htracks⟩

theorem session_eq_none (h : Matches d s) (hd : d.sessions.get? client = none) :
    s.sessions client = none := by
  obtain ⟨-, hi⟩ | ⟨t, -, hsome, -⟩ := h.session client
  · exact hi
  · rw [hd] at hsome
    cases hsome

theorem sessions_map (h : Matches d s) {shards : Shards} {last : ℕ}
    {f : Ideal.Session → Ideal.Session}
    (hf : ∀ {t u}, Tracks d.coordinator.shards d.coordinator.lastVersion t u →
      Tracks shards last t (f u)) (client : String) :
    Option.Rel (Tracks shards last) (d.sessions.get? client) ((s.sessions client).map f) := by
  rcases h.session client with ⟨hd, hi⟩ | ⟨t, u, hd, hi, htracks⟩
  · rw [hd, hi]
    exact .none
  · rw [hd, hi]
    exact .some (hf htracks)

/-- Versions that were handed out change nothing. -/
theorem later (h : Matches d s) (hs : c.shards = d.coordinator.shards)
    (hl : d.coordinator.lastVersion ≤ c.lastVersion) : Matches { d with coordinator := c } s where
  primary := h.primary
  shows := by
    show Shows c.shards c.lastVersion s.committed
    rw [hs]
    exact h.shows.later hl
  sessions other := by
    have hmap := h.sessions_map (f := id) (fun htracks => htracks.later hl) other
    rwa [Option.map_id_apply, ← hs] at hmap

/-- A client has another transaction. -/
theorem put (h : Matches d s) {t : Transaction} {u : Ideal.Session}
    (ht : Tracks d.coordinator.shards d.coordinator.lastVersion t u) (client : String) :
    Matches { d with sessions := d.sessions.insert client t } (s.put client (some u)) where
  primary := h.primary
  shows := h.shows
  sessions other := by
    rw [Table.get?_insert, Ideal.sessions_put]
    split
    · exact .some ht
    · exact h.sessions other

/-- A session ends. -/
theorem drop (h : Matches d s) (client : String) :
    Matches { d with sessions := d.sessions.erase client } (s.put client none) where
  primary := h.primary
  shows := h.shows
  sessions other := by
    rw [Table.get?_erase, Ideal.sessions_put]
    split
    · exact .none
    · exact h.sessions other

/-- Writes are committed. -/
theorem commit (h : Matches d s) {w : Writes} {version : ℕ} (hv : d.coordinator.lastVersion < version)
    (hs : c.shards = d.coordinator.shards.setMany version w) (hl : c.lastVersion = version) :
    Matches { d with coordinator := c } (s.commit w) where
  primary := h.primary
  shows := by
    show Shows c.shards c.lastVersion (s.committed.write w)
    rw [hs, hl]
    exact h.shows.setMany hv w
  sessions other := by
    have hmap := h.sessions_map (fun htracks => htracks.setMany h.shows hv w) other
    rwa [← hs, ← hl] at hmap

end Matches

/-! ### Commands -/

/-- The outcome of a command is that of the ideal store, or the log has failed and the command is lost. -/
def Runs (s : Ideal) (client : String) (command : Command) (result : Reply × Database σ) : Prop :=
  (result.1 = (s.run client command).1 ∧ Matches result.2 (s.run client command).2) ∨
    (¬result.2.coordinator.Clean ∧ result.1 = .ofFault .logFailure ∧
      Matches result.2 (s.lose client command))

namespace Database

variable [LogStore σ]

theorem get_ideal (h : Matches d s) (hcalm : d.coordinator.Calm) (client key : String) :
    (d.get client key).1 = .ofValue? (s.view client key) ∧ Matches (d.get client key).2 s := by
  rcases h.session client with ⟨hd, hi⟩ | ⟨t, u, hd, hi, ht⟩
  · obtain ⟨locks, -, hrun⟩ := Coordinator.get_of_atRest hcalm.locks key
    have hview : d.coordinator.shards.get (d.coordinator.lastVersion + 1) key = s.view client key := by
      rw [h.shows.get_eq (Nat.le_succ _), Ideal.view, hi]
    rw [Database.get, hd]
    simp only [hrun, replyTo, hview, true_and]
    exact h.later rfl (Nat.le_succ _)
  · obtain ⟨value, t', locks, -, hrun, hid, hwrites, hrunning, hrecalls⟩ :=
      Coordinator.perform_get hcalm.locks ht.running key
    obtain ⟨hrecalls, hvalue⟩ := hrecalls ht.recalls
    have hview : value = s.view client key := by
      rw [hvalue, ht.snapshot, ht.staged, Ideal.view, hi]
      rfl
    have ht' : Tracks d.coordinator.shards d.coordinator.lastVersion t' u :=
      ⟨hrunning, hid ▸ ht.begun, hid ▸ ht.snapshot, hwrites.trans ht.staged, hrecalls, hid ▸ ht.stale⟩
    rw [Database.get, hd]
    simp only [hrun, replyTo, hview, true_and]
    have hput := (h.put ht' client).later (c := { d.coordinator with locks }) rfl (Nat.le_refl _)
    rwa [Ideal.put_self hi] at hput

theorem write_runs (h : Matches d s) (hcalm : d.coordinator.Calm) (client key : String)
    (value : Option String) :
    ((d.write client (Run.writeRequest key value)).1 = .ok ∧
        Matches (d.write client (Run.writeRequest key value)).2 (s.write client key value)) ∨
      (¬(d.write client (Run.writeRequest key value)).2.coordinator.Clean ∧
        (d.write client (Run.writeRequest key value)).1 = .ofFault .logFailure ∧
        Matches (d.write client (Run.writeRequest key value)).2 s) := by
  have hprimary : ¬d.isReplica = true := by simp [h.primary]
  rw [Database.write, if_neg hprimary]
  obtain ⟨hd, hi⟩ | ⟨t, u, hd, hi, ht⟩ := h.session client
  · obtain ⟨answer, c', hrun, ⟨rfl, hlast, hshards⟩ | ⟨hdirty, rfl, hlast, hshards⟩⟩ :=
      Coordinator.write_outcome hcalm h.shows.sound h.shows.past key value
    · refine .inl ?_
      simp only [hd, hrun, replyTo, Ideal.write, hi, true_and]
      exact h.commit (Nat.lt_add_of_pos_right (by decide)) hshards hlast
    · refine .inr ?_
      simp only [hd, hrun, replyTo, true_and]
      exact ⟨hdirty, h.later hshards hlast⟩
  · obtain ⟨kind, args, hrun⟩ := Coordinator.perform_write hcalm ht.running key value
    by_cases htakes : d.coordinator.takes t.id kind args = true
    · rw [if_pos htakes] at hrun
      refine .inl ?_
      simp only [hd, hrun, replyTo, Ideal.write, hi, true_and]
      exact (h.put (ht.stage key value) client).later rfl (Nat.le_refl _)
    · rw [if_neg htakes] at hrun
      refine .inr ?_
      simp only [hd, hrun, replyTo, true_and]
      refine ⟨fun hclean => htakes (Coordinator.takes_of_clean hcalm rfl hclean), ?_⟩
      have hput := (h.put ht client).later (c := d.coordinator.saved t.id kind args) rfl (Nat.le_refl _)
      rwa [Ideal.put_self hi] at hput

omit [LogStore σ] in
theorem begin_ideal (h : Matches d s) (client : String) :
    (d.begin client).1 = (s.run client .begin).1 ∧
      Matches (d.begin client).2 (s.run client .begin).2 := by
  rcases h.session client with ⟨hd, hi⟩ | ⟨t, u, hd, hi, ht⟩
  · simp only [Database.begin, Table.contains, hd, Ideal.run, hi, Option.isSome_none,
      Bool.false_eq_true, if_false, true_and]
    exact (h.later (c := d.coordinator.mint.2) rfl (Nat.le_succ _)).put (.begin h.shows) client
  · simp only [Database.begin, Table.contains, hd, Ideal.run, hi, Option.isSome_some, if_true]
    exact ⟨rfl, h⟩

theorem commit_runs (h : Matches d s) (hcalm : d.coordinator.Calm) (client : String) :
    Runs s client .commit (d.finish client .commit) := by
  obtain ⟨hd, hi⟩ | ⟨t, u, hd, hi, ht⟩ := h.session client
  · rw [Database.finish, Runs, Ideal.run, hd, hi]
    exact .inl ⟨rfl, h⟩
  · rw [Database.finish, hd]
    have hinterfered := ht.interfered_eq h.shows
    cases hw : t.writes.isEmpty with
    | true =>
        have hkeys : t.writes.keys = [] := by
          rw [Table.keys, List.isEmpty_iff.mp hw, List.map_nil]
        rw [hkeys, List.any_nil] at hinterfered
        refine .inl ?_
        simp only [Coordinator.perform_commit_nothing ht.running hw, replyTo, Ideal.run, hi,
          ← hinterfered, Bool.false_eq_true, if_false, true_and]
        rw [Ideal.commit_of_isEmpty (ht.staged ▸ hw)]
        exact h.drop client
    | false =>
        obtain ⟨locks, -, hrun⟩ := Coordinator.perform_commit hcalm ht.running hw
        rw [hinterfered] at hrun
        cases hu : u.interfered with
        | true =>
            rw [if_pos hu] at hrun
            refine .inl ?_
            simp only [hrun, replyTo, Ideal.run, hi, hu, if_true]
            exact ⟨rfl, (h.drop client).later rfl (Nat.le_succ _)⟩
        | false =>
            rw [if_neg (by simp [hu])] at hrun
            by_cases htakes : d.coordinator.takes t.id .commit [] = true
            · rw [if_pos htakes] at hrun
              refine .inl ?_
              simp only [hrun, replyTo, Ideal.run, hi, hu, Bool.false_eq_true, if_false, true_and]
              rw [← ht.staged]
              exact (h.drop client).commit (Nat.lt_succ_self _) rfl rfl
            · rw [if_neg htakes] at hrun
              refine .inr ?_
              simp only [hrun, replyTo, Ideal.lose, true_and]
              exact ⟨fun hclean => htakes (Coordinator.takes_of_clean hcalm.mint.calm rfl hclean),
                (h.drop client).later rfl (Nat.le_succ _)⟩

theorem rollback_runs (h : Matches d s) (hcalm : d.coordinator.Calm) (client : String) :
    Runs s client .rollback (d.finish client .rollback) := by
  obtain ⟨hd, hi⟩ | ⟨t, u, hd, hi, ht⟩ := h.session client
  · rw [Database.finish, Runs, Ideal.run, hd, hi]
    exact .inl ⟨rfl, h⟩
  · rw [Database.finish, hd]
    obtain ⟨t', hrun⟩ := Coordinator.perform_rollback hcalm ht.running
    split at hrun
    · refine .inl ?_
      simp only [hrun, replyTo, Ideal.run, hi, true_and]
      exact h.drop client
    · by_cases htakes : d.coordinator.takes t.id .rollback [] = true
      · rw [if_pos htakes] at hrun
        refine .inl ?_
        simp only [hrun, replyTo, Ideal.run, hi, true_and]
        exact (h.drop client).later rfl (Nat.le_refl _)
      · rw [if_neg htakes] at hrun
        refine .inr ?_
        simp only [hrun, replyTo, Ideal.lose, true_and]
        exact ⟨fun hclean => htakes (Coordinator.takes_of_clean hcalm rfl hclean),
          (h.drop client).later rfl (Nat.le_refl _)⟩

theorem run_runs (h : Matches d s) (hcalm : d.coordinator.Calm) (client : String)
    (command : Command) : Runs s client command (d.run client command) := by
  cases command with
  | get key => exact .inl (get_ideal h hcalm client key)
  | set key value => exact write_runs h hcalm client key (some value)
  | del key => exact write_runs h hcalm client key none
  | begin => exact .inl (begin_ideal h client)
  | commit => exact commit_runs h hcalm client
  | rollback => exact rollback_runs h hcalm client

/-! ### Runs -/

/-- Takes one input. -/
def feed (d : Database σ) : Input → Option Reply × Database σ
  | .line client text => (some (d.execute client text).1, (d.execute client text).2)
  | .gone client => (none, d.disconnect client)

/-- One input is taken by the ideal store, or lost. -/
theorem feed_takes (h : Matches d s) (hcalm : d.coordinator.Calm) (input : Input) :
    ∃ s', Ideal.Takes (¬(d.feed input).2.coordinator.Clean) s input (d.feed input).1 s' ∧
      Matches (d.feed input).2 s' := by
  have hfed : Ideal.Takes (¬(d.feed input).2.coordinator.Clean) s input (s.feed input).1
    (s.feed input).2 := .fed input
  cases input with
  | line client text =>
      rw [feed, execute] at hfed ⊢
      rw [Ideal.feed] at hfed
      cases hparse : Command.parse text with
      | error fault =>
          rw [hparse] at hfed
          exact ⟨s, hfed, h⟩
      | ok command =>
          rw [hparse] at hfed
          obtain ⟨hreply, hmatches⟩ | ⟨hfails, hreply, hmatches⟩ := run_runs h hcalm client command
          · refine ⟨_, ?_, hmatches⟩
            rw [hreply]
            exact hfed
          · refine ⟨_, ?_, hmatches⟩
            rw [hreply]
            exact .lost hfails hparse
  | gone client =>
      refine ⟨_, hfed, ?_⟩
      obtain ⟨-, hmatches⟩ | ⟨-, -, hmatches⟩ := rollback_runs h hcalm client
      · rwa [Ideal.rollback_eq_put] at hmatches
      · exact hmatches

/-- An input leaves a calm coordinator, and the log has not failed before if it has not failed after. -/
theorem feed_follows (hcalm : d.coordinator.Calm) (input : Input) :
    d.coordinator.Follows (d.feed input).2.coordinator := by
  have hrefl : d.coordinator.Follows d.coordinator := hcalm.follows hcalm.locks rfl
  have hwrite (client : String) (r : Request) :
      d.coordinator.Follows (d.write client r).2.coordinator := by
    rw [Database.write]
    split
    · exact hrefl
    · split
      · exact hcalm.perform _ r
      · exact hcalm.write r
  have hfinish (client : String) (r : Request) :
      d.coordinator.Follows (d.finish client r).2.coordinator := by
    rw [Database.finish]
    split
    · exact hrefl
    · exact hcalm.perform _ r
  cases input with
  | gone client => exact hfinish client .rollback
  | line client text =>
      rw [feed, execute]
      cases Command.parse text with
      | error fault => exact hrefl
      | ok command =>
          cases command with
          | get key =>
              show d.coordinator.Follows (d.get client key).2.coordinator
              rw [Database.get]
              split
              · exact hcalm.perform _ (.get key)
              · exact hcalm.get key
          | set key value => exact hwrite client (.set key value)
          | del key => exact hwrite client (.del key)
          | begin =>
              show d.coordinator.Follows (d.begin client).2.coordinator
              rw [Database.begin]
              split
              · exact hrefl
              · exact hcalm.mint
          | commit => exact hfinish client .commit
          | rollback => exact hfinish client .rollback

theorem transcript_follows (hcalm : d.coordinator.Calm) (inputs : List Input) :
    d.coordinator.Follows (transcript feed d inputs).2.coordinator := by
  induction inputs generalizing d with
  | nil => exact hcalm.follows hcalm.locks rfl
  | cons input inputs ih =>
      have hfirst := feed_follows hcalm input
      exact hfirst.trans (ih hfirst.calm)

/-- Clients that send their commands one at a time to a database are answered as by the ideal store, whose
log fails only if that of the database does. -/
theorem transcript_answers (h : Matches d s) (hcalm : d.coordinator.Calm) (inputs : List Input) :
    ∃ s', Ideal.Answers (¬(transcript feed d inputs).2.coordinator.Clean) s inputs
        (transcript feed d inputs).1 s' ∧ Matches (transcript feed d inputs).2 s' := by
  induction inputs generalizing d s with
  | nil => exact ⟨s, .nil s, h⟩
  | cons input inputs ih =>
      have hfirst := (feed_follows hcalm input).calm
      obtain ⟨s₁, htakes, hmatches⟩ := feed_takes h hcalm input
      obtain ⟨s₂, hanswers, hlast⟩ := ih hmatches hfirst
      have hfails := mt (transcript_follows hfirst inputs).clean
      exact ⟨s₂, .cons (htakes.mono hfails) hanswers, hlast⟩

theorem transcript_ideal (h : Matches d s) (hcalm : d.coordinator.Calm) (inputs : List Input)
    (hclean : (transcript feed d inputs).2.coordinator.Clean) :
    (transcript feed d inputs).1 = (transcript Ideal.feed s inputs).1 := by
  obtain ⟨s', hanswers, -⟩ := transcript_answers h hcalm inputs
  exact hanswers.eq_transcript (not_not.mpr hclean)

/-- Clients that send their commands one at a time to a database that is no replica get the replies of the
ideal store, if no write to the log fails. -/
theorem replies_ideal {c : Coordinator σ} (hfresh : Run.Fresh c)
    (hjournal : ∀ j, c.journal = some j → ∃ store batchSize first,
      j = { Journal.start store batchSize with nextLsn := first })
    (inputs : List Input) (hclean : (transcript feed (.create c false) inputs).2.coordinator.Clean) :
    (transcript feed (.create c false) inputs).1 =
      (transcript Ideal.feed (.start (c.shards.get c.lastVersion)) inputs).1 := by
  exact transcript_ideal (.start hfresh) (hfresh.calm hjournal) inputs hclean

/-! ### A sample

Two clients share a log with batches of one record.  The first one deletes a key in its session that the
second one sets meanwhile, so its commit fails; then it reads what the second one has set. -/

/-- What the two clients send. -/
def sampleInputs : List Input :=
  [.line "a" "BEGIN", .line "b" "set k v", .line "a" "GET k", .line "a" "DEL k", .line "a" "GET  k",
    .line "a" "COMMIT", .line "a" "GET k", .line "b" "ROLLBACK", .line "b" "BEGIN now", .gone "b"]

/-- What they are told. -/
def sampleReplies : List (Option Reply) :=
  [some .ok, some .ok, some .nil, some .ok, some .nil, some (.error "transaction interfered"),
    some (.value "v"), some (.error "invalid transaction"),
    some (.error "invalid command: bad amount of args"), none]

theorem replies_ideal_sample :
    (transcript feed (.create Run.sample false) sampleInputs).2.coordinator.Clean ∧
    (transcript feed (.create Run.sample false) sampleInputs).1 = sampleReplies ∧
    (transcript Ideal.feed (.start (Run.sample.shards.get Run.sample.lastVersion)) sampleInputs).1 =
      sampleReplies := by
  have hclean : (transcript feed (.create Run.sample false) sampleInputs).2.coordinator.Clean :=
    Coordinator.clean_of_all (by decide +kernel)
  have hreplies : (transcript feed (.create Run.sample false) sampleInputs).1 = sampleReplies := by
    decide +kernel
  have hideal := replies_ideal Run.fresh_sample
    (fun _ hj => ⟨_, 1, 1, (Option.some.inj hj).symm⟩) sampleInputs hclean
  exact ⟨hclean, hreplies, hideal.symm.trans hreplies⟩

end Database
end SnapshotStore

import SnapshotStore.Proofs.Alone.Journal
import SnapshotStore.Proofs.Coordinator
import SnapshotStore.Proofs.Shards.History
import SnapshotStore.Proofs.State

/-! # Operations without rivals

A coordinator is calm (`Calm`) while nobody owns a lock and the journal is at rest.  On a calm coordinator
every operation of a transaction runs to its end and leaves the coordinator calm:

* `perform_get` gives what the transaction staged, or read before, or the value at its begin version;
* `perform_write` stages a value or a delete if the log takes it;
* `perform_commit` fails if a key of the transaction was written after it began, and records its writes
  otherwise;
* `perform_rollback` drops the writes.

A write outside of any transaction takes effect at once, unless the log fails (`write_outcome`).

The outcomes of all batches that the log was given are kept, so the log has never failed if none of them
is bad (`Clean`). -/

namespace SnapshotStore

open Journal (LogStore)

variable {σ : Type}

namespace Coordinator

variable {c c' : Coordinator σ}

/-- Nobody owns a lock, and the journal is at rest. -/
structure Calm (c : Coordinator σ) : Prop where
  locks : c.locks.AtRest
  journal : ∀ j, c.journal = some j → j.AtRest

/-- Every batch that the log was given so far was stored. -/
def Clean (c : Coordinator σ) : Prop :=
  ∀ j, c.journal = some j → ∀ number, j.outcome? number ≠ some false

theorem clean_of_all (h : (c.journal.all fun j => j.outcomes.entries.all (·.2)) = true) : c.Clean := by
  intro j hj number hbad
  rw [hj, Option.all_some, List.all_eq_true] at h
  obtain ⟨entry, hfind, hfalse⟩ := Option.map_eq_some_iff.mp hbad
  simpa [hfalse] using h entry (List.mem_of_find?_eq_some hfind)

section stored
variable [LogStore σ] (tx : ℕ) (kind : RecordKind) (args : List String)

/-- Whether the log takes a record.  Without a journal nothing can go wrong. -/
def takes (c : Coordinator σ) (tx : ℕ) (kind : RecordKind) (args : List String) : Bool :=
  c.journal.all fun j => j.takes tx kind args

/-- The coordinator after a record was given to the log. -/
def saved (c : Coordinator σ) (tx : ℕ) (kind : RecordKind) (args : List String) : Coordinator σ :=
  { c with journal := c.journal.map fun j => j.saved tx kind args }

theorem Calm.saved (h : c.Calm) : (c.saved tx kind args).Calm where
  locks := h.locks
  journal j hj := by
    obtain ⟨j₀, hj₀, rfl⟩ := Option.map_eq_some_iff.mp hj
    exact (h.journal j₀ hj₀).saved tx kind args

theorem clean_saved_iff (h : c.Calm) :
    (c.saved tx kind args).Clean ↔ c.Clean ∧ c.takes tx kind args = true := by
  cases hj : c.journal with
  | none => simp [Clean, Coordinator.saved, takes, hj]
  | some j =>
      have hopen : j.outcome? j.current.number = none := (h.journal j hj).unknown _ (Nat.le_refl _)
      simp only [Clean, Coordinator.saved, takes, hj, Option.map_some, Option.some.injEq,
        forall_eq', Option.all_some, Journal.outcome?_saved]
      constructor
      · intro hclean
        refine ⟨fun n hn => hclean n ?_, ?_⟩
        · rwa [if_neg fun hnum => by simp [hnum, hopen] at hn]
        · simpa using hclean j.current.number
      · rintro ⟨hclean, htakes⟩ n
        split
        · simp [htakes]
        · exact hclean n

end stored
end Coordinator

/-! ### Running to an answer -/

namespace Activity

variable {t t' : Transaction} {a a' : Activity} {c c' : Coordinator σ} {answer : Answer}

section stored
variable [LogStore σ]

omit [LogStore σ] in
theorem step_activity (p : Run.Purpose) {save : Save} (h : save.result? = none) :
    (p.activity save).step t c = (c.logStep save).map fun (save, c) => (t, p.activity save, c) := by
  cases save with
  | done persisted => simp [Save.result?] at h
  | _ =>
      cases p with
      | sealing held version => exact Option.map_map ..
      | _ => rfl

/-- An operation has its record stored and goes on. -/
theorem complete_log (h : ∀ j, c.journal = some j → j.AtRest) (p : Run.Purpose) (tx : ℕ)
    (kind : RecordKind) (args : List String)
    (hdone : (p.activity (.done (c.takes tx kind args))).advance t (c.saved tx kind args) =
      (t', .answered answer, c')) :
    (p.activity (.adding tx kind args)).complete t c = (t', .answered answer, c') := by
  cases hj : c.journal with
  | none =>
      have htakes : c.takes tx kind args = true := by simp [Coordinator.takes, hj]
      have hsaved : c.saved tx kind args = c := by
        rw [Coordinator.saved, hj, Option.map_none, ← hj]
      have hlog : c.logStep (.adding tx kind args) = some (.done true, c) := by
        simp [Coordinator.logStep, hj]
      have hstep : (p.activity (.adding tx kind args)).step t c =
          some (t, p.activity (.done true), c) := by
        rw [step_activity p rfl, hlog]
        rfl
      rw [htakes, hsaved] at hdone
      exact complete_of_answered ((advance_of_step hstep).trans hdone)
  | some j =>
      obtain ⟨j', hopen, hflush, hadd⟩ := (h j hj).step_adding tx kind args
      have hlog {save save' : Save} {i i' : Journal σ} (hs : save.step i = some (save', i')) :
          ({ c with journal := some i } : Coordinator σ).logStep save =
            some (save', { c with journal := some i' }) := by
        simp [Coordinator.logStep, hs]
      have hmove {save save' : Save} {i i' : Journal σ} (hs : save.step i = some (save', i'))
          (hr : save.result? = none) : (p.activity save).advance t { c with journal := some i } =
            (p.activity save').advance t { c with journal := some i' } := by
        refine advance_of_step ?_
        rw [step_activity p hr, hlog hs]
        rfl
      have hstuck : (p.activity (.waiting j.current.number)).step t
          { c with journal := some j' } = none := by
        rw [step_activity p rfl]
        simp [Coordinator.logStep, Save.step, hopen]
      have hwait : (p.activity (.adding tx kind args)).advance t c =
          (t, p.activity (.waiting j.current.number), { c with journal := some j' }) := by
        rw [← advance_of_none hstuck, show c = { c with journal := some j } by rw [← hj]]
        rcases hadd with hadd | ⟨j₁, hadd, hhand⟩
        · exact hmove hadd rfl
        · exact (hmove hadd rfl).trans (hmove hhand rfl)
      have hsettle : ({ c with journal := some j' } : Coordinator σ).settle =
          { c with journal := some (j.saved tx kind args) } := by
        simp [Coordinator.settle, hflush]
      rw [complete_of_waiting hwait (by cases p <;> rfl), hsettle,
        hmove (Journal.step_waiting_saved tx kind args) rfl]
      simpa [Coordinator.takes, Coordinator.saved, hj] using hdone

end stored

/-! ### The stages of a commit -/

/-- A commit gets the locks of all its keys. -/
theorem advance_locking {held : List ℕ} {keys todo : List String} (h : c.locks.Holding t.id held keys)
    (hnew : (keys ++ todo).Nodup) : ∃ held' keys' locks, LockTable.Holding locks t.id held' keys' ∧
      (committing (.locking held todo)).advance t c =
        (committing (.locking held' [])).advance t { c with locks } := by
  induction todo generalizing held keys c with
  | nil => exact ⟨held, keys, c.locks, h, rfl⟩
  | cons key todo ih =>
      have hkey : key ∉ keys := fun hk => (List.nodup_append.mp hnew).2.2 key hk key
        (List.mem_cons_self ..) rfl
      obtain ⟨lock, t₁, t₂, hfor, htry, hholding⟩ := h.acquire hkey
      have hask : (committing (.locking held (key :: todo))).step t c =
          some (t, committing (.contending held lock todo), { c with locks := t₁ }) := by
        simp [step, Commit.step, hfor]
      have htake : (committing (.contending held lock todo)).step t { c with locks := t₁ } =
          some (t, committing (.locking (held ++ [lock]) todo), { c with locks := t₂ }) := by
        simp [step, Commit.step, htry]
      obtain ⟨held', keys', locks, hlocks, hrun⟩ :=
        ih (c := { c with locks := t₂ }) hholding (by simpa using hnew)
      exact ⟨held', keys', locks, hlocks,
        (advance_of_step hask).trans ((advance_of_step htake).trans hrun)⟩

/-- A commit goes on to its log record if none of its keys was written after it began. -/
theorem advance_checking (held : List ℕ) (version : ℕ) (todo : List String) :
    (committing (.checking held version todo)).advance t c =
      (committing (if todo.any (c.shards.existsBetween t.id version) then
          .stop held (.error .interfered)
        else .logging held version (.adding t.id .commit []))).advance t c := by
  induction todo with
  | nil => exact advance_of_step rfl
  | cons key todo ih =>
      by_cases hkey : c.shards.existsBetween t.id version key = true
      · have hstep : (committing (.checking held version (key :: todo))).step t c =
            some (t, committing (.stop held (.error .interfered)), c) := by
          simp [step, Commit.step, hkey]
        rw [advance_of_step hstep]
        simp [hkey]
      · have hstep : (committing (.checking held version (key :: todo))).step t c =
            some (t, committing (.checking held version todo), c) := by
          simp [step, Commit.step, hkey]
        rw [advance_of_step hstep, ih]
        simp [hkey]

/-- A commit that has its result frees its locks and answers. -/
theorem advance_releasing (held : List ℕ) {todo : List ℕ} {keys : List String} (result : Outcome Unit)
    (h : c.locks.Holding t.id todo keys) : ∃ locks : LockTable, locks.AtRest ∧
      (committing (.releasing held todo result)).advance t c =
        (t, .answered (result.map fun _ => none), { c with locks }) := by
  induction todo generalizing c with
  | nil =>
      refine ⟨held.foldl LockTable.drop c.locks, h.atRest.foldl_drop held, ?_⟩
      have hleave : (committing (.releasing held [] result)).step t c =
          some (t, committing (.done result),
            { c with locks := held.foldl LockTable.drop c.locks }) := rfl
      rw [advance_of_step hleave, advance_of_step rfl, advance_of_answered]
  | cons lock todo ih =>
      have hfree : (committing (.releasing held (lock :: todo) result)).step t c =
          some (t, committing (.releasing held todo result),
            { c with locks := c.locks.release lock t.id }) := rfl
      obtain ⟨locks, hlocks, hrun⟩ := ih (c := { c with locks := c.locks.release lock t.id }) h.release
      exact ⟨locks, hlocks, (advance_of_step hfree).trans hrun⟩

end Activity

/-! ### Operations of a transaction -/

/-- What a transaction has read before is what it would read now. -/
def Transaction.Recalls (t : Transaction) (shards : Shards) : Prop :=
  ∀ {key value}, t.cache.get? key = some value → shards.get t.id key = some value

theorem Transaction.Recalls.remember {t : Transaction} {shards : Shards} (h : t.Recalls shards)
    {key : String} {found : Option String} (hfound : shards.get t.id key = found) :
    (Run.remember t key found).Recalls shards := by
  cases found with
  | none => exact h
  | some value =>
      intro key' value' hk
      rw [Run.remember, Table.get?_insert] at hk
      split at hk
      · next heq => rwa [heq, ← hk]
      · exact h hk

namespace Coordinator

variable [LogStore σ] {c : Coordinator σ} {t : Transaction}

/-- A read gives what the transaction has staged, or the value at its begin version. -/
theorem perform_get (h : c.locks.AtRest) (hf : t.finished = false) (key : String) :
    ∃ (value : Option String) (t' : Transaction) (locks : LockTable), locks.AtRest ∧
      c.perform t (.get key) = (.ok value, t', { c with locks }) ∧
      t'.id = t.id ∧ t'.writes = t.writes ∧ t'.finished = false ∧
      (t.Recalls c.shards →
        t'.Recalls c.shards ∧ value = State.write (c.shards.get t.id) t.writes key) := by
  have hhand {value : Option String} (hask : t.request (.get key) = (t, .answered (.ok value))) :
      c.perform t (.get key) = (.ok value, t, c) :=
    perform_of_complete hask (Activity.complete_of_answered (Activity.advance_of_answered ..))
  cases hw : t.writes.get? key with
  | some staged =>
      exact ⟨staged, t, c.locks, h, hhand (by simp [Transaction.request, hf, hw]), rfl, rfl, hf,
        fun hr => ⟨hr, (State.write_of_some hw).symm⟩⟩
  | none =>
      cases hc : t.cache.get? key with
      | some value =>
          exact ⟨some value, t, c.locks, h, hhand (by simp [Transaction.request, hf, hw, hc]), rfl,
            rfl, hf, fun hr => ⟨hr, ((State.write_of_none hw).trans (hr hc)).symm⟩⟩
      | none =>
          obtain ⟨locks, hlocks, hrun⟩ := perform_get_of_none h hf key hw hc
          refine ⟨_, _, locks, hlocks, hrun, ?_, ?_, ?_,
            fun hr => ⟨hr.remember rfl, (State.write_of_none hw).symm⟩⟩
          · cases c.shards.get t.id key <;> rfl
          · cases c.shards.get t.id key <;> rfl
          · cases c.shards.get t.id key <;> exact hf

/-- A write is staged if the log takes it. -/
theorem perform_write (h : c.Calm) (hf : t.finished = false) (key : String) (value : Option String) :
    ∃ kind args, c.perform t (Run.writeRequest key value) =
      if c.takes t.id kind args then
        (.ok none, { t with writes := t.writes.insert key value }, c.saved t.id kind args)
      else (.error .logFailure, t, c.saved t.id kind args) := by
  obtain ⟨kind, args, hsave⟩ : ∃ kind args, Run.writeSave t.id key value = .adding t.id kind args := by
    cases value <;> exact ⟨_, _, rfl⟩
  have hask : t.request (Run.writeRequest key value) =
      (t, (Run.Purpose.staging key value).activity (.adding t.id kind args)) := by
    rw [← hsave]
    cases value <;> simp [Run.writeRequest, Run.writeSave, Transaction.request, hf] <;> rfl
  have hdone (taken : Bool) : ((Run.Purpose.staging key value).activity (.done taken)).advance t
      (c.saved t.id kind args) =
        (if taken then { t with writes := t.writes.insert key value } else t,
          .answered (if taken then .ok none else .error .logFailure), c.saved t.id kind args) := by
    cases taken <;> exact (Activity.advance_of_step rfl).trans (Activity.advance_of_answered ..)
  refine ⟨kind, args, ?_⟩
  rw [perform_of_complete hask (Activity.complete_log h.journal _ _ _ _ (hdone _))]
  cases c.takes t.id kind args <;> rfl

/-- A rollback of writes is noted in the log. -/
theorem perform_rollback (h : c.Calm) (hf : t.finished = false) :
    ∃ t', c.perform t .rollback =
      if t.writes.isEmpty then (.ok none, t', c)
      else (if c.takes t.id .rollback [] then .ok none else .error .logFailure, t',
        c.saved t.id .rollback []) := by
  let t' : Transaction := { t with finished := true, writes := ∅, cache := ∅ }
  refine ⟨t', ?_⟩
  cases hw : t.writes.isEmpty with
  | true =>
      have hask : t.request .rollback = (t', .answered (.ok none)) := by
        simp [Transaction.request, hf, hw, t']
      exact perform_of_complete hask
        (Activity.complete_of_answered (Activity.advance_of_answered ..))
  | false =>
      have hask : t.request .rollback =
          (t', Run.Purpose.discarding.activity (.adding t.id .rollback [])) := by
        simp [Transaction.request, hf, hw, t', Run.Purpose.activity]
      have hdone (taken : Bool) : (Run.Purpose.discarding.activity (.done taken)).advance t'
          (c.saved t.id .rollback []) = (t', .answered (if taken then .ok none
            else .error .logFailure), c.saved t.id .rollback []) := by
        cases taken <;> exact (Activity.advance_of_step rfl).trans (Activity.advance_of_answered ..)
      exact perform_of_complete hask (Activity.complete_log h.journal _ _ _ _ (hdone _))

theorem perform_commit_nothing (hf : t.finished = false) (hw : t.writes.isEmpty = true) :
    c.perform t .commit = (.ok none, { t with finished := true }, c) := by
  have hask : t.request .commit = ({ t with finished := true }, .committing (.done (.ok ()))) := by
    simp [Transaction.request, Commit.start, hf, hw]
  exact perform_of_complete hask (Activity.complete_of_answered
    ((Activity.advance_of_step rfl).trans (Activity.advance_of_answered ..)))

theorem nodup_sortedKeys (w : Writes) : (Commit.sortedKeys w).Nodup :=
  (List.mergeSort_perm w.keys _).nodup_iff.mpr w.nodup

/-- A commit fails if one of its keys was written after the transaction began.  Otherwise its writes are
recorded at its end version, if the log takes its record. -/
theorem perform_commit (h : c.Calm) (hf : t.finished = false) (hw : t.writes.isEmpty = false) :
    ∃ locks : LockTable, locks.AtRest ∧ c.perform t .commit =
      if t.writes.keys.any (c.shards.existsBetween t.id (c.lastVersion + 1)) then
        (.error .interfered, { t with finished := true }, { c.mint.2 with locks })
      else if c.takes t.id .commit [] then
        (.ok none, { t with finished := true }, { c.mint.2.saved t.id .commit [] with
          locks
          shards := c.shards.setMany (c.lastVersion + 1) t.writes })
      else
        (.error .logFailure, { t with finished := true },
          { c.mint.2.saved t.id .commit [] with locks }) := by
  let t' : Transaction := { t with finished := true }
  have hask : t.request .commit =
      (t', .committing (.locking [] (Commit.sortedKeys t.writes))) := by
    simp [Transaction.request, Commit.start, hf, hw, t']
  obtain ⟨held, keys, locks, hheld, hlock⟩ := Activity.advance_locking (t := t') (c := c)
    (h.locks.holding t.id) (by simpa using nodup_sortedKeys t.writes)
  let c₁ : Coordinator σ := { c.mint.2 with locks }
  have hmint : (Activity.committing (.locking held [])).step t' { c with locks } =
      some (t', .committing (.checking held (c.lastVersion + 1) t.writes.keys), c₁) := rfl
  have hcheck := hlock.trans ((Activity.advance_of_step hmint).trans
    (Activity.advance_checking held (c.lastVersion + 1) t.writes.keys))
  by_cases hany : t.writes.keys.any (c.shards.existsBetween t.id (c.lastVersion + 1)) = true
  · rw [if_pos (show t.writes.keys.any (c₁.shards.existsBetween t'.id (c.lastVersion + 1)) = true
      from hany)] at hcheck
    obtain ⟨free, hfree, hrelease⟩ :=
      Activity.advance_releasing (c := c₁) held (.error .interfered) hheld
    exact ⟨free, hfree, (perform_of_complete hask
      (Activity.complete_of_answered (hcheck.trans hrelease))).trans (if_pos hany).symm⟩
  · rw [if_neg (show ¬t.writes.keys.any (c₁.shards.existsBetween t'.id (c.lastVersion + 1)) = true
      from hany)] at hcheck
    let c₂ (taken : Bool) : Coordinator σ := { c₁.saved t.id .commit [] with
      shards := if taken then c.shards.setMany (c.lastVersion + 1) t.writes else c.shards }
    have hdone (taken : Bool) :
        ((Run.Purpose.sealing held (c.lastVersion + 1)).activity (.done taken)).step t'
          (c₁.saved t.id .commit []) = some (t',
            .committing (.stop held (if taken then .ok () else .error .logFailure)), c₂ taken) := by
      cases taken <;> rfl
    obtain ⟨free, hfree, hrelease⟩ := Activity.advance_releasing
      (c := c₂ (c.takes t.id .commit [])) held
      (if c.takes t.id .commit [] then .ok () else .error .logFailure) hheld
    refine ⟨free, hfree, ?_⟩
    have hlog := Activity.complete_log (c := c₁) h.journal (.sealing held (c.lastVersion + 1)) t.id
      .commit [] ((Activity.advance_of_step (hdone (c.takes t.id .commit []))).trans hrelease)
    rw [if_neg hany, perform_of_complete hask ((Activity.complete_congr hcheck).trans hlog)]
    cases c.takes t.id .commit [] <;> rfl

/-! ### What every operation keeps -/

/-- A calm coordinator after another one, whose log has failed if the log of the other one has. -/
structure Follows (c c' : Coordinator σ) : Prop where
  calm : c'.Calm
  clean : c'.Clean → c.Clean

omit [LogStore σ] in
theorem Calm.follows (h : c.Calm) {c' : Coordinator σ} (hl : c'.locks.AtRest)
    (hj : c'.journal = c.journal) : c.Follows c' where
  calm := ⟨hl, fun j hj' => h.journal j (hj ▸ hj')⟩
  clean hclean j hj' := hclean j (hj.trans hj')

theorem Calm.follows_saved (h : c.Calm) {c' : Coordinator σ} {tx : ℕ} {kind : RecordKind}
    {args : List String} (hl : c'.locks.AtRest)
    (hj : c'.journal = (c.saved tx kind args).journal) : c.Follows c' where
  calm := ((h.saved tx kind args).follows hl hj).calm
  clean hclean := ((clean_saved_iff tx kind args h).mp
    (((h.saved tx kind args).follows hl hj).clean hclean)).1

theorem takes_of_clean (h : c.Calm) {c' : Coordinator σ} {tx : ℕ} {kind : RecordKind}
    {args : List String} (hj : c'.journal = (c.saved tx kind args).journal) (hclean : c'.Clean) :
    c.takes tx kind args = true :=
  ((clean_saved_iff tx kind args h).mp fun j hj' => hclean j (hj.trans hj')).2

omit [LogStore σ] in
theorem Follows.trans {c₁ c₂ : Coordinator σ} (h : c.Follows c₁) (h' : c₁.Follows c₂) :
    c.Follows c₂ :=
  ⟨h'.calm, fun hclean => h.clean (h'.clean hclean)⟩

omit [LogStore σ] in
theorem Calm.mint (h : c.Calm) : c.Follows c.mint.2 := h.follows h.locks rfl

/-- Every operation leaves a calm coordinator. -/
theorem Calm.perform (h : c.Calm) (t : Transaction) (r : Request) :
    c.Follows (c.perform t r).2.2 := by
  cases hf : t.finished with
  | true =>
      have hask : t.request r = (t, .answered (.error .finished)) := by
        simp [Transaction.request, hf]
      rw [perform_of_complete hask (Activity.complete_of_answered (Activity.advance_of_answered ..))]
      exact h.follows h.locks rfl
  | false =>
      have hwrite (key : String) (value : Option String) :
          c.Follows (c.perform t (Run.writeRequest key value)).2.2 := by
        obtain ⟨kind, args, hrun⟩ := perform_write h hf key value
        rw [hrun]
        split <;> exact h.follows_saved h.locks rfl
      cases r with
      | get key =>
          obtain ⟨_, _, locks, hlocks, hrun, -⟩ := perform_get h.locks hf key
          rw [hrun]
          exact h.follows hlocks rfl
      | set key value => exact hwrite key (some value)
      | del key => exact hwrite key none
      | commit =>
          cases hw : t.writes.isEmpty with
          | true =>
              rw [perform_commit_nothing hf hw]
              exact h.follows h.locks rfl
          | false =>
              obtain ⟨locks, hlocks, hrun⟩ := perform_commit h hf hw
              rw [hrun]
              split
              · exact h.follows hlocks rfl
              · split <;> exact h.mint.trans (h.mint.calm.follows_saved hlocks rfl)
      | rollback =>
          obtain ⟨t', hrun⟩ := perform_rollback h hf
          rw [hrun]
          split
          · exact h.follows h.locks rfl
          · exact h.follows_saved h.locks rfl

theorem Calm.get (h : c.Calm) (key : String) : c.Follows (c.get key).2 :=
  h.mint.trans (h.mint.calm.perform (.fresh (c.lastVersion + 1)) (.get key) :
    c.mint.2.Follows (c.get key).2)

theorem write_eq (r : Request) : c.write r =
    match c.mint.2.perform (.fresh (c.lastVersion + 1)) r with
    | (.error fault, _, c) => (.error fault, c)
    | (.ok _, t, c) => ((c.perform t .commit).1, (c.perform t .commit).2.2) := rfl

theorem Calm.write (h : c.Calm) (r : Request) : c.Follows (c.write r).2 := by
  have hfirst := h.mint.trans (h.mint.calm.perform (.fresh (c.lastVersion + 1)) r)
  rw [write_eq]
  generalize c.mint.2.perform (.fresh (c.lastVersion + 1)) r = run at hfirst ⊢
  obtain ⟨answer, t, c₁⟩ := run
  cases answer with
  | error fault => exact hfirst
  | ok value => exact hfirst.trans (hfirst.calm.perform t .commit)

/-! ### Writes outside of any transaction -/

omit [LogStore σ] in
theorem any_existsBetween_of_past (hsound : c.shards.Sound)
    (hpast : ∀ {key version}, c.shards.history key version ≠ none → version ≤ c.lastVersion)
    {low high : ℕ} (hlow : c.lastVersion ≤ low) (keys : List String) :
    ¬keys.any (c.shards.existsBetween low high) = true := by
  rw [List.any_eq_true]
  rintro ⟨key, -, hkey⟩
  obtain ⟨version, habove, -, hne⟩ := hsound.existsBetween_iff.mp hkey
  have hle : version ≤ c.lastVersion := hpast hne
  omega

/-- A write outside of any transaction takes effect at once, or the log fails and it has no effect. -/
theorem write_outcome (h : c.Calm) (hsound : c.shards.Sound)
    (hpast : ∀ {key version}, c.shards.history key version ≠ none → version ≤ c.lastVersion)
    (key : String) (value : Option String) :
    ∃ answer c', c.write (Run.writeRequest key value) = (answer, c') ∧
      ((answer = .ok none ∧ c'.lastVersion = c.lastVersion + 2 ∧
          c'.shards = c.shards.setMany (c.lastVersion + 2) ((∅ : Writes).insert key value)) ∨
        (¬c'.Clean ∧ answer = .error .logFailure ∧ c.lastVersion ≤ c'.lastVersion ∧
          c'.shards = c.shards)) := by
  let t : Transaction := .fresh (c.lastVersion + 1)
  obtain ⟨kind, args, hstage⟩ := perform_write h.mint.calm (t := t) rfl key value
  rw [write_eq, hstage]
  by_cases htakes : c.mint.2.takes t.id kind args = true
  · rw [if_pos htakes]
    have hcalm : (c.mint.2.saved t.id kind args).Calm := h.mint.calm.saved t.id kind args
    obtain ⟨locks, -, hcommit⟩ := perform_commit hcalm
      (t := { t with writes := t.writes.insert key value }) rfl rfl
    have hpresent : c.lastVersion ≤ t.id := Nat.le_succ _
    have hcommit := hcommit.trans (if_neg (any_existsBetween_of_past hsound hpast hpresent _))
    refine ⟨_, _, congrArg (fun run : Answer × Transaction × Coordinator σ => (run.1, run.2.2)) hcommit, ?_⟩
    split
    · exact .inl ⟨rfl, rfl, rfl⟩
    · next hfails =>
      have hdirty := fun hclean => hfails (takes_of_clean hcalm.mint.calm rfl hclean)
      exact .inr ⟨hdirty, rfl, Nat.le_add_right _ 2, rfl⟩
  · rw [if_neg htakes]
    have hdirty := fun hclean => htakes (takes_of_clean h.mint.calm rfl hclean)
    exact ⟨_, _, rfl, .inr ⟨hdirty, rfl, Nat.le_succ _, rfl⟩⟩

end Coordinator
end SnapshotStore

import SnapshotStore.Proofs.Run.Recovery
import SnapshotStore.Proofs.Run.StagedWrites

/-! # Operations that fail

An operation that fails leaves no trace (`failed_operations_leave_no_trace`):

* a write leaves its transaction as it was;
* a commit and a rollback finish theirs, and of such a transaction nothing takes effect, no commit
  record is stored and no lock is owned any more (`Buried`);
* a transaction that is finished refuses everything.

What others can see later follows from the commits that took effect or are stored, and these wrote what
was answered without a failure (`Explained`). -/

namespace SnapshotStore
namespace Run

open Journal (LogStore AtomicStore)

variable {σ : Type}

/-! ### Transactions that gave up -/

theorem Move.journal_eq_none {c c' : Coordinator σ} {t : Transaction} {a : Activity}
    {new : List Event} {p' : Client} (h : Move c t a new p' c') (hj : c.journal = none) :
    c'.journal = none := by
  cases h with
  | log hs =>
      next purpose save save' =>
      simp only [Coordinator.logStep, hj] at hs
      split at hs
      · simp at hs
      · obtain ⟨-, rfl⟩ := Prod.mk.inj (Option.some.inj hs)
        exact hj
  | _ => exact hj

section gaveUp
variable [LogStore σ] {c₀ : Coordinator σ} {s s' : System σ} {id : ℕ}

omit [LogStore σ] in
theorem GaveUp.isOver {es : List Event} (h : GaveUp es id) : IsOver es id :=
  h.imp_right fun ⟨w, f, he⟩ => ⟨w, .error f, he⟩

/-- A transaction that was rolled back never takes effect: it did not before, since it was open, and does
not later, since it is over. -/
theorem Reachable.not_applied_of_rollback (hc : Fresh c₀) (h : Reachable c₀ s)
    (hr : .requested id .rollback ∈ s.trace) {x : Attempt} (hx : .applied x ∈ s.trace) :
    x.id ≠ id := by
  induction h with
  | start => simp [System.start] at hr
  | step hreach hs ih =>
      have hl := hreach.locking hc
      have hv := hreach.versioned hc
      have hreq := hreach.requested hc
      have hstep := Step.of_next hs
      cases hstep with
      | began c ps es => exact ih (by simpa using hr) (by simpa using hx)
      | flushed hj hf =>
          next c ps es j j' event =>
          exact ih ((mem_append_flushEvents es (by simp)).mp hr)
            ((mem_append_flushEvents es (by simp)).mp hx)
      | moved hm =>
          next c c' A B t a p' es new =>
          have hp : (⟨t, a⟩ : Client) ∈ A ++ ⟨t, a⟩ :: B := by simp
          rcases List.mem_append.mp hr with hr | hr <;> rcases List.mem_append.mp hx with hx | hx
          · exact ih hr hx
          · obtain ⟨held, version, rfl, rfl, -⟩ := hm.of_applied hx
            rintro rfl
            exact hreq.not_isOver hl hp trivial (.inl hr)
          · obtain ⟨rfl, -, hopen, answer, rfl⟩ := hm.of_rollback hr
            exact hv.unsettled _ hp hopen hx
          · obtain ⟨-, -, -, answer, rfl⟩ := hm.of_rollback hr
            obtain ⟨held, version, ha, -⟩ := hm.of_applied hx
            simp at ha

theorem Reachable.not_applied_of_gaveUp (hc : Fresh c₀) (h : Reachable c₀ s) (hg : GaveUp s.trace id)
    {x : Attempt} (hx : .applied x ∈ s.trace) : x.id ≠ id := by
  rcases hg with hr | ⟨w, f, he⟩
  · exact h.not_applied_of_rollback hc hr hx
  · rintro rfl
    have hans := h.answered hc
    rcases hans.applied hx with ⟨p, hp, hid, hok⟩ | ⟨v, hv⟩
    · refine (h.requested hc).not_isOver (h.locking hc) hp hok.commits (.inr ⟨w, .error f, ?_⟩)
      exact hid ▸ he
    · simpa using (hans.once he hv).2

theorem Reachable.owner_ne_of_isOver (hc : Fresh c₀) (h : Reachable c₀ s) (ho : IsOver s.trace id)
    (lock : ℕ) : s.coordinator.locks.owner lock ≠ id := by
  rintro rfl
  have hl := h.locking hc
  have hreq := h.requested hc
  obtain ⟨q, hq, hqid, -⟩ := hreq.closed ho
  obtain ⟨names, hn⟩ := h.owning hc
  have hlocked : s.coordinator.locks.owner lock ≠ unlocked := by
    rw [← hqid]
    exact Nat.ne_of_gt (hl.id_pos hq)
  obtain ⟨p, hp, hpid, hpl⟩ := hn.owned hlocked
  exact hreq.not_isOver hl hp (Client.commits_of_locked hpl) (hpid ▸ ho)

end gaveUp

/-! ### Starts -/

section atomic
variable [LogStore σ] [AtomicStore σ] {past : List (System σ)} {c₀ : Coordinator σ}
  {s : System σ} {j : Journal σ}

/-- A coordinator that starts without a log, on an empty one, or after it replayed what earlier lives
left. -/
inductive Starts : List (System σ) → Coordinator σ → Prop
  | bare {c : Coordinator σ} (hc : Fresh c) (hj : c.journal = none) : Starts [] c
  | opened {store : σ} {count batchSize threshold : ℕ} {towers : ℕ → ℕ → Height} {shards : Shards}
      (hs : Shards.create count towers = .ok shards) (hempty : AtomicStore.contents store = []) :
      Starts [] (Coordinator.create shards (some (Journal.start store batchSize)) threshold)
  | recovered {past : List (System σ)} {store : σ} {c : Coordinator σ}
      (h : Lives past (AtomicStore.contents store)) (hb : Booted store c) : Starts past c

theorem Starts.restored (h : Starts past c₀) : Fresh c₀ ∧ (c₀.journal = none ∨
    ∃ store, Chronicle past (AtomicStore.contents store) ∧
      Restored (AtomicStore.contents store) store c₀) := by
  cases h with
  | bare hc hj => exact ⟨hc, .inl hj⟩
  | opened hs hempty =>
      next store count batchSize threshold towers shards =>
      refine ⟨Fresh.create hs _, .inr ⟨store, ?_⟩⟩
      rw [hempty]
      obtain ⟨hflat, hnone⟩ := Shards.Flat.create hs
      refine ⟨chronicle_nil, hflat, ?_, by simp, ⟨threshold, rfl⟩, batchSize, 1, Nat.one_pos, by simp,
        rfl⟩
      exact hnone.trans (chronicle_nil (σ := σ)).state.symm
  | recovered h hb => exact ⟨hb.restored.fresh, .inr ⟨_, h.chronicle, hb.restored⟩⟩

/-! ### What is left of a transaction that gave up -/

omit [AtomicStore σ] in
theorem Reachable.journal_eq_none (h : Reachable c₀ s) (hj : c₀.journal = none) :
    s.coordinator.journal = none := by
  induction h with
  | start => exact hj
  | step hr hs ih =>
      have hstep := Step.of_next hs
      cases hstep with
      | began c ps es => exact ih
      | flushed hj' hf => exact absurd (hj'.symm.trans ih) (by simp)
      | moved hm => exact hm.journal_eq_none ih

theorem Starts.contents (h : Starts past c₀) (hr : Reachable c₀ s)
    (hj : s.coordinator.journal = some j) : ∃ store, Chronicle past (AtomicStore.contents store) ∧
      Restored (AtomicStore.contents store) store c₀ ∧ AtomicStore.contents j.store =
        AtomicStore.contents store ++ (stored s.trace).flatMap (·.records) := by
  obtain ⟨-, hnone | ⟨store, hpast, hrestored⟩⟩ := h.restored
  · exact absurd (hj.symm.trans (hr.journal_eq_none hnone)) (by simp)
  · obtain ⟨j₀, hj₀, -, rfl⟩ := hrestored.logged
    obtain ⟨j', hj', hfilled⟩ := hr.filled hj₀
    obtain rfl := Option.some.inj (hj'.symm.trans hj)
    exact ⟨j₀.store, hpast, hrestored, hfilled.contents_eq⟩

/-- Nothing of a transaction took effect, no commit record of it is stored, and it owns no lock. -/
structure Buried (id : ℕ) (s : System σ) : Prop where
  applied : ∀ {x}, .applied x ∈ s.trace → x.id ≠ id
  stored : ∀ {j}, s.coordinator.journal = some j →
    ∀ q ∈ AtomicStore.contents j.store, q.tx = id → q.kind ≠ .commit
  unlocked : ∀ lock, s.coordinator.locks.owner lock ≠ id

theorem Starts.buried (h : Starts past c₀) (hr : Reachable c₀ s) {id : ℕ} (hg : GaveUp s.trace id) :
    Buried id s := by
  obtain ⟨hc, -⟩ := h.restored
  refine ⟨fun hx => hr.not_applied_of_gaveUp hc hg hx, fun {j} hj q hq hid hk => ?_,
    hr.owner_ne_of_isOver hc hg.isOver⟩
  obtain ⟨store, -, hrestored, hcontents⟩ := h.contents hr hj
  obtain ⟨j₀, hj₀, hl, -⟩ := hrestored.logged
  obtain ⟨j', hlog, -⟩ := hr.logging hc hj₀ hl
  rw [hcontents] at hq
  rcases List.mem_append.mp hq with hq | hq
  · obtain ⟨p, hp, hpid, -⟩ := (hr.requested hc).closed hg.isOver
    have hv := hr.versioned hc
    have hlow := hrestored.past q hq
    have hhigh := (hv.numbered.bounds _ (mem_versions (hv.began p hp) rfl)).1
    omega
  · obtain ⟨x, hx, hxid⟩ := (hlog.exists_commit_iff id).mp ⟨q, hq, hid, hk⟩
    exact (hrestored.of_stored hr hx).2 (hxid ▸ hg)

/-! ### What can be seen -/

/-- What can be seen in a system: reads are those of the commits that took effect, and so are conflicts;
locks are owned by commits under way; recovery gives the state of the stored commits.  What commits wrote
was answered without a failure. -/
structure Explained (past : List (System σ)) (c₀ : Coordinator σ) (ts : List (Transition σ))
    (s : System σ) : Prop where
  reads : ∀ {id key value}, .read id key value ∈ s.trace → value = stateAt c₀ s.trace id key
  conflicts : ∀ {id version key}, .began id ∈ s.trace →
    (s.coordinator.shards.existsBetween id version key = true ↔
      ∃ x, .applied x ∈ s.trace ∧ id < x.version ∧ x.version ≤ version ∧ key ∈ x.writes.keys)
  locks : ∀ {lock}, s.coordinator.locks.owner lock ≠ unlocked →
    ∃ p ∈ s.clients, p.id = s.coordinator.locks.owner lock ∧ p.Commits
  recovery : ∀ {j recovered}, s.coordinator.journal = some j → LogStore.read j.store = .ok recovered →
    ∀ {count towers shards}, Shards.create count towers = .ok shards → ∀ batchSize threshold,
      ∃ d, boot j.store shards batchSize threshold = (.ok (), d) ∧ ∀ key,
        (d.coordinator.get key).1 =
          .ok (afterCommits (recoveredState past) (storedCommits s.trace) key)
  writes : ∀ {x}, .applied x ∈ s.trace ∨ x ∈ storedCommits s.trace → x.writes = acknowledged x.id ts

theorem Starts.explained (h : Starts past c₀) {choices : List Choice}
    (hrun : (System.start c₀).run choices = some s) :
    Explained past c₀ ((System.start c₀).transitions choices) s := by
  obtain ⟨hc, -⟩ := h.restored
  have hr : Reachable c₀ s := Reachable.start.run hrun
  have hv := hr.versioned hc
  refine ⟨hr.read_eq hc, (hr.committed hc).existsBetween_iff hc hv, fun {lock} ho => ?_,
    fun {j recovered} hj hread count towers shards hs batchSize threshold => ?_, fun {x} hx => ?_⟩
  · obtain ⟨names, hn⟩ := hr.owning hc
    obtain ⟨p, hp, hid, hlocked⟩ := hn.owned ho
    exact ⟨p, hp, hid, Client.commits_of_locked hlocked⟩
  · obtain ⟨store, hpast, hrestored, hcontents⟩ := h.contents hr hj
    obtain ⟨d, hd, hback⟩ := Restored.of_read hread hs batchSize threshold
    rw [AtomicStore.contents_read hread, hcontents] at hback
    refine ⟨d, hd, fun key => ?_⟩
    rw [hback.reads (hpast.next hrestored hr), recoveredState_concat]
  · have hminted : .minted x ∈ s.trace := by
      rcases hx with hx | hx
      · exact hv.applied hx
      · exact hv.sealed (mem_storedCommits.mp hx).1
    exact ((System.acknowledging hc hrun).minted hminted).1

/-! ### Failed operations -/

/-- What an operation that failed has done: it was not a read, its transaction is as it has to be, and its
own steps left alone what transactions share. -/
def Traceless (t₀ t : Transaction) (f : Fault) (steps : List (Transition σ)) : Request → Prop
  | .get _ => False
  | .set _ _ => f = .logFailure ∧ t = t₀ ∧ ∀ x ∈ steps, x.Quiet
  | .del _ => f = .logFailure ∧ t = t₀ ∧ ∀ x ∈ steps, x.Quiet
  | .commit => StopsCommit f ∧ t = { t₀ with finished := true } ∧
      (∀ x ∈ steps, x.KeepsShards ∧ x.SparesOthers t₀.id ∧ x.Counts) ∧ mintedBy steps ≤ 1
  | .rollback => f = .logFailure ∧ t = { t₀ with finished := true, writes := ∅, cache := ∅ } ∧
      ∀ x ∈ steps, x.Quiet

omit [LogStore σ] [AtomicStore σ] in
theorem Serving.traceless {t₀ t : Transaction} {f : Fault} {steps : List (Transition σ)} {r : Request}
    {es : List Event} (h : Serving t₀ r steps es ⟨t, .answered (.error f)⟩)
    (hopen : t₀.finished = false) : Traceless t₀ t f steps r := by
  have hserves : (⟨t, .answered (.error f)⟩ : Client).ServesOpen t₀ r := by
    have hs := h.serves
    rwa [Client.Serves, hopen] at hs
  cases r with
  | get key => exact hserves
  | set key value => exact ⟨hserves.1, hserves.2, h.quiet (by simp) (by simp)⟩
  | del key => exact ⟨hserves.1, hserves.2, h.quiet (by simp) (by simp)⟩
  | commit =>
      have hkeep : ∀ x ∈ steps, x.KeepsShards := by
        rcases h.shards with hkeep | hok | ⟨value, ha⟩
        · exact hkeep
        · exact hok.elim
        · simp at ha
      exact ⟨hserves.2, hserves.1, fun x hx => ⟨hkeep x hx, h.spares x hx, h.counts x hx⟩,
        h.versions⟩
  | rollback => exact ⟨hserves.2, hserves.1, h.quiet (by simp) (by simp)⟩

/-- An operation on a transaction that is finished is refused and changes nothing.  A write that fails
leaves its transaction as it was, and is not among the writes that count.  A commit or a rollback that
fails finishes its transaction, and buries it.  All this is so whatever others do in between, and what can
be seen later follows from the commits that succeeded. -/
theorem failed_operations_leave_no_trace (hstart : Starts past c₀) {before choices later : List Choice}
    {s₀ s s' : System σ} {i : ℕ} {r : Request} {t₀ t : Transaction} {a₀ a : Activity}
    (hbefore : (System.start c₀).run before = some s₀) (hp₀ : s₀.clients[i]? = some ⟨t₀, a₀⟩)
    (hrun : s₀.run (.request i r :: choices) = some s) (honly : ∀ r', .request i r' ∉ choices)
    (hp : s.clients[i]? = some ⟨t, a⟩) (hlater : s.run later = some s') :
    (t₀.finished = true → a = .answered (.error .finished) ∧ t = t₀ ∧
      ∀ x ∈ stepsOf i (s₀.transitions (.request i r :: choices)), x.Still) ∧
    (∀ f, t₀.finished = false → a = .answered (.error f) →
      Traceless t₀ t f (stepsOf i (s₀.transitions (.request i r :: choices))) r ∧
      (∀ key value, r = writeRequest key value → t₀.writes =
        acknowledged t₀.id ((System.start c₀).transitions (before ++ .request i r :: choices))) ∧
      (r = .commit ∨ r = .rollback → Buried t₀.id s')) ∧
    Explained past c₀ ((System.start c₀).transitions (before ++ .request i r :: choices ++ later))
      s' := by
  obtain ⟨hc, -⟩ := hstart.restored
  obtain ⟨p, hp', hserving⟩ := System.serving hp₀ hrun honly
  obtain rfl : p = ⟨t, a⟩ := Option.some.inj (hp'.symm.trans hp)
  have hrun₁ : (System.start c₀).run (before ++ .request i r :: choices) = some s := by
    rw [System.run_append, hbefore]
    exact hrun
  have hrun₂ : (System.start c₀).run (before ++ .request i r :: choices ++ later) = some s' := by
    rw [System.run_append, hrun₁]
    exact hlater
  refine ⟨fun hfin => ?_, fun f hopen ha => ?_, hstart.explained hrun₂⟩
  · have hserves := hserving.serves
    rw [Client.Serves, if_pos hfin, Client.mk.injEq] at hserves
    exact ⟨hserves.2, hserves.1, hserving.still hfin⟩
  · subst ha
    have htraceless := hserving.traceless hopen
    refine ⟨htraceless, fun key value hr => ?_, fun hr => ?_⟩
    · have ht : t = t₀ := by
        subst hr
        cases value <;> exact htraceless.2.1
      subst ht
      have hmem := List.mem_of_getElem? hp
      exact (System.acknowledging hc hrun₁).staged _ hmem (.inl hopen)
    · have hgave : GaveUp s.trace t₀.id := by
        refine hserving.gaveUp hopen ?_
        rcases hr with rfl | rfl
        · exact .inr ⟨rfl, f, rfl⟩
        · exact .inl rfl
      obtain ⟨new, hnew⟩ := System.exists_trace_of_run hlater
      exact hstart.buried (Reachable.start.run hrun₂) (hnew ▸ hgave.append new)

end atomic

/-! ### A commit whose record is lost -/

/-- Whether the operation of a client has answered that the log failed. -/
def Client.lostRecord (p : Client) : Bool :=
  match p.activity with
  | .answered (.error f) => f = .logFailure
  | _ => false

theorem Client.answered_of_lostRecord {p : Client} (h : p.lostRecord = true) :
    p.activity = .answered (.error .logFailure) := by
  unfold lostRecord at h
  split at h
  · next f ha => rw [ha, of_decide_eq_true h]
  · simp at h

/-- The log stores a write and loses the record of its commit.  A transaction that begins later reads
nothing. -/
theorem failed_operations_leave_no_trace_sample :
    ∃ (s₀ s s' : System ScriptedLog) (t₀ t : Transaction),
      (System.start (sampleBoot ⟨[], [false, true]⟩)).run (.begin :: Choice.write 0 "k" "v") = some s₀ ∧
      s₀.run (Choice.mint 0 ++ Choice.conclude 0) = some s ∧ t₀.writes.keys = ["k"] ∧
      Traceless t₀ t .logFailure (stepsOf 0 (s₀.transitions (Choice.mint 0 ++ Choice.conclude 0)))
        .commit ∧
      Buried t₀.id s' ∧ (∀ j, s'.coordinator.journal = some j →
        ∀ q ∈ AtomicStore.contents j.store, q.tx = t₀.id → q.kind ≠ .commit) ∧
      .read 3 "k" none ∈ s'.trace ∧
      none = stateAt (sampleBoot ⟨[], [false, true]⟩) s'.trace 3 "k" := by
  have hrun : ((System.start (sampleBoot ⟨[], [false, true]⟩)).run
      (.begin :: Choice.write 0 "k" "v")).any (fun s₀ =>
        s₀.clients[0]?.any (fun p => !p.transaction.finished && p.writes.keys = ["k"]) &&
        (s₀.run (Choice.mint 0 ++ Choice.conclude 0)).any fun s =>
          s.clients[0]?.any Client.lostRecord &&
          (s.run ([.begin, .request 1 (.get "k")] ++ List.replicate 4 (.advance 1))).any fun s' =>
            s'.trace.any (Event.isRead 3 "k" none)) = true := by
    decide +kernel
  obtain ⟨s₀, hbefore, h₀⟩ := (Option.any_eq_true _ _).mp hrun
  obtain ⟨hclient₀, h₀⟩ := Bool.and_eq_true_iff.mp h₀
  obtain ⟨⟨t₀, a₀⟩, hp₀, hopen⟩ := (Option.any_eq_true _ _).mp hclient₀
  obtain ⟨s, hcommit, h⟩ := (Option.any_eq_true _ _).mp h₀
  obtain ⟨hclient, h⟩ := Bool.and_eq_true_iff.mp h
  obtain ⟨⟨t, a⟩, hp, hlost⟩ := (Option.any_eq_true _ _).mp hclient
  obtain ⟨s', hlater, hread⟩ := (Option.any_eq_true _ _).mp h
  simp only [Bool.and_eq_true, Bool.not_eq_true', decide_eq_true_eq] at hopen
  have hstart : Starts [] (sampleBoot ⟨[], [false, true]⟩) := .recovered .none (booted_sampleBoot _)
  obtain ⟨-, hfailed, hexplained⟩ := failed_operations_leave_no_trace hstart hbefore hp₀ hcommit
    (by simp [Choice.conclude, Choice.save]) hp hlater
  obtain ⟨htraceless, -, hburied⟩ := hfailed _ hopen.1 (Client.answered_of_lostRecord hlost)
  have hburied := hburied (.inl rfl)
  exact ⟨s₀, s, s', t₀, t, hbefore, hcommit, hopen.2, htraceless, hburied, fun j hj => hburied.stored hj,
    mem_of_isRead hread, hexplained.reads (mem_of_isRead hread)⟩

end Run
end SnapshotStore

import SnapshotStore.Proofs.Run.Logging
import SnapshotStore.Proofs.Run.Reads

/-! # The commits that a log has

A commit counts for a later recovery if its record is stored.  `storedCommits` lists these commits of
a run.  They are the right ones (`Verdicts`):

* every commit that took effect is one of them (`mem_storedCommits_of_applied`);
* a transaction that was not asked to commit, was rolled back, or whose commit gave up is not
  (`not_gaveUp_of_stored`).

A replay of the records that a run stored has the effects of its stored commits
(`Logging.effects_durable`), in the order of the log, which for every key is that of the end versions
(`afterCommits_eq_writeAll`). -/

namespace SnapshotStore
namespace Run

open Journal (LogStore Logged Grows Saved Ready Noted Progress durable taking)

variable {σ : Type}

/-! ### What became of commits -/

section logged
variable {base : List Record} {j j' : Journal σ} {c₀ : Coordinator σ}

namespace Client

/-- The end version of a commit whose record was taken and is not known to be lost. -/
def pledged? (p : Client) : Option ℕ :=
  match p.activity with
  | .committing (.logging _ version (.handing _)) => some version
  | .committing (.logging _ version (.waiting _)) => some version
  | .committing (.logging _ version (.done true)) => some version
  | _ => none

end Client

/-- A commit that is pledged after a step was pledged before, or is sealed with the step. -/
theorem Move.of_pledged {c c' : Coordinator σ} {t : Transaction} {a : Activity}
    {new : List Event} {p' : Client} (h : Move c t a new p' c') (hj : c.journal = some j)
    {version : ℕ} (hv : p'.pledged? = some version) :
    p'.attempt version = ⟨t.id, version, t.writes⟩ ∧
      ((⟨t, a⟩ : Client).pledged? = some version ∨ .sealed (p'.attempt version) ∈ new) := by
  cases h with
  | log h =>
      next purpose save save' =>
      cases purpose with
      | sealing held v =>
          refine ⟨rfl, ?_⟩
          obtain ⟨j', hs, -⟩ := saved_of_logStep hj h
          rw [← mem_sealed, notesOf_eq hj, Purpose.sealed_marks]
          generalize taking j save = taken at hs
          cases hs with
          | refused => simp [Client.pledged?, Purpose.activity] at hv
          | taken hs =>
              have hversion : v = version := by
                rcases hs with rfl | rfl <;> exact Option.some.inj hv
              exact .inr (List.mem_singleton.mpr (hversion ▸ rfl))
          | handed hj => exact .inl hv
          | told ho =>
              next persisted =>
              cases persisted with
              | true => exact .inl hv
              | false => simp [Client.pledged?, Purpose.activity] at hv
      | _ => simp [Client.pledged?, Purpose.activity] at hv
  | _ => simp [Client.pledged?] at hv

/-- Whether a transaction was asked to roll back, or its commit gave up. -/
def GaveUp (es : List Event) (id : ℕ) : Prop :=
  .requested id .rollback ∈ es ∨ ∃ writes fault, .ended id writes (.error fault) ∈ es

/-- What holds of the commits in a run, as far as the log is concerned. -/
structure Verdicts (j : Journal σ) (s : System σ) : Prop where
  pledged : ∀ p ∈ s.clients, ∀ {version}, p.pledged? = some version →
    .sealed (p.attempt version) ∈ s.trace
  applied : ∀ {x}, .applied x ∈ s.trace → .sealed x ∈ s.trace ∧ Kept j (recordsOf s.trace x.id)
  failed : ∀ {id}, GaveUp s.trace id → Failed j (recordsOf s.trace id)

section moved
variable {c c' : Coordinator σ} {A B : List Client} {t : Transaction} {a : Activity}
  {p' : Client} {es new : List Event} (hlog : Logging base j ⟨c, A ++ ⟨t, a⟩ :: B, es⟩)
  (hm : Move c t a new p' c')
include hlog hm

theorem Logging.failed_moved {id : ℕ} (hf : Failed j (recordsOf es id)) (hgrow : Grows j j')
    (hc : ∀ held version save, a = .committing (.logging held version save) → id ≠ t.id) :
    Failed j' (recordsOf (es ++ new) id) := by
  obtain ⟨hown, hseals⟩ := hm.seals hlog.journal (hlog.tracks ⟨t, a⟩ (by simp))
  intro e he hk
  rw [recordsOf_append] at he
  rcases List.mem_append.mp he with he | he
  · exact hgrow (hf e he hk)
  · obtain ⟨he, htx⟩ := List.mem_filter.mp he
    have htx : e.2.tx = id := of_decide_eq_true htx
    rcases hseals with ⟨-, hnot⟩ | ⟨held, version, save, _, rfl, -⟩
    · exact absurd hk (hnot e he)
    · exact absurd (htx.symm.trans (hown e he).1) (hc held version save rfl)

omit hlog in
/-- Who gives up is the client that moves, unless it did before. -/
theorem Move.gaveUp {id : ℕ} (hg : GaveUp (es ++ new) id) : GaveUp es id ∨ id = t.id ∧
    (.requested id .rollback ∈ new ∨ ∃ writes fault, .ended id writes (.error fault) ∈ new) := by
  rcases hg with hq | ⟨writes, fault, he⟩
  · rcases List.mem_append.mp hq with hq | hq
    · exact .inl (.inl hq)
    · exact .inr ⟨(hm.of_rollback hq).1, .inl hq⟩
  · rcases List.mem_append.mp he with he | he
    · exact .inl (.inr ⟨writes, fault, he⟩)
    · exact .inr ⟨(hm.of_ended he).1, .inr ⟨writes, fault, he⟩⟩

theorem Verdicts.failed_moved (h : Verdicts j ⟨c, A ++ ⟨t, a⟩ :: B, es⟩)
    (hl : Locking ⟨c, A ++ ⟨t, a⟩ :: B, es⟩) (hr : Requested ⟨c, A ++ ⟨t, a⟩ :: B, es⟩)
    (hgrow : Grows j j') {id : ℕ} (hg : GaveUp (es ++ new) id) :
    Failed j' (recordsOf (es ++ new) id) := by
  have hp : (⟨t, a⟩ : Client) ∈ A ++ ⟨t, a⟩ :: B := by simp
  have htrack := hlog.tracks _ hp
  rcases hm.gaveUp hg with hg | ⟨rfl, hq | ⟨writes, fault, he⟩⟩
  · refine hlog.failed_moved hm (h.failed hg) hgrow ?_
    rintro held version save rfl rfl
    refine hr.not_isOver hl hp trivial ?_
    rcases hg with hq | ⟨writes, fault, he⟩
    · exact .inl hq
    · exact .inr ⟨writes, _, he⟩
  · obtain ⟨-, -, hopen, answer, rfl⟩ := hm.of_rollback hq
    exact hlog.failed_moved hm (.of_ready (htrack hopen)) hgrow (by simp)
  · obtain ⟨-, -, rfl⟩ := hm.of_ended he
    exact hlog.failed_moved hm htrack hgrow (by simp)

theorem Verdicts.moved (h : Verdicts j ⟨c, A ++ ⟨t, a⟩ :: B, es⟩)
    (hl : Locking ⟨c, A ++ ⟨t, a⟩ :: B, es⟩) (hr : Requested ⟨c, A ++ ⟨t, a⟩ :: B, es⟩)
    (hgrow : Grows j j') : Verdicts j' ⟨c', A ++ p' :: B, es ++ new⟩ := by
  have hp : (⟨t, a⟩ : Client) ∈ A ++ ⟨t, a⟩ :: B := by simp
  have hkept {id : ℕ} (hk : Kept j (recordsOf es id)) : Kept j' (recordsOf (es ++ new) id) := by
    rw [recordsOf_append]
    exact hk.grow hgrow _
  refine ⟨fun q hq version hv => ?_, fun {x} hx => ?_,
    fun hg => h.failed_moved hlog hm hl hr hgrow hg⟩
  · rcases mem_moved hq with rfl | hq
    · obtain ⟨hattempt, hv | hx⟩ := hm.of_pledged hlog.journal hv
      · rw [hattempt]
        exact List.mem_append_left _ (h.pledged _ hp hv)
      · exact List.mem_append_right _ hx
    · exact List.mem_append_left _ (h.pledged q (mem_of_others hq) hv)
  · rcases List.mem_append.mp hx with hx | hx
    · exact ⟨List.mem_append_left _ (h.applied hx).1, hkept (h.applied hx).2⟩
    · obtain ⟨held, version, rfl, rfl, -⟩ := hm.of_applied hx
      refine ⟨List.mem_append_left _ (h.pledged _ hp rfl), hkept ?_⟩
      obtain ⟨n, hn, ho⟩ := hlog.tracks _ hp
      exact .of_noted hn ho

end moved

theorem Verdicts.extend {s s' : System σ} (h : Verdicts j s) (hgrow : Grows j j')
    (hold : ∀ e ∈ s.trace, e ∈ s'.trace)
    (hnew : ∀ e ∈ s'.trace, e ∈ s.trace ∨ (∃ id, e = .began id) ∨ ∃ batch, e = .stored batch)
    (hnoted : noted s'.trace = noted s.trace)
    (hclients : ∀ p ∈ s'.clients, p ∈ s.clients ∨ p.pledged? = none) : Verdicts j' s' := by
  have hback {e : Event} (he : e ∈ s'.trace) (hb : ∀ id, e ≠ .began id)
      (hs : ∀ batch, e ≠ .stored batch) : e ∈ s.trace := by
    rcases hnew e he with he | ⟨id, rfl⟩ | ⟨batch, rfl⟩
    · exact he
    · exact absurd rfl (hb id)
    · exact absurd rfl (hs batch)
  have hrecords (id : ℕ) : recordsOf s'.trace id = recordsOf s.trace id := by
    rw [recordsOf, hnoted, recordsOf]
  refine ⟨fun p hp version hv => ?_, fun {x} hx => ?_, fun {id} hg => ?_⟩
  · rcases hclients p hp with hp | hnone
    · exact hold _ (h.pledged p hp hv)
    · simp [hnone] at hv
  · obtain ⟨hsealed, hkept⟩ := h.applied (hback hx (by simp) (by simp))
    refine ⟨hold _ hsealed, ?_⟩
    have := hkept.grow hgrow []
    rwa [List.append_nil, ← hrecords] at this
  · rw [hrecords]
    refine Failed.grow (h.failed ?_) hgrow
    rcases hg with hq | ⟨writes, fault, he⟩
    · exact .inl (hback hq (by simp) (by simp))
    · exact .inr ⟨writes, fault, hback he (by simp) (by simp)⟩

variable {s : System σ}

/-- The log of every system that a coordinator gets to. -/
theorem Reachable.logging [LogStore σ] {j₀ : Journal σ} (hc : Fresh c₀) (hj : c₀.journal = some j₀)
    (hl : Logged base j₀ [] []) (h : Reachable c₀ s) :
    ∃ j, Logging base j s ∧ Verdicts j s := by
  induction h with
  | start =>
      refine ⟨j₀, ⟨hj, hl, ?_, ?_, rfl, ?_, ?_, ?_⟩, ?_, ?_, ?_⟩ <;>
        simp [System.start, noted, sealed, GaveUp]
  | step hr hs ih =>
      obtain ⟨j, hlog, hver⟩ := ih
      have hlock := hr.locking hc
      have hv := hr.versioned hc
      have hcom := hr.committed hc
      have hreq := hr.requested hc
      have hstep := Step.of_next hs
      cases hstep with
      | began c ps es =>
          refine ⟨j, hlog.began_step hv, hver.extend (Grows.refl j)
            (fun e he => List.mem_append_left _ he) (fun e he => ?_) ?_ fun p hp => ?_⟩
          · rcases List.mem_append.mp he with he | he
            · exact .inl he
            · exact .inr (.inl ⟨_, List.mem_singleton.mp he⟩)
          · rw [noted_append]
            exact List.append_nil _
          · rcases List.mem_append.mp hp with hp | hp
            · exact .inl hp
            · exact .inr (List.mem_singleton.mp hp ▸ rfl)
      | moved hm =>
          obtain ⟨j', hgrow, hlog'⟩ := hlog.moved hm hlock hv hcom
          exact ⟨j', hlog', hver.moved hlog hm hlock hreq hgrow⟩
      | flushed hj hf =>
          next c ps es j₁ j' event =>
          obtain rfl : j₁ = j := Option.some.inj (hj.symm.trans hlog.journal)
          refine ⟨j', hlog.flushed hf, hver.extend (Grows.flusherStep hf)
            (fun e he => List.mem_append_left _ he) (fun e he => ?_) ?_ fun p hp => .inl hp⟩
          · rcases List.mem_append.mp he with he | he
            · exact .inl he
            · obtain ⟨batch, -, rfl⟩ := List.mem_map.mp he
              exact .inr (.inr ⟨batch, rfl⟩)
          · rw [noted_append, noted_flushEvents, List.append_nil]

/-! ### Stored commits -/

/-- Whether the log has stored the commit record of a transaction. -/
def isStored (es : List Event) (id : ℕ) : Bool :=
  (stored es).any fun b => b.records.any fun r => r.tx = id && r.kind = .commit

/-- The commits whose record is stored, in the order of their records. -/
def storedCommits (es : List Event) : List Attempt := (sealed es).filter fun x => isStored es x.id

theorem isStored_iff {es : List Event} {id : ℕ} :
    isStored es id = true ↔ ∃ b ∈ stored es, ∃ r ∈ b.records, r.tx = id ∧ r.kind = .commit := by
  simp [isStored]

theorem mem_storedCommits {es : List Event} {x : Attempt} :
    x ∈ storedCommits es ↔ .sealed x ∈ es ∧ isStored es x.id = true := by
  rw [storedCommits, List.mem_filter, mem_sealed]

/-- The commit record of a transaction is stored if the outcome of its batch says so. -/
theorem Logging.kept_iff (h : Logging base j s) (id : ℕ) :
    Kept j (recordsOf s.trace id) ↔ isStored s.trace id = true := by
  have hdurable {r : Record} : (∃ n, (n, r) ∈ noted s.trace ∧ j.outcome? n = some true) ↔
      ∃ b ∈ stored s.trace, r ∈ b.records := by
    rw [← h.logged.mem_durable, durable, List.mem_map]
    constructor
    · rintro ⟨n, hn, ho⟩
      exact ⟨(n, r), List.mem_filter.mpr ⟨hn, by simpa using ho⟩, rfl⟩
    · rintro ⟨⟨n, q⟩, hn, rfl⟩
      obtain ⟨hn, ho⟩ := List.mem_filter.mp hn
      exact ⟨n, hn, by simpa using ho⟩
  rw [isStored_iff]
  constructor
  · rintro ⟨⟨n, r⟩, he, hk, ho⟩
    obtain ⟨he, htx⟩ := mem_recordsOf.mp he
    obtain ⟨b, hb, hr⟩ := hdurable.mp ⟨n, he, ho⟩
    exact ⟨b, hb, r, hr, htx, hk⟩
  · rintro ⟨b, hb, r, hr, htx, hk⟩
    obtain ⟨n, hn, ho⟩ := hdurable.mpr ⟨b, hb, hr⟩
    exact ⟨(n, r), mem_recordsOf.mpr ⟨hn, htx⟩, hk, ho⟩

theorem mem_storedCommits_of_applied (h : Logging base j s) (hv : Verdicts j s) {x : Attempt}
    (hx : .applied x ∈ s.trace) : x ∈ storedCommits s.trace :=
  mem_storedCommits.mpr ⟨(hv.applied hx).1, (h.kept_iff x.id).mp (hv.applied hx).2⟩

theorem not_gaveUp_of_stored (h : Logging base j s) (hv : Verdicts j s) {x : Attempt}
    (hx : x ∈ storedCommits s.trace) : ¬ GaveUp s.trace x.id := by
  intro hg
  exact ((h.kept_iff x.id).mpr (mem_storedCommits.mp hx).2).not_failed (hv.failed hg)

/-! ### The effects of a replay -/

/-- The writes of a commit by the number of its transaction. -/
def writesIn (xs : List Attempt) (id : ℕ) : Writes := (xs.find? (·.id = id)).elim ∅ (·.writes)

theorem writesIn_eq {xs : List Attempt} (h : (xs.map (·.id)).Nodup) {x : Attempt} (hx : x ∈ xs) :
    writesIn xs x.id = x.writes := by
  cases hf : xs.find? (·.id = x.id) with
  | none =>
      rw [List.find?_eq_none] at hf
      exact absurd (decide_eq_true rfl) (hf x hx)
  | some y =>
      have hid : y.id = x.id := by simpa using List.find?_some hf
      have heq := List.inj_on_of_nodup_map h (List.mem_of_find?_eq_some hf) hx hid
      rw [writesIn, hf, heq]
      rfl

/-- A commit record of a transaction is its last record, and comes after the records of its writes. -/
theorem Logging.exists_of_commit (h : Logging base j s) {r : Record}
    (hr : r ∈ durable j (noted s.trace)) (hk : r.kind = .commit) :
    ∃ x ∈ sealed s.trace, x.id = r.tx ∧ ∃ qs : List Record,
      (durable j (noted s.trace)).filter (·.tx = r.tx) = qs ++ [r] ∧ qs.foldl stage ∅ = x.writes := by
  obtain ⟨⟨n, q⟩, hn, rfl⟩ := List.mem_map.mp hr
  obtain ⟨hn, ho⟩ := List.mem_filter.mp hn
  have htx : q.tx ∈ (sealed s.trace).map (·.id) := by
    rw [← h.commits]
    exact List.mem_map.mpr ⟨(n, q), List.mem_filter.mpr ⟨hn, by simpa using hk⟩, rfl⟩
  obtain ⟨x, hx, hid⟩ := List.mem_map.mp htx
  obtain ⟨m, past, q', hrecords, -, hready⟩ := h.complete x hx
  have hmem : (n, q) ∈ recordsOf s.trace x.id := mem_recordsOf.mpr ⟨hn, hid.symm⟩
  rw [hrecords] at hmem
  rcases List.mem_append.mp hmem with hmem | hmem
  · exact absurd hk (hready.uncommitted _ hmem)
  · obtain ⟨rfl, rfl⟩ := Prod.mk.inj (List.mem_singleton.mp hmem)
    refine ⟨x, hx, hid, durable j past, ?_, hready.writes⟩
    rw [Journal.filter_durable]
    show durable j (recordsOf s.trace q.tx) = _
    rw [← hid, hrecords, Journal.durable_append]
    have ho : j.outcome? n = some true := by simpa using ho
    simp [durable, ho]

theorem Logging.stored_iff (h : Logging base j s) {e : ℕ × Record} (he : e ∈ noted s.trace)
    (hk : e.2.kind = .commit) : j.outcome? e.1 = some true ↔ isStored s.trace e.2.tx = true := by
  rw [← h.kept_iff]
  constructor
  · intro ho
    exact ⟨e, mem_recordsOf.mpr ⟨he, rfl⟩, hk, ho⟩
  · rintro ⟨e', he', hk', ho⟩
    obtain ⟨he', htx⟩ := mem_recordsOf.mp he'
    have hnodup := h.once
    rw [← h.commits] at hnodup
    have heq : e' = e := List.inj_on_of_nodup_map hnodup
      (List.mem_filter.mpr ⟨he', by simpa using hk'⟩)
      (List.mem_filter.mpr ⟨he, by simpa using hk⟩) htx
    exact heq ▸ ho

/-- A replay of the records that a run stored has the effects of its stored commits. -/
theorem Logging.effects_durable (h : Logging base j s) :
    Replay.effects (fun _ => ∅) (durable j (noted s.trace)) =
      (storedCommits s.trace).map (·.writes) := by
  have hnodup : (durable j (noted s.trace)).Nodup :=
    (h.logged.durable_pairwise).imp fun hlt he => absurd (he ▸ hlt) (Nat.lt_irrefl _)
  rw [Replay.effects_eq hnodup (writesIn (sealed s.trace)) fun r hr hk => ?_]
  · have hcommits : (durable j (noted s.trace)).filter (·.kind = .commit) =
        (((noted s.trace).filter (·.2.kind = .commit)).filter
          fun e => isStored s.trace e.2.tx).map (·.2) := by
      rw [Journal.filter_durable, durable]
      congr 1
      refine List.filter_congr fun e he => ?_
      obtain ⟨he, hk⟩ := List.mem_filter.mp he
      rw [Bool.eq_iff_iff, decide_eq_true_eq]
      exact h.stored_iff he (by simpa using hk)
    calc ((durable j (noted s.trace)).filter (·.kind = .commit)).map
          (fun r => writesIn (sealed s.trace) r.tx)
        = ((((noted s.trace).filter (·.2.kind = .commit)).map (·.2.tx)).filter
            (isStored s.trace)).map (writesIn (sealed s.trace)) := by
          rw [hcommits, List.filter_map, List.map_map, List.map_map]
          rfl
      _ = (((sealed s.trace).map (·.id)).filter (isStored s.trace)).map
            (writesIn (sealed s.trace)) := by rw [h.commits]
      _ = (storedCommits s.trace).map fun x => writesIn (sealed s.trace) x.id := by
          rw [List.filter_map, List.map_map]
          rfl
      _ = (storedCommits s.trace).map (·.writes) :=
          List.map_congr_left fun x hx => writesIn_eq h.once (List.mem_filter.mp hx).1
  · obtain ⟨x, hx, hid, qs, hqs, hwrites⟩ := h.exists_of_commit hr hk
    refine ⟨qs, hqs, hwrites.trans ?_⟩
    rw [← hid, writesIn_eq h.once hx]

end logged

/-! ### The order of commits -/

/-- If commits on a common key come in the order of their end versions, their order makes no
difference. -/
theorem afterCommits_eq_writeAll (m : State) {xs : List Attempt}
    (h : xs.Pairwise fun x y => Meet x.writes y.writes → x.version < y.version) :
    afterCommits m xs = m.writeAll (xs.map (·.writes)) := by
  funext key
  have hskip {zs : List Attempt} :
      m.writeAll ((zs.filter (key ∈ ·.writes.keys)).map (·.writes)) key =
        m.writeAll (zs.map (·.writes)) key := by
    have hfilter : (zs.filter (key ∈ ·.writes.keys)).map (·.writes) =
        (zs.map (·.writes)).filter (key ∈ ·.keys) := by
      rw [List.filter_map]
      rfl
    rw [hfilter]
    refine State.writeAll_filter _ fun w _ hw => ?_
    exact w.get?_eq_none_iff.mpr (by simpa using hw)
  have hsame : (inOrder xs).filter (key ∈ ·.writes.keys) = xs.filter (key ∈ ·.writes.keys) := by
    have hsorted : (xs.filter (key ∈ ·.writes.keys)).Pairwise fun x y => x.version < y.version := by
      refine (h.sublist List.filter_sublist).imp_of_mem fun {x y} hx hy hlt => ?_
      have hkx : key ∈ x.writes.keys := by simpa using (List.mem_filter.mp hx).2
      have hky : key ∈ y.writes.keys := by simpa using (List.mem_filter.mp hy).2
      exact hlt ⟨key, hkx, hky⟩
    have hperm := (List.mergeSort_perm xs fun x y => x.version ≤ y.version).filter
      (key ∈ ·.writes.keys)
    refine hperm.eq_of_pairwise (fun x y hx hy hxy hyx => ?_)
      ((pairwise_inOrder xs).sublist List.filter_sublist) (hsorted.imp Nat.le_of_lt)
    exact eq_of_version hsorted (hperm.mem_iff.mp hx) hy (Nat.le_antisymm hxy hyx)
  rw [afterCommits, ← hskip, hsame, hskip]
where
  eq_of_version {ys : List Attempt} (h : ys.Pairwise fun x y => x.version < y.version)
      {x y : Attempt} (hx : x ∈ ys) (hy : y ∈ ys) (he : x.version = y.version) : x = y :=
    List.inj_on_of_nodup_map
      (List.pairwise_map.mpr (h.imp fun hlt => Nat.ne_of_lt hlt)) hx hy he

theorem afterCommits_congr {m m' : State} {xs ys : List Attempt} {key : String}
    (hm : m key = m' key) (h : ∀ x, x ∈ xs ↔ x ∈ ys)
    (hinj : ∀ x ∈ xs, ∀ y ∈ xs, x.version = y.version → x = y) :
    afterCommits m xs key = afterCommits m' ys key := by
  rcases afterCommits_cases m xs key with ⟨hnone, hx⟩ | ⟨x, hx, hxv, hxm⟩ <;>
    rcases afterCommits_cases m' ys key with ⟨hnone', hy⟩ | ⟨y, hy, hyv, hym⟩
  · rw [hx, hy, hm]
  · simp [hnone y ((h y).mpr hy)] at hyv
  · simp [hnone' x ((h x).mp hx)] at hxv
  · have hle := hxm y ((h y).mpr hy) ((Table.mem_keys_iff _ _).mpr ⟨_, hyv⟩)
    have hge := hym x ((h x).mp hx) ((Table.mem_keys_iff _ _).mpr ⟨_, hxv⟩)
    obtain rfl := hinj x hx y ((h y).mpr hy) (Nat.le_antisymm hge hle)
    exact Option.some.inj (hxv.symm.trans hyv)

end Run
end SnapshotStore

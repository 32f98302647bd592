import SnapshotStore.Proofs.Replay.Order
import SnapshotStore.Proofs.Run.Recovery

/-! # Identities over many lives

A store has one life after the other on one log (`Lifetimes`), and its writes may fail in any way that
leaves only records of the batch behind (`TornStore`).  What a life leaves in the log are records that
its clients took (`Leaves`), each by a step of one client (`LoggedBy`).  A life starts above all numbers
that it finds, so that

* the numbers of records rise from life to life, and no two records have the same;
* two records with the same transaction number come from one client of one life.

Hence a replay gives a commit only writes that its own transaction logged
(`identities_never_reused`). -/

namespace SnapshotStore

/-! ### Stores that leave something of a failed write -/

namespace Journal

/-- A log store that stores all records of a write that succeeds, and some records, or all or none, of
a write that fails.  Reads give back what was stored. -/
class TornStore (σ : Type) [LogStore σ] where
  contents : σ → List Record
  contents_ok : ∀ {s s' : σ} {records : List Record},
    LogStore.write s records = (.ok (), s') → contents s' = contents s ++ records
  contents_error : ∀ {s s' : σ} {records : List Record} {fault : Fault},
    LogStore.write s records = (.error fault, s') →
      ∃ left, left.Sublist records ∧ contents s' = contents s ++ left
  contents_read : ∀ {s : σ} {recovered : Recovered},
    LogStore.read s = .ok recovered → recovered.records = contents s

instance (σ : Type) [LogStore σ] [AtomicStore σ] : TornStore σ where
  contents := AtomicStore.contents
  contents_ok := AtomicStore.contents_ok
  contents_error h := ⟨[], List.nil_sublist _, by rw [AtomicStore.contents_error h, List.append_nil]⟩
  contents_read := AtomicStore.contents_read

variable {σ : Type} [LogStore σ] [TornStore σ]

theorem TornStore.exists_left (s : σ) (records : List Record) :
    ∃ left, left.Sublist records ∧
      contents (LogStore.write s records).2 = contents s ++ left := by
  cases hw : LogStore.write s records with
  | mk result s' =>
      cases result with
      | ok u => exact ⟨records, List.Sublist.refl _, contents_ok hw⟩
      | error fault => exact contents_error hw

/-- What a journal added to the records of its store: records that it took, of batches with an
outcome, each at most once. -/
structure Leaves (base : List Record) (j : Journal σ) (noted : List (ℕ × Record))
    (left : List Record) : Prop where
  contents : TornStore.contents j.store = base ++ left
  taken : ∀ r ∈ left, ∃ n, (n, r) ∈ noted ∧ j.outcome? n ≠ none
  distinct : (left.map (·.lsn)).Nodup

variable {base base' left : List Record} {j j' : Journal σ} {noted : List (ℕ × Record)}
  {stored : List Batch}

theorem Leaves.saved {save save' : Save} {new : List (ℕ × Record)} (h : Leaves base j noted left)
    (hs : Saved j save new save' j') : Leaves base j' (noted ++ new) left where
  contents := by rw [hs.frame.1, h.contents]
  taken r hr := by
    obtain ⟨n, hn, ho⟩ := h.taken r hr
    exact ⟨n, List.mem_append_left _ hn, by rwa [outcome?, hs.frame.2.1]⟩
  distinct := h.distinct

theorem Leaves.write (h : Leaves base j noted left) (hl : Logged base' j noted stored) {b : Batch}
    (ht : j.taken = some b) :
    ∃ left', Leaves base ({ j with taken := none }.write b) noted left' := by
  have hflight : b ∈ flight j := by simp [flight, ht]
  have hunknown := hl.unknown b hflight
  obtain ⟨some', hsub, hcontents⟩ := TornStore.exists_left j.store b.records
  have hnoted {r : Record} (hr : r ∈ some') : (b.number, r) ∈ noted :=
    mem_recordsIn.mp (hl.records b hflight ▸ hsub.subset hr)
  rw [write_eq (j := { j with taken := none }) hunknown]
  refine ⟨left ++ some', ?_, fun r hr => ?_, ?_⟩
  · show TornStore.contents (LogStore.write j.store b.records).2 = _
    rw [hcontents, h.contents, List.append_assoc]
  · rcases List.mem_append.mp hr with hr | hr
    · obtain ⟨n, hn, ho⟩ := h.taken r hr
      refine ⟨n, hn, ?_⟩
      rw [outcome?, Table.get?_insert]
      split
      · simp
      · exact ho
    · refine ⟨b.number, hnoted hr, ?_⟩
      rw [outcome?, Table.get?_insert_self]
      simp
  · have hlsn : (noted.map (·.2.lsn)).Nodup := hl.ordered.imp Nat.ne_of_lt
    rw [List.map_append]
    refine List.nodup_append.mpr ⟨h.distinct, ?_, fun m hm n hn => ?_⟩
    · have hrecords : (b.records.map (·.lsn)).Sublist (noted.map (·.2.lsn)) := by
        rw [hl.records b hflight, recordsIn, List.map_map]
        exact List.filter_sublist.map _
      exact hlsn.sublist ((hsub.map _).trans hrecords)
    · rintro rfl
      obtain ⟨r, hr, rfl⟩ := List.mem_map.mp hm
      obtain ⟨q, hq, heq⟩ := List.mem_map.mp hn
      obtain ⟨n, hn, ho⟩ := h.taken r hr
      have hsame := List.inj_on_of_nodup_map hlsn hn (hnoted hq) heq.symm
      rw [(Prod.mk.inj hsame).1] at ho
      exact ho hunknown

theorem Leaves.flusherStep (h : Leaves base j noted left) (hl : Logged base' j noted stored)
    {event : Event} (hj : j.flusherStep event = some j') : ∃ left', Leaves base j' noted left' := by
  unfold Journal.flusherStep at hj
  split at hj
  · next b ht =>
    obtain rfl := Option.some.inj hj
    exact h.write hl ht
  · obtain ⟨hstore, houtcomes, -⟩ := (Turned.of_nextTask hj).frame
    refine ⟨left, by rw [hstore, h.contents], fun r hr => ?_, h.distinct⟩
    obtain ⟨n, hn, ho⟩ := h.taken r hr
    exact ⟨n, hn, by rwa [outcome?, houtcomes]⟩

end Journal

namespace Run

open Journal (LogStore AtomicStore TornStore Leaves Logged)
open Replay (remember)

variable {σ : Type} [LogStore σ]

/-! ### Who logged a record -/

/-- Whether the `i`-th client of a run took a record with one of its steps. -/
def LoggedBy (c : Coordinator σ) (i : ℕ) (r : Record) (s : System σ) : Prop :=
  ∃ s₁ s₂ choices, Reachable c s₁ ∧ s₁.next (.advance i) = some s₂ ∧ s₂.run choices = some s ∧
    ∃ n, (n, r) ∉ noted s₁.trace ∧ (n, r) ∈ noted s₂.trace

section clients
variable {c : Coordinator σ} {s s' : System σ} {choice : Choice} {i : ℕ} {r : Record}

/-- Clients stay where they are in the list, and keep their transactions. -/
theorem exists_client_of_next (h : s.next choice = some s') {p : Client}
    (hp : s.clients[i]? = some p) : ∃ p', s'.clients[i]? = some p' ∧ p'.id = p.id := by
  have hstep := Step.of_next h
  cases hstep with
  | began c ps es =>
      refine ⟨p, ?_, rfl⟩
      show (ps ++ _)[i]? = some p
      rw [List.getElem?_append_left (List.getElem?_eq_some_iff.mp hp).1]
      exact hp
  | moved hm =>
      next c c' A B t a p' es new =>
      have hp : (A ++ ⟨t, a⟩ :: B)[i]? = some p := hp
      rcases Nat.lt_trichotomy i A.length with hlt | rfl | hgt
      · refine ⟨p, ?_, rfl⟩
        rw [List.getElem?_append_left hlt] at hp ⊢
        exact hp
      · obtain rfl : (⟨t, a⟩ : Client) = p := by simpa using hp
        exact ⟨p', by simp, hm.id_eq⟩
      · refine ⟨p, ?_, rfl⟩
        have hcons (x : Client) : (A ++ x :: B)[i]? = B[i - A.length - 1]? := by
          rw [List.getElem?_append_right (Nat.le_of_lt hgt), List.getElem?_cons]
          simp [Nat.sub_ne_zero_of_lt hgt]
        rw [hcons] at hp ⊢
        exact hp
  | flushed hj hf => exact ⟨p, hp, rfl⟩

theorem exists_client_of_run {choices : List Choice} (h : s.run choices = some s') {p : Client}
    (hp : s.clients[i]? = some p) : ∃ p', s'.clients[i]? = some p' ∧ p'.id = p.id := by
  induction choices generalizing s p with
  | nil =>
      obtain rfl := Option.some.inj h
      exact ⟨p, hp, rfl⟩
  | cons choice choices ih =>
      obtain ⟨s₁, hs, hr⟩ := Option.bind_eq_some_iff.mp h
      obtain ⟨p₁, hp₁, hid⟩ := exists_client_of_next hs hp
      obtain ⟨p', hp', hid'⟩ := ih hr hp₁
      exact ⟨p', hp', hid'.trans hid⟩

omit [LogStore σ] in
theorem noted_requestEvents (p : Client) (request : Request) :
    noted (p.requestEvents request) = [] := by
  unfold Client.requestEvents
  split
  · rfl
  · split
    · split <;> rfl
    · rfl

/-- Records are taken by steps of clients. -/
theorem exists_advance_of_noted (h : s.next choice = some s') {e : ℕ × Record}
    (hold : e ∉ noted s.trace) (he : e ∈ noted s'.trace) : ∃ i, choice = .advance i := by
  have hnone {new : List Event} (htrace : s'.trace = s.trace ++ new) (hnew : noted new = []) :
      False := by
    rw [htrace, noted_append, hnew, List.append_nil] at he
    exact hold he
  cases choice with
  | advance i => exact ⟨i, rfl⟩
  | begin =>
      obtain rfl := Option.some.inj h
      exact (hnone rfl rfl).elim
  | request i request =>
      obtain ⟨p, -, -, rfl⟩ := System.of_request h
      exact (hnone rfl (noted_requestEvents p request)).elim
  | flush event =>
      obtain ⟨j, j', -, -, rfl⟩ := System.of_flush h
      exact (hnone rfl (noted_flushEvents j)).elim

theorem LoggedBy.step (h : LoggedBy c i r s) (hs : s.next choice = some s') :
    LoggedBy c i r s' := by
  obtain ⟨s₁, s₂, choices, hr, hnext, hrun, hn⟩ := h
  refine ⟨s₁, s₂, choices ++ [choice], hr, hnext, ?_, hn⟩
  rw [System.run_append, hrun]
  simpa [System.run] using hs

theorem Reachable.exists_loggedBy (h : Reachable c s) {n : ℕ} (hr : (n, r) ∈ noted s.trace) :
    ∃ i, LoggedBy c i r s := by
  induction h with
  | start => simp [System.start, noted] at hr
  | step hs hnext ih =>
      next s s' choice =>
      by_cases hold : (n, r) ∈ noted s.trace
      · obtain ⟨i, hi⟩ := ih hold
        exact ⟨i, hi.step hnext⟩
      · obtain ⟨i, rfl⟩ := exists_advance_of_noted hnext hold hr
        exact ⟨i, s, s', [], hs, hnext, rfl, n, hold, hr⟩

/-- A record has the number of the transaction of the client that took it. -/
theorem LoggedBy.exists_client {base : List Record} {j₀ : Journal σ} (hc : Fresh c)
    (hj : c.journal = some j₀) (hl : Logged base j₀ [] []) (h : LoggedBy c i r s) :
    ∃ p, s.clients[i]? = some p ∧ p.id = r.tx := by
  obtain ⟨s₁, s₂, choices, hr, hnext, hrun, n, hold, hn⟩ := h
  obtain ⟨j, hlog, -⟩ := hr.logging hc hj hl
  have hp : ∃ p, s₁.clients[i]? = some p ∧ p.id = r.tx := by
    obtain ⟨p, p', c', hp, ha, rfl⟩ := System.of_advance hnext
    obtain ⟨A, B, hsplit, -⟩ := exists_split_of_getElem? hp
    obtain ⟨c₁, ps, es⟩ := s₁
    obtain rfl : ps = A ++ p :: B := hsplit
    refine ⟨p, hp, ?_⟩
    rw [noted_append] at hn
    rcases List.mem_append.mp hn with hn | hn
    · exact absurd hn hold
    · exact (hlog.tx_moved (.of_advance ha) hn).symm
  obtain ⟨p, hp, hid⟩ := hp
  obtain ⟨p₂, hp₂, hid₂⟩ := exists_client_of_next hnext hp
  obtain ⟨p', hp', hid'⟩ := exists_client_of_run hrun hp₂
  exact ⟨p', hp', hid'.trans (hid₂.trans hid)⟩

theorem LoggedBy.eq_of_tx {base : List Record} {j₀ : Journal σ} (hc : Fresh c)
    (hj : c.journal = some j₀) (hl : Logged base j₀ [] []) (hs : Reachable c s) {k : ℕ}
    {q : Record} (hi : LoggedBy c i r s) (hk : LoggedBy c k q s) (htx : r.tx = q.tx) : i = k := by
  obtain ⟨p, hp, hpid⟩ := hi.exists_client hc hj hl
  obtain ⟨p', hp', hpid'⟩ := hk.exists_client hc hj hl
  have hdistinct := (hs.locking hc).guards.distinct
  rw [List.map_map] at hdistinct
  refine (List.getElem?_inj ?_ hdistinct).mp ?_
  · simpa using (List.getElem?_eq_some_iff.mp hp).1
  · simp only [List.getElem?_map, hp, hp', Option.map_some, Option.some.injEq]
    exact hpid.trans (htx.trans hpid'.symm)

end clients

/-! ### What a life leaves -/

section torn
variable [TornStore σ]

theorem Reachable.leaves {c : Coordinator σ} {s : System σ} {base : List Record}
    {j₀ : Journal σ} (hc : Fresh c) (hj : c.journal = some j₀) (hl : Logged base j₀ [] [])
    (h : Reachable c s) : ∃ j left, s.coordinator.journal = some j ∧
      Leaves (TornStore.contents j₀.store) j (noted s.trace) left := by
  induction h with
  | start => exact ⟨j₀, [], hj, (List.append_nil _).symm, by simp, by simp⟩
  | step hr hs ih =>
      obtain ⟨j, left, hj', hleaves⟩ := ih
      obtain ⟨j₁, hlog, -⟩ := hr.logging hc hj hl
      obtain rfl : j = j₁ := Option.some.inj (hj'.symm.trans hlog.journal)
      have hstep := Step.of_next hs
      cases hstep with
      | began c ps es =>
          refine ⟨j, left, hj', ?_⟩
          rw [noted_append]
          exact (List.append_nil (noted es)).symm ▸ hleaves
      | moved hm =>
          rw [noted_append]
          rcases hm.journal hj' with ⟨_, _, _, j', -, hsaved, hj'', -⟩ | ⟨hj'', hnone, -⟩
          · exact ⟨j', left, hj'', hleaves.saved hsaved⟩
          · rw [hnone, List.append_nil]
            exact ⟨j, left, hj'', hleaves⟩
      | flushed hj₁ hf =>
          next c ps es j₁ j' event =>
          obtain rfl : j₁ = j := Option.some.inj (hj₁.symm.trans hj')
          rw [noted_append, noted_flushEvents, List.append_nil]
          obtain ⟨left', hleaves'⟩ := hleaves.flusherStep hlog.logged hf
          exact ⟨j', left', rfl, hleaves'⟩

end torn

/-- One life of a store: the coordinator that it started with, the system at which it was stopped, and
the records that it left in the log. -/
structure Life (σ : Type) where
  start : Coordinator σ
  final : System σ
  left : List Record

/-- What holds of the records that a life left in a log that had some records before. -/
structure Life.Sound (past : List Record) (l : Life σ) : Prop where
  distinct : (l.left.map (·.lsn)).Nodup
  above : ∀ q ∈ past, ∀ r ∈ l.left, q.lsn < r.lsn ∧ q.tx < r.tx
  logged : ∀ r ∈ l.left, ∃ i, LoggedBy l.start i r l.final
  alone : ∀ {i k r q}, LoggedBy l.start i r l.final → LoggedBy l.start k q l.final →
    r.tx = q.tx → i = k

theorem Booted.leaves [TornStore σ] {store : σ} {c : Coordinator σ} {s : System σ} {j : Journal σ}
    (hb : Booted store c) (hr : Reachable c s) (hj : s.coordinator.journal = some j) :
    ∃ left, TornStore.contents j.store = TornStore.contents store ++ left ∧
      (⟨c, s, left⟩ : Life σ).Sound (TornStore.contents store) := by
  obtain ⟨recovered, hread, hrestored⟩ := hb.recovered
  obtain ⟨j₀, hj₀, hl, rfl⟩ := hrestored.logged
  have hc := hrestored.fresh
  obtain ⟨j', hlog, -⟩ := hr.logging hc hj₀ hl
  obtain ⟨j'', left, hj'', hleaves⟩ := hr.leaves hc hj₀ hl
  obtain rfl := Option.some.inj (hlog.journal.symm.trans hj)
  obtain rfl := Option.some.inj (hj''.symm.trans hj)
  refine ⟨left, hleaves.contents, hleaves.distinct, fun q hq r hr' => ?_, fun r hr' => ?_,
    fun hi hk htx => hi.eq_of_tx hc hj₀ hl hr hk htx⟩
  · obtain ⟨n, hn, -⟩ := hleaves.taken r hr'
    rw [← TornStore.contents_read hread] at hq
    exact ⟨(hlog.logged.above q hq).2 _ hn,
      (hrestored.past q hq).trans_lt (hlog.lastVersion_lt (hr.versioned hc) hn)⟩
  · obtain ⟨n, hn, -⟩ := hleaves.taken r hr'
    exact hr.exists_loggedBy hn

/-! ### Lives -/

/-- The lives of a store, and the log after them.  Every life replays the log that the last one left,
and is stopped at any point. -/
inductive Lifetimes [TornStore σ] : List (Life σ) → List Record → Prop
  | none : Lifetimes [] []
  | life {lives : List (Life σ)} {store : σ} {c : Coordinator σ} {s : System σ} {j : Journal σ}
      (h : Lifetimes lives (TornStore.contents store)) (hb : Booted store c) (hr : Reachable c s)
      (hj : s.coordinator.journal = some j) :
      Lifetimes (lives ++
        [⟨c, s, (TornStore.contents j.store).drop (TornStore.contents store).length⟩])
        (TornStore.contents j.store)

/-- Whether a record is one that the `a`-th life left and that its `i`-th client took. -/
def Author (lives : List (Life σ)) (a i : ℕ) (r : Record) : Prop :=
  ∃ l, lives[a]? = some l ∧ r ∈ l.left ∧ LoggedBy l.start i r l.final

/-- What holds of a log and the lives that left it. -/
structure Attributed (lives : List (Life σ)) (rs : List Record) : Prop where
  log : rs = lives.flatMap (·.left)
  distinct : (rs.map (·.lsn)).Nodup
  above : lives.Pairwise fun l m => ∀ r ∈ l.left, ∀ q ∈ m.left, r.lsn < q.lsn ∧ r.tx < q.tx
  lives : ∀ l ∈ lives, ∃ past, l.Sound past

theorem Attributed.concat {lives : List (Life σ)} {l : Life σ} {rs : List Record}
    (h : Attributed lives rs) (hl : l.Sound rs) : Attributed (lives ++ [l]) (rs ++ l.left) := by
  have hmem {m : Life σ} {q : Record} (hm : m ∈ lives) (hq : q ∈ m.left) : q ∈ rs := by
    rw [h.log]
    exact List.mem_flatMap.mpr ⟨m, hm, hq⟩
  refine ⟨?_, ?_, ?_, fun m hm => ?_⟩
  · rw [List.flatMap_append, List.flatMap_singleton, ← h.log]
  · rw [List.map_append]
    refine List.nodup_append.mpr ⟨h.distinct, hl.distinct, fun m hm n hn => ?_⟩
    obtain ⟨q, hq, rfl⟩ := List.mem_map.mp hm
    obtain ⟨r, hr, rfl⟩ := List.mem_map.mp hn
    exact Nat.ne_of_lt (hl.above q hq r hr).1
  · refine List.pairwise_append.mpr ⟨h.above, List.pairwise_singleton .., fun m hm m' hm' => ?_⟩
    obtain rfl := List.mem_singleton.mp hm'
    exact fun q hq r hr => hl.above q (hmem hm hq) r hr
  · rcases List.mem_append.mp hm with hm | hm
    · exact h.lives m hm
    · exact ⟨rs, List.mem_singleton.mp hm ▸ hl⟩

theorem Lifetimes.attributed [TornStore σ] {lives : List (Life σ)} {rs : List Record} (h : Lifetimes lives rs) :
    Attributed lives rs := by
  induction h with
  | none => exact ⟨rfl, by simp, .nil, by simp⟩
  | life h hb hr hj ih =>
      obtain ⟨left, hcontents, hsound⟩ := hb.leaves hr hj
      rw [hcontents, List.drop_left]
      exact ih.concat hsound

section attributed
variable {lives : List (Life σ)} {rs : List Record} (h : Attributed lives rs)
include h

theorem Attributed.exists_author {r : Record} (hr : r ∈ rs) : ∃ a i, Author lives a i r := by
  rw [h.log] at hr
  obtain ⟨l, hl, hr⟩ := List.mem_flatMap.mp hr
  obtain ⟨a, ha⟩ := List.mem_iff_getElem?.mp hl
  obtain ⟨past, hsound⟩ := h.lives l hl
  obtain ⟨i, hi⟩ := hsound.logged r hr
  exact ⟨a, i, l, ha, hr, hi⟩

theorem Attributed.tx_lt {a b i k : ℕ} {r q : Record} (hr : Author lives a i r)
    (hq : Author lives b k q) (hlt : a < b) : r.tx < q.tx := by
  obtain ⟨l, ha, hr, -⟩ := hr
  obtain ⟨m, hb, hq, -⟩ := hq
  obtain ⟨ha', rfl⟩ := List.getElem?_eq_some_iff.mp ha
  obtain ⟨hb', rfl⟩ := List.getElem?_eq_some_iff.mp hb
  exact (List.pairwise_iff_getElem.mp h.above a b ha' hb' hlt r hr q hq).2

theorem Attributed.author_eq {a b i k : ℕ} {r q : Record} (hr : Author lives a i r)
    (hq : Author lives b k q) (htx : r.tx = q.tx) : a = b ∧ i = k := by
  rcases Nat.lt_trichotomy a b with hlt | rfl | hgt
  · exact absurd htx (Nat.ne_of_lt (h.tx_lt hr hq hlt))
  · obtain ⟨l, ha, -, hi⟩ := hr
    obtain ⟨m, hb, -, hk⟩ := hq
    obtain rfl := Option.some.inj (ha.symm.trans hb)
    obtain ⟨past, hsound⟩ := h.lives l (List.mem_of_getElem? ha)
    exact ⟨rfl, hsound.alone hi hk htx⟩
  · exact absurd htx.symm (Nat.ne_of_lt (h.tx_lt hq hr hgt))

end attributed

/-- The log after any lives is what the lives left, one after the other.  No two records have the same
number, and a life has higher numbers than all lives before it.  Every record was taken by a client of a
life, and two records with the same transaction number by the same client of the same life.  So, in a
replay of any records of the log, what is applied for a commit are writes that the client of the commit
logged itself. -/
theorem identities_never_reused [TornStore σ] {lives : List (Life σ)} {rs : List Record}
    (h : Lifetimes lives rs) :
    rs = lives.flatMap (·.left) ∧ (rs.map (·.lsn)).Nodup ∧
    (lives.Pairwise fun l m => ∀ r ∈ l.left, ∀ q ∈ m.left, r.lsn < q.lsn) ∧
    (∀ r ∈ rs, ∃ a i, Author lives a i r) ∧
    (∀ a b i k r q, Author lives a i r → Author lives b k q → r.tx = q.tx → a = b ∧ i = k) ∧
    ∀ (shards : Shards) (before after : List Record) (r : Record),
      before ++ r :: after ⊆ rs → r.kind = .commit → ∀ a i, Author lives a i r →
      ∀ writes, (Replay.fresh.applyAll shards before).2.1.pending.get? r.tx = some writes →
      ∀ key value, writes.get? key = some value →
        ∃ q ∈ before, Author lives a i q ∧ q.key? = some key ∧ q.value? = value := by
  have hlog := h.attributed
  refine ⟨hlog.log, hlog.distinct, hlog.above.imp fun hlt r hr q hq => (hlt r hr q hq).1,
    fun r hr => hlog.exists_author hr, fun a b i k r q hr hq htx => hlog.author_eq hr hq htx,
    fun shards before after r hsub hk a i hr writes hw key value hv => ?_⟩
  obtain ⟨q, hq, htx, hkey, hvalue⟩ := Replay.exists_of_pending hw hv
  obtain ⟨b, k, hauthor⟩ := hlog.exists_author (hsub (List.mem_append_left _ hq))
  obtain ⟨rfl, rfl⟩ := hlog.author_eq hauthor hr htx
  exact ⟨q, hq, hauthor, hkey, hvalue⟩

/-! ### A commit that failed and is stored -/

/-- A log in memory.  Its next writes succeed, or fail and leave some records, as told; all later ones
succeed. -/
structure TornLog where
  records : List Record
  fates : List (Option ℕ)

instance : LogStore TornLog where
  write log records :=
    match log.fates with
    | [] => (.ok (), { log with records := log.records ++ records })
    | none :: fates => (.ok (), ⟨log.records ++ records, fates⟩)
    | some n :: fates => (.error .logFailure, ⟨log.records ++ records.take n, fates⟩)
  read log := .ok ⟨log.records, ⟨1, 1, log.records.length, [], Journal.lastLsn? log.records⟩⟩

instance : TornStore TornLog where
  contents log := log.records
  contents_ok h := by
    simp only [LogStore.write] at h
    split at h <;> simp_all [← (Prod.mk.inj h).2]
  contents_error {s s' records fault} h := by
    simp only [LogStore.write] at h
    split at h
    · simp at h
    · simp at h
    · next n fates hfates =>
      obtain rfl := (Prod.mk.inj h).2
      exact ⟨records.take n, List.take_sublist n records, rfl⟩
  contents_read h := by
    obtain rfl := Except.ok.inj h
    rfl

/-- What is left of a life in which a commit failed but its record was stored, and the record of another
transaction was lost. -/
def sampleTorn : List Record := [⟨1, 1, .set, ["k", "v"]⟩, ⟨2, 1, .commit, []⟩]

/-- The same log after a second life with a transaction that stays open. -/
def sampleTornLater : List Record := sampleTorn ++ [⟨3, 2, .set, ["k", "x"]⟩]

/-- The coordinator of a store with a log, after recovery. -/
def tornBoot (store : TornLog) : Coordinator TornLog := (boot store sample.shards 1 1).2.coordinator

theorem booted_tornBoot (store : TornLog) : Booted store (tornBoot store) := by
  refine ⟨1, fun _ => Height.ruler, sample.shards, 1, 1, rfl, _, ?_, rfl⟩
  rfl

theorem tornBoot_eq : tornBoot ⟨sampleTorn, []⟩ =
    ((Database.create ⟨sample.shards, LockTable.create 1,
      some { Journal.start ⟨sampleTorn, []⟩ 1 with nextLsn := 3 }, 0⟩ false).replay
        sampleTorn).coordinator := by
  have hsorted : sampleTorn.mergeSort (fun a b => a.lsn ≤ b.lsn) = sampleTorn :=
    List.mergeSort_of_pairwise (by decide)
  simp only [tornBoot, boot, Database.recover, Database.create, Coordinator.create,
    Journal.recover, Journal.start, LogStore.read, hsorted]
  rfl

/-- The number 3 of a lost record is taken again by a second life, whose transaction has the number of
an end version of the first one. -/
theorem identities_never_reused_sample :
    ∃ l₁ l₂ : Life TornLog, Lifetimes ([l₁] ++ [l₂]) sampleTornLater ∧
      (sampleTornLater.map (·.lsn)).Nodup ∧
      (∀ r ∈ sampleTornLater, ∃ a i, Author ([l₁] ++ [l₂]) a i r) ∧
      ∀ a b i k r q, Author ([l₁] ++ [l₂]) a i r → Author ([l₁] ++ [l₂]) b k q → r.tx = q.tx →
        a = b ∧ i = k := by
  have hfirst : ((System.start (tornBoot ⟨[], [none, some 1, some 0]⟩)).run
      ([.begin] ++ Choice.write 0 "k" "v" ++ Choice.mint 0 ++ Choice.conclude 0 ++ [.begin] ++
        Choice.write 1 "k" "w")).any (fun s =>
          s.coordinator.journal.map (·.store.records) = some sampleTorn) = true := by
    decide +kernel
  have hsecond : ((System.start (tornBoot ⟨sampleTorn, []⟩)).run
      ([.begin] ++ Choice.write 0 "k" "x")).any (fun s =>
        s.coordinator.journal.map (·.store.records) = some sampleTornLater) = true := by
    rw [tornBoot_eq]
    decide +kernel
  obtain ⟨s₁, hr₁, hs₁⟩ := exists_reachable hfirst
  obtain ⟨s₂, hr₂, hs₂⟩ := exists_reachable hsecond
  obtain ⟨j₁, hj₁, hlog₁⟩ := Option.map_eq_some_iff.mp (of_decide_eq_true hs₁)
  obtain ⟨j₂, hj₂, hlog₂⟩ := Option.map_eq_some_iff.mp (of_decide_eq_true hs₂)
  have hlog₁ : TornStore.contents j₁.store = TornStore.contents (⟨sampleTorn, []⟩ : TornLog) := hlog₁
  have hlog₂ : TornStore.contents j₂.store = sampleTornLater := hlog₂
  have hnone : Lifetimes ([] : List (Life TornLog))
      (TornStore.contents (⟨[], [none, some 1, some 0]⟩ : TornLog)) := .none
  have hlife₁ := hnone.life (booted_tornBoot _) hr₁ hj₁
  rw [hlog₁] at hlife₁
  have hlife₂ := hlife₁.life (booted_tornBoot _) hr₂ hj₂
  rw [hlog₂] at hlife₂
  obtain ⟨-, hdistinct, -, hauthor, halone, -⟩ := identities_never_reused hlife₂
  exact ⟨_, _, hlife₂, hdistinct, hauthor, halone⟩

end Run
end SnapshotStore

import SnapshotStore.Proofs.Journal.Writer
import SnapshotStore.Proofs.Run.Requests

/-! # The log of a run

The trace of a run has the ledger of its journal: the records that were taken (`noted`) and the
batches that were stored (`stored`).  `Logging` is what holds of the log of a run:

* what the log has of a transaction fits what its client is doing (`Client.Tracks`);
* the commit record of a transaction is its last one, and those of its other records that are stored
  make up its writes (`Logging.complete`);
* commits on a common key are sealed in the order of their end versions (`Logging.ordered`).

A step of a client or of the flusher keeps it (`Logging.moved`, `Logging.flushed`).  The store is
filled with the batches that the trace has as stored (`Reachable.filled`). -/

namespace SnapshotStore
namespace Run

open Journal (LogStore Logged Filled Grows Saved Ready Noted Progress durable taking)

variable {σ : Type}

/-! ### The ledger of a trace -/

/-- The record that an event takes into the log, with the number of its batch. -/
def Event.noted? : Event → Option (ℕ × Record)
  | .noted batch record => some (batch, record)
  | _ => none

/-- The batch that is stored with an event. -/
def Event.stored? : Event → Option Journal.Batch
  | .stored batch => some batch
  | _ => none

/-- The commit whose record is taken with an event. -/
def Event.sealed? : Event → Option Attempt
  | .sealed x => some x
  | _ => none

/-- The records that the log took, each with the number of its batch. -/
def noted (es : List Event) : List (ℕ × Record) := es.filterMap Event.noted?

/-- The batches that the log stored. -/
def stored (es : List Event) : List Journal.Batch := es.filterMap Event.stored?

/-- The commits whose record the log took, in order. -/
def sealed (es : List Event) : List Attempt := es.filterMap Event.sealed?

/-- The records of a transaction. -/
def recordsOf (es : List Event) (id : ℕ) : List (ℕ × Record) := (noted es).filter (·.2.tx = id)

theorem noted_append (es fs : List Event) : noted (es ++ fs) = noted es ++ noted fs :=
  List.filterMap_append

theorem stored_append (es fs : List Event) : stored (es ++ fs) = stored es ++ stored fs :=
  List.filterMap_append

theorem sealed_append (es fs : List Event) : sealed (es ++ fs) = sealed es ++ sealed fs :=
  List.filterMap_append

theorem mem_sealed {es : List Event} {x : Attempt} : x ∈ sealed es ↔ .sealed x ∈ es := by
  rw [sealed, List.mem_filterMap]
  constructor
  · rintro ⟨e, he, hx⟩
    cases e with
    | sealed y => exact Option.some.inj hx ▸ he
    | _ => simp [Event.sealed?] at hx
  · intro h
    exact ⟨_, h, rfl⟩

theorem recordsOf_append (es fs : List Event) (id : ℕ) :
    recordsOf (es ++ fs) id = recordsOf es id ++ (noted fs).filter (·.2.tx = id) := by
  rw [recordsOf, noted_append, List.filter_append]
  rfl

theorem mem_recordsOf {es : List Event} {id : ℕ} {e : ℕ × Record} :
    e ∈ recordsOf es id ↔ e ∈ noted es ∧ e.2.tx = id := by
  rw [recordsOf, List.mem_filter, decide_eq_true_eq]

section flush
variable [LogStore σ] (j : Journal σ)

theorem noted_flushEvents : noted (flushEvents j) = [] := by
  simp [noted, flushEvents, Event.noted?]

theorem stored_flushEvents : stored (flushEvents j) = Journal.storing j := by
  have hmap (bs : List Journal.Batch) : (bs.map Event.stored).filterMap Event.stored? = bs := by
    rw [List.filterMap_map]
    exact List.filterMap_some
  exact hmap _

theorem sealed_flushEvents : sealed (flushEvents j) = [] := by
  simp [sealed, flushEvents, Event.sealed?]

end flush

/-! ### Records and their purposes -/

namespace Purpose

/-- The kind and arguments of the record that is logged for a purpose. -/
def entry : Purpose → RecordKind × List String
  | staging key (some value) => (.set, [key, value])
  | staging key none => (.del, [key])
  | sealing _ _ => (.commit, [])
  | discarding => (.rollback, [])

/-- The commits that are sealed when records are taken. -/
def seals (t : Transaction) (new : List (ℕ × Record)) : Purpose → List Attempt
  | sealing _ version => new.map fun _ => ⟨t.id, version, t.writes⟩
  | _ => []

theorem kind_staging (key : String) (value : Option String) :
    (staging key value).entry.1 ≠ .commit := by
  cases value <;> simp [entry]

theorem stage_of_entry {key : String} {value : Option String} {r : Record}
    (h : (r.kind, r.args) = (staging key value).entry) (w : Writes) :
    stage w r = w.insert key value := by
  obtain ⟨lsn, tx, kind, args⟩ := r
  cases value <;>
    · obtain ⟨rfl, rfl⟩ := Prod.mk.inj h
      rfl

theorem noted_marks (t : Transaction) (L : List (ℕ × Record)) (purpose : Purpose) :
    noted (purpose.marks t (L.map fun e => .noted e.1 e.2)) = L := by
  induction L with
  | nil => cases purpose <;> rfl
  | cons e L ih => cases purpose <;> exact congrArg (e :: ·) ih

theorem stored_marks (t : Transaction) (L : List (ℕ × Record)) (purpose : Purpose) :
    stored (purpose.marks t (L.map fun e => .noted e.1 e.2)) = [] := by
  induction L with
  | nil => cases purpose <;> rfl
  | cons e L ih => cases purpose <;> exact ih

theorem sealed_marks (t : Transaction) (L : List (ℕ × Record)) (purpose : Purpose) :
    sealed (purpose.marks t (L.map fun e => .noted e.1 e.2)) = purpose.seals t L := by
  induction L with
  | nil => cases purpose <;> rfl
  | cons e L ih =>
      cases purpose with
      | sealing held version => exact congrArg (⟨t.id, version, t.writes⟩ :: ·) ih
      | _ => exact ih

end Purpose

theorem saved_of_logStep {c c' : Coordinator σ} {j : Journal σ} (hj : c.journal = some j)
    {save save' : Save} (h : c.logStep save = some (save', c')) :
    ∃ j', Saved j save (taking j save) save' j' ∧ c' = { c with journal := some j' } := by
  unfold Coordinator.logStep at h
  simp only [hj] at h
  obtain ⟨⟨save'', j'⟩, hs, h⟩ := Option.map_eq_some_iff.mp h
  obtain ⟨rfl, rfl⟩ := Prod.mk.inj h
  exact ⟨j', .of_step hs, rfl⟩

theorem notesOf_eq {c : Coordinator σ} {j : Journal σ} (hj : c.journal = some j) (save : Save) :
    notesOf c save = (taking j save).map fun e => .noted e.1 e.2 := by
  cases save with
  | adding tx kind args =>
      simp only [notesOf, hj, taking]
      split <;> rfl
  | _ => simp [notesOf, hj, taking]

/-! ### What the log has of a transaction -/

/-- No commit record of a transaction is or will be stored. -/
def Failed (j : Journal σ) (L : List (ℕ × Record)) : Prop :=
  ∀ e ∈ L, e.2.kind = .commit → j.outcome? e.1 = some false

/-- The commit record of a transaction is stored. -/
def Kept (j : Journal σ) (L : List (ℕ × Record)) : Prop :=
  ∃ e ∈ L, e.2.kind = .commit ∧ j.outcome? e.1 = some true

/-- What the log has of a transaction fits what its client is doing. -/
def Client.Tracks (j : Journal σ) (L : List (ℕ × Record)) (p : Client) : Prop :=
  match p.activity with
  | .answered _ => p.transaction.finished = false → Ready j L p.writes
  | .reading _ _ => Ready j L p.writes
  | .writing key value save => Progress j L p.writes p.id (Purpose.staging key value).entry save
  | .committing (.locking _ _) => Ready j L p.writes
  | .committing (.contending _ _ _) => Ready j L p.writes
  | .committing (.checking _ _ _) => Ready j L p.writes
  | .committing (.logging held version save) =>
    Progress j L p.writes p.id (Purpose.sealing held version).entry save
  | .committing (.releasing _ _ (.ok _)) => True
  | .committing (.releasing _ _ (.error _)) => Failed j L
  | .committing (.done (.ok _)) => True
  | .committing (.done (.error _)) => Failed j L
  | .discarding save => ∃ w, Progress j L w p.id Purpose.discarding.entry save

section tracks
variable {j j' : Journal σ} {L : List (ℕ × Record)} {w : Writes} {n : ℕ} {save : Save}

theorem Failed.of_ready (h : Ready j L w) : Failed j L :=
  fun e he hk => absurd hk (h.uncommitted e he)

theorem Failed.of_noted {entry : RecordKind × List String} (h : Noted j L w entry n)
    (ho : j.outcome? n = some false) : Failed j L := by
  obtain ⟨past, r, rfl, -, hpast⟩ := h
  intro e he hk
  rcases List.mem_append.mp he with he | he
  · exact absurd hk (hpast.uncommitted e he)
  · rw [List.mem_singleton.mp he]
    exact ho

theorem Failed.grow (h : Failed j L) (hj : Grows j j') : Failed j' L :=
  fun e he hk => hj (h e he hk)

theorem Kept.grow (h : Kept j L) (hj : Grows j j') (new : List (ℕ × Record)) :
    Kept j' (L ++ new) := by
  obtain ⟨e, he, hk, ho⟩ := h
  exact ⟨e, List.mem_append_left _ he, hk, hj ho⟩

theorem Kept.not_failed (h : Kept j L) : ¬ Failed j L := by
  obtain ⟨e, he, hk, ho⟩ := h
  intro hf
  simp [hf e he hk] at ho

theorem Kept.of_noted {args : List String} (h : Noted j L w (.commit, args) n)
    (ho : j.outcome? n = some true) : Kept j L := by
  obtain ⟨past, r, rfl, hr, -⟩ := h
  exact ⟨(n, r), by simp, (Prod.mk.inj hr).1, ho⟩

theorem Failed.of_lost {entry : RecordKind × List String}
    (h : Ready j L w ∨ ∃ n, Noted j L w entry n ∧ j.outcome? n = some false) : Failed j L := by
  rcases h with h | ⟨n, hn, ho⟩
  · exact .of_ready h
  · exact .of_noted hn ho

theorem ready_of_lost {entry : RecordKind × List String} (hk : entry.1 ≠ .commit)
    (h : Ready j L w ∨ ∃ n, Noted j L w entry n ∧ j.outcome? n = some false) : Ready j L w := by
  rcases h with h | ⟨n, hn, ho⟩
  · exact h
  · exact hn.lost ho hk

theorem Client.Tracks.grow {p : Client} (h : p.Tracks j L) (hj : Grows j j') :
    p.Tracks j' L := by
  obtain ⟨t, a⟩ := p
  cases a with
  | answered answer => exact fun hf => (h hf).grow hj
  | reading key lookup => exact Ready.grow h hj
  | writing key value save => exact Progress.grow h hj
  | committing commit =>
      cases commit with
      | locking held todo => exact Ready.grow h hj
      | contending held lock todo => exact Ready.grow h hj
      | checking held version todo => exact Ready.grow h hj
      | logging held version save => exact Progress.grow h hj
      | releasing held todo result =>
          cases result with
          | ok _ => trivial
          | error _ => exact Failed.grow h hj
      | done result =>
          cases result with
          | ok _ => trivial
          | error _ => exact Failed.grow h hj
  | discarding save =>
      obtain ⟨w, h⟩ := h
      exact ⟨w, h.grow hj⟩

end tracks

section moves
variable {c c' : Coordinator σ} {t : Transaction} {a : Activity} {new : List Event} {p' : Client}
  {j : Journal σ} {L : List (ℕ × Record)}

/-- What a step does with the journal: it is the step of a writer, or leaves the journal alone. -/
theorem Move.journal (h : Move c t a new p' c') (hj : c.journal = some j) :
    (∃ purpose save save' j', a = Purpose.activity save purpose ∧
      Saved j save (noted new) save' j' ∧ c'.journal = some j' ∧ stored new = [] ∧
      sealed new = purpose.seals t (noted new)) ∨
    c'.journal = some j ∧ noted new = [] ∧ stored new = [] ∧ sealed new = [] := by
  cases h with
  | log hs =>
      next purpose save save' =>
      obtain ⟨j', hsaved, rfl⟩ := saved_of_logStep hj hs
      rw [notesOf_eq hj, Purpose.noted_marks, Purpose.stored_marks, Purpose.sealed_marks]
      exact .inl ⟨purpose, save, save', j', rfl, hsaved, rfl, rfl, rfl⟩
  | _ => exact .inr ⟨hj, rfl, rfl, rfl⟩

theorem Client.Tracks.saved {purpose : Purpose} {save save' : Save} {j' : Journal σ}
    {taken : List (ℕ × Record)} (h : (⟨t, purpose.activity save⟩ : Client).Tracks j L)
    (hs : Saved j save taken save' j') :
    (⟨t, purpose.activity save'⟩ : Client).Tracks j' (L ++ taken) := by
  cases purpose with
  | staging key value => exact Progress.saved h hs
  | sealing held version => exact Progress.saved h hs
  | discarding =>
      obtain ⟨w, h⟩ := h
      exact ⟨w, h.saved hs⟩

/-- The records that are taken with a step are those of its client, which has no commit record. -/
theorem Client.Tracks.of_taken {purpose : Purpose} {save save' : Save} {j' : Journal σ}
    {taken : List (ℕ × Record)} (h : (⟨t, purpose.activity save⟩ : Client).Tracks j L)
    (hs : Saved j save taken save' j') {e : ℕ × Record} (he : e ∈ taken) :
    e.2.tx = t.id ∧ (e.2.kind, e.2.args) = purpose.entry ∧ ∃ w, Ready j L w := by
  cases purpose with
  | staging key value =>
      obtain ⟨htx, hentry, hready⟩ := Progress.of_taken h hs he
      exact ⟨htx, hentry, _, hready⟩
  | sealing held version =>
      obtain ⟨htx, hentry, hready⟩ := Progress.of_taken h hs he
      exact ⟨htx, hentry, _, hready⟩
  | discarding =>
      obtain ⟨w, h⟩ := h
      obtain ⟨htx, hentry, hready⟩ := h.of_taken hs he
      exact ⟨htx, hentry, _, hready⟩

/-- The records that a step takes belong to its client, which has no commit record yet; a step that
takes a commit record seals the commit. -/
theorem Move.seals (h : Move c t a new p' c') (hj : c.journal = some j)
    (hp : (⟨t, a⟩ : Client).Tracks j L) :
    (∀ e ∈ noted new, e.2.tx = t.id ∧ ∃ w, Ready j L w) ∧
      (sealed new = [] ∧ (∀ e ∈ noted new, e.2.kind ≠ .commit) ∨
        ∃ held version save e, a = .committing (.logging held version save) ∧ noted new = [e] ∧
          (e.2.kind, e.2.args) = (.commit, []) ∧ sealed new = [⟨t.id, version, t.writes⟩] ∧
          Ready j L t.writes) := by
  rcases h.journal hj with ⟨purpose, save, save', j', rfl, hs, -, -, hseals⟩ | ⟨-, hnone, -, hseals⟩
  · generalize noted new = taken at hs hseals ⊢
    refine ⟨fun e he => ⟨(hp.of_taken hs he).1, (hp.of_taken hs he).2.2⟩, ?_⟩
    cases purpose with
    | staging key value =>
        refine .inl ⟨hseals, fun e he hk => Purpose.kind_staging key value ?_⟩
        rw [← (hp.of_taken hs he).2.1]
        exact hk
    | sealing held version =>
        cases hs with
        | taken hs => exact .inr ⟨held, version, _, _, rfl, rfl, hp.2.1, hseals, hp.2.2⟩
        | _ => exact .inl ⟨hseals, by simp⟩
    | discarding =>
        refine .inl ⟨hseals, fun e he hk => ?_⟩
        have := (Prod.mk.inj (hp.of_taken hs he).2.1).1
        simp [hk] at this
  · rw [hnone]
    exact ⟨by simp, .inl ⟨hseals, by simp⟩⟩

/-- A step keeps the log and its client in line. -/
theorem Move.tracks (h : Move c t a new p' c') (hj : c.journal = some j)
    (hf : (⟨t, a⟩ : Client).Fits) (hp : (⟨t, a⟩ : Client).Tracks j L) :
    ∃ j', c'.journal = some j' ∧ p'.Tracks j' (L ++ noted new) := by
  have hsilent {q : Client} (hq : q.Tracks j L) :
      ∃ j', c.journal = some j' ∧ q.Tracks j' (L ++ []) := by
    rw [List.append_nil]
    exact ⟨j, hj, hq⟩
  cases h with
  | log h =>
      obtain ⟨j', hsaved, rfl⟩ := saved_of_logStep hj h
      rw [notesOf_eq hj, Purpose.noted_marks]
      exact ⟨j', rfl, hp.saved hsaved⟩
  | refuse hfin =>
      refine hsilent fun hopen => ?_
      simp [hfin] at hopen
  | echo hopen hw => exact hsilent hp
  | reread hopen hw hc => exact hsilent hp
  | look hopen hw => exact hsilent (hp hopen)
  | write key value hopen =>
      refine hsilent ?_
      cases value <;> exact ⟨rfl, rfl, hp hopen⟩
  | commitNothing hopen hw => exact hsilent trivial
  | commit hopen hw => exact hsilent (hp hopen)
  | rollbackNothing hopen =>
      refine hsilent fun hfin => ?_
      simp at hfin
  | rollback hopen => exact hsilent ⟨_, rfl, rfl, hp hopen⟩
  | tell =>
      next key value =>
      refine hsilent ?_
      cases value <;> exact fun _ => hp
  | stage =>
      next key value =>
      obtain ⟨n, hn, ho⟩ := hp
      obtain ⟨r, hr, hready⟩ := hn.stored ho (Purpose.kind_staging key value)
      rw [Purpose.stage_of_entry hr] at hready
      exact hsilent fun _ => hready
  | unstage =>
      next key value =>
      exact hsilent fun _ => ready_of_lost (Purpose.kind_staging key value) hp
  | lose => exact hsilent (Failed.of_ready hp)
  | conflict => exact hsilent (Failed.of_ready hp)
  | pledge => exact hsilent ⟨rfl, rfl, hp⟩
  | apply => exact hsilent trivial
  | abort => exact hsilent (Failed.of_lost hp)
  | free =>
      next held todo lock result => cases result <;> exact hsilent hp
  | leave =>
      next held result => cases result <;> exact hsilent hp
  | finish =>
      refine hsilent fun hopen => ?_
      have hfin : t.finished = true := hf
      exact absurd (hfin.symm.trans hopen) (by simp)
  | discarded =>
      refine hsilent fun hopen => ?_
      have hfin : t.finished = true := hf
      exact absurd (hfin.symm.trans hopen) (by simp)
  | _ => exact hsilent hp

end moves

/-! ### The invariant -/

/-- What holds of the log in a run with a journal that started on some records. -/
structure Logging (base : List Record) (j : Journal σ) (s : System σ) : Prop where
  journal : s.coordinator.journal = some j
  logged : Logged base j (noted s.trace) (stored s.trace)
  began : ∀ e ∈ noted s.trace, .began e.2.tx ∈ s.trace
  tracks : ∀ p ∈ s.clients, p.Tracks j (recordsOf s.trace p.id)
  commits : ((noted s.trace).filter (·.2.kind = .commit)).map (·.2.tx) =
    (sealed s.trace).map (·.id)
  once : ((sealed s.trace).map (·.id)).Nodup
  ordered : (sealed s.trace).Pairwise fun x y => Meet x.writes y.writes → x.version < y.version
  complete : ∀ x ∈ sealed s.trace,
    ∃ n, Noted j (recordsOf s.trace x.id) x.writes (.commit, []) n

variable {base : List Record} {j j' : Journal σ} {c₀ : Coordinator σ}

theorem recordsOf_append_of_ne {es new : List Event} {id : ℕ}
    (h : ∀ e ∈ noted new, e.2.tx ≠ id) : recordsOf (es ++ new) id = recordsOf es id := by
  rw [recordsOf_append, List.filter_eq_nil_iff.mpr (by simpa using h), List.append_nil]

theorem recordsOf_append_of_eq {es new : List Event} {id : ℕ}
    (h : ∀ e ∈ noted new, e.2.tx = id) : recordsOf (es ++ new) id = recordsOf es id ++ noted new := by
  rw [recordsOf_append, List.filter_eq_self.mpr (by simpa using h)]

theorem Logging.id_ne_of_ready {s : System σ} (h : Logging base j s) {id : ℕ} {w : Writes}
    (hready : Ready j (recordsOf s.trace id) w) {x : Attempt} (hx : x ∈ sealed s.trace) :
    x.id ≠ id := by
  rintro rfl
  obtain ⟨n, past, r, hpast, hentry, -⟩ := h.complete x hx
  exact hready.uncommitted (n, r) (by simp [hpast]) (Prod.mk.inj hentry).1

section moved
variable {c c' : Coordinator σ} {A B : List Client} {t : Transaction} {a : Activity}
  {p' : Client} {es new : List Event} (h : Logging base j ⟨c, A ++ ⟨t, a⟩ :: B, es⟩)
  (hm : Move c t a new p' c')
include h hm

theorem Logging.logged_moved (hj : c'.journal = some j') :
    Grows j j' ∧ Logged base j' (noted (es ++ new)) (stored (es ++ new)) := by
  rw [noted_append, stored_append]
  rcases hm.journal h.journal with ⟨_, _, _, j'', -, hs, hj'', hst, -⟩ | ⟨hj'', hn, hst, -⟩
  · obtain rfl : j'' = j' := Option.some.inj (hj''.symm.trans hj)
    rw [hst, List.append_nil]
    exact ⟨hs.grows, h.logged.saved hs⟩
  · obtain rfl : j = j' := Option.some.inj (hj''.symm.trans hj)
    rw [hn, hst, List.append_nil, List.append_nil]
    exact ⟨Grows.refl j, h.logged⟩

theorem Logging.tx_moved {e : ℕ × Record} (he : e ∈ noted new) : e.2.tx = t.id :=
  ((hm.seals h.journal (h.tracks ⟨t, a⟩ (by simp))).1 e he).1

theorem Logging.recordsOf_self : recordsOf (es ++ new) t.id = recordsOf es t.id ++ noted new :=
  recordsOf_append_of_eq fun _ he => h.tx_moved hm he

theorem Logging.recordsOf_other {id : ℕ} (hne : id ≠ t.id) :
    recordsOf (es ++ new) id = recordsOf es id :=
  recordsOf_append_of_ne fun _ he => (h.tx_moved hm he).trans_ne hne.symm

theorem Logging.recordsOf_sealed {x : Attempt} (hx : x ∈ sealed es) :
    recordsOf (es ++ new) x.id = recordsOf es x.id := by
  refine recordsOf_append_of_ne fun e he htx => ?_
  obtain ⟨htid, w, hready⟩ := (hm.seals h.journal (h.tracks ⟨t, a⟩ (by simp))).1 e he
  exact h.id_ne_of_ready hready hx (htx.symm.trans htid)

theorem Logging.began_moved (hv : Versioned c₀ ⟨c, A ++ ⟨t, a⟩ :: B, es⟩) {e : ℕ × Record}
    (he : e ∈ noted (es ++ new)) : .began e.2.tx ∈ es ++ new := by
  rw [noted_append] at he
  refine List.mem_append_left _ ?_
  rcases List.mem_append.mp he with he | he
  · exact h.began e he
  · rw [h.tx_moved hm he]
    exact hv.began ⟨t, a⟩ (by simp)

theorem Logging.commits_moved : ((noted (es ++ new)).filter (·.2.kind = .commit)).map (·.2.tx) =
    (sealed (es ++ new)).map (·.id) := by
  obtain ⟨-, hseals⟩ := hm.seals h.journal (h.tracks ⟨t, a⟩ (by simp))
  rw [noted_append, sealed_append, List.filter_append, List.map_append, List.map_append, h.commits]
  congr 1
  rcases hseals with ⟨hs, hk⟩ | ⟨held, version, save, e, -, hn, hk, hs, -⟩
  · rw [hs, List.filter_eq_nil_iff.mpr (by simpa using hk)]
    rfl
  · have htx := h.tx_moved hm (by simp [hn] : e ∈ noted new)
    simp [hs, hn, (Prod.mk.inj hk).1, htx]

theorem Logging.once_moved : ((sealed (es ++ new)).map (·.id)).Nodup := by
  obtain ⟨-, hseals⟩ := hm.seals h.journal (h.tracks ⟨t, a⟩ (by simp))
  rw [sealed_append, List.map_append]
  rcases hseals with ⟨hs, -⟩ | ⟨held, version, save, e, -, -, -, hs, hready⟩
  · rw [hs, List.map_nil, List.append_nil]
    exact h.once
  · rw [hs]
    refine List.nodup_append.mpr ⟨h.once, by simp, fun m hm n hn => ?_⟩
    obtain ⟨x, hx, rfl⟩ := List.mem_map.mp hm
    obtain rfl : n = t.id := by simpa using hn
    exact h.id_ne_of_ready hready hx

theorem Logging.ordered_moved (hv : Versioned c₀ ⟨c, A ++ ⟨t, a⟩ :: B, es⟩)
    (hc : Committed c₀ ⟨c, A ++ ⟨t, a⟩ :: B, es⟩) :
    (sealed (es ++ new)).Pairwise fun x y => Meet x.writes y.writes → x.version < y.version := by
  obtain ⟨-, hseals⟩ := hm.seals h.journal (h.tracks ⟨t, a⟩ (by simp))
  rw [sealed_append]
  rcases hseals with ⟨hs, -⟩ | ⟨held, version, save, e, rfl, -, -, hs, hready⟩
  · rw [hs, List.append_nil]
    exact h.ordered
  · rw [hs]
    refine List.pairwise_append.mpr ⟨h.ordered, by simp, fun x hx y hy hmeet => ?_⟩
    obtain rfl := List.mem_singleton.mp hy
    exact hc.ordered ⟨t, .committing (.logging held version save)⟩ (by simp) rfl
      (hv.sealed (mem_sealed.mp hx)) (h.id_ne_of_ready hready hx) hmeet

theorem Logging.complete_moved (hgrow : Grows j j') {x : Attempt} (hx : x ∈ sealed (es ++ new)) :
    ∃ n, Noted j' (recordsOf (es ++ new) x.id) x.writes (.commit, []) n := by
  obtain ⟨-, hseals⟩ := hm.seals h.journal (h.tracks ⟨t, a⟩ (by simp))
  rw [sealed_append] at hx
  rcases List.mem_append.mp hx with hx | hx
  · obtain ⟨n, hnoted⟩ := h.complete x hx
    exact ⟨n, h.recordsOf_sealed hm hx ▸ hnoted.grow hgrow⟩
  · rcases hseals with ⟨hs, -⟩ | ⟨held, version, save, e, -, hn, hk, hs, hready⟩
    · simp [hs] at hx
    · rw [hs] at hx
      obtain rfl := List.mem_singleton.mp hx
      refine ⟨e.1, recordsOf es t.id, e.2, ?_, hk, hready.grow hgrow⟩
      rw [← hn]
      exact h.recordsOf_self hm

/-- A move of a client lets the journal grow. -/
theorem Logging.moved (hl : Locking ⟨c, A ++ ⟨t, a⟩ :: B, es⟩)
    (hv : Versioned c₀ ⟨c, A ++ ⟨t, a⟩ :: B, es⟩) (hc : Committed c₀ ⟨c, A ++ ⟨t, a⟩ :: B, es⟩) :
    ∃ j', Grows j j' ∧ Logging base j' ⟨c', A ++ p' :: B, es ++ new⟩ := by
  have hp : (⟨t, a⟩ : Client) ∈ A ++ ⟨t, a⟩ :: B := by simp
  obtain ⟨j', hj', htrack⟩ := hm.tracks h.journal (hl.fits _ hp) (h.tracks _ hp)
  obtain ⟨hgrow, hlogged⟩ := h.logged_moved hm hj'
  refine ⟨j', hgrow, hj', hlogged, fun _ he => h.began_moved hm hv he, fun q hq => ?_,
    h.commits_moved hm, h.once_moved hm, h.ordered_moved hm hv hc,
    fun _ hx => h.complete_moved hm hgrow hx⟩
  show Client.Tracks j' (recordsOf (es ++ new) _) _
  rcases mem_moved hq with rfl | hq
  · rw [hm.id_eq, h.recordsOf_self hm]
    exact htrack
  · rw [h.recordsOf_other hm (hl.id_ne_of_others hq)]
    exact (h.tracks q (mem_of_others hq)).grow hgrow

end moved

theorem Logging.began_step {c : Coordinator σ} {ps : List Client} {es : List Event}
    (hv : Versioned c₀ ⟨c, ps, es⟩) (h : Logging base j ⟨c, ps, es⟩) :
    Logging base j
      ⟨c.mint.2, ps ++ [.fresh (.fresh c.mint.1)], es ++ [.began c.mint.1]⟩ := by
  have hnoted : noted (es ++ [.began c.mint.1]) = noted es := by
    rw [noted_append]
    exact List.append_nil _
  have hstored : stored (es ++ [.began c.mint.1]) = stored es := by
    rw [stored_append]
    exact List.append_nil _
  have hsealed : sealed (es ++ [.began c.mint.1]) = sealed es := by
    rw [sealed_append]
    exact List.append_nil _
  refine ⟨h.journal, ?_, ?_, fun p hp => ?_, ?_, ?_, ?_, ?_⟩ <;>
    simp only [recordsOf, hnoted, hstored, hsealed]
  · exact h.logged
  · exact fun e he => List.mem_append_left _ (h.began e he)
  · rcases List.mem_append.mp hp with hp | hp
    · exact h.tracks p hp
    · obtain rfl := List.mem_singleton.mp hp
      have hnone : recordsOf es (c.lastVersion + 1) = [] := by
        rw [recordsOf, List.filter_eq_nil_iff]
        intro e he
        have hle := (hv.numbered.bounds _ (mem_versions (h.began e he) rfl)).2
        have hle : e.2.tx ≤ c.lastVersion := hle
        simp only [decide_eq_true_eq]
        omega
      intro _
      show Ready j (recordsOf es (c.lastVersion + 1)) ∅
      rw [hnone]
      exact .nil j
  · exact h.commits
  · exact h.once
  · exact h.ordered
  · exact h.complete

section stored
variable [LogStore σ]

theorem Logging.flushed {c : Coordinator σ} {ps : List Client} {es : List Event}
    {event : Journal.Event} (h : Logging base j ⟨c, ps, es⟩)
    (hf : j.flusherStep event = some j') :
    Logging base j' ⟨{ c with journal := some j' }, ps, es ++ flushEvents j⟩ := by
  have hgrow : Grows j j' := Grows.flusherStep hf
  have hnoted : noted (es ++ flushEvents j) = noted es := by
    rw [noted_append, noted_flushEvents, List.append_nil]
  have hstored : stored (es ++ flushEvents j) = stored es ++ Journal.storing j := by
    rw [stored_append, stored_flushEvents]
  have hsealed : sealed (es ++ flushEvents j) = sealed es := by
    rw [sealed_append, sealed_flushEvents, List.append_nil]
  refine ⟨rfl, ?_, ?_, fun p hp => ?_, ?_, ?_, ?_, fun x hx => ?_⟩ <;>
    simp only [recordsOf, hnoted, hstored, hsealed] at *
  · exact h.logged.flusherStep hf
  · exact fun e he => List.mem_append_left _ (h.began e he)
  · exact (h.tracks p hp).grow hgrow
  · exact h.commits
  · exact h.once
  · exact h.ordered
  · obtain ⟨n, hn⟩ := h.complete x hx
    exact ⟨n, hn.grow hgrow⟩

/-! ### The store -/

/-- The store of a run took the batches that the trace has as stored. -/
theorem Reachable.filled {s : System σ} {j₀ : Journal σ} (hj : c₀.journal = some j₀)
    (h : Reachable c₀ s) :
    ∃ j, s.coordinator.journal = some j ∧ Filled j₀.store (stored s.trace) j.store := by
  induction h with
  | start => exact ⟨j₀, hj, .none _⟩
  | step hr hs ih =>
      obtain ⟨j, hj, hfilled⟩ := ih
      have hstep := Step.of_next hs
      cases hstep with
      | began c ps es =>
          refine ⟨j, hj, ?_⟩
          rw [stored_append]
          exact (List.append_nil (stored es)).symm ▸ hfilled
      | moved hm =>
          rcases hm.journal hj with ⟨_, _, _, j', -, hsaved, hj', hst, -⟩ | ⟨hj', -, hst, -⟩
          · refine ⟨j', hj', ?_⟩
            rw [stored_append, hst, List.append_nil, hsaved.frame.1]
            exact hfilled
          · refine ⟨j, hj', ?_⟩
            rw [stored_append, hst, List.append_nil]
            exact hfilled
      | flushed hj₁ hf =>
          next c ps es j₁ j' event =>
          obtain rfl : j₁ = j := Option.some.inj (hj₁.symm.trans hj)
          refine ⟨j', rfl, ?_⟩
          rw [stored_append, stored_flushEvents]
          exact hfilled.flusherStep hf

end stored
end Run
end SnapshotStore

import SnapshotStore.Proofs.Journal.Grouping

/-! # Traffic on a journal

`Traffic` is a journal with any number of writers, each with one record, and a trace: which records were
taken from whom and into which batch, and which batches the store was given and how that ended.  With
each step (`Traffic.next`) another writer comes, a writer makes a step, or the flusher does; this is all
that a step can be (`Traffic.Stepped`).

The store is what the batches of the trace have made of it, one after the other (`Delivered`).

`Reported` ties a journal to what its trace says of it: every batch that the store was given is there
once, with the records that were taken under its number, and its outcome is the one that is known.
Writers and the flusher keep this (`Reported.saved`, `Reported.flusherStep`), and it accounts for every
record that was taken (`Reported.records_perm`, `Reported.existsUnique_batch`). -/

namespace SnapshotStore
namespace Journal

variable {σ : Type}

/-! ### Systems -/

/-- The record of a writer that was taken, and the number of its batch. -/
structure Acceptance where
  save : ℕ
  batch : ℕ
  record : Record

/-- What is noted of the traffic: a record was taken, or the store was given a batch. -/
inductive Incident where
  | accepted (acceptance : Acceptance)
  | written (batch : Batch) (persisted : Bool)

/-- A journal with writers, and what happened so far. -/
structure Traffic (σ : Type) where
  journal : Journal σ
  saves : List Save
  trace : List Incident

/-- Who makes the next step. -/
inductive Choice where
  | save (tx : ℕ) (kind : RecordKind) (args : List String)
  | advance (save : ℕ)
  | flush (event : Event)

/-- The batch that the next step of the flusher gives to the store, and whether it is stored. -/
def writing [LogStore σ] (j : Journal σ) : List (Batch × Bool) :=
  j.taken.toList.map fun b => (b, (LogStore.write j.store b.records).1.isOk)

namespace Traffic

/-- A journal on a store without writers.  Its first record gets a given number. -/
def start (store : σ) (batchSize first : ℕ) : Traffic σ :=
  ⟨{ Journal.start store batchSize with nextLsn := first }, [], []⟩

variable [LogStore σ]

/-- One step; nothing if whoever is chosen cannot move. -/
def next (t : Traffic σ) : Choice → Option (Traffic σ)
  | .save tx kind args => some { t with saves := t.saves ++ [.adding tx kind args] }
  | .advance i =>
    match t.saves[i]? with
    | none => none
    | some save => (save.step t.journal).map fun (save', j) =>
      ⟨j, t.saves.set i save', t.trace ++
        (taking t.journal save).map fun e => .accepted ⟨i, e.1, e.2⟩⟩
  | .flush event => (t.journal.flusherStep event).map fun j =>
    ⟨j, t.saves, t.trace ++ (writing t.journal).map fun w => .written w.1 w.2⟩

/-- The traffic after some steps, if all of them can be made. -/
def run (t : Traffic σ) (choices : List Choice) : Option (Traffic σ) := choices.foldlM next t

/-- What one step can be: another writer comes, a writer makes a step, or the flusher does. -/
inductive Stepped (t : Traffic σ) : Traffic σ → Prop
  | called (tx : ℕ) (kind : RecordKind) (args : List String) :
      Stepped t { t with saves := t.saves ++ [.adding tx kind args] }
  | saved {i : ℕ} {save save' : Save} {new : List (ℕ × Record)} {j' : Journal σ}
      (hi : t.saves[i]? = some save) (hs : Saved t.journal save new save' j') :
      Stepped t ⟨j', t.saves.set i save', t.trace ++ new.map fun e => .accepted ⟨i, e.1, e.2⟩⟩
  | flushed {event : Event} {j' : Journal σ} (hj : t.journal.flusherStep event = some j') :
      Stepped t ⟨j', t.saves, t.trace ++ (writing t.journal).map fun w => .written w.1 w.2⟩

theorem Stepped.of_next {t t' : Traffic σ} {choice : Choice} (hs : t.next choice = some t') :
    Stepped t t' := by
  cases choice with
  | save tx kind args =>
      obtain rfl := Option.some.inj hs
      exact .called tx kind args
  | advance i =>
      simp only [next] at hs
      cases hi : t.saves[i]? with
      | none => simp [hi] at hs
      | some save =>
          simp only [hi] at hs
          obtain ⟨⟨save', j'⟩, hstep, rfl⟩ := Option.map_eq_some_iff.mp hs
          exact .saved hi (.of_step hstep)
  | flush event =>
      obtain ⟨j', hj, rfl⟩ := Option.map_eq_some_iff.mp hs
      exact .flushed hj

end Traffic

/-- Traffic that other traffic gets to by some steps. -/
inductive Reaches [LogStore σ] (t : Traffic σ) : Traffic σ → Prop
  | start : Reaches t t
  | step {u u' : Traffic σ} {choice : Choice} (h : Reaches t u) (hs : u.next choice = some u') :
      Reaches t u'

theorem Reaches.run [LogStore σ] {t u u' : Traffic σ} {choices : List Choice} (h : Reaches t u)
    (hr : u.run choices = some u') : Reaches t u' := by
  induction choices generalizing u with
  | nil => exact Option.some.inj hr ▸ h
  | cons choice choices ih =>
      obtain ⟨u₁, hs, hr⟩ := Option.bind_eq_some_iff.mp hr
      exact ih (h.step hs) hr

/-! ### Traces -/

/-- The records that were taken, in order. -/
def accepted (es : List Incident) : List Acceptance :=
  es.filterMap fun
    | .accepted a => some a
    | _ => none

/-- The batches that the store was given, in order, and whether they are stored. -/
def written (es : List Incident) : List (Batch × Bool) :=
  es.filterMap fun
    | .written b persisted => some (b, persisted)
    | _ => none

/-- The records that were taken, each with the number of its batch. -/
def entries (es : List Incident) : List (ℕ × Record) := (accepted es).map fun a => (a.batch, a.record)

theorem accepted_append (es fs : List Incident) :
    accepted (es ++ fs) = accepted es ++ accepted fs := List.filterMap_append

theorem written_append (es fs : List Incident) : written (es ++ fs) = written es ++ written fs :=
  List.filterMap_append

section taking
variable (es : List Incident) (i : ℕ) (new : List (ℕ × Record))

theorem accepted_taking : accepted (es ++ new.map fun e => .accepted ⟨i, e.1, e.2⟩) =
    accepted es ++ new.map fun e => ⟨i, e.1, e.2⟩ := by
  rw [accepted_append]
  refine congrArg _ ?_
  rw [accepted, List.filterMap_map]
  exact congrFun List.filterMap_eq_map new

theorem written_taking :
    written (es ++ new.map fun e => .accepted ⟨i, e.1, e.2⟩) = written es := by
  have hnone : written (new.map fun e => .accepted ⟨i, e.1, e.2⟩) = [] := by
    rw [written, List.filterMap_map, List.filterMap_eq_nil_iff]
    exact fun _ _ => rfl
  rw [written_append, hnone, List.append_nil]

theorem entries_taking :
    entries (es ++ new.map fun e => .accepted ⟨i, e.1, e.2⟩) = entries es ++ new := by
  rw [entries, accepted_taking, List.map_append, List.map_map]
  exact congrArg _ (List.map_id new)

end taking

theorem accepted_map_written (ws : List (Batch × Bool)) :
    accepted (ws.map fun w => .written w.1 w.2) = [] := by
  rw [accepted, List.filterMap_map, List.filterMap_eq_nil_iff]
  exact fun _ _ => rfl

theorem written_map_written (ws : List (Batch × Bool)) :
    written (ws.map fun w => .written w.1 w.2) = ws := by
  rw [written, List.filterMap_map]
  exact List.filterMap_some

/-! ### What the store is given -/

/-- Gives a store some batches, one after the other: whether each is stored, and the store after that. -/
def deliver [LogStore σ] (store : σ) : List Batch → List (Batch × Bool) × σ
  | [] => ([], store)
  | b :: bs =>
    let (result, store) := LogStore.write store b.records
    let (ws, store) := deliver store bs
    ((b, result.isOk) :: ws, store)

/-- The batches of a trace are what the store was given: it stored those that are noted as stored, failed
to store the others, and is now as it was left. -/
def Delivered [LogStore σ] (store : σ) (t : Traffic σ) : Prop :=
  deliver store ((written t.trace).map (·.1)) = (written t.trace, t.journal.store)

section delivered
variable [LogStore σ] {store : σ} {t t' : Traffic σ}

theorem deliver_append (bs ds : List Batch) :
    deliver store (bs ++ ds) = ((deliver store bs).1 ++ (deliver (deliver store bs).2 ds).1,
      (deliver (deliver store bs).2 ds).2) := by
  induction bs generalizing store with
  | nil => rfl
  | cons b bs ih =>
      rw [List.cons_append, deliver]
      dsimp only
      rw [ih]
      rfl

theorem deliver_writing {j j' : Journal σ} {event : Event} (hj : j.flusherStep event = some j') :
    deliver j.store ((writing j).map (·.1)) = (writing j, j'.store) := by
  unfold Journal.flusherStep at hj
  unfold writing
  cases ht : j.taken with
  | some b =>
      rw [ht] at hj
      obtain rfl := Option.some.inj hj
      cases hw : LogStore.write j.store b.records with
      | mk result s => cases result <;> simp [deliver, Journal.write, hw, store_notify]
  | none =>
      rw [ht] at hj
      rw [(Turned.of_nextTask hj).frame.1]
      rfl

theorem Delivered.stepped (h : Delivered store t) (hs : t.Stepped t') : Delivered store t' := by
  cases hs with
  | called tx kind args => exact h
  | saved hi hs =>
      unfold Delivered
      rw [written_taking, hs.frame.1]
      exact h
  | flushed hj =>
      unfold Delivered
      rw [written_append, written_map_written, List.map_append, deliver_append, h, deliver_writing hj]

theorem Delivered.reaches (h : Delivered store t) (hr : Reaches t t') : Delivered store t' := by
  induction hr with
  | start => exact h
  | step _ hs ih => exact ih.stepped (.of_next hs)

end delivered

/-! ### Batches and the store -/

/-- The batches of a report that are stored. -/
def storedOf (ws : List (Batch × Bool)) : List Batch := (ws.filter (·.2)).map (·.1)

theorem storedOf_writing [LogStore σ] (j : Journal σ) : storedOf (writing j) = storing j := by
  unfold storing writing
  cases j.taken with
  | none => rfl
  | some b =>
      dsimp only
      cases hw : LogStore.write j.store b.records with
      | mk result s => cases result <;> simp [storedOf, hw, Except.isOk, Except.toBool]

/-- What is known of the batches that the store was given. -/
structure Reported (first : ℕ) (j : Journal σ) (noted : List (ℕ × Record))
    (ws : List (Batch × Bool)) : Prop where
  logged : Logged [] j noted (storedOf ws)
  grouped : Grouped first j noted
  once : (ws.map (·.1.number)).Nodup
  known : ∀ {n persisted}, j.outcome? n = some persisted ↔ ∃ b, (b, persisted) ∈ ws ∧ b.number = n
  kept : ∀ w ∈ ws, w.1.records = recordsIn noted w.1.number
  sized : ∀ w ∈ ws, w.1.records ≠ [] ∧ w.1.records.length ≤ j.capacity

section reported
variable {first : ℕ} {j j' : Journal σ} {noted new : List (ℕ × Record)} {ws : List (Batch × Bool)}
  {save save' : Save}

theorem Reported.number_lt (h : Reported first j noted ws) {w : Batch × Bool} (hw : w ∈ ws) :
    w.1.number < j.current.number := by
  refine h.logged.known ?_
  rw [h.known.mpr ⟨w.1, hw, rfl⟩]
  simp

theorem Reported.saved (h : Reported first j noted ws) (hs : Saved j save new save' j') :
    Reported first j' (noted ++ new) ws := by
  have hout (n : ℕ) : j'.outcome? n = j.outcome? n := by rw [outcome?, hs.frame.2.1, outcome?]
  refine ⟨h.logged.saved hs, h.grouped.saved (fun e he => h.logged.number_le he) hs, h.once,
    fun {n persisted} => hout n ▸ h.known, fun w hw => ?_, fun w hw => hs.frame.2.2 ▸ h.sized w hw⟩
  rw [recordsIn_append, ← h.kept w hw]
  cases hs with
  | taken hs hc hfull =>
      have hne := Nat.ne_of_gt (h.number_lt hw)
      simp [recordsIn, hne]
  | _ => exact (List.append_nil _).symm

/-- The outcome of a batch that the store is given gets known, and no other one. -/
theorem Reported.known_insert (h : Reported first j noted ws) {b : Batch}
    (hnew : ∀ w ∈ ws, w.1.number ≠ b.number) {stored : Bool} {n : ℕ} {persisted : Bool} :
    (j.outcomes.insert b.number stored).get? n = some persisted ↔
      ∃ d, (d, persisted) ∈ ws ++ [(b, stored)] ∧ d.number = n := by
  rw [Table.get?_insert]
  split
  · next he =>
    subst he
    rw [Option.some.injEq]
    constructor
    · rintro rfl
      exact ⟨b, by simp, rfl⟩
    · rintro ⟨d, hd, hn⟩
      rcases List.mem_append.mp hd with hd | hd
      · exact absurd hn (hnew _ hd)
      · exact (Prod.mk.inj (List.mem_singleton.mp hd)).2.symm
  · next hne =>
    refine h.known.trans ⟨?_, ?_⟩
    · rintro ⟨d, hd, hn⟩
      exact ⟨d, List.mem_append_left _ hd, hn⟩
    · rintro ⟨d, hd, hn⟩
      rcases List.mem_append.mp hd with hd | hd
      · exact ⟨d, hd, hn⟩
      · rw [(Prod.mk.inj (List.mem_singleton.mp hd)).1] at hn
        exact absurd hn.symm hne

/-- The flusher gives the batch in its hand to the store. -/
theorem Reported.flusherStep [LogStore σ] (h : Reported first j noted ws) {event : Event}
    (hj : j.flusherStep event = some j') : Reported first j' noted (ws ++ writing j) := by
  have hlogged : Logged [] j' noted (storedOf (ws ++ writing j)) := by
    have := h.logged.flusherStep hj
    rwa [← storedOf_writing, storedOf, storedOf, ← List.map_append, ← List.filter_append] at this
  have hgrouped := h.grouped.flusherStep h.logged.unknown hj
  unfold Journal.flusherStep at hj
  unfold writing at hlogged ⊢
  split at hj
  · next b ht =>
    obtain rfl := Option.some.inj hj
    have hb : b ∈ flight j := by simp [flight, ht]
    have hnone : j.outcome? b.number = none := h.logged.unknown b hb
    have hnew : ∀ w ∈ ws, w.1.number ≠ b.number := by
      intro w hw he
      rw [← he, h.known.mpr ⟨w.1, hw, rfl⟩] at hnone
      cases hnone
    rw [write_eq (j := { j with taken := none }) hnone] at hlogged hgrouped ⊢
    simp only [ht, Option.toList_some, List.map_cons, List.map_nil] at hlogged ⊢
    refine ⟨hlogged, hgrouped, ?_, fun {n persisted} => ?_, fun w hw => ?_, fun w hw => ?_⟩
    · rw [List.map_append, List.nodup_append]
      refine ⟨h.once, by simp, fun m hm n hn => ?_⟩
      obtain ⟨w, hw, rfl⟩ := List.mem_map.mp hm
      obtain rfl := List.mem_singleton.mp hn
      exact hnew w hw
    · exact h.known_insert hnew
    · rcases List.mem_append.mp hw with hw | hw
      · exact h.kept w hw
      · rw [List.mem_singleton.mp hw]
        exact h.logged.records b hb
    · rcases List.mem_append.mp hw with hw | hw
      · exact h.sized w hw
      · rw [List.mem_singleton.mp hw]
        exact ⟨h.grouped.filled b (by simp [ht]), h.grouped.size b hb⟩
  · next ht =>
    have hturned := Turned.of_nextTask hj
    simp only [ht, Option.toList_none, List.map_nil, List.append_nil] at hlogged ⊢
    have hout (n : ℕ) : j'.outcome? n = j.outcome? n := by
      rw [outcome?, hturned.frame.2.1, outcome?]
    exact ⟨hlogged, hgrouped, h.once, fun {n persisted} => hout n ▸ h.known, h.kept,
      fun w hw => hturned.frame.2.2.2 ▸ h.sized w hw⟩

theorem Reported.frame_of_flusherStep [LogStore σ] (h : Reported first j noted ws) {event : Event}
    (hj : j.flusherStep event = some j') :
    j'.carried = j.carried ∧ j'.capacity = j.capacity := by
  unfold Journal.flusherStep at hj
  split at hj
  · next b ht =>
    obtain rfl := Option.some.inj hj
    have hnone : j.outcome? b.number = none := h.logged.unknown b (by simp [flight, ht])
    rw [write_eq (j := { j with taken := none }) hnone]
    exact ⟨rfl, rfl⟩
  · exact (Turned.of_nextTask hj).frame.2.2

/-! ### Where records are -/

/-- The batches that records were taken into: those on their way, and those that the store was given. -/
def batches (j : Journal σ) (ws : List (Batch × Bool)) : List Batch := flight j ++ ws.map (·.1)

theorem Reported.records_eq (h : Reported first j noted ws) {b : Batch} (hb : b ∈ batches j ws) :
    b.records = recordsIn noted b.number := by
  rcases List.mem_append.mp hb with hb | hb
  · exact h.logged.records b hb
  · obtain ⟨w, hw, rfl⟩ := List.mem_map.mp hb
    exact h.kept w hw

theorem Reported.nodup_batches (h : Reported first j noted ws) :
    ((batches j ws).map (·.number)).Nodup := by
  rw [batches, List.map_append, List.nodup_append]
  refine ⟨h.logged.distinct, by rw [List.map_map]; exact h.once, fun m hm n hn => ?_⟩
  obtain ⟨b, hb, rfl⟩ := List.mem_map.mp hm
  obtain ⟨d, hd, rfl⟩ := List.mem_map.mp hn
  obtain ⟨w, hw, rfl⟩ := List.mem_map.mp hd
  intro he
  have hnone := h.logged.unknown b hb
  rw [he, h.known.mpr ⟨w.1, hw, rfl⟩] at hnone
  cases hnone

theorem Reported.exists_batch (h : Reported first j noted ws) {e : ℕ × Record} (he : e ∈ noted) :
    ∃ b ∈ batches j ws, b.number = e.1 := by
  cases ho : j.outcome? e.1 with
  | none =>
      obtain ⟨b, hb, hn⟩ := h.logged.covered e he ho
      exact ⟨b, List.mem_append_left _ hb, hn⟩
  | some persisted =>
      obtain ⟨b, hb, hn⟩ := h.known.mp ho
      exact ⟨b, List.mem_append_right _ (List.mem_map_of_mem hb), hn⟩

/-- The batches hold the records that were taken, and nothing else. -/
theorem Reported.records_perm (h : Reported first j noted ws) :
    ((batches j ws).flatMap (·.records)).Perm (noted.map (·.2)) := by
  have hrecords : (batches j ws).flatMap (·.records) =
      ((batches j ws).map (·.number)).flatMap (recordsIn noted) := by
    rw [List.flatMap_map]
    exact List.flatMap_congr fun b hb => h.records_eq hb
  have hall : noted.filter (·.1 ∈ (batches j ws).map (·.number)) = noted := by
    refine List.filter_eq_self.mpr fun e he => ?_
    obtain ⟨b, hb, hn⟩ := h.exists_batch he
    exact decide_eq_true (hn ▸ List.mem_map_of_mem hb)
  have hperm := perm_flatMap_recordsIn noted h.nodup_batches
  rwa [hall, ← hrecords] at hperm

/-- Every record that was taken is in one batch, the one that it was taken into. -/
theorem Reported.existsUnique_batch (h : Reported first j noted ws) {e : ℕ × Record}
    (he : e ∈ noted) : ∃ b ∈ batches j ws, b.number = e.1 ∧ e.2 ∈ b.records ∧
      ∀ d ∈ batches j ws, e.2 ∈ d.records → d = b := by
  obtain ⟨b, hb, hn⟩ := h.exists_batch he
  have hin {d : Batch} (hd : d ∈ batches j ws) : e.2 ∈ d.records ↔ d.number = e.1 := by
    rw [h.records_eq hd]
    constructor
    · intro hm
      obtain ⟨e', he', heq⟩ := List.mem_map.mp hm
      obtain ⟨he', hnumber⟩ := List.mem_filter.mp he'
      have hnodup : (noted.map (·.2.lsn)).Nodup := h.grouped.lsns ▸ List.nodup_range'
      obtain rfl : e' = e := List.inj_on_of_nodup_map hnodup he' he (by rw [heq])
      exact (of_decide_eq_true hnumber).symm
    · intro hnumber
      exact List.mem_map_of_mem (List.mem_filter.mpr ⟨he, decide_eq_true hnumber.symm⟩)
  refine ⟨b, hb, hn, (hin hb).mpr hn, fun d hd hr => ?_⟩
  exact List.inj_on_of_nodup_map h.nodup_batches hd hb (((hin hd).mp hr).trans hn.symm)

end reported
end Journal
end SnapshotStore

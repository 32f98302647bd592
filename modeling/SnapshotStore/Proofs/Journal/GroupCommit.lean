import SnapshotStore.Proofs.Journal.Traffic

/-! # Group commit

A writer of some traffic `Knows` what it may: one that was not heard yet has no record in the log, one
that waits has, and one that is done was refused or was told the outcome of the batch of its record.
Together with what is reported of the batches (`Reported`) this is kept by every step (`Honest.stepped`).

So group commit loses nothing, stores nothing twice and tells nobody wrong (`group_commit`), whatever
the order of steps is and whichever writes fail.  In particular, a flusher that has stopped leaves nobody
waiting: nothing changes any more (`Honest.reaches_of_over`), and everyone has an answer or gets it with
the next step (`Honest.advance_of_over`). -/

namespace SnapshotStore

namespace Save

variable {σ : Type} {j j' : Journal σ} {s s' : Save}

theorem advance_of_step (h : s.step j = some (s', j')) : s.advance j = s'.advance j' := by
  rw [advance]
  split
  · next hn => simp [h] at hn
  · next hs =>
    rw [h] at hs
    obtain ⟨rfl, rfl⟩ := Prod.mk.inj (Option.some.inj hs)
    rfl

theorem advance_done (j : Journal σ) (persisted : Bool) :
    (done persisted).advance j = (done persisted, j) := by
  rw [advance]
  split
  · rfl
  · next hs => simp [step] at hs

end Save

namespace Journal

variable {σ : Type}

/-! ### What writers know -/

/-- What a writer with a number knows. -/
def Knows (t : Traffic σ) (i : ℕ) : Save → Prop
  | .adding _ _ _ => ∀ a ∈ accepted t.trace, a.save ≠ i
  | .handing n => (∃ a ∈ accepted t.trace, a.save = i ∧ a.batch = n) ∧
      ∃ b ∈ t.journal.carried, b.number = n
  | .waiting n => ∃ a ∈ accepted t.trace, a.save = i ∧ a.batch = n
  | .done persisted => (persisted = false ∧ ∀ a ∈ accepted t.trace, a.save ≠ i) ∨
      ∃ a ∈ accepted t.trace, a.save = i ∧ t.journal.outcome? a.batch = some persisted

/-- What holds of traffic: what is reported of batches, and what writers know. -/
structure Honest (first : ℕ) (t : Traffic σ) : Prop where
  reported : Reported first t.journal (entries t.trace) (written t.trace)
  knows : ∀ (i : ℕ) (save : Save), t.saves[i]? = some save → Knows t i save
  apart : ∀ (i i' n : ℕ),
    t.saves[i]? = some (.handing n) → t.saves[i']? = some (.handing n) → i = i'
  called : ∀ a ∈ accepted t.trace, a.save < t.saves.length
  once : ((accepted t.trace).map (·.save)).Nodup

section honest
variable {first : ℕ} {t t' : Traffic σ} {i : ℕ} {save : Save}

/-- What a writer knows stays true while others move. -/
theorem Knows.mono (h : Knows t i save) (hgrow : Grows t.journal t'.journal) {new : List Acceptance}
    (hnew : accepted t'.trace = accepted t.trace ++ new) (hother : ∀ a ∈ new, a.save ≠ i)
    (hcarried : ∀ n, save = .handing n → ∀ b ∈ t.journal.carried, b.number = n →
      ∃ d ∈ t'.journal.carried, d.number = n) : Knows t' i save := by
  have hold {a : Acceptance} (ha : a ∈ accepted t.trace) : a ∈ accepted t'.trace :=
    hnew ▸ List.mem_append_left _ ha
  have hnone (hnot : ∀ a ∈ accepted t.trace, a.save ≠ i) : ∀ a ∈ accepted t'.trace, a.save ≠ i := by
    intro a ha
    rw [hnew] at ha
    rcases List.mem_append.mp ha with ha | ha
    · exact hnot a ha
    · exact hother a ha
  cases save with
  | adding tx kind args => exact hnone h
  | handing n =>
      obtain ⟨⟨a, ha, hsave, hbatch⟩, b, hb, hn⟩ := h
      exact ⟨⟨a, hold ha, hsave, hbatch⟩, hcarried n rfl b hb hn⟩
  | waiting n =>
      obtain ⟨a, ha, hsave, hbatch⟩ := h
      exact ⟨a, hold ha, hsave, hbatch⟩
  | done persisted =>
      rcases h with ⟨hp, hnot⟩ | ⟨a, ha, hsave, ho⟩
      · exact .inl ⟨hp, hnone hnot⟩
      · exact .inr ⟨a, hold ha, hsave, hgrow ho⟩

theorem honest_start (store : σ) (batchSize first : ℕ) :
    Honest first (.start store batchSize first) where
  reported :=
    { logged := .of_fresh rfl rfl rfl (by simp)
      grouped := .start first store batchSize
      once := .nil
      known := by simp [Traffic.start, written, outcome?, Journal.start]
      kept := by simp [Traffic.start, written]
      sized := by simp [Traffic.start, written] }
  knows i save hs := by simp [Traffic.start] at hs
  apart i i' n hs := by simp [Traffic.start] at hs
  called a ha := by simp [Traffic.start, accepted] at ha
  once := .nil

/-! ### Steps -/

/-- Another writer comes. -/
theorem Honest.call (h : Honest first t) (tx : ℕ) (kind : RecordKind) (args : List String) :
    Honest first { t with saves := t.saves ++ [.adding tx kind args] } := by
  have hold {i : ℕ} {save : Save} (hs : (t.saves ++ [.adding tx kind args])[i]? = some save) :
      t.saves[i]? = some save ∨ i = t.saves.length ∧ save = .adding tx kind args := by
    rcases Nat.lt_or_ge i t.saves.length with hlt | hge
    · exact .inl (List.getElem?_append_left hlt ▸ hs)
    · rw [List.getElem?_append_right hge, List.getElem?_singleton] at hs
      split at hs
      · exact .inr ⟨by omega, (Option.some.inj hs).symm⟩
      · cases hs
  refine ⟨h.reported, fun i save hs => ?_, fun i i' n hi hi' => ?_, fun a ha => ?_, h.once⟩
  · rcases hold hs with hs | ⟨rfl, rfl⟩
    · exact h.knows i save hs
    · exact fun a ha => Nat.ne_of_lt (h.called a ha)
  · rcases hold hi with hi | ⟨-, hadding⟩
    · rcases hold hi' with hi' | ⟨-, hadding⟩
      · exact h.apart i i' n hi hi'
      · cases hadding
    · cases hadding
  · rw [List.length_append]
    exact Nat.lt_add_right _ (h.called a ha)

/-- What a writer knows after its own step. -/
theorem Knows.saved (h : Knows t i save) {save' : Save} {new : List (ℕ × Record)} {j' : Journal σ}
    (hs : Saved t.journal save new save' j') (ht : t'.journal = j')
    (hnew : accepted t'.trace = accepted t.trace ++ new.map fun e => ⟨i, e.1, e.2⟩) :
    Knows t' i save' := by
  cases hs with
  | refused hc =>
      rw [List.map_nil, List.append_nil] at hnew
      exact .inl ⟨rfl, hnew ▸ h⟩
  | taken hs hopen hfull =>
      next tx kind args =>
      have hin : ∃ a ∈ accepted t'.trace, a.save = i ∧ a.batch = t.journal.current.number := by
        rw [hnew]
        exact ⟨_, List.mem_append_right _ (List.mem_singleton.mpr rfl), rfl, rfl⟩
      rcases hs with rfl | rfl
      · exact hin
      · refine ⟨hin, ?_⟩
        rcases t.journal.append_cases tx kind args with ⟨-, heq⟩ | ⟨-, heq⟩
        · exact absurd (by rw [heq]; rfl) (hfull rfl)
        · rw [ht, heq]
          exact ⟨_, List.mem_append_right _ (List.mem_singleton.mpr rfl), rfl⟩
  | handed hj =>
      rw [List.map_nil, List.append_nil] at hnew
      rw [Knows, hnew]
      exact h.1
  | told ho =>
      rw [List.map_nil, List.append_nil] at hnew
      obtain ⟨a, ha, hsave, rfl⟩ := h
      exact .inr ⟨a, hnew ▸ ha, hsave, ht ▸ ho⟩

theorem Saved.mem_carried {j j' : Journal σ} {save' : Save} {new : List (ℕ × Record)}
    (hs : Saved j save new save' j') {b : Batch} (hb : b ∈ j.carried)
    (hne : save ≠ .handing b.number) : b ∈ j'.carried := by
  cases hs with
  | taken hs hopen hfull =>
      next tx kind args =>
      rcases j.append_cases tx kind args with ⟨-, heq⟩ | ⟨-, heq⟩ <;> rw [heq]
      · exact hb
      · exact List.mem_append_left _ hb
  | handed hj =>
      obtain ⟨d, -, rfl, rfl⟩ := handOver_cases hj
      exact (List.mem_erase_of_ne fun he => hne (by rw [he])).mpr hb
  | _ => exact hb

theorem Honest.ne_current (h : Honest first t) {n : ℕ} (hi : t.saves[i]? = some (.handing n)) :
    n ≠ t.journal.current.number := by
  rintro rfl
  obtain ⟨-, b, hb, hn⟩ := h.knows i _ hi
  have hdistinct := h.reported.logged.distinct
  rw [flight, List.map_cons, List.nodup_cons] at hdistinct
  refine hdistinct.1 (hn ▸ List.mem_map_of_mem ?_)
  simp only [List.mem_append]
  exact .inl (.inl (.inl hb))

/-- Two writers that hand a batch over have different ones: a batch that has just been filled is no other
writer's. -/
theorem Honest.apart_saved (h : Honest first t) (hi : t.saves[i]? = some save) {save' : Save}
    {new : List (ℕ × Record)} {j' : Journal σ} (hs : Saved t.journal save new save' j')
    {i' i'' n : ℕ} (hi' : (t.saves.set i save')[i']? = some (.handing n))
    (hi'' : (t.saves.set i save')[i'']? = some (.handing n)) : i' = i'' := by
  have hlt : i < t.saves.length := (List.getElem?_eq_some_iff.mp hi).1
  have hset {k : ℕ} (hne : i ≠ k) : (t.saves.set i save')[k]? = t.saves[k]? :=
    List.getElem?_set_ne hne
  have hnew {k : ℕ} (hself : (t.saves.set i save')[i]? = some (.handing n))
      (hk : t.saves[k]? = some (.handing n)) : False := by
    rw [List.getElem?_set_self hlt, Option.some.injEq] at hself
    cases hs with
    | taken hs hopen hfull =>
        rcases hs with rfl | rfl
        · cases hself
        · exact h.ne_current hk (Save.handing.inj hself).symm
    | _ => cases hself
  by_cases hne' : i = i' <;> by_cases hne'' : i = i''
  · exact hne'.symm.trans hne''
  · subst hne'
    rw [hset hne''] at hi''
    exact (hnew hi' hi'').elim
  · subst hne''
    rw [hset hne'] at hi'
    exact (hnew hi'' hi').elim
  · rw [hset hne'] at hi'
    rw [hset hne''] at hi''
    exact h.apart i' i'' n hi' hi''

/-- A writer makes a step. -/
theorem Honest.saved (h : Honest first t) (hi : t.saves[i]? = some save) {save' : Save}
    {new : List (ℕ × Record)} {j' : Journal σ} (hs : Saved t.journal save new save' j') :
    Honest first ⟨j', t.saves.set i save',
      t.trace ++ new.map fun e => .accepted ⟨i, e.1, e.2⟩⟩ := by
  have hlt : i < t.saves.length := (List.getElem?_eq_some_iff.mp hi).1
  have haccepted := accepted_taking t.trace i new
  refine ⟨?_, fun i' s hs' => ?_, fun i' i'' n => h.apart_saved hi hs, fun a ha => ?_, ?_⟩
  · rw [entries_taking, written_taking]
    exact h.reported.saved hs
  · by_cases hne : i = i'
    · subst hne
      rw [List.getElem?_set_self hlt, Option.some.injEq] at hs'
      exact hs' ▸ (h.knows i save hi).saved hs rfl haccepted
    · rw [List.getElem?_set_ne hne] at hs'
      refine (h.knows i' s hs').mono hs.grows haccepted (fun a ha => ?_) fun n hn b hb hbn => ?_
      · obtain ⟨e, -, rfl⟩ := List.mem_map.mp ha
        exact hne
      · refine ⟨b, hs.mem_carried hb fun hsave => hne ?_, hbn⟩
        exact h.apart i i' n (by rw [hi, hsave, hbn]) (by rw [hs', hn])
  · rw [haccepted] at ha
    rw [List.length_set]
    rcases List.mem_append.mp ha with ha | ha
    · exact h.called a ha
    · obtain ⟨e, -, rfl⟩ := List.mem_map.mp ha
      exact hlt
  · rw [haccepted, List.map_append, List.nodup_append]
    have hknows := h.knows i save hi
    cases hs with
    | taken hs hopen hfull =>
        refine ⟨h.once, by simp, fun m hm n hn => ?_⟩
        obtain ⟨a, ha, rfl⟩ := List.mem_map.mp hm
        obtain rfl := List.mem_singleton.mp hn
        exact hknows a ha
    | _ => exact ⟨h.once, .nil, by simp⟩

/-- The flusher makes a step. -/
theorem Honest.flushed [LogStore σ] (h : Honest first t) {event : Event} {j' : Journal σ}
    (hj : t.journal.flusherStep event = some j') :
    Honest first ⟨j', t.saves, t.trace ++ (writing t.journal).map fun w => .written w.1 w.2⟩ := by
  have haccepted : accepted (t.trace ++ (writing t.journal).map fun w => .written w.1 w.2) =
      accepted t.trace := by
    rw [accepted_append, accepted_map_written, List.append_nil]
  have hcarried := (h.reported.frame_of_flusherStep hj).1
  refine ⟨?_, fun i save hs => ?_, h.apart, ?_, ?_⟩
  · rw [entries, haccepted, written_append, written_map_written]
    exact h.reported.flusherStep hj
  · exact (h.knows i save hs).mono (Grows.flusherStep hj)
      (haccepted.trans (List.append_nil _).symm) (by simp)
      fun n _ b hb hn => ⟨b, hcarried ▸ hb, hn⟩
  · rw [haccepted]
    exact h.called
  · rw [haccepted]
    exact h.once

/-- Every step keeps what holds of traffic. -/
theorem Honest.stepped [LogStore σ] (h : Honest first t) (hs : t.Stepped t') : Honest first t' := by
  cases hs with
  | called tx kind args => exact h.call tx kind args
  | saved hi hs => exact h.saved hi hs
  | flushed hj => exact h.flushed hj

theorem Honest.reaches [LogStore σ] (h : Honest first t) (hr : Reaches t t') : Honest first t' := by
  induction hr with
  | start => exact h
  | step _ hs ih => exact ih.stepped (.of_next hs)

/-! ### After the end -/

/-- Whether the flusher has stored everything and returned. -/
def Traffic.IsOver (t : Traffic σ) : Prop := t.journal.flusher = .stopped ∧ t.journal.taken = none

theorem Honest.carried_of_over (h : Honest first t) (ho : t.IsOver) : t.journal.carried = [] :=
  (h.reported.grouped.stopped ho.1).1

theorem Honest.closed_of_over (h : Honest first t) (ho : t.IsOver) : t.journal.closed = true := by
  rw [h.reported.grouped.closing, ho.1]
  rfl

theorem Honest.outcome_of_over (h : Honest first t) (ho : t.IsOver) {a : Acceptance}
    (ha : a ∈ accepted t.trace) : ∃ persisted, t.journal.outcome? a.batch = some persisted := by
  cases hout : t.journal.outcome? a.batch with
  | some persisted => exact ⟨persisted, rfl⟩
  | none =>
      have he : (a.batch, a.record) ∈ entries t.trace := List.mem_map.mpr ⟨a, ha, rfl⟩
      obtain ⟨b, hb, hn⟩ := h.reported.logged.covered _ he hout
      obtain ⟨hflight, hempty⟩ := h.reported.grouped.current_of_stopped ho.1 ho.2
      have hin := h.reported.logged.mem_records he hb hn
      rw [hflight] at hb
      rw [List.mem_singleton.mp hb, hempty] at hin
      cases hin

section stored
variable [LogStore σ]

theorem Honest.stepped_of_over (h : Honest first t) (ho : t.IsOver) (hs : t.Stepped t') :
    t'.journal = t.journal ∧ accepted t'.trace = accepted t.trace ∧
      written t'.trace = written t.trace := by
  cases hs with
  | called tx kind args => exact ⟨rfl, rfl, rfl⟩
  | saved hi hs =>
      cases hs with
      | taken hs hopen hfull =>
          rw [h.closed_of_over ho] at hopen
          cases hopen
      | handed hj =>
          obtain ⟨b, hb, -⟩ := handOver_cases hj
          rw [h.carried_of_over ho] at hb
          cases hb
      | _ => simp
  | flushed hj =>
      unfold Journal.flusherStep Journal.nextTask at hj
      simp [ho.1, ho.2] at hj

/-- Once the flusher has returned, nothing changes any more, except that writers come and go. -/
theorem Honest.reaches_of_over (h : Honest first t) (ho : t.IsOver) (hr : Reaches t t') :
    t'.journal = t.journal ∧ accepted t'.trace = accepted t.trace ∧
      written t'.trace = written t.trace := by
  induction hr with
  | start => exact ⟨rfl, rfl, rfl⟩
  | step hr hs ih =>
      have ho' : Traffic.IsOver _ := ⟨ih.1 ▸ ho.1, ih.1 ▸ ho.2⟩
      obtain ⟨hj, ha, hw⟩ := (h.reaches hr).stepped_of_over ho' (.of_next hs)
      exact ⟨hj.trans ih.1, ha.trans ih.2.1, hw.trans ih.2.2⟩

end stored

/-- Once the flusher has returned, everyone has an answer or gets it at once. -/
theorem Honest.advance_of_over (h : Honest first t) (ho : t.IsOver)
    (hs : t.saves[i]? = some save) :
    (∃ a ∈ accepted t.trace, a.save = i ∧ ∃ persisted,
      t.journal.outcome? a.batch = some persisted ∧
        save.advance t.journal = (.done persisted, t.journal)) ∨
    (∀ a ∈ accepted t.trace, a.save ≠ i) ∧
      save.advance t.journal = (.done false, t.journal) := by
  have hknows := h.knows i save hs
  cases save with
  | adding tx kind args =>
      have hstep : (Save.adding tx kind args).step t.journal = some (.done false, t.journal) := by
        rw [Save.step, if_pos (h.closed_of_over ho)]
      refine .inr ⟨hknows, ?_⟩
      rw [Save.advance_of_step hstep, Save.advance_done]
  | handing n =>
      obtain ⟨-, b, hb, -⟩ := hknows
      rw [h.carried_of_over ho] at hb
      cases hb
  | waiting n =>
      obtain ⟨a, ha, hsave, rfl⟩ := hknows
      obtain ⟨persisted, hout⟩ := h.outcome_of_over ho ha
      have hstep : (Save.waiting a.batch).step t.journal = some (.done persisted, t.journal) := by
        rw [Save.step, hout]
        rfl
      refine .inl ⟨a, ha, hsave, persisted, hout, ?_⟩
      rw [Save.advance_of_step hstep, Save.advance_done]
  | done persisted =>
      rcases hknows with ⟨rfl, hnot⟩ | ⟨a, ha, hsave, hout⟩
      · exact .inr ⟨hnot, Save.advance_done ..⟩
      · exact .inl ⟨a, ha, hsave, persisted, hout, Save.advance_done ..⟩

/-! ### Answers -/

theorem Honest.eq_of_save (h : Honest first t) {a a' : Acceptance} (ha : a ∈ accepted t.trace)
    (ha' : a' ∈ accepted t.trace) (hs : a.save = a'.save) : a = a' :=
  List.inj_on_of_nodup_map h.once ha ha' hs

theorem Honest.outcome_of_done (h : Honest first t) {a : Acceptance} (ha : a ∈ accepted t.trace)
    {persisted : Bool} (hs : t.saves[a.save]? = some (.done persisted)) :
    t.journal.outcome? a.batch = some persisted := by
  rcases h.knows a.save _ hs with ⟨-, hnot⟩ | ⟨a', ha', hsave, hout⟩
  · exact absurd rfl (hnot a ha)
  · rwa [h.eq_of_save ha' ha hsave] at hout

theorem Honest.done_iff (h : Honest first t) {persisted : Bool}
    (hs : t.saves[i]? = some (.done persisted)) :
    persisted = true ↔ ∃ a ∈ accepted t.trace, a.save = i ∧
      ∃ b, (b, true) ∈ written t.trace ∧ b.number = a.batch := by
  constructor
  · rintro rfl
    rcases h.knows i _ hs with ⟨hp, -⟩ | ⟨a, ha, hsave, hout⟩
    · cases hp
    · exact ⟨a, ha, hsave, h.reported.known.mp hout⟩
  · rintro ⟨a, ha, rfl, hstored⟩
    have hout := h.outcome_of_done ha hs
    rw [h.reported.known.mpr hstored] at hout
    exact (Option.some.inj hout).symm

section stored
variable [LogStore σ]

theorem Honest.capacity_stepped (h : Honest first t) (hs : t.Stepped t') :
    t'.journal.capacity = t.journal.capacity := by
  cases hs with
  | called tx kind args => rfl
  | saved hi hs => exact hs.frame.2.2
  | flushed hj => exact (h.reported.frame_of_flusherStep hj).2

theorem Honest.capacity_eq (h : Honest first t) (hr : Reaches t t') :
    t'.journal.capacity = t.journal.capacity := by
  induction hr with
  | start => rfl
  | step hr hs ih => exact ((h.reaches hr).capacity_stepped (.of_next hs)).trans ih

/-- Group commit, on any store and in any order of steps.

* Records are numbered one after the other, in the order in which they are taken, each from another
  writer.
* The batches hold the records that were taken and nothing else, and each record is in one batch.
* The store is given the batches of the trace, and is what these writes have left, each with the outcome
  that is noted.  It is given each batch once at most.  The batch has a record at least, no more than fit
  in one, and their numbers follow each other.
* A writer is told that its record is stored exactly if it is in a batch that is, and all writers of a
  batch are told the same.
* Once the flusher has returned, every record that was taken is in a batch that the store was given,
  and its writer has the answer or gets it with no step of anyone else.  Writers whose record was not
  taken until then, and those that come later, are refused, and no further number is given to a record. -/
theorem group_commit {store : σ} {batchSize first : ℕ} {t : Traffic σ}
    (h : Reaches (.start store batchSize first) t) :
    ((accepted t.trace).map (·.record.lsn) = List.range' first (accepted t.trace).length ∧
      t.journal.nextLsn = first + (accepted t.trace).length ∧
      ((accepted t.trace).map (·.save)).Nodup) ∧
    (((batches t.journal (written t.trace)).flatMap (·.records)).Perm
        ((accepted t.trace).map (·.record)) ∧
      ∀ a ∈ accepted t.trace, ∃ b ∈ batches t.journal (written t.trace), b.number = a.batch ∧
        a.record ∈ b.records ∧
        ∀ d ∈ batches t.journal (written t.trace), a.record ∈ d.records → d = b) ∧
    (deliver store ((written t.trace).map (·.1)) = (written t.trace, t.journal.store) ∧
      ((written t.trace).map (·.1.number)).Nodup ∧
      ∀ w ∈ written t.trace, 1 ≤ w.1.records.length ∧ w.1.records.length ≤ max batchSize 1 ∧
        ∃ k, w.1.records.map (·.lsn) = List.range' k w.1.records.length) ∧
    (∀ (i : ℕ) (persisted : Bool), t.saves[i]? = some (.done persisted) →
      (persisted = true ↔ ∃ a ∈ accepted t.trace, a.save = i ∧
        ∃ b, (b, true) ∈ written t.trace ∧ b.number = a.batch)) ∧
    (∀ a ∈ accepted t.trace, ∀ a' ∈ accepted t.trace, a.batch = a'.batch →
      ∀ persisted persisted' : Bool, t.saves[a.save]? = some (.done persisted) →
        t.saves[a'.save]? = some (.done persisted') → persisted = persisted') ∧
    (t.IsOver → ∀ t' : Traffic σ, Reaches t t' → t'.journal.nextLsn = t.journal.nextLsn ∧
      ∀ (i : ℕ) (save : Save), t'.saves[i]? = some save →
        (∀ a ∈ accepted t.trace, a.save = i → ∃ b persisted, (b, persisted) ∈ written t.trace ∧
          b.number = a.batch ∧ save.advance t'.journal = (.done persisted, t'.journal)) ∧
        (t.saves.length ≤ i ∨ (∀ a ∈ accepted t.trace, a.save ≠ i) →
          save.advance t'.journal = (.done false, t'.journal))) := by
  have hstart := honest_start store batchSize first
  have hh := hstart.reaches h
  have hcapacity : t.journal.capacity = max batchSize 1 := hstart.capacity_eq h
  have hlength : (entries t.trace).length = (accepted t.trace).length := List.length_map _
  have hlsns := hh.reported.grouped.lsns
  have hnext := hh.reported.grouped.next
  have hperm := hh.reported.records_perm
  rw [hlength] at hlsns hnext
  simp only [entries, List.map_map] at hlsns hperm
  have hdelivered : Delivered store t := Delivered.reaches (t := .start store batchSize first) rfl h
  refine ⟨⟨hlsns, hnext, hh.once⟩, ⟨hperm, fun a ha => ?_⟩,
    ⟨hdelivered, hh.reported.once, fun w hw => ?_⟩,
    fun i persisted hs => hh.done_iff hs, fun a ha a' ha' hb persisted persisted' hs hs' => ?_,
    fun ho t' hr => ?_⟩
  · exact hh.reported.existsUnique_batch (List.mem_map.mpr ⟨a, ha, rfl⟩)
  · obtain ⟨hne, hle⟩ := hh.reported.sized w hw
    refine ⟨List.length_pos_iff.mpr hne, hcapacity ▸ hle, ?_⟩
    rw [hh.reported.kept w hw]
    exact hh.reported.grouped.contiguous w.1.number
  · have hout := hh.outcome_of_done ha hs
    rw [hb, hh.outcome_of_done ha' hs'] at hout
    exact (Option.some.inj hout).symm
  · obtain ⟨hj, haccepted, -⟩ := hh.reaches_of_over ho hr
    have ho' : t'.IsOver := ⟨hj ▸ ho.1, hj ▸ ho.2⟩
    have hh' := hh.reaches hr
    refine ⟨congrArg _ hj, fun i save hs => ?_⟩
    rcases hh'.advance_of_over ho' hs with ⟨a, ha, hsave, persisted, hout, hadvance⟩ | ⟨hnot, hadvance⟩
    · rw [haccepted] at ha
      refine ⟨fun a' ha' hsave' => ?_, fun hnot => ?_⟩
      · obtain rfl := hh.eq_of_save ha' ha (hsave'.trans hsave.symm)
        rw [hj] at hout
        obtain ⟨b, hb, hn⟩ := hh.reported.known.mp hout
        exact ⟨b, persisted, hb, hn, hadvance⟩
      · have hlt := hh.called a ha
        have hno := hnot.resolve_left (by omega)
        exact absurd hsave (hno a ha)
    · rw [haccepted] at hnot
      exact ⟨fun a ha hsave => absurd hsave (hnot a ha), fun _ => hadvance⟩

end stored
end honest

/-! ### A full batch that comes late -/

/-- A store that fails every second write. -/
structure FickleLog where
  writes : ℕ
deriving DecidableEq

instance : LogStore FickleLog where
  write log _ := (if log.writes % 2 = 0 then .ok () else .error .logFailure, ⟨log.writes + 1⟩)
  read _ := .error .logFailure

/-- Two writers fill a batch, which is handed over only after the flusher was told to stop.  Meanwhile
the record of a third one is stored. -/
def sampleChoices : List Choice :=
  [.save 1 .commit [], .save 2 .commit [], .save 3 .commit [], .advance 0, .advance 1,
    .flush .tick, .flush .tick, .advance 2, .flush .tick, .flush .tick, .flush .shutdown, .advance 1,
    .flush .tick, .flush .tick, .flush .tick, .save 4 .commit []]

/-- The third writer is told that its record is stored, the others that theirs is not, and a fourth one,
who is there by now, and a fifth one, who is yet to come, are refused. -/
theorem group_commit_sample : ∃ t : Traffic FickleLog, Reaches (.start ⟨0⟩ 2 1) t ∧ t.IsOver ∧
    (accepted t.trace).map (·.record.lsn) = [1, 2, 3] ∧
    (written t.trace).map (fun w => (w.1.records.map (·.lsn), w.2)) = [([3], true), ([1, 2], false)] ∧
    deliver (FickleLog.mk 0) ((written t.trace).map (·.1)) = (written t.trace, FickleLog.mk 2) ∧
    (∀ save, t.saves[2]? = some save → save.advance t.journal = (.done true, t.journal)) ∧
    (∀ save, t.saves[1]? = some save → save.advance t.journal = (.done false, t.journal)) ∧
    ∀ t', Reaches t t' → t'.journal.nextLsn = 4 ∧ ∀ i, i = 3 ∨ i = 4 →
      ∀ save, t'.saves[i]? = some save → save.advance t'.journal = (.done false, t'.journal) := by
  have hrun : ((Traffic.start (FickleLog.mk 0) 2 1).run sampleChoices).any (fun t =>
      t.journal.flusher = .stopped && t.journal.taken.isNone && t.journal.nextLsn = 4 &&
        t.journal.store = FickleLog.mk 2 && t.saves.length = 4 &&
        (accepted t.trace).map (fun a => (a.save, a.batch)) = [(0, 0), (1, 0), (2, 1)] &&
        (written t.trace).map (fun w => (w.1.number, w.1.records.map (·.lsn), w.2)) =
          [(1, [3], true), (0, [1, 2], false)]) = true := by
    decide +kernel
  obtain ⟨t, hr, ht⟩ := (Option.any_eq_true _ _).mp hrun
  simp only [Bool.and_eq_true, decide_eq_true_eq, Option.isNone_iff_eq_none] at ht
  obtain ⟨⟨⟨⟨⟨⟨hstopped, htaken⟩, hnext⟩, hstore⟩, hsaves⟩, haccepted⟩, hwritten⟩ := ht
  have h : Reaches _ t := Reaches.start.run hr
  obtain ⟨⟨hlsns, -, -⟩, -, ⟨hdeliver, -, -⟩, -, -, hover⟩ := group_commit h
  have hlength : (accepted t.trace).length = 3 := by simpa using congrArg List.length haccepted
  have hreport : ∀ w ∈ written t.trace, (w.1.number, w.1.records.map (·.lsn), w.2) ∈
      [(1, [3], true), (0, [1, 2], false)] := fun w hw => hwritten ▸ List.mem_map_of_mem hw
  have hanswer {i n : ℕ} (hi : (i, n) ∈ [(0, 0), (1, 0), (2, 1)]) {save : Save}
      (hs : t.saves[i]? = some save) : ∃ lsns persisted,
        (n, lsns, persisted) ∈ [(1, [3], true), (0, [1, 2], false)] ∧
        save.advance t.journal = (.done persisted, t.journal) := by
    rw [← haccepted] at hi
    obtain ⟨a, ha, he⟩ := List.mem_map.mp hi
    obtain ⟨rfl, rfl⟩ := Prod.mk.inj he
    obtain ⟨b, persisted, hw, hn, hadvance⟩ :=
      ((hover ⟨hstopped, htaken⟩ t .start).2 _ save hs).1 a ha rfl
    exact ⟨_, persisted, hn ▸ hreport _ hw, hadvance⟩
  refine ⟨t, h, ⟨hstopped, htaken⟩, ?_, ?_, hstore ▸ hdeliver, fun save hs => ?_, fun save hs => ?_,
    fun t' ht' => ?_⟩
  · rw [hlsns, hlength]
    rfl
  · have := congrArg (List.map fun w : ℕ × List ℕ × Bool => w.2) hwritten
    rwa [List.map_map] at this
  · obtain ⟨lsns, persisted, hw, hadvance⟩ := hanswer (i := 2) (n := 1) (by simp) hs
    obtain rfl : persisted = true := by simp at hw; exact hw.2
    exact hadvance
  · obtain ⟨lsns, persisted, hw, hadvance⟩ := hanswer (i := 1) (n := 0) (by simp) hs
    obtain rfl : persisted = false := by simp at hw; exact hw.2
    exact hadvance
  · obtain ⟨hnext', hlater⟩ := hover ⟨hstopped, htaken⟩ t' ht'
    refine ⟨hnext'.trans hnext, fun i hi save hs => (hlater i save hs).2 (.inr fun a ha => ?_)⟩
    have htaken : (a.save, a.batch) ∈ [(0, 0), (1, 0), (2, 1)] := haccepted ▸ List.mem_map_of_mem ha
    have hle : a.save ≤ 2 := by
      simp at htaken
      omega
    omega

end Journal
end SnapshotStore

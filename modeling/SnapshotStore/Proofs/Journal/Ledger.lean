import SnapshotStore.Journal.Basic
import SnapshotStore.Proofs.Table
import Mathlib.Data.List.Perm.Basic

/-! # What a journal keeps

The ledger of a journal lists the records that it took, each with the number of its batch, and the
batches that the store took.  `Logged` is the invariant that ties a journal to its ledger:

* a batch on its way (`flight`) holds the records that the ledger has under its number;
* once the outcome of a batch is known, its records are all stored or none of them is;
* records are numbered in the order in which they were taken.

The steps of writers and of the flusher keep it (`Logged.append`, `Logged.handOver`,
`Logged.flusherStep`).

The store itself changes by writes only (`Filled`).  If it is atomic, so that a write stores the whole
batch or nothing (`AtomicStore`), its contents are those of the stored batches
(`Filled.contents_eq`). -/

namespace SnapshotStore
namespace Journal

variable {σ : Type}

/-! ### Atomic stores -/

/-- A log store whose writes store everything or nothing, and whose reads give back what was
stored. -/
class AtomicStore (σ : Type) [LogStore σ] where
  contents : σ → List Record
  contents_ok : ∀ {s s' : σ} {records : List Record},
    LogStore.write s records = (.ok (), s') → contents s' = contents s ++ records
  contents_error : ∀ {s s' : σ} {records : List Record} {fault : Fault},
    LogStore.write s records = (.error fault, s') → contents s' = contents s
  contents_read : ∀ {s : σ} {recovered : Recovered},
    LogStore.read s = .ok recovered → recovered.records = contents s

instance : AtomicStore MemoryLog where
  contents log := log.batches.flatten
  contents_ok {s s' records} h := by
    simp only [LogStore.write] at h
    split at h
    · simp at h
    · obtain rfl := (Prod.mk.inj h).2
      simp
  contents_error {s s' records fault} h := by
    simp only [LogStore.write] at h
    split at h
    · obtain rfl := (Prod.mk.inj h).2
      rfl
    · simp at h
  contents_read {s recovered} h := by
    simp only [LogStore.read] at h
    split at h
    · simp at h
    · obtain rfl := Except.ok.inj h
      rfl

/-! ### Batches on their way -/

/-- The batch that a stopping flusher keeps for the end. -/
def Flusher.rest : Flusher → List Batch
  | .draining rest => [rest]
  | _ => []

/-- The batches whose outcome is open. -/
def flight (j : Journal σ) : List Batch :=
  j.current :: (j.carried ++ j.queue ++ j.taken.toList ++ j.flusher.rest)

theorem current_mem_flight (j : Journal σ) : j.current ∈ flight j := List.mem_cons_self ..

/-- The batch that the next step of the flusher stores. -/
def storing [LogStore σ] (j : Journal σ) : List Batch :=
  match j.taken with
  | some batch =>
    match LogStore.write j.store batch.records with
    | (.ok (), _) => [batch]
    | (.error _, _) => []
  | none => []

theorem storing_cases [LogStore σ] (j : Journal σ) :
    storing j = [] ∨ ∃ b, j.taken = some b ∧ storing j = [b] := by
  unfold storing
  split
  · next b ht =>
    split
    · exact .inr ⟨b, ht, rfl⟩
    · exact .inl rfl
  · exact .inl rfl

/-- The records that were taken under the number of a batch. -/
def recordsIn (noted : List (ℕ × Record)) (number : ℕ) : List Record :=
  (noted.filter (·.1 = number)).map (·.2)

theorem mem_recordsIn {noted : List (ℕ × Record)} {number : ℕ} {r : Record} :
    r ∈ recordsIn noted number ↔ (number, r) ∈ noted := by
  simp [recordsIn]

theorem recordsIn_append (noted noted' : List (ℕ × Record)) (number : ℕ) :
    recordsIn (noted ++ noted') number = recordsIn noted number ++ recordsIn noted' number := by
  simp [recordsIn]

theorem recordsIn_of_ne {noted : List (ℕ × Record)} {number : ℕ} (h : ∀ e ∈ noted, e.1 ≠ number) :
    recordsIn noted number = [] := by
  rw [recordsIn, List.map_eq_nil_iff, List.filter_eq_nil_iff]
  simpa using h

theorem notify_of_unknown (j : Journal σ) {number : ℕ} (h : j.outcome? number = none)
    (persisted : Bool) :
    j.notify number persisted = { j with outcomes := j.outcomes.insert number persisted } := by
  simp [notify, h, Signal.notify]

/-! ### What steps do to a journal -/

/-- A record that is taken leaves room in the current batch, or fills it. -/
theorem append_cases (j : Journal σ) (tx : ℕ) (kind : RecordKind) (args : List String) :
    j.current.records.length + 1 < j.capacity ∧ j.append tx kind args =
        { j with nextLsn := j.nextLsn + 1, current := j.current.push ⟨j.nextLsn, tx, kind, args⟩ } ∨
      j.capacity ≤ j.current.records.length + 1 ∧ j.append tx kind args =
        { j with
          nextLsn := j.nextLsn + 1
          current := .fresh (j.current.number + 1)
          carried := j.carried ++ [j.current.push ⟨j.nextLsn, tx, kind, args⟩] } := by
  have hsize : (j.current.push ⟨j.nextLsn, tx, kind, args⟩).size = j.current.records.length + 1 := by
    simp [Batch.push, Batch.size]
  unfold append Batch.isFull
  dsimp only
  rw [hsize]
  split
  · next hfull => exact .inr ⟨of_decide_eq_true hfull, rfl⟩
  · next hroom => exact .inl ⟨Nat.lt_of_not_le (by simpa using hroom), rfl⟩

theorem handOver_cases {j j' : Journal σ} {number : ℕ} (h : j.handOver number = some j') :
    ∃ b ∈ j.carried, b.number = number ∧
      j' = { j with carried := j.carried.erase b, queue := j.queue ++ [b] } := by
  unfold handOver at h
  split at h
  · cases h
  · obtain ⟨b, hb, rfl⟩ := Option.map_eq_some_iff.mp h
    exact ⟨b, List.mem_of_find?_eq_some hb, by simpa using List.find?_some hb, rfl⟩

theorem write_eq [LogStore σ] {j : Journal σ} {b : Batch} (h : j.outcome? b.number = none) :
    j.write b = { j with
      store := (LogStore.write j.store b.records).2
      outcomes := j.outcomes.insert b.number (LogStore.write j.store b.records).1.isOk } := by
  unfold write
  cases hw : LogStore.write j.store b.records with
  | mk result s =>
      cases result with
      | ok _ => exact notify_of_unknown { j with store := s } h true
      | error _ => exact notify_of_unknown { j with store := s } h false

/-! ### The invariant -/

section logged

/-- A journal that started on a store with some records, with the records that it took, each with
the number of its batch, and the batches that it stored. -/
structure Logged (base : List Record) (j : Journal σ) (noted : List (ℕ × Record))
    (stored : List Batch) : Prop where
  distinct : ((flight j).map (·.number)).Nodup
  recent : ∀ b ∈ flight j, b.number ≤ j.current.number
  unknown : ∀ b ∈ flight j, j.outcome? b.number = none
  known : ∀ {n}, j.outcome? n ≠ none → n < j.current.number
  records : ∀ b ∈ flight j, b.records = recordsIn noted b.number
  covered : ∀ e ∈ noted, j.outcome? e.1 = none → ∃ b ∈ flight j, b.number = e.1
  kept : ∀ b ∈ stored, b.records = recordsIn noted b.number
  persisted : ∀ {n}, j.outcome? n = some true ↔ n ∈ stored.map (·.number)
  once : (stored.map (·.number)).Nodup
  ordered : (noted.map (·.2.lsn)).Pairwise (· < ·)
  below : ∀ e ∈ noted, e.2.lsn < j.nextLsn
  above : ∀ r ∈ base, r.lsn < j.nextLsn ∧ ∀ e ∈ noted, r.lsn < e.2.lsn

variable {base : List Record} {j j' : Journal σ} {noted : List (ℕ × Record)} {stored : List Batch}

/-- A journal that goes on with numbers above those of some records. -/
theorem Logged.of_fresh {rs : List Record} (hcurrent : j.current = .fresh 0)
    (hflight : flight j = [j.current]) (houtcomes : j.outcomes = ∅)
    (hlsn : ∀ r ∈ rs, r.lsn < j.nextLsn) : Logged rs j [] [] := by
  have hout (n : ℕ) : j.outcome? n = none := by
    rw [outcome?, houtcomes]
    rfl
  refine ⟨?_, fun b hb => ?_, fun b _ => hout b.number, fun hn => absurd (hout _) hn,
    fun b hb => ?_, by simp, by simp, ?_, by simp, by simp, by simp, fun r hr => ⟨hlsn r hr, by simp⟩⟩
  · simp [hflight]
  · rw [hflight] at hb
    exact Nat.le_of_eq (congrArg _ (List.mem_singleton.mp hb))
  · rw [hflight] at hb
    rw [List.mem_singleton.mp hb, hcurrent]
    rfl
  · intro n
    simp [hout]

theorem Logged.number_le (h : Logged base j noted stored) {e : ℕ × Record} (he : e ∈ noted) :
    e.1 ≤ j.current.number := by
  cases ho : j.outcome? e.1 with
  | none =>
      obtain ⟨b, hb, hn⟩ := h.covered e he ho
      exact hn ▸ h.recent b hb
  | some persisted => exact Nat.le_of_lt (h.known (by simp [ho]))

theorem Logged.number_lt (h : Logged base j noted stored) {b : Batch} (hb : b ∈ stored) :
    b.number < j.current.number :=
  h.known (by rw [h.persisted.mpr (List.mem_map_of_mem hb)]; simp)

theorem Logged.mem_records (h : Logged base j noted stored) {e : ℕ × Record} (he : e ∈ noted)
    {b : Batch} (hb : b ∈ flight j) (hn : b.number = e.1) : e.2 ∈ b.records := by
  rw [h.records b hb]
  refine List.mem_map_of_mem (List.mem_filter.mpr ⟨he, ?_⟩)
  simpa using hn.symm

/-- No outcome gets known.  Batches change places; a new current batch may be opened, and batches
without records may be given up. -/
theorem Logged.regroup (h : Logged base j noted stored)
    (hdistinct : ((flight j').map (·.number)).Nodup)
    (hold : ∀ b ∈ flight j', b ∈ flight j ∨
      b = Batch.fresh (j.current.number + 1) ∧ j'.current.number = j.current.number + 1)
    (hkeep : ∀ b ∈ flight j, b ∈ flight j' ∨ b.records = [])
    (hcurrent : j.current.number ≤ j'.current.number) (houtcomes : j'.outcomes = j.outcomes)
    (hlsn : j'.nextLsn = j.nextLsn) : Logged base j' noted stored := by
  have hout (n : ℕ) : j'.outcome? n = j.outcome? n := by rw [outcome?, houtcomes, outcome?]
  refine ⟨hdistinct, fun b hb => ?_, fun b hb => ?_,
    fun hn => Nat.lt_of_lt_of_le (h.known (hout _ ▸ hn)) hcurrent, fun b hb => ?_,
    fun e he ho => ?_, h.kept, fun {n} => hout n ▸ h.persisted, h.once, h.ordered, hlsn ▸ h.below,
    hlsn ▸ h.above⟩
  · rcases hold b hb with hb | ⟨rfl, hnew⟩
    · exact Nat.le_trans (h.recent b hb) hcurrent
    · exact Nat.le_of_eq hnew.symm
  · rw [hout]
    rcases hold b hb with hb | ⟨rfl, -⟩
    · exact h.unknown b hb
    · by_contra hne
      exact absurd (h.known hne) (Nat.not_lt_of_le (Nat.le_succ _))
  · rcases hold b hb with hb | ⟨rfl, -⟩
    · exact h.records b hb
    · refine (recordsIn_of_ne fun e he => ?_).symm
      exact Nat.ne_of_lt (Nat.lt_succ_of_le (h.number_le he))
  · obtain ⟨b, hb, hn⟩ := h.covered e he (hout _ ▸ ho)
    rcases hkeep b hb with hb' | hempty
    · exact ⟨b, hb', hn⟩
    · have hin := h.mem_records he hb hn
      rw [hempty] at hin
      cases hin

theorem Logged.reshape (h : Logged base j noted stored) (hflight : (flight j').Perm (flight j))
    (hcurrent : j'.current.number = j.current.number) (houtcomes : j'.outcomes = j.outcomes)
    (hlsn : j'.nextLsn = j.nextLsn) : Logged base j' noted stored :=
  h.regroup ((hflight.map _).nodup_iff.mpr h.distinct)
    (fun _ hb => .inl (hflight.mem_iff.mp hb)) (fun _ hb => .inl (hflight.mem_iff.mpr hb))
    (Nat.le_of_eq hcurrent.symm) houtcomes hlsn

/-- A new current batch is opened. -/
theorem Logged.renewed (h : Logged base j noted stored)
    (hflight : (flight j').Perm (Batch.fresh (j.current.number + 1) :: flight j))
    (hcurrent : j'.current.number = j.current.number + 1) (houtcomes : j'.outcomes = j.outcomes)
    (hlsn : j'.nextLsn = j.nextLsn) : Logged base j' noted stored := by
  refine h.regroup ?_ (fun b hb => ?_)
    (fun b hb => .inl (hflight.mem_iff.mpr (List.mem_cons_of_mem _ hb))) (by omega) houtcomes hlsn
  · rw [(hflight.map _).nodup_iff, List.map_cons, List.nodup_cons]
    refine ⟨fun hm => ?_, h.distinct⟩
    obtain ⟨b, hb, hn⟩ := List.mem_map.mp hm
    have hle := h.recent b hb
    have hn : b.number = j.current.number + 1 := hn
    omega
  · rcases List.mem_cons.mp (hflight.mem_iff.mp hb) with rfl | hb
    · exact .inr ⟨rfl, hcurrent⟩
    · exact .inl hb

theorem Logged.discard (h : Logged base j noted stored) {b : Batch} (hb : b.records = [])
    (hflight : (flight j).Perm (b :: flight j')) (hcurrent : j'.current = j.current)
    (houtcomes : j'.outcomes = j.outcomes) (hlsn : j'.nextLsn = j.nextLsn) :
    Logged base j' noted stored := by
  have hdistinct := (hflight.map (·.number)).nodup_iff.mp h.distinct
  rw [List.map_cons, List.nodup_cons] at hdistinct
  refine h.regroup hdistinct.2 (fun d hd => ?_) (fun d hd => ?_) (Nat.le_of_eq (by rw [hcurrent]))
    houtcomes hlsn
  · exact .inl (hflight.mem_iff.mpr (List.mem_cons_of_mem _ hd))
  · rcases List.mem_cons.mp (hflight.mem_iff.mp hd) with rfl | hd
    · exact .inr hb
    · exact .inl hd

/-! ### Steps of writers -/

/-- A record is taken into the current batch. -/
theorem Logged.push (h : Logged base j noted stored) (r : Record) (hr : r.lsn = j.nextLsn) :
    Logged base { j with nextLsn := j.nextLsn + 1, current := j.current.push r }
      (noted ++ [(j.current.number, r)]) stored := by
  have hin {n : ℕ} (hn : n ≠ j.current.number) :
      recordsIn (noted ++ [(j.current.number, r)]) n = recordsIn noted n := by
    simp [recordsIn, Ne.symm hn]
  have hrest : ∀ b ∈ (flight j).tail, b.number ≠ j.current.number := by
    intro b hb he
    have hd := h.distinct
    rw [flight, List.map_cons, List.nodup_cons] at hd
    exact hd.1 (he ▸ List.mem_map_of_mem hb)
  refine ⟨h.distinct, fun b hb => ?_, fun b hb => ?_, h.known, fun b hb => ?_,
    fun e he ho => ?_, fun b hb => ?_, h.persisted, h.once, ?_, fun e he => ?_, fun s hs => ?_⟩
  · rcases List.mem_cons.mp hb with rfl | hb
    · exact Nat.le_refl _
    · exact h.recent b (List.mem_cons_of_mem _ hb)
  · rcases List.mem_cons.mp hb with rfl | hb
    · exact h.unknown j.current (current_mem_flight j)
    · exact h.unknown b (List.mem_cons_of_mem _ hb)
  · rcases List.mem_cons.mp hb with rfl | hb
    · show j.current.records ++ [r] = recordsIn _ j.current.number
      rw [recordsIn_append, ← h.records _ (current_mem_flight j)]
      simp [recordsIn]
    · rw [hin (hrest b hb)]
      exact h.records b (List.mem_cons_of_mem _ hb)
  · rcases List.mem_append.mp he with he | he
    · obtain ⟨b, hb, hn⟩ := h.covered e he ho
      rcases List.mem_cons.mp hb with rfl | hb
      · exact ⟨_, List.mem_cons_self .., hn⟩
      · exact ⟨b, List.mem_cons_of_mem _ hb, hn⟩
    · exact ⟨_, List.mem_cons_self .., by rw [List.mem_singleton.mp he]; rfl⟩
  · rw [hin (Nat.ne_of_lt (h.number_lt hb))]
    exact h.kept b hb
  · rw [List.map_append, List.pairwise_append]
    refine ⟨h.ordered, by simp, fun m hm n hn => ?_⟩
    obtain ⟨e, he, rfl⟩ := List.mem_map.mp hm
    obtain rfl : n = r.lsn := by simpa using hn
    exact hr ▸ h.below e he
  · show e.2.lsn < j.nextLsn + 1
    rcases List.mem_append.mp he with he | he
    · exact Nat.lt_succ_of_lt (h.below e he)
    · rw [List.mem_singleton.mp he]
      exact Nat.lt_succ_of_le (Nat.le_of_eq hr)
  · refine ⟨Nat.lt_succ_of_lt (h.above s hs).1, fun e he => ?_⟩
    rcases List.mem_append.mp he with he | he
    · exact (h.above s hs).2 e he
    · rw [List.mem_singleton.mp he]
      exact hr.symm ▸ (h.above s hs).1

theorem Logged.append (h : Logged base j noted stored) (tx : ℕ) (kind : RecordKind)
    (args : List String) :
    Logged base (j.append tx kind args)
      (noted ++ [(j.current.number, ⟨j.nextLsn, tx, kind, args⟩)]) stored := by
  have hp := h.push ⟨j.nextLsn, tx, kind, args⟩ rfl
  rcases j.append_cases tx kind args with ⟨-, heq⟩ | ⟨-, heq⟩ <;> rw [heq]
  · exact hp
  · refine hp.renewed ?_ rfl rfl rfl
    simp only [flight]
    refine List.Perm.cons _ ?_
    simp only [List.append_assoc, List.singleton_append]
    exact List.perm_middle

theorem Logged.handOver (h : Logged base j noted stored) {number : ℕ}
    (hj : j.handOver number = some j') : Logged base j' noted stored := by
  obtain ⟨b, hb, -, rfl⟩ := handOver_cases hj
  refine h.reshape ?_ rfl rfl rfl
  simp only [flight]
  refine List.Perm.cons _ (List.Perm.append_right _ (List.Perm.append_right _ ?_))
  have hcarried : (j.carried.erase b ++ j.queue ++ [b]).Perm (j.carried ++ j.queue) :=
    (List.perm_append_singleton ..).trans ((List.perm_cons_erase hb).append_right j.queue).symm
  rwa [List.append_assoc] at hcarried

/-! ### Steps of the flusher -/

/-- What the flusher can turn to when it has no batch in hand. -/
inductive Turned (j : Journal σ) : Journal σ → Prop
  | queued {b : Batch} {queue : List Batch} (hf : j.flusher ≠ .stopped)
      (hq : j.queue = b :: queue) : Turned j ({ j with queue }.take b)
  | tick (hf : j.flusher = .waiting) : Turned j { j with flusher := .ticking }
  | close (hf : j.flusher = .waiting) :
      Turned j { j.renew with closed := true, flusher := .draining j.current }
  | swept (hf : j.flusher = .ticking) (hq : j.queue = []) :
      Turned j { j with flusher := .collecting }
  | pass (hf : j.flusher = .collecting) (he : j.current.records = []) :
      Turned j { j with flusher := .waiting }
  | collect (hf : j.flusher = .collecting) (he : j.current.records ≠ []) :
      Turned j ({ j.renew with flusher := .waiting }.take j.current)
  | drained {rest : Batch} (hf : j.flusher = .draining rest) (hq : j.queue = [])
      (hc : j.carried = []) (he : rest.records = []) : Turned j { j with flusher := .stopped }
  | finish {rest : Batch} (hf : j.flusher = .draining rest) (hq : j.queue = [])
      (hc : j.carried = []) (he : rest.records ≠ []) :
      Turned j ({ j with flusher := .stopped }.take rest)

theorem Turned.of_nextTask {event : Event} (h : j.nextTask event = some j') : Turned j j' := by
  unfold Journal.nextTask at h
  split at h
  · next hf =>
    split at h
    · split at h
      · cases h
      · next hq => exact Option.some.inj h ▸ .queued (by simp [hf]) hq
    · exact Option.some.inj h ▸ .tick hf
    · exact Option.some.inj h ▸ .close hf
  · next hf =>
    split at h
    · next hq => exact Option.some.inj h ▸ .swept hf hq
    · next hq => exact Option.some.inj h ▸ .queued (by simp [hf]) hq
  · next hf =>
    split at h
    · next he => exact Option.some.inj h ▸ .pass hf (List.isEmpty_iff.mp he)
    · next he => exact Option.some.inj h ▸ .collect hf fun hnil => he (List.isEmpty_iff.mpr hnil)
  · next rest hf =>
    split at h
    · next hq => exact Option.some.inj h ▸ .queued (by simp [hf]) hq
    · next hq =>
      split at h
      · cases h
      · next hc =>
        have hc : j.carried = [] := by simpa using hc
        split at h
        · next he => exact Option.some.inj h ▸ .drained hf hq hc (List.isEmpty_iff.mp he)
        · next he =>
          exact Option.some.inj h ▸ .finish hf hq hc fun hnil => he (List.isEmpty_iff.mpr hnil)
  · cases h

/-- The flusher uses the store and publishes outcomes only for batches in its hand, and hands no batch
over. -/
theorem Turned.frame (h : Turned j j') : j'.store = j.store ∧ j'.outcomes = j.outcomes ∧
    j'.carried = j.carried ∧ j'.capacity = j.capacity := by
  cases h <;> exact ⟨rfl, rfl, rfl, rfl⟩

/-- A batch leaves with an outcome: the store took all its records or none. -/
theorem Logged.settle (h : Logged base j noted stored) {b : Batch} (persisted : Bool)
    (hflight : (flight j).Perm (b :: flight j')) (hcurrent : j'.current = j.current)
    (houtcome : ∀ n, j'.outcome? n = if n = b.number then some persisted else j.outcome? n)
    (hlsn : j'.nextLsn = j.nextLsn) :
    Logged base j' noted (stored ++ if persisted then [b] else []) := by
  have hb : b ∈ flight j := hflight.mem_iff.mpr (List.mem_cons_self ..)
  have hmem {d : Batch} (hd : d ∈ flight j') : d ∈ flight j :=
    hflight.mem_iff.mpr (List.mem_cons_of_mem _ hd)
  have hnodup := (hflight.map _).nodup_iff.mp h.distinct
  rw [List.map_cons, List.nodup_cons] at hnodup
  have hne {d : Batch} (hd : d ∈ flight j') : d.number ≠ b.number :=
    fun he => hnodup.1 (he ▸ List.mem_map_of_mem hd)
  have hlt : b.number < j.current.number :=
    Nat.lt_of_le_of_ne (h.recent b hb) (hcurrent ▸ hne (current_mem_flight j')).symm
  have hnew : b.number ∉ stored.map (·.number) := by
    rw [← h.persisted, h.unknown b hb]
    simp
  refine ⟨hnodup.2, fun d hd => hcurrent ▸ h.recent d (hmem hd), fun d hd => ?_, fun {n} hn => ?_,
    fun d hd => h.records d (hmem hd), fun e he ho => ?_, fun d hd => ?_, fun {n} => ?_, ?_,
    h.ordered, fun e he => hlsn ▸ h.below e he, fun r hr => hlsn ▸ h.above r hr⟩
  · rw [houtcome, if_neg (hne hd)]
    exact h.unknown d (hmem hd)
  · rw [hcurrent]
    by_cases he : n = b.number
    · exact he ▸ hlt
    · rw [houtcome, if_neg he] at hn
      exact h.known hn
  · rw [houtcome] at ho
    split at ho
    · simp at ho
    · next hn =>
      obtain ⟨d, hd, hdn⟩ := h.covered e he ho
      rcases List.mem_cons.mp (hflight.mem_iff.mp hd) with rfl | hd
      · exact absurd hdn.symm hn
      · exact ⟨d, hd, hdn⟩
  · rcases List.mem_append.mp hd with hd | hd
    · exact h.kept d hd
    · cases persisted with
      | true => exact List.mem_singleton.mp hd ▸ h.records b hb
      | false => simp at hd
  · rw [houtcome, List.map_append, List.mem_append, ← h.persisted]
    by_cases he : n = b.number
    · subst he
      cases persisted <;> simp [h.unknown b hb]
    · cases persisted <;> simp [he]
  · rw [List.map_append, List.nodup_append]
    refine ⟨h.once, ?_, fun m hm n hn => ?_⟩
    · cases persisted <;> simp
    · cases persisted with
      | true =>
          obtain rfl : n = b.number := by simpa using hn
          exact fun he => hnew (he ▸ hm)
      | false => simp at hn

section stored
variable [LogStore σ]

/-- The flusher stores the batch in its hand, or fails to. -/
theorem Logged.write (h : Logged base j noted stored) {b : Batch} (ht : j.taken = some b) :
    Logged base ({ j with taken := none }.write b) noted (stored ++ storing j) := by
  have hnone : j.outcome? b.number = none := h.unknown b (by simp [flight, ht])
  have hflight : (flight j).Perm (b :: j.current :: (j.carried ++ j.queue ++ j.flusher.rest)) := by
    simp only [flight, ht, Option.toList_some, List.append_assoc, List.singleton_append]
    refine List.Perm.trans (List.Perm.cons _ ?_) (List.Perm.swap ..)
    rw [← List.append_assoc, ← List.append_assoc]
    exact List.perm_middle
  have hstoring : storing j =
      if (LogStore.write j.store b.records).1.isOk then [b] else [] := by
    unfold storing
    rw [ht]
    cases hw : LogStore.write j.store b.records with
    | mk result s => cases result <;> simp [hw, Except.isOk, Except.toBool]
  rw [hstoring, write_eq (j := { j with taken := none }) hnone]
  refine h.settle (b := b) _ ?_ rfl (fun n => Table.get?_insert ..) rfl
  simpa [flight] using hflight

omit [LogStore σ] in
theorem Logged.turned (h : Logged base j noted stored) (ht : j.taken = none) (hj : Turned j j') :
    Logged base j' noted stored := by
  cases hj with
  | queued hf hq =>
      refine h.reshape ?_ rfl rfl rfl
      simp only [flight, take, ht, hq, Option.toList_some, Option.toList_none, List.append_nil]
      refine List.Perm.cons _ (List.Perm.append_right _ ?_)
      rw [List.append_assoc]
      exact List.Perm.append_left _ (List.perm_append_singleton ..)
  | tick hf =>
      refine h.reshape ?_ rfl rfl rfl
      simp [flight, hf, Flusher.rest]
  | close hf =>
      refine h.renewed ?_ rfl rfl rfl
      simp only [flight, hf, Flusher.rest, renew, ht]
      refine List.Perm.cons _ ?_
      simp only [Option.toList_none, List.append_nil]
      exact List.perm_append_singleton ..
  | swept hf hq =>
      refine h.reshape ?_ rfl rfl rfl
      simp [flight, hf, Flusher.rest]
  | pass hf he =>
      refine h.reshape ?_ rfl rfl rfl
      simp [flight, hf, Flusher.rest]
  | collect hf he =>
      refine h.renewed ?_ rfl rfl rfl
      simp only [flight, hf, Flusher.rest, renew, take, ht]
      refine List.Perm.cons _ ?_
      simp only [Option.toList_none, Option.toList_some, List.append_nil]
      exact List.perm_append_singleton ..
  | drained hf hq hc he =>
      refine h.discard he ?_ rfl rfl rfl
      simp only [flight, hf, Flusher.rest, List.append_nil]
      exact (List.perm_append_singleton ..).cons _ |>.trans (List.Perm.swap ..)
  | finish hf hq hc he =>
      refine h.reshape ?_ rfl rfl rfl
      simp [flight, hf, Flusher.rest, take, ht]

theorem Logged.flusherStep (h : Logged base j noted stored) {event : Event}
    (hj : j.flusherStep event = some j') : Logged base j' noted (stored ++ storing j) := by
  unfold Journal.flusherStep at hj
  split at hj
  · next ht => exact Option.some.inj hj ▸ h.write ht
  · next ht =>
    have hnone : storing j = [] := by simp [storing, ht]
    rw [hnone, List.append_nil]
    exact h.turned ht (.of_nextTask hj)

/-! ### The store -/

omit [LogStore σ] in
theorem store_notify (j : Journal σ) (number : ℕ) (persisted : Bool) :
    (j.notify number persisted).store = j.store := by
  unfold notify
  split <;> rfl

/-- Writes to a store, of which some batches succeed in turn and others fail. -/
inductive Filled : σ → List Batch → σ → Prop
  | none (s : σ) : Filled s [] s
  | stored {s s' s'' : σ} {bs : List Batch} {b : Batch} (h : Filled s bs s')
      (hw : LogStore.write s' b.records = (.ok (), s'')) : Filled s (bs ++ [b]) s''
  | failed {s s' s'' : σ} {bs : List Batch} {b : Batch} {fault : Fault} (h : Filled s bs s')
      (hw : LogStore.write s' b.records = (.error fault, s'')) : Filled s bs s''

/-- The contents of an atomic store are those of the batches that were stored. -/
theorem Filled.contents_eq [AtomicStore σ] {s s' : σ} {bs : List Batch} (h : Filled s bs s') :
    AtomicStore.contents s' = AtomicStore.contents s ++ bs.flatMap (·.records) := by
  induction h with
  | none => simp
  | stored h hw ih => rw [AtomicStore.contents_ok hw, ih, List.flatMap_append]; simp
  | failed h hw ih => rw [AtomicStore.contents_error hw, ih]

/-- A step of the flusher writes the batch in its hand, or nothing. -/
theorem Filled.flusherStep {s : σ} {bs : List Batch} (h : Filled s bs j.store) {event : Event}
    (hj : j.flusherStep event = some j') : Filled s (bs ++ storing j) j'.store := by
  rw [Journal.flusherStep] at hj
  rw [storing]
  cases ht : j.taken with
  | some b =>
      rw [ht] at hj
      obtain rfl := Option.some.inj hj
      cases hw : LogStore.write j.store b.records with
      | mk result s' =>
          cases result with
          | ok u =>
              simp only [Journal.write, hw, store_notify]
              exact h.stored hw
          | error fault =>
              simp only [Journal.write, hw, store_notify, List.append_nil]
              exact h.failed hw
  | none =>
      rw [ht] at hj
      rw [List.append_nil, (Turned.of_nextTask hj).frame.1]
      exact h

end stored
end logged
end Journal
end SnapshotStore

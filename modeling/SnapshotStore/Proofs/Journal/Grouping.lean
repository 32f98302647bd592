import SnapshotStore.Proofs.Journal.Writer
import Mathlib.Data.List.Range

/-! # How records are grouped

`Grouped` says how a journal groups the records that it took:

* their numbers follow each other from the first one on, and so do, without the requirement that each
  occurs, the numbers of their batches; so the records of a batch have numbers that follow each other
  (`Grouped.contiguous`);
* no batch has more records than fit in one, and none that leaves the hands of the writers is empty;
* once the flusher was told to stop nothing is taken any more, and when it has stopped no batch is left
  behind (`Grouped.current_of_stopped`).

Writers and the flusher keep this (`Grouped.saved`, `Grouped.flusherStep`). -/

namespace SnapshotStore
namespace Journal

variable {σ : Type}

/-! ### Lists in order of batches -/

/-- Records in the order of their batches: those of lower batches, of one batch, and of higher ones. -/
theorem eq_append_recordsIn {noted : List (ℕ × Record)}
    (h : (noted.map (·.1)).Pairwise (· ≤ ·)) (n : ℕ) :
    noted = noted.filter (·.1 < n) ++ noted.filter (·.1 = n) ++ noted.filter (n < ·.1) := by
  induction noted with
  | nil => rfl
  | cons e noted ih =>
      rw [List.map_cons, List.pairwise_cons] at h
      have hge : ∀ d ∈ noted, e.1 ≤ d.1 := fun d hd => h.1 _ (List.mem_map_of_mem hd)
      have hlow (hle : n ≤ e.1) : noted.filter (·.1 < n) = [] :=
        List.filter_eq_nil_iff.mpr fun d hd => by
          have := hge d hd
          simp only [decide_eq_true_eq]
          omega
      have hsame (hlt : n < e.1) : noted.filter (·.1 = n) = [] :=
        List.filter_eq_nil_iff.mpr fun d hd => by
          have := hge d hd
          simp only [decide_eq_true_eq]
          omega
      have ih := ih h.2
      rcases Nat.lt_trichotomy e.1 n with hlt | rfl | hgt
      · have hne : ¬ e.1 = n := by omega
        have hngt : ¬ n < e.1 := by omega
        simp only [List.filter_cons, hlt, hne, hngt, decide_true, decide_false, if_true,
          Bool.false_eq_true, if_false, List.cons_append]
        exact congrArg _ ih
      · rw [hlow (Nat.le_refl _), List.nil_append] at ih
        simp only [List.filter_cons, hlow (Nat.le_refl _), Nat.lt_irrefl, decide_true, decide_false,
          if_true, Bool.false_eq_true, if_false, List.cons_append, List.nil_append]
        exact congrArg _ ih
      · have hnlt : ¬ e.1 < n := by omega
        have hne : ¬ e.1 = n := by omega
        rw [hlow (Nat.le_of_lt hgt), hsame hgt, List.nil_append, List.nil_append] at ih
        simp only [List.filter_cons, hgt, hnlt, hne, hlow (Nat.le_of_lt hgt), hsame hgt, decide_true,
          decide_false, if_true, Bool.false_eq_true, if_false, List.nil_append]
        exact congrArg _ ih

theorem range'_of_append {A B C : List ℕ} {first n : ℕ}
    (h : A ++ B ++ C = List.range' first n) : B = List.range' (first + A.length) B.length := by
  have hlength : n = A.length + B.length + C.length := by
    have := congrArg List.length h
    simp only [List.length_append, List.length_range'] at this
    exact this.symm
  rw [hlength, ← List.range'_append_1, ← List.range'_append_1] at h
  have hAB := (List.append_inj h (by simp)).1
  exact (List.append_inj hAB (by simp)).2

/-! ### The invariant -/

/-- Whether the flusher was told to stop. -/
def Flusher.isClosing : Flusher → Bool
  | .draining _ => true
  | .stopped => true
  | _ => false

/-- How a journal groups the records that it took, each with the number of its batch. -/
structure Grouped (first : ℕ) (j : Journal σ) (noted : List (ℕ × Record)) : Prop where
  lsns : noted.map (·.2.lsn) = List.range' first noted.length
  next : j.nextLsn = first + noted.length
  numbers : (noted.map (·.1)).Pairwise (· ≤ ·)
  roomy : j.current.records.length < j.capacity
  size : ∀ b ∈ flight j, b.records.length ≤ j.capacity
  filled : ∀ b ∈ j.carried ++ j.queue ++ j.taken.toList, b.records ≠ []
  closing : j.closed = j.flusher.isClosing
  shut : j.closed = true → j.current.records = []
  stopped : j.flusher = .stopped → j.carried = [] ∧ j.queue = []

section grouped
variable {first : ℕ} {j j' : Journal σ} {noted : List (ℕ × Record)}

/-- The records of a batch have numbers that follow each other. -/
theorem Grouped.contiguous (h : Grouped first j noted) (n : ℕ) :
    ∃ k, (recordsIn noted n).map (·.lsn) = List.range' k (recordsIn noted n).length := by
  have hsplit := congrArg (List.map (·.2.lsn)) (eq_append_recordsIn h.numbers n)
  rw [h.lsns, List.map_append, List.map_append] at hsplit
  have hpart := range'_of_append hsplit.symm
  simp only [List.length_map] at hpart
  refine ⟨first + (noted.filter (·.1 < n)).length, ?_⟩
  rw [recordsIn, List.map_map, List.length_map]
  exact hpart

/-- Once the flusher has stopped and nothing is in its hand, the only batch that is left is empty. -/
theorem Grouped.current_of_stopped (h : Grouped first j noted) (hf : j.flusher = .stopped)
    (ht : j.taken = none) : flight j = [j.current] ∧ j.current.records = [] := by
  obtain ⟨hcarried, hqueue⟩ := h.stopped hf
  refine ⟨by simp [flight, hcarried, hqueue, ht, hf, Flusher.rest], h.shut ?_⟩
  rw [h.closing, hf]
  rfl

theorem Grouped.start (first : ℕ) (store : σ) (batchSize : ℕ) :
    Grouped first { Journal.start store batchSize with nextLsn := first } [] where
  lsns := rfl
  next := rfl
  numbers := .nil
  roomy := by
    show 0 < max batchSize 1
    omega
  size b hb := by
    obtain rfl : b = Batch.fresh 0 := by simpa [flight, Journal.start, Flusher.rest] using hb
    exact Nat.zero_le _
  filled b hb := by simp [Journal.start] at hb
  closing := rfl
  shut h := by cases h
  stopped h := by cases h

/-! ### Steps of writers -/

theorem Grouped.append (h : Grouped first j noted) (hopen : j.closed = false)
    (hle : ∀ e ∈ noted, e.1 ≤ j.current.number) (tx : ℕ) (kind : RecordKind) (args : List String) :
    Grouped first (j.append tx kind args)
      (noted ++ [(j.current.number, ⟨j.nextLsn, tx, kind, args⟩)]) := by
  generalize hr : (⟨j.nextLsn, tx, kind, args⟩ : Record) = r
  have hlsns : (noted ++ [(j.current.number, r)]).map (·.2.lsn) =
      List.range' first (noted ++ [(j.current.number, r)]).length := by
    rw [List.map_append, h.lsns, List.length_append, List.length_singleton, List.range'_1_concat,
      ← h.next, ← hr]
    rfl
  have hnext : j.nextLsn + 1 = first + (noted ++ [(j.current.number, r)]).length := by
    rw [h.next, List.length_append, List.length_singleton]
    omega
  have hnumbers : ((noted ++ [(j.current.number, r)]).map (·.1)).Pairwise (· ≤ ·) := by
    rw [List.map_append, List.pairwise_append]
    refine ⟨h.numbers, by simp, fun m hm n hn => ?_⟩
    obtain ⟨e, he, rfl⟩ := List.mem_map.mp hm
    obtain rfl := List.mem_singleton.mp hn
    exact hle e he
  have hlength : (j.current.push r).records.length = j.current.records.length + 1 := by
    simp [Batch.push]
  have hpush : (j.current.push r).records.length ≤ j.capacity := by
    rw [hlength]
    exact h.roomy
  have hrest : ∀ b ∈ (flight j).tail, b.records.length ≤ j.capacity :=
    fun b hb => h.size b (List.mem_cons_of_mem _ hb)
  have hnot : j.flusher ≠ .stopped := by
    intro hf
    rw [h.closing, hf] at hopen
    cases hopen
  rcases j.append_cases tx kind args with ⟨hroom, heq⟩ | ⟨hfull, heq⟩ <;> rw [heq, hr]
  · refine ⟨hlsns, hnext, hnumbers, ?_, fun b hb => ?_, h.filled, h.closing, fun hc => ?_, h.stopped⟩
    · rw [hlength]
      exact hroom
    · rcases List.mem_cons.mp hb with rfl | hb
      · exact hpush
      · exact hrest b hb
    · exact absurd (hopen.symm.trans hc) (by simp)
  · refine ⟨hlsns, hnext, hnumbers, Nat.zero_lt_of_lt h.roomy, fun b hb => ?_, fun b hb => ?_,
      h.closing, fun _ => rfl, fun hf => absurd hf hnot⟩
    · simp only [flight, List.mem_cons, List.mem_append, List.not_mem_nil, or_false] at hb
      have hold := hrest b
      simp only [flight, List.tail_cons, List.mem_append] at hold
      rcases hb with rfl | ((((hb | rfl) | hb) | hb) | hb)
      · exact Nat.zero_le _
      · exact hold (.inl (.inl (.inl hb)))
      · exact hpush
      · exact hold (.inl (.inl (.inr hb)))
      · exact hold (.inl (.inr hb))
      · exact hold (.inr hb)
    · simp only [List.mem_append, List.mem_singleton] at hb
      have hold := h.filled b
      simp only [List.mem_append] at hold
      rcases hb with ((hb | rfl) | hb) | hb
      · exact hold (.inl (.inl hb))
      · exact List.ne_nil_of_length_pos (by rw [hlength]; omega)
      · exact hold (.inl (.inr hb))
      · exact hold (.inr hb)

theorem Grouped.handOver (h : Grouped first j noted) {number : ℕ}
    (hj : j.handOver number = some j') : Grouped first j' noted := by
  obtain ⟨b, hb, -, rfl⟩ := handOver_cases hj
  have hmem {d : Batch} (hd : d ∈ j.carried.erase b ++ (j.queue ++ [b])) :
      d ∈ j.carried ++ j.queue := by
    simp only [List.mem_append, List.mem_singleton] at hd ⊢
    rcases hd with hd | hd | rfl
    · exact .inl (List.mem_of_mem_erase hd)
    · exact .inr hd
    · exact .inl hb
  refine ⟨h.lsns, h.next, h.numbers, h.roomy, fun d hd => ?_, fun d hd => ?_, h.closing, h.shut,
    fun hf => ?_⟩
  · rcases List.mem_cons.mp hd with rfl | hd
    · exact Nat.le_of_lt h.roomy
    · have hold := h.size d
      simp only [flight, List.mem_cons, List.mem_append] at hold
      rcases List.mem_append.mp hd with hd | hd
      · rcases List.mem_append.mp hd with hd | hd
        · exact hold (.inr (.inl (.inl (List.mem_append.mp (hmem hd)))))
        · exact hold (.inr (.inl (.inr hd)))
      · exact hold (.inr (.inr hd))
  · have hold := h.filled d
    rcases List.mem_append.mp hd with hd | hd
    · exact hold (List.mem_append_left _ (hmem hd))
    · exact hold (List.mem_append_right _ hd)
  · rw [(h.stopped hf).1] at hb
    cases hb

theorem Grouped.saved {save save' : Save} {new : List (ℕ × Record)} (h : Grouped first j noted)
    (hle : ∀ e ∈ noted, e.1 ≤ j.current.number) (hs : Saved j save new save' j') :
    Grouped first j' (noted ++ new) := by
  cases hs with
  | taken hs hopen hfull => exact h.append hopen hle ..
  | handed hj =>
      rw [List.append_nil]
      exact h.handOver hj
  | _ => rwa [List.append_nil]

/-! ### Steps of the flusher -/

theorem Grouped.withFlusher (h : Grouped first j noted) {f : Flusher}
    (hclosing : f.isClosing = j.flusher.isClosing) (hrest : f.rest = j.flusher.rest)
    (hf : f ≠ .stopped) : Grouped first { j with flusher := f } noted where
  lsns := h.lsns
  next := h.next
  numbers := h.numbers
  roomy := h.roomy
  size b hb := h.size b (by simpa only [flight, hrest] using hb)
  filled := h.filled
  closing := h.closing.trans hclosing.symm
  shut := h.shut
  stopped hs := absurd hs hf

theorem Grouped.turned (h : Grouped first j noted) (ht : j.taken = none) (hj : Turned j j') :
    Grouped first j' noted := by
  have hsize := h.size
  have hfilled := h.filled
  simp only [flight, ht, Option.toList_none, List.append_nil] at hsize hfilled
  have hroomy : 0 < j.capacity := Nat.zero_lt_of_lt h.roomy
  cases hj with
  | queued hf hq =>
      rw [hq] at hsize hfilled
      refine ⟨h.lsns, h.next, h.numbers, h.roomy, fun b hb => hsize b ?_, fun b hb => hfilled b ?_,
        h.closing, h.shut, fun hs => absurd hs hf⟩
      · simp only [flight, take, Option.toList_some, List.mem_cons, List.mem_append] at hb ⊢
        tauto
      · simp only [take, Option.toList_some, List.mem_cons, List.mem_append] at hb ⊢
        tauto
  | tick hf => exact h.withFlusher (by rw [hf]; rfl) (by rw [hf]; rfl) (by simp)
  | close hf =>
      refine ⟨h.lsns, h.next, h.numbers, hroomy, fun b hb => ?_, h.filled, rfl, fun _ => rfl,
        fun hs => by cases hs⟩
      simp only [flight, renew, ht, Flusher.rest, Option.toList_none, List.append_nil, List.mem_cons,
        List.mem_append, List.not_mem_nil, or_false] at hb
      rcases hb with rfl | hb | rfl
      · exact Nat.zero_le _
      · refine hsize b ?_
        simp only [List.mem_cons, List.mem_append]
        tauto
      · exact Nat.le_of_lt h.roomy
  | swept hf hq => exact h.withFlusher (by rw [hf]; rfl) (by rw [hf]; rfl) (by simp)
  | pass hf he => exact h.withFlusher (by rw [hf]; rfl) (by rw [hf]; rfl) (by simp)
  | collect hf he =>
      refine ⟨h.lsns, h.next, h.numbers, hroomy, fun b hb => ?_, fun b hb => ?_, ?_, fun _ => rfl,
        fun hs => by cases hs⟩
      · simp only [flight, renew, take, Flusher.rest, Option.toList_some, List.append_nil,
          List.mem_cons, List.mem_append, List.not_mem_nil, or_false] at hb
        rcases hb with rfl | hb | rfl
        · exact Nat.zero_le _
        · refine hsize b ?_
          simp only [List.mem_cons, List.mem_append]
          tauto
        · exact Nat.le_of_lt h.roomy
      · rcases List.mem_append.mp hb with hb | hb
        · exact hfilled b hb
        · obtain rfl := List.mem_singleton.mp hb
          exact he
      · show j.closed = false
        rw [h.closing, hf]
        rfl
  | drained hf hq hc he =>
      refine ⟨h.lsns, h.next, h.numbers, h.roomy, fun b hb => hsize b ?_, h.filled, ?_, h.shut,
        fun _ => ⟨hc, hq⟩⟩
      · simp only [flight, ht, hc, hq, Flusher.rest, Option.toList_none, List.append_nil] at hb
        exact List.mem_cons.mpr (.inl (List.mem_singleton.mp hb))
      · rw [h.closing, hf]
        rfl
  | finish hf hq hc he =>
      refine ⟨h.lsns, h.next, h.numbers, h.roomy, fun b hb => hsize b ?_, fun b hb => ?_, ?_, h.shut,
        fun _ => ⟨hc, hq⟩⟩
      · simpa [flight, take, hc, hq, hf, Flusher.rest] using hb
      · have hb : b ∈ j.carried ++ j.queue ++ [_] := hb
        rw [hc, hq, List.append_nil, List.nil_append] at hb
        rwa [List.mem_singleton.mp hb]
      · show j.closed = true
        rw [h.closing, hf]
        rfl

/-- The flusher stores the batch in its hand, or turns to what comes next. -/
theorem Grouped.flusherStep [LogStore σ] (h : Grouped first j noted)
    (hunknown : ∀ b ∈ flight j, j.outcome? b.number = none) {event : Event}
    (hj : j.flusherStep event = some j') : Grouped first j' noted := by
  unfold Journal.flusherStep at hj
  split at hj
  · next b ht =>
    obtain rfl := Option.some.inj hj
    have hnone : j.outcome? b.number = none := hunknown b (by simp [flight, ht])
    rw [write_eq (j := { j with taken := none }) hnone]
    refine ⟨h.lsns, h.next, h.numbers, h.roomy, fun d hd => h.size d ?_, fun d hd => h.filled d ?_,
      h.closing, h.shut, h.stopped⟩
    · simp only [flight, Option.toList_none, List.append_nil, List.mem_cons, List.mem_append] at hd ⊢
      tauto
    · simp only [Option.toList_none, List.append_nil] at hd
      exact List.mem_append_left _ hd
  · next ht => exact h.turned ht (.of_nextTask hj)

end grouped
end Journal
end SnapshotStore

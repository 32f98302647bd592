import SnapshotStore.Proofs.Run.Commits

/-! # Requests in a run

A transaction that is asked to commit or to roll back is finished and takes no further request.
`Requested` follows this through a run: whoever commits was asked to, and a transaction that was
rolled back, or whose commit has answered, never commits again. -/

namespace SnapshotStore
namespace Run

open Journal (LogStore)

variable {σ : Type}

namespace Client

variable (p : Client)

/-- Whether a transaction is over, and at most has to note that it was rolled back. -/
def Closed : Prop :=
  p.transaction.finished = true ∧
    match p.activity with
    | .discarding _ => True
    | .answered _ => True
    | _ => False

/-- Whether a commit is under way. -/
def Commits : Prop :=
  match p.activity with
  | .committing _ => True
  | _ => False

variable {p}

theorem Commits.not_closed (h : p.Commits) : ¬ p.Closed := by
  rintro ⟨-, hc⟩
  unfold Commits at h
  split at h
  · next ha => simp [ha] at hc
  · exact h

theorem Succeeded.commits (h : p.Succeeded) : p.Commits := by
  unfold Succeeded at h
  unfold Commits
  split at h <;> simp_all

end Client

/-! ### Steps of a client -/

section moves
variable {c c' : Coordinator σ} {t : Transaction} {a : Activity} {new : List Event} {p' : Client}

theorem Move.closed (h : Move c t a new p' c') (hp : (⟨t, a⟩ : Client).Closed) : p'.Closed := by
  obtain ⟨hover, ha⟩ := hp
  have hfin : t.finished = true := hover
  cases h with
  | refuse hf => exact ⟨hf, trivial⟩
  | log h =>
      next purpose save save' =>
      cases purpose with
      | discarding => exact ⟨hfin, trivial⟩
      | _ => exact ha.elim
  | discarded => exact ⟨hfin, trivial⟩
  | echo hf hw => exact absurd (hfin.symm.trans hf) (by simp)
  | reread hf hw hc => exact absurd (hfin.symm.trans hf) (by simp)
  | look hf hw => exact absurd (hfin.symm.trans hf) (by simp)
  | write key value hf => exact absurd (hfin.symm.trans hf) (by simp)
  | commitNothing hf hw => exact absurd (hfin.symm.trans hf) (by simp)
  | commit hf hw => exact absurd (hfin.symm.trans hf) (by simp)
  | rollbackNothing hf => exact absurd (hfin.symm.trans hf) (by simp)
  | rollback hf => exact absurd (hfin.symm.trans hf) (by simp)
  | _ => exact ha.elim

theorem Move.of_rollback (h : Move c t a new p' c') {id : ℕ}
    (hr : .requested id .rollback ∈ new) :
    id = t.id ∧ p'.Closed ∧ t.finished = false ∧ ∃ answer, a = .answered answer := by
  cases h with
  | rollbackNothing hf =>
      obtain rfl : id = t.id := by simpa using hr
      exact ⟨rfl, ⟨rfl, trivial⟩, hf, _, rfl⟩
  | rollback hf =>
      obtain rfl : id = t.id := by simpa using hr
      exact ⟨rfl, ⟨rfl, trivial⟩, hf, _, rfl⟩
  | write key value hf => cases value <;> simp [writeRequest] at hr
  | log h => rcases mem_marks hr with ⟨_, _, he⟩ | ⟨_, _, -, he⟩ <;> simp at he
  | _ => simp at hr

theorem Move.closed_of_ended (h : Move c t a new p' c') (hp : (⟨t, a⟩ : Client).Fits) {id : ℕ}
    {writes : Writes} {result : Outcome Unit} (he : .ended id writes result ∈ new) :
    p'.Closed := by
  cases h with
  | finish => exact ⟨hp, trivial⟩
  | log h => rcases mem_marks he with ⟨_, _, he⟩ | ⟨_, _, -, he⟩ <;> simp at he
  | _ => simp at he

theorem Move.of_commits (h : Move c t a new p' c') (hp : p'.Commits) :
    (⟨t, a⟩ : Client).Commits ∨ .requested t.id .commit ∈ new := by
  cases h with
  | commitNothing hf hw => exact .inr (List.mem_singleton.mpr rfl)
  | commit hf hw => exact .inr (List.mem_singleton.mpr rfl)
  | log h =>
      next purpose save save' =>
      cases purpose with
      | sealing held version => exact .inl trivial
      | _ => exact hp.elim
  | _ => first | exact .inl trivial | exact hp.elim

end moves

/-! ### The invariant -/

/-- Whether a transaction was asked to roll back, or its commit has answered. -/
def IsOver (es : List Event) (id : ℕ) : Prop :=
  .requested id .rollback ∈ es ∨ ∃ writes result, .ended id writes result ∈ es

/-- What holds of the requests in a run. -/
structure Requested (s : System σ) : Prop where
  closed : ∀ {id}, IsOver s.trace id → ∃ p ∈ s.clients, p.id = id ∧ p.Closed
  asked : ∀ p ∈ s.clients, p.Commits → .requested p.id .commit ∈ s.trace
  sealed : ∀ {x}, .sealed x ∈ s.trace → .requested x.id .commit ∈ s.trace

theorem Requested.moved {c c' : Coordinator σ} {A B : List Client} {t : Transaction}
    {a : Activity} {p' : Client} {es new : List Event} (hl : Locking ⟨c, A ++ ⟨t, a⟩ :: B, es⟩)
    (h : Requested ⟨c, A ++ ⟨t, a⟩ :: B, es⟩) (hm : Move c t a new p' c') :
    Requested ⟨c', A ++ p' :: B, es ++ new⟩ := by
  have hp : (⟨t, a⟩ : Client) ∈ A ++ ⟨t, a⟩ :: B := by simp
  have hp' : p' ∈ A ++ p' :: B := by simp
  refine ⟨fun {id} ho => ?_, fun q hq hc => ?_, fun {x} hx => ?_⟩
  · have hcases : IsOver es id ∨ id = t.id ∧ p'.Closed := by
      rcases ho with hr | ⟨writes, result, he⟩
      · rcases List.mem_append.mp hr with hr | hr
        · exact .inl (.inl hr)
        · obtain ⟨rfl, hclosed, -⟩ := hm.of_rollback hr
          exact .inr ⟨rfl, hclosed⟩
      · rcases List.mem_append.mp he with he | he
        · exact .inl (.inr ⟨writes, result, he⟩)
        · exact .inr ⟨(hm.of_ended he).1, hm.closed_of_ended (hl.fits _ hp) he⟩
    rcases hcases with ho | ⟨rfl, hclosed⟩
    · obtain ⟨q, hq, rfl, hclosed⟩ := h.closed ho
      rcases mem_moved hq with rfl | hq
      · exact ⟨p', hp', hm.id_eq, hm.closed hclosed⟩
      · exact ⟨q, mem_of_others hq, rfl, hclosed⟩
    · exact ⟨p', hp', hm.id_eq, hclosed⟩
  · rcases mem_moved hq with rfl | hq
    · rw [hm.id_eq]
      rcases hm.of_commits hc with hc | hr
      · exact List.mem_append_left _ (h.asked _ hp hc)
      · exact List.mem_append_right _ hr
    · exact List.mem_append_left _ (h.asked q (mem_of_others hq) hc)
  · rcases List.mem_append.mp hx with hx | hx
    · exact List.mem_append_left _ (h.sealed hx)
    · obtain ⟨held, version, save, rfl, rfl⟩ := hm.of_sealed hx
      exact List.mem_append_left _ (h.asked _ hp trivial)

section stored
variable [LogStore σ] {s s' : System σ} {c₀ : Coordinator σ}

theorem Requested.step (hl : Locking s) (h : Requested s) (hs : Step s s') : Requested s' := by
  cases hs with
  | began c ps es =>
      refine ⟨fun {id} ho => ?_, fun p hp hc => ?_, fun hx => ?_⟩
      · have hold : IsOver es id := by simpa [IsOver] using ho
        obtain ⟨p, hp, he⟩ := h.closed hold
        exact ⟨p, List.mem_append_left _ hp, he⟩
      · rcases List.mem_append.mp hp with hp | hp
        · exact List.mem_append_left _ (h.asked p hp hc)
        · rw [List.mem_singleton.mp hp] at hc
          exact hc.elim
      · exact List.mem_append_left _ (h.sealed (by simpa using hx))
  | moved hm => exact h.moved hl hm
  | flushed hj hf =>
      next c ps es j j' event =>
      refine ⟨fun {id} ho => ?_, fun p hp hc => List.mem_append_left _ (h.asked p hp hc),
        fun {x} hx => ?_⟩
      · have hold : IsOver es id := by
          rcases ho with hr | ⟨writes, result, he⟩
          · exact .inl ((mem_append_flushEvents _ (by simp)).mp hr)
          · exact .inr ⟨writes, result, (mem_append_flushEvents _ (by simp)).mp he⟩
        exact h.closed hold
      · exact List.mem_append_left _ (h.sealed ((mem_append_flushEvents _ (by simp)).mp hx))

theorem Reachable.requested (hc : Fresh c₀) (h : Reachable c₀ s) : Requested s := by
  induction h with
  | start => constructor <;> simp [System.start, IsOver]
  | step hr hs ih => exact ih.step (hr.locking hc) (.of_next hs)

end stored

theorem Requested.not_isOver {s : System σ} (hl : Locking s) (h : Requested s) {p : Client}
    (hp : p ∈ s.clients) (hc : p.Commits) : ¬ IsOver s.trace p.id := by
  intro ho
  obtain ⟨q, hq, he, hclosed⟩ := h.closed ho
  exact hc.not_closed (hl.id_injective hq hp he ▸ hclosed)

end Run
end SnapshotStore

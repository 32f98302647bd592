import SnapshotStore.Proofs.Run.Answers
import SnapshotStore.Proofs.Run.Operations

/-! # Staged writes in a run

A set or a del counts once it was answered without a failure.  `acknowledged` are the writes of a
transaction that count after some steps of a run, the last one for each key.

A transaction has exactly these staged until it is rolled back, and commits exactly these
(`System.acknowledging`).  What was logged for a write that failed is no part of them. -/

namespace SnapshotStore
namespace Run

open Journal (LogStore)

variable {σ : Type} {c₀ : Coordinator σ}

/-! ### Writes that count -/

/-- The write of a client that is answered without a failure. -/
def acknowledges (p p' : Client) : Option (String × Option String) :=
  match p.activity, p'.activity with
  | .writing key value _, .answered (.ok _) => some (key, value)
  | _, _ => none

theorem acknowledges_of_isIdle {p p' : Client} (h : p.isIdle = true) : acknowledges p p' = none := by
  obtain ⟨answer, ha⟩ := Client.exists_answered h
  rw [acknowledges, ha]

/-- The write that a step answers without a failure, with its transaction. -/
def Transition.acknowledged? (x : Transition σ) : Option (ℕ × String × Option String) :=
  match x.choice with
  | .advance i =>
    match x.before.clients[i]?, x.after.clients[i]? with
    | some p, some p' => (acknowledges p p').map (p.id, ·)
    | _, _ => none
  | _ => none

/-- The writes of a transaction that some steps answered without a failure. -/
def acknowledged (id : ℕ) (ts : List (Transition σ)) : Writes :=
  (((ts.filterMap Transition.acknowledged?).filter (·.1 = id)).map (·.2)).foldl
    (fun w e => w.insert e.1 e.2) ∅

section acknowledged
variable {id : ℕ} {ts : List (Transition σ)} {x : Transition σ}

theorem acknowledged_append_of_none (h : x.acknowledged? = none) :
    acknowledged id (ts ++ [x]) = acknowledged id ts := by
  simp [acknowledged, h]

theorem acknowledged_append_of_ne {tx : ℕ} {w : Option (String × Option String)}
    (h : x.acknowledged? = w.map (tx, ·)) (hne : id ≠ tx) :
    acknowledged id (ts ++ [x]) = acknowledged id ts := by
  cases w with
  | none => exact acknowledged_append_of_none h
  | some w => simp [acknowledged, h, hne.symm]

theorem acknowledged_append_self {w : Option (String × Option String)}
    (h : x.acknowledged? = w.map (id, ·)) :
    acknowledged id (ts ++ [x]) =
      w.elim (acknowledged id ts) fun e => (acknowledged id ts).insert e.1 e.2 := by
  cases w with
  | none => exact acknowledged_append_of_none h
  | some w => simp [acknowledged, h]

end acknowledged

/-! ### Steps of a client -/

namespace Client

/-- Whether a client still stages writes or commits them. -/
def Stands (p : Client) : Prop := p.transaction.finished = false ∨ p.Commits

end Client

section moves
variable {c c' : Coordinator σ} {t : Transaction} {a : Activity} {new : List Event} {p' : Client}

/-- As long as nothing is rolled back, the staged writes change with a write that is answered without a
failure, and with nothing else. -/
theorem Move.staged (h : Move c t a new p' c') (hp' : p'.Stands) :
    (⟨t, a⟩ : Client).Stands ∧
      p'.writes = (acknowledges ⟨t, a⟩ p').elim t.writes fun e => t.writes.insert e.1 e.2 := by
  have hopen {q : Client} (hq : q.Stands) (hidle : ¬ q.Commits) : q.transaction.finished = false :=
    hq.resolve_right hidle
  cases h with
  | stage => exact ⟨.inl (hopen hp' id), rfl⟩
  | tell =>
      next key value => cases value <;> exact ⟨.inl (hopen hp' id), rfl⟩
  | log hs =>
      next purpose save save' => cases purpose <;> exact ⟨hp', rfl⟩
  | commitNothing hf hw => exact ⟨.inl hf, rfl⟩
  | commit hf hw => exact ⟨.inl hf, rfl⟩
  | rollbackNothing hf => simpa using hopen hp' id
  | rollback hf => simpa using hopen hp' id
  | finish => exact ⟨.inr trivial, rfl⟩
  | _ => exact ⟨hp', rfl⟩

theorem Move.acknowledges_of_finished (h : Move c t a new p' c') (hp : (⟨t, a⟩ : Client).Fits)
    (hfin : t.finished = true) : acknowledges ⟨t, a⟩ p' = none := by
  cases h with
  | stage =>
      have hopen : t.finished = false := hp
      simp [hopen] at hfin
  | log hs =>
      next purpose save save' => cases purpose <;> rfl
  | _ => rfl

end moves

/-! ### The invariant -/

/-- What holds of the writes of transactions after some steps of a run: a transaction has those staged
that were answered without a failure, commits those, and nothing more once it has an end version. -/
structure Acknowledging (ts : List (Transition σ)) (s : System σ) : Prop where
  staged : ∀ p ∈ s.clients, p.Stands → p.writes = acknowledged p.id ts
  minted : ∀ {x}, .minted x ∈ s.trace → x.writes = acknowledged x.id ts ∧
    ∃ p ∈ s.clients, p.id = x.id ∧ p.transaction.finished = true
  unborn : ∀ {id}, s.coordinator.lastVersion < id → acknowledged id ts = ∅

variable {ts : List (Transition σ)} {x : Transition σ}

theorem Acknowledging.moved {c c' : Coordinator σ} {A B : List Client} {t : Transaction}
    {a : Activity} {p' : Client} {es new : List Event} (hl : Locking ⟨c, A ++ ⟨t, a⟩ :: B, es⟩)
    (h : Acknowledging ts ⟨c, A ++ ⟨t, a⟩ :: B, es⟩) (hm : Move c t a new p' c')
    (hx : x.acknowledged? = (acknowledges ⟨t, a⟩ p').map (t.id, ·)) :
    Acknowledging (ts ++ [x]) ⟨c', A ++ p' :: B, es ++ new⟩ := by
  have hp : (⟨t, a⟩ : Client) ∈ A ++ ⟨t, a⟩ :: B := by simp
  have hp' : p' ∈ A ++ p' :: B := by simp
  have hfit := hl.fits _ hp
  have hsettled {id : ℕ} (hfin : id = t.id → t.finished = true) :
      acknowledged id (ts ++ [x]) = acknowledged id ts := by
    by_cases hid : id = t.id
    · rw [hm.acknowledges_of_finished hfit (hfin hid)] at hx
      exact acknowledged_append_of_none hx
    · exact acknowledged_append_of_ne hx hid
  refine ⟨fun q hq hstands => ?_, fun {y} hy => ?_, fun {id} hid => ?_⟩
  · rcases mem_moved hq with rfl | hq
    · obtain ⟨hstood, hw⟩ := hm.staged hstands
      have hold : t.writes = acknowledged t.id ts := h.staged _ hp hstood
      rw [hm.id_eq, hw, acknowledged_append_self hx, hold]
    · rw [acknowledged_append_of_ne hx (hl.id_ne_of_others hq)]
      exact h.staged q (mem_of_others hq) hstands
  · rcases List.mem_append.mp hy with hy | hy
    · obtain ⟨hw, q, hq, hid, hfin⟩ := h.minted hy
      have hmover (he : y.id = t.id) : t.finished = true := by
        rwa [hl.id_injective hq hp (hid.trans he)] at hfin
      refine ⟨hw.trans (hsettled hmover).symm, ?_⟩
      rcases mem_moved hq with rfl | hq
      · exact ⟨p', hp', hm.id_eq.trans hid, (hm.transaction_eq hfit hfin).symm ▸ hfin⟩
      · exact ⟨q, mem_of_others hq, hid, hfin⟩
    · obtain ⟨rfl, howns, -⟩ := hm.of_minted hy
      have hcommits := Client.commits_of_owns howns
      have hfin : t.finished = true := Client.finished_of_commits hfit hcommits
      refine ⟨(h.staged _ hp (.inr hcommits)).trans (hsettled fun _ => hfin).symm, p', hp', hm.id_eq, ?_⟩
      exact (hm.transaction_eq hfit hfin).symm ▸ hfin
  · have hbounded : t.id ≤ c.lastVersion := hl.bounded _ hp
    have hgrows := hm.lastVersion_le
    have hid : c'.lastVersion < id := hid
    rw [acknowledged_append_of_ne hx (by omega)]
    exact h.unborn (Nat.lt_of_le_of_lt hgrows hid)

/-- A step of the flusher, or a new client. -/
theorem Acknowledging.extend {s s' : System σ} (h : Acknowledging ts s) (hx : x.acknowledged? = none)
    (hlast : s.coordinator.lastVersion ≤ s'.coordinator.lastVersion)
    (hminted : ∀ {y}, .minted y ∈ s'.trace → .minted y ∈ s.trace)
    (hold : ∀ p ∈ s.clients, p ∈ s'.clients)
    (hclients : ∀ p ∈ s'.clients,
      p ∈ s.clients ∨ p.writes = ∅ ∧ s.coordinator.lastVersion < p.id) :
    Acknowledging (ts ++ [x]) s' := by
  refine ⟨fun p hp hstands => ?_, fun {y} hy => ?_, fun {id} hid => ?_⟩ <;>
    rw [acknowledged_append_of_none hx]
  · rcases hclients p hp with hp | ⟨hw, hid⟩
    · exact h.staged p hp hstands
    · exact hw.trans (h.unborn hid).symm
  · obtain ⟨hw, p, hp, hfin⟩ := h.minted (hminted hy)
    exact ⟨hw, p, hold p hp, hfin⟩
  · exact h.unborn (Nat.lt_of_le_of_lt hlast hid)

section stored
variable [LogStore σ] {s s' : System σ}

theorem Acknowledging.next {choice : Choice} (hl : Locking s) (h : Acknowledging ts s)
    (hs : s.next choice = some s') : Acknowledging (ts ++ [⟨s, choice, s'⟩]) s' := by
  obtain ⟨c, ps, es⟩ := s
  cases choice with
  | begin =>
      obtain rfl := Option.some.inj hs
      refine h.extend rfl (Nat.le_succ _) (by simp) (fun p hp => List.mem_append_left _ hp)
        fun p hp => ?_
      rcases List.mem_append.mp hp with hp | hp
      · exact .inl hp
      · exact .inr (List.mem_singleton.mp hp ▸ ⟨rfl, Nat.lt_succ_self _⟩)
  | request i r =>
      obtain ⟨p, hp, hi, rfl⟩ := System.of_request hs
      obtain ⟨A, B, rfl, hset⟩ := exists_split_of_getElem? hp
      simp only [hset]
      exact h.moved hl (.of_request c hi r) (by rw [acknowledges_of_isIdle hi]; rfl)
  | advance i =>
      obtain ⟨p, p', c', hp, ha, rfl⟩ := System.of_advance hs
      have hx : Transition.acknowledged? (σ := σ) ⟨⟨c, ps, es⟩, .advance i,
          ⟨c', ps.set i p', es ++ p.advanceEvents c⟩⟩ = (acknowledges p p').map (p.id, ·) := by
        have hp' := List.getElem?_set_self (List.getElem?_eq_some_iff.mp hp).1 (a := p')
        simp only [Transition.acknowledged?, hp, hp']
      obtain ⟨A, B, rfl, hset⟩ := exists_split_of_getElem? hp
      simp only [hset] at hx ⊢
      exact h.moved hl (.of_advance ha) hx
  | flush event =>
      obtain ⟨j, j', -, -, rfl⟩ := System.of_flush hs
      exact h.extend rfl (Nat.le_refl _) (mem_append_flushEvents es (by simp)).mp (fun p hp => hp)
        fun p hp => .inl hp

/-- Transactions stage and commit the writes that were answered without a failure. -/
theorem System.acknowledging (hc : Fresh c₀) {choices : List Choice}
    (hrun : (System.start c₀).run choices = some s) :
    Acknowledging ((System.start c₀).transitions choices) s := by
  induction choices using List.reverseRecOn generalizing s with
  | nil =>
      obtain rfl := Option.some.inj hrun
      exact ⟨by simp [System.start], by simp [System.start], fun _ => rfl⟩
  | append_singleton choices choice ih =>
      obtain ⟨s₁, hrun₁, hs⟩ := System.exists_of_run_concat hrun
      rw [System.transitions_append hrun₁, System.transitions_singleton hs]
      exact (ih hrun₁).next ((Reachable.start.run hrun₁).locking hc) hs

end stored
end Run
end SnapshotStore

import SnapshotStore.Proofs.Run.Locking

/-! # Versions in a run

The numbers of transactions and the end versions of commits come from one counter, so no two of
them are the same (`Versioned.numbers`, `eq_of_number`).  A commit has minted the version at which it
is checked, logged and applied, and is applied once. -/

namespace SnapshotStore
namespace Run

open Journal (LogStore)

variable {σ : Type}

/-! ### The numbers of a trace -/

/-- The number that an event hands out. -/
def Event.number? : Event → Option ℕ
  | .began id => some id
  | .minted x => some x.version
  | _ => none

/-- The begin and end versions handed out in a trace, in order. -/
def versions (es : List Event) : List ℕ := es.filterMap Event.number?

theorem versions_append (es fs : List Event) : versions (es ++ fs) = versions es ++ versions fs :=
  List.filterMap_append

theorem mem_versions {es : List Event} {e : Event} {n : ℕ} (he : e ∈ es)
    (hn : e.number? = some n) : n ∈ versions es := List.mem_filterMap.mpr ⟨e, he, hn⟩

/-- Two events that hand out the same number are the same event. -/
theorem eq_of_number {es : List Event} (h : (versions es).Nodup) {e f : Event} {n : ℕ}
    (he : e ∈ es) (hf : f ∈ es) (hen : e.number? = some n) (hfn : f.number? = some n) : e = f := by
  induction es with
  | nil => simp at he
  | cons g es ih =>
      cases hg : g.number? with
      | none =>
          have hne {e : Event} (he : e ∈ g :: es) (hen : e.number? = some n) : e ∈ es := by
            rcases List.mem_cons.mp he with rfl | he
            · simp [hg] at hen
            · exact he
          rw [versions, List.filterMap_cons_none hg] at h
          exact ih h (hne he hen) (hne hf hfn)
      | some m =>
          rw [versions, List.filterMap_cons_some hg] at h
          obtain ⟨hm, h⟩ := List.nodup_cons.mp h
          have hnot {e : Event} (he : e ∈ es) (hen : e.number? = some m) : False :=
            hm (mem_versions he hen)
          rcases List.mem_cons.mp he with rfl | he' <;> rcases List.mem_cons.mp hf with rfl | hf'
          · rfl
          · obtain rfl := Option.some.inj (hg.symm.trans hen)
            exact (hnot hf' hfn).elim
          · obtain rfl := Option.some.inj (hg.symm.trans hfn)
            exact (hnot he' hen).elim
          · exact ih h he' hf'

/-! ### The stages of a commit -/

namespace Client

variable (p : Client)

/-- The end version of a commit that has minted it but neither took effect nor gave up. -/
def pending? : Option ℕ :=
  match p.activity with
  | .committing (.checking _ version _) => some version
  | .committing (.logging _ version _) => some version
  | _ => none

/-- The keys that a pending commit has yet to check. -/
def unchecked : List String :=
  match p.activity with
  | .committing (.checking _ _ todo) => todo
  | _ => []

/-- Whether a transaction is still open, or its commit or rollback has yet to be decided. -/
def Unsettled : Prop :=
  match p.activity with
  | .discarding _ => True
  | .committing (.locking _ _) => True
  | .committing (.contending _ _ _) => True
  | .committing (.checking _ _ _) => True
  | .committing (.logging _ _ _) => True
  | _ => p.transaction.finished = false

variable {p}

theorem owns_of_pending {version : ℕ} (h : p.pending? = some version) : p.Owns := by
  unfold pending? at h
  unfold Owns
  split at h <;> simp_all

theorem unsettled_of_pending {version : ℕ} (h : p.pending? = some version) : p.Unsettled := by
  unfold pending? at h
  unfold Unsettled
  split at h <;> simp_all

end Client

/-! ### What a step notes -/

section moves
variable {c c' : Coordinator σ} {t : Transaction} {a : Activity} {new : List Event} {p' : Client}

theorem mem_marks {purpose : Purpose} {save : Save} {e : Event}
    (h : e ∈ purpose.marks t (notesOf c save)) :
    (∃ batch record, e = .noted batch record) ∨
      ∃ held version, purpose = .sealing held version ∧ e = .sealed ⟨t.id, version, t.writes⟩ := by
  have hnote {e : Event} (h : e ∈ notesOf c save) : ∃ batch record, e = .noted batch record := by
    unfold notesOf at h
    split at h
    · split at h
      · simp at h
      · exact ⟨_, _, List.mem_singleton.mp h⟩
    · simp at h
  cases purpose with
  | sealing held version =>
      obtain ⟨f, hf, he⟩ := List.mem_flatMap.mp h
      rcases List.mem_cons.mp he with rfl | he
      · exact .inl (hnote hf)
      · exact .inr ⟨held, version, rfl, List.mem_singleton.mp he⟩
  | staging key value => exact .inl (hnote h)
  | discarding => exact .inl (hnote h)

theorem versions_marks (purpose : Purpose) (save : Save) :
    versions (purpose.marks t (notesOf c save)) = [] := by
  refine List.filterMap_eq_nil_iff.mpr fun e he => ?_
  rcases mem_marks he with ⟨_, _, rfl⟩ | ⟨_, _, -, rfl⟩ <;> rfl

/-- A step hands out the next number or none. -/
theorem Move.versions (h : Move c t a new p' c') :
    versions new = [] ∧ c'.lastVersion = c.lastVersion ∨
      versions new = [c.lastVersion + 1] ∧ c'.lastVersion = c.lastVersion + 1 := by
  cases h with
  | mint => exact .inr ⟨rfl, rfl⟩
  | log h =>
      obtain ⟨_, rfl⟩ := eq_of_logStep h
      exact .inl ⟨versions_marks _ _, rfl⟩
  | _ => exact .inl ⟨rfl, rfl⟩

theorem Move.of_minted (h : Move c t a new p' c') {x : Attempt} (hx : .minted x ∈ new) :
    x = ⟨t.id, c.lastVersion + 1, t.writes⟩ ∧ (⟨t, a⟩ : Client).Owns ∧
      c'.lastVersion = c.lastVersion + 1 := by
  cases h with
  | mint =>
      obtain rfl : x = _ := by simpa using hx
      exact ⟨rfl, trivial, rfl⟩
  | log h => rcases mem_marks hx with ⟨_, _, hx⟩ | ⟨_, _, -, hx⟩ <;> simp at hx
  | _ => simp at hx

theorem Move.of_applied (h : Move c t a new p' c') {x : Attempt} (hx : .applied x ∈ new) :
    ∃ held version, a = .committing (.logging held version (.done true)) ∧
      x = ⟨t.id, version, t.writes⟩ ∧
      p' = ⟨t, .committing (.releasing held held (.ok ()))⟩ ∧
      c' = { c with shards := c.shards.setMany version t.writes } := by
  cases h with
  | apply =>
      next held version =>
      exact ⟨held, version, rfl, by simpa using hx, rfl, rfl⟩
  | log h => rcases mem_marks hx with ⟨_, _, hx⟩ | ⟨_, _, -, hx⟩ <;> simp at hx
  | _ => simp at hx

theorem Move.of_sealed (h : Move c t a new p' c') {x : Attempt} (hx : .sealed x ∈ new) :
    ∃ held version save, a = .committing (.logging held version save) ∧
      x = ⟨t.id, version, t.writes⟩ := by
  cases h with
  | log h =>
      rcases mem_marks hx with ⟨_, _, he⟩ | ⟨held, version, rfl, he⟩
      · simp at he
      · exact ⟨held, version, _, rfl, by simpa using he⟩
  | _ => simp at hx

/-- A commit that is pending after a step was pending before, or has just minted its version. -/
theorem Move.of_pending (h : Move c t a new p' c') {version : ℕ}
    (hv : p'.pending? = some version) :
    (⟨t, a⟩ : Client).pending? = some version ∧ p'.writes = t.writes ∨
      version = c.lastVersion + 1 ∧ p'.writes = t.writes ∧ .minted (p'.attempt version) ∈ new ∧
        (⟨t, a⟩ : Client).Owns ∧ p'.unchecked = t.writes.keys := by
  cases h with
  | mint =>
      obtain rfl := Option.some.inj hv
      exact .inr ⟨rfl, rfl, List.mem_singleton.mpr rfl, trivial, rfl⟩
  | log h =>
      next purpose save save' =>
      cases purpose with
      | sealing held v => exact .inl ⟨hv, rfl⟩
      | _ => simp [Client.pending?, Purpose.activity] at hv
  | clear h => exact .inl ⟨hv, rfl⟩
  | pledge => exact .inl ⟨hv, rfl⟩
  | _ => simp [Client.pending?] at hv

/-- A transaction that is not settled after a step was not settled before. -/
theorem Move.of_unsettled (h : Move c t a new p' c') (hp : (⟨t, a⟩ : Client).Fits)
    (hu : p'.Unsettled) : (⟨t, a⟩ : Client).Unsettled := by
  cases h with
  | tell => exact hp.1
  | log h =>
      next purpose save save' => cases purpose <;> exact hu
  | stage => exact hp
  | unstage => exact hp
  | commit hf hw => exact hf
  | rollback hf => exact hf
  | discarded => trivial
  | look hf hw => exact hf
  | write key value hf => exact hf
  | lose => trivial
  | conflict => trivial
  | apply => trivial
  | abort => trivial
  | _ => first | exact hu | (simp [Client.Unsettled] at hu)

end moves

/-! ### The invariant -/

/-- The numbers of a trace lie between two bounds, and no number occurs twice. -/
structure Numbered (low high : ℕ) (es : List Event) : Prop where
  le : low ≤ high
  bounds : ∀ n ∈ versions es, low < n ∧ n ≤ high
  nodup : (versions es).Nodup

theorem Numbered.append {low high high' : ℕ} {es : List Event} (h : Numbered low high es)
    (new : List Event)
    (hn : versions new = [] ∧ high' = high ∨ versions new = [high + 1] ∧ high' = high + 1) :
    Numbered low high' (es ++ new) := by
  have hle := h.le
  rcases hn with ⟨hv, rfl⟩ | ⟨hv, rfl⟩
  · refine ⟨hle, ?_, ?_⟩ <;> rw [versions_append, hv, List.append_nil]
    · exact h.bounds
    · exact h.nodup
  · refine ⟨by omega, ?_, ?_⟩ <;> rw [versions_append, hv]
    · intro n hn
      rcases List.mem_append.mp hn with hn | hn
      · have := h.bounds n hn
        omega
      · have := List.mem_singleton.mp hn
        omega
    · refine List.nodup_append.mpr ⟨h.nodup, by simp, fun m hm n hn => ?_⟩
      have := h.bounds m hm
      have := List.mem_singleton.mp hn
      omega

/-- What holds of the versions in a run. -/
structure Versioned (c₀ : Coordinator σ) (s : System σ) : Prop where
  numbered : Numbered c₀.lastVersion s.coordinator.lastVersion s.trace
  began : ∀ p ∈ s.clients, .began p.id ∈ s.trace
  pending : ∀ p ∈ s.clients, ∀ {version}, p.pending? = some version →
    .minted (p.attempt version) ∈ s.trace
  minted : ∀ {x}, .minted x ∈ s.trace → .began x.id ∈ s.trace ∧ x.id < x.version
  sealed : ∀ {x}, .sealed x ∈ s.trace → .minted x ∈ s.trace
  applied : ∀ {x}, .applied x ∈ s.trace → .minted x ∈ s.trace
  unsettled : ∀ p ∈ s.clients, p.Unsettled → ∀ {x}, .applied x ∈ s.trace → x.id ≠ p.id

variable {c₀ : Coordinator σ}

/-- A step that notes nothing of commits and adds no client that commits. -/
theorem Versioned.extend {s s' : System σ} (h : Versioned c₀ s)
    (hn : Numbered c₀.lastVersion s'.coordinator.lastVersion s'.trace)
    (hold : ∀ e ∈ s.trace, e ∈ s'.trace)
    (hminted : ∀ {x}, .minted x ∈ s'.trace → .minted x ∈ s.trace)
    (hsealed : ∀ {x}, .sealed x ∈ s'.trace → .sealed x ∈ s.trace)
    (happlied : ∀ {x}, .applied x ∈ s'.trace → .applied x ∈ s.trace)
    (hclients : ∀ p ∈ s'.clients, p ∈ s.clients ∨ p.pending? = none ∧ .began p.id ∈ s'.trace ∧
      ∀ {x}, .applied x ∈ s.trace → x.id ≠ p.id) : Versioned c₀ s' where
  numbered := hn
  began p hp := by
    rcases hclients p hp with hp | ⟨-, hb, -⟩
    · exact hold _ (h.began p hp)
    · exact hb
  pending p hp version hv := by
    rcases hclients p hp with hp | ⟨hnone, -⟩
    · exact hold _ (h.pending p hp hv)
    · simp [hnone] at hv
  minted hx := by
    obtain ⟨hb, hlt⟩ := h.minted (hminted hx)
    exact ⟨hold _ hb, hlt⟩
  sealed hx := hold _ (h.sealed (hsealed hx))
  applied hx := hold _ (h.applied (happlied hx))
  unsettled p hp hu x hx := by
    rcases hclients p hp with hp | ⟨-, -, hne⟩
    · exact h.unsettled p hp hu (happlied hx)
    · exact hne (happlied hx)

theorem Versioned.moved {c c' : Coordinator σ} {A B : List Client} {t : Transaction}
    {a : Activity} {p' : Client} {es new : List Event}
    (hl : Locking ⟨c, A ++ ⟨t, a⟩ :: B, es⟩) (h : Versioned c₀ ⟨c, A ++ ⟨t, a⟩ :: B, es⟩)
    (hm : Move c t a new p' c') : Versioned c₀ ⟨c', A ++ p' :: B, es ++ new⟩ := by
  have hp : (⟨t, a⟩ : Client) ∈ A ++ ⟨t, a⟩ :: B := by simp
  have hfit := hl.fits _ hp
  have hold {e : Event} (he : e ∈ es) : e ∈ es ++ new := List.mem_append_left _ he
  refine ⟨h.numbered.append new hm.versions, fun q hq => ?_, fun q hq v hv => ?_, fun {x} hx => ?_,
    fun {x} hx => ?_, fun {x} hx => ?_, fun q hq hu x hx => ?_⟩
  · rcases mem_moved hq with rfl | hq
    · exact hm.id_eq ▸ hold (h.began _ hp)
    · exact hold (h.began q (mem_of_others hq))
  · rcases mem_moved hq with rfl | hq
    · rcases hm.of_pending hv with ⟨hv, hw⟩ | ⟨-, -, hx, -⟩
      · have := hold (h.pending _ hp hv)
        rwa [Client.attempt, hm.id_eq, hw]
      · exact List.mem_append_right _ hx
    · exact hold (h.pending q (mem_of_others hq) hv)
  · rcases List.mem_append.mp hx with hx | hx
    · obtain ⟨hb, hlt⟩ := h.minted hx
      exact ⟨hold hb, hlt⟩
    · obtain ⟨rfl, -, -⟩ := hm.of_minted hx
      exact ⟨hold (h.began _ hp), Nat.lt_succ_of_le (hl.bounded _ hp)⟩
  · rcases List.mem_append.mp hx with hx | hx
    · exact hold (h.sealed hx)
    · obtain ⟨held, version, save, rfl, rfl⟩ := hm.of_sealed hx
      exact hold (h.pending _ hp rfl)
  · rcases List.mem_append.mp hx with hx | hx
    · exact hold (h.applied hx)
    · obtain ⟨held, version, rfl, rfl, -⟩ := hm.of_applied hx
      exact hold (h.pending _ hp rfl)
  · rcases mem_moved hq with rfl | hq
    · rcases List.mem_append.mp hx with hx | hx
      · exact hm.id_eq ▸ h.unsettled _ hp (hm.of_unsettled hfit hu) hx
      · obtain ⟨held, version, rfl, -, rfl, -⟩ := hm.of_applied hx
        have hfin : t.finished = true := hfit.1
        have hunfin : t.finished = false := hu
        simp [hfin] at hunfin
    · rcases List.mem_append.mp hx with hx | hx
      · exact h.unsettled q (mem_of_others hq) hu hx
      · obtain ⟨held, version, rfl, rfl, -⟩ := hm.of_applied hx
        exact (hl.id_ne_of_others hq).symm

section stored
variable [LogStore σ] {s s' : System σ}

theorem mem_append_flushEvents (es : List Event) {j : Journal σ} {e : Event}
    (he : ∀ batch, e ≠ .stored batch) : e ∈ es ++ flushEvents j ↔ e ∈ es := by
  have hnot : e ∉ flushEvents j := by
    intro hm
    obtain ⟨batch, -, rfl⟩ := List.mem_map.mp hm
    exact he batch rfl
  simp [hnot]

theorem versions_flushEvents (j : Journal σ) : versions (flushEvents j) = [] := by
  refine List.filterMap_eq_nil_iff.mpr fun e he => ?_
  by_cases hs : ∀ batch, e ≠ .stored batch
  · exact absurd ((mem_append_flushEvents [] hs).mp he) (by simp)
  · obtain ⟨batch, rfl⟩ := by simpa using hs
    rfl

theorem Versioned.step (hl : Locking s) (h : Versioned c₀ s) (hs : Step s s') :
    Versioned c₀ s' := by
  cases hs with
  | began c ps es =>
      have hn := h.numbered.append [.began (c.lastVersion + 1)] (.inr ⟨rfl, rfl⟩)
      refine h.extend hn (fun e he => List.mem_append_left _ he) (by simp) (by simp) (by simp)
        fun p hp => ?_
      rcases List.mem_append.mp hp with hp | hp
      · exact .inl hp
      · obtain rfl := List.mem_singleton.mp hp
        refine .inr ⟨rfl, by simp [Client.id, Client.fresh, Transaction.fresh], fun {x} hx => ?_⟩
        have hb : x.id ≤ c.lastVersion :=
          (h.numbered.bounds _ (mem_versions (h.minted (h.applied hx)).1 rfl)).2
        exact Nat.ne_of_lt (Nat.lt_succ_of_le hb)
  | moved hm => exact h.moved hl hm
  | flushed hj hf =>
      next c ps es j j' event =>
      have hn := h.numbered.append (flushEvents j) (.inl ⟨versions_flushEvents j, rfl⟩)
      exact h.extend hn (fun e he => List.mem_append_left _ he)
        (mem_append_flushEvents es (by simp)).mp (mem_append_flushEvents es (by simp)).mp
        (mem_append_flushEvents es (by simp)).mp fun p hp => .inl hp

theorem Reachable.versioned (hc : Fresh c₀) (h : Reachable c₀ s) : Versioned c₀ s := by
  induction h with
  | start =>
      refine ⟨⟨Nat.le_refl _, ?_, ?_⟩, ?_, ?_, ?_, ?_, ?_, ?_⟩ <;> simp [System.start, versions]
  | step hr hs ih => exact ih.step (hr.locking hc) (.of_next hs)

end stored

namespace Versioned

variable {s : System σ} {x y : Attempt}

theorem eq_of_version (h : Versioned c₀ s) (hx : .minted x ∈ s.trace) (hy : .minted y ∈ s.trace)
    (he : x.version = y.version) : x = y := by
  have := eq_of_number h.numbered.nodup hx hy rfl (congrArg some he.symm)
  simpa using this

theorem version_ne_id (h : Versioned c₀ s) (hx : .minted x ∈ s.trace) {id : ℕ}
    (hb : .began id ∈ s.trace) : x.version ≠ id := by
  intro he
  have := eq_of_number h.numbered.nodup hx hb rfl (congrArg some he.symm)
  simp at this

theorem version_le (h : Versioned c₀ s) (hx : .minted x ∈ s.trace) :
    c₀.lastVersion < x.version ∧ x.version ≤ s.coordinator.lastVersion :=
  h.numbered.bounds _ (mem_versions hx rfl)

end Versioned
end Run
end SnapshotStore

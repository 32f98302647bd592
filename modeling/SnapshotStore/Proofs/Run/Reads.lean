import SnapshotStore.Proofs.Run.Commits
import SnapshotStore.Proofs.State

/-! # Reads in a run

A snapshot (`stateAt`) is the initial state with the commits up to a version on top, in the order of
their end versions.  Every read of a run gives the value of its key in the snapshot at the begin
version of the reader (`snapshot_reads`).

The reason is that a reader looks at the shards only once a key is `Settled` for it: every commit that
is still pending on the key has a version above the reader's, and so does every commit that mints a
version later.  What the reader sees is then what any later reader at the same version sees
(`Observed`). -/

namespace SnapshotStore
namespace Run

open Journal (LogStore)

variable {σ : Type} {c₀ : Coordinator σ}

/-! ### Snapshots -/

/-- Commits in the order of their end versions. -/
def inOrder (xs : List Attempt) : List Attempt := xs.mergeSort fun x y => x.version ≤ y.version

/-- The state after some commits, in the order of their end versions. -/
def afterCommits (m : State) (xs : List Attempt) : State :=
  m.writeAll ((inOrder xs).map (·.writes))

/-- The state that a coordinator starts with. -/
def initial (c₀ : Coordinator σ) : State := c₀.shards.get c₀.lastVersion

/-- The initial state with the commits up to a version. -/
def stateAt (c₀ : Coordinator σ) (es : List Event) (version : ℕ) : State :=
  afterCommits (initial c₀) ((applied es).filter (·.version ≤ version))

theorem mem_inOrder {xs : List Attempt} {x : Attempt} : x ∈ inOrder xs ↔ x ∈ xs :=
  List.mem_mergeSort

theorem pairwise_inOrder (xs : List Attempt) :
    (inOrder xs).Pairwise fun x y => x.version ≤ y.version := by
  have h : (inOrder xs).Pairwise fun x y => decide (x.version ≤ y.version) = true := by
    refine List.pairwise_mergeSort (fun a b c hab hbc => ?_) (fun a b => ?_) xs
    · simp only [decide_eq_true_eq] at hab hbc ⊢
      omega
    · simp only [Bool.or_eq_true, decide_eq_true_eq]
      omega
  simpa using h

theorem exists_last {α : Type} (P : α → Prop) (xs : List α) :
    (∀ x ∈ xs, ¬ P x) ∨ ∃ A x B, xs = A ++ x :: B ∧ P x ∧ ∀ y ∈ B, ¬ P y := by
  induction xs with
  | nil => exact .inl (by simp)
  | cons x xs ih =>
      rcases ih with h | ⟨A, y, B, rfl, hy, hB⟩
      · by_cases hx : P x
        · exact .inr ⟨[], x, xs, rfl, hx, h⟩
        · exact .inl fun y hy => by
            rcases List.mem_cons.mp hy with rfl | hy
            · exact hx
            · exact h y hy
      · exact .inr ⟨x :: A, y, B, rfl, hy, hB⟩

/-- The value of a key after some commits: that of the state before, or that of the commit on the key
with the highest version. -/
theorem afterCommits_cases (m : State) (xs : List Attempt) (key : String) :
    (∀ x ∈ xs, x.writes.get? key = none) ∧ afterCommits m xs key = m key ∨
      ∃ x ∈ xs, x.writes.get? key = some (afterCommits m xs key) ∧
        ∀ y ∈ xs, key ∈ y.writes.keys → y.version ≤ x.version := by
  rcases exists_last (fun x : Attempt => key ∈ x.writes.keys) (inOrder xs) with
    h | ⟨A, x, B, hsplit, hx, hB⟩
  · have hnone : ∀ x ∈ xs, x.writes.get? key = none := fun x hx =>
      x.writes.get?_eq_none_iff.mpr (h x (mem_inOrder.mpr hx))
    refine .inl ⟨hnone, State.writeAll_of_none fun w hw => ?_⟩
    obtain ⟨x, hx, rfl⟩ := List.mem_map.mp hw
    exact hnone x (mem_inOrder.mp hx)
  · have hmem : x ∈ xs := mem_inOrder.mp (by simp [hsplit])
    obtain ⟨value, hvalue⟩ := (Table.mem_keys_iff _ _).mp hx
    have hval : afterCommits m xs key = value := by
      rw [afterCommits, hsplit, List.map_append, List.map_cons]
      refine State.writeAll_of_last hvalue fun w hw => ?_
      obtain ⟨y, hy, rfl⟩ := List.mem_map.mp hw
      exact y.writes.get?_eq_none_iff.mpr (hB y hy)
    refine .inr ⟨x, hmem, hval ▸ hvalue, fun y hy hk => ?_⟩
    have hsorted := pairwise_inOrder xs
    rw [hsplit] at hsorted
    have hy := mem_inOrder.mpr hy
    rw [hsplit] at hy
    rcases List.mem_append.mp hy with hy | hy
    · exact (List.pairwise_append.mp hsorted).2.2 y hy x (List.mem_cons_self ..)
    · rcases List.mem_cons.mp hy with rfl | hy
      · exact Nat.le_refl _
      · exact absurd hk (hB y hy)

/-- The shards of a run read as the snapshots. -/
theorem Committed.get_eq {s : System σ} (hc : Fresh c₀) (hv : Versioned c₀ s)
    (h : Committed c₀ s) {version : ℕ} (hle : c₀.lastVersion ≤ version) (key : String) :
    s.coordinator.shards.get version key = stateAt c₀ s.trace version key := by
  have hmem {x : Attempt} : x ∈ (applied s.trace).filter (·.version ≤ version) ↔
      .applied x ∈ s.trace ∧ x.version ≤ version := by
    rw [List.mem_filter, mem_applied, decide_eq_true_eq]
  rw [h.sound.get_eq_latest, stateAt]
  rcases afterCommits_cases (initial c₀) ((applied s.trace).filter (·.version ≤ version)) key with
    ⟨hnone, heq⟩ | ⟨x, hx, hvalue, hmax⟩
  · have hhist : ∀ u ≤ version, s.coordinator.shards.history key u = c₀.shards.history key u := by
      intro u hu
      ext value
      rw [h.history]
      refine or_iff_left ?_
      rintro ⟨x, hx, rfl, hw⟩
      simp [hnone x (hmem.mpr ⟨hx, hu⟩)] at hw
    rw [heq, initial, hc.sound.get_eq_latest, latest_congr hhist]
    congr 1
    refine latest_eq_of_le hle fun u hu _ => ?_
    by_contra hne
    exact absurd (hc.past hne) (Nat.not_le_of_lt hu)
  · obtain ⟨hxs, hxv⟩ := hmem.mp hx
    have hlast : latest (s.coordinator.shards.history key) version =
        some (afterCommits (initial c₀) ((applied s.trace).filter (·.version ≤ version)) key) := by
      refine latest_eq_of_last hxv (h.history.mpr (.inr ⟨x, hxs, rfl, hvalue⟩)) fun u hu huv => ?_
      rw [Option.eq_none_iff_forall_ne_some]
      intro w hw
      rcases h.history.mp hw with hw | ⟨y, hy, rfl, hyw⟩
      · have hpast := hc.past (show c₀.shards.history key u ≠ none by simp [hw])
        have hlt := (hv.version_le (hv.applied hxs)).1
        omega
      · have := hmax y (hmem.mpr ⟨hy, huv⟩) ((Table.mem_keys_iff _ _).mpr ⟨w, hyw⟩)
        omega
    rw [hlast]
    rfl

/-! ### Settled keys -/

/-- No commit will change a key at or below a version any more. -/
def Settled (s : System σ) (version : ℕ) (key : String) : Prop :=
  version ≤ s.coordinator.lastVersion ∧
    ∀ q ∈ s.clients, ∀ v, q.pending? = some v → key ∈ q.writes.keys → version < v

/-- A key that is settled at a version has a value there. -/
def Observed (s : System σ) (version : ℕ) (key : String) (value : Option String) : Prop :=
  Settled s version key ∧ value = s.coordinator.shards.get version key

/-- What holds of the reads in a run. -/
structure Reading (s : System σ) : Prop where
  looking : ∀ {t key asked version},
    (⟨t, .reading key (.reading asked version)⟩ : Client) ∈ s.clients → Settled s version asked
  found : ∀ {t key value}, (⟨t, .reading key (.done value)⟩ : Client) ∈ s.clients →
    Observed s t.id key value
  cached : ∀ p ∈ s.clients, ∀ {key value}, p.transaction.cache.get? key = some value →
    Observed s p.id key (some value)
  answered : ∀ {id key value}, .read id key value ∈ s.trace →
    .began id ∈ s.trace ∧ Observed s id key value

section moves
variable {c c' : Coordinator σ} {A B : List Client} {t : Transaction} {a : Activity}
  {p' : Client} {es new : List Event} {version : ℕ} {key : String} {value : Option String}

theorem Settled.moved (h : Settled ⟨c, A ++ ⟨t, a⟩ :: B, es⟩ version key)
    (hm : Move c t a new p' c') : Settled ⟨c', A ++ p' :: B, es ++ new⟩ version key := by
  have hp : (⟨t, a⟩ : Client) ∈ A ++ ⟨t, a⟩ :: B := by simp
  refine ⟨Nat.le_trans h.1 hm.lastVersion_le, fun q hq v hv hk => ?_⟩
  rcases mem_moved hq with rfl | hq
  · rcases hm.of_pending hv with ⟨hv, hw⟩ | ⟨rfl, -⟩
    · rw [hw] at hk
      exact h.2 _ hp v hv hk
    · exact Nat.lt_succ_of_le h.1
  · exact h.2 q (mem_of_others hq) v hv hk

/-- A commit that takes effect does so above every version for which its keys are settled. -/
theorem Observed.moved (hs : c.shards.Sound)
    (h : Observed ⟨c, A ++ ⟨t, a⟩ :: B, es⟩ version key value) (hm : Move c t a new p' c') :
    Observed ⟨c', A ++ p' :: B, es ++ new⟩ version key value := by
  have hp : (⟨t, a⟩ : Client) ∈ A ++ ⟨t, a⟩ :: B := by simp
  refine ⟨h.1.moved hm, h.2.trans ?_⟩
  show c.shards.get version key = c'.shards.get version key
  rcases hm.shards with ⟨heq, -⟩ | ⟨held, v, rfl, -, heq⟩
  · rw [heq]
  · rw [heq, hs.get_eq_latest, (hs.setMany v t.writes).get_eq_latest]
    congr 1
    refine latest_congr fun u hu => ?_
    rw [hs.history_setMany]
    split
    · next hv =>
      subst hv
      cases hw : t.writes.get? key with
      | none => rfl
      | some w =>
          have hlt := h.1.2 _ hp u rfl ((Table.mem_keys_iff _ _).mpr ⟨w, hw⟩)
          omega
    · rfl

/-- A reader that finds the lock of a key free, or owned by a younger transaction, finds the key
settled. -/
theorem settled_of_owner {s : System σ} (hl : Locking s) (hv : Versioned c₀ s)
    (hle : version ≤ s.coordinator.lastVersion)
    (ho : ∀ lock, s.coordinator.locks.byKey.get? key = some lock →
      s.coordinator.locks.owner lock = unlocked ∨ version ≤ s.coordinator.locks.owner lock) :
    Settled s version key := by
  refine ⟨hle, fun q hq v hqv hk => ?_⟩
  obtain ⟨lock, hlock, howner⟩ := hl.owner_eq hq (Client.owns_of_pending hqv) hk
  have hlt : q.id < v := (hv.minted (hv.pending q hq hqv)).2
  have hpos := hl.id_pos hq
  rcases ho lock hlock with ho | ho <;> rw [howner] at ho
  · simp [unlocked] at ho
    omega
  · omega

/-! ### What a step reads -/

theorem Move.of_looking (h : Move c t a new p' c') {t₁ : Transaction} {asked : String}
    (hp : p' = ⟨t₁, .reading key (.reading asked version)⟩) :
    t₁ = t ∧ (a = .reading key (.asking asked version) ∧ c.locks.byKey.get? asked = none ∨
      ∃ lock, a = .reading key (.watching asked version lock) ∧
        (c.locks.owner lock = unlocked ∨ version ≤ c.locks.owner lock)) := by
  cases h with
  | vacant hk =>
      simp only [Client.mk.injEq, Activity.reading.injEq, Lookup.reading.injEq] at hp
      obtain ⟨rfl, rfl, rfl, rfl⟩ := hp
      exact ⟨rfl, .inl ⟨rfl, hk⟩⟩
  | pass ho =>
      simp only [Client.mk.injEq, Activity.reading.injEq, Lookup.reading.injEq] at hp
      obtain ⟨rfl, rfl, rfl, rfl⟩ := hp
      exact ⟨rfl, .inr ⟨_, rfl, ho⟩⟩
  | log h =>
      next purpose save save' => cases purpose <;> simp [Purpose.activity] at hp
  | _ => simp at hp

theorem Move.of_found (h : Move c t a new p' c') {t₁ : Transaction}
    (hp : p' = ⟨t₁, .reading key (.done value)⟩) :
    t₁ = t ∧ ∃ asked version, a = .reading key (.reading asked version) ∧
      value = c.shards.get version asked := by
  cases h with
  | see =>
      simp only [Client.mk.injEq, Activity.reading.injEq, Lookup.done.injEq] at hp
      obtain ⟨rfl, rfl, rfl⟩ := hp
      exact ⟨rfl, _, _, rfl, rfl⟩
  | log h =>
      next purpose save save' => cases purpose <;> simp [Purpose.activity] at hp
  | _ => simp at hp

theorem Move.of_cached (h : Move c t a new p' c') {found : String}
    (hc : p'.transaction.cache.get? key = some found) :
    t.cache.get? key = some found ∨ a = .reading key (.done (some found)) := by
  cases h with
  | tell =>
      next asked value =>
      cases value with
      | none => exact .inl hc
      | some v =>
          simp only [remember, Table.get?_insert] at hc
          split at hc
          · next he =>
            obtain rfl := Option.some.inj hc
            exact .inr (he ▸ rfl)
          · exact .inl hc
  | rollbackNothing hf => simp at hc
  | rollback hf => simp at hc
  | _ => exact .inl hc

theorem Move.of_read (h : Move c t a new p' c') {id : ℕ} (hr : .read id key value ∈ new) :
    id = t.id ∧ ((∃ found, value = some found ∧ t.cache.get? key = some found) ∨
      a = .reading key (.done value)) := by
  cases h with
  | reread hf hw hc =>
      simp only [List.mem_cons, Event.read.injEq, reduceCtorEq, List.not_mem_nil, or_false,
        false_or] at hr
      obtain ⟨rfl, rfl, rfl⟩ := hr
      exact ⟨rfl, .inl ⟨_, rfl, hc⟩⟩
  | tell =>
      obtain ⟨rfl, rfl, rfl⟩ := by simpa using hr
      exact ⟨rfl, .inr rfl⟩
  | log h => rcases mem_marks hr with ⟨_, _, he⟩ | ⟨_, _, -, he⟩ <;> simp at he
  | _ => simp at hr

theorem Move.of_reading (h : Move c t a new p' c') {lookup : Lookup} {answer : Answer}
    (ha : a = .reading key lookup) (hp : p'.activity = .answered answer) :
    ∃ value, answer = .ok value ∧ .read t.id key value ∈ new := by
  cases h with
  | tell =>
      obtain ⟨rfl, -⟩ := Activity.reading.inj ha
      obtain rfl := Activity.answered.inj hp
      exact ⟨_, rfl, List.mem_singleton.mpr rfl⟩
  | log h =>
      next purpose save save' => cases purpose <;> simp [Purpose.activity] at ha
  | _ => simp at ha hp

end moves

/-- With a choice, a client asks for a key that it has not staged, or goes on reading it. -/
inductive Client.Reads (p : Client) (i : ℕ) (key : String) : Choice → Prop
  | ask (hf : p.transaction.finished = false) (hw : p.writes.get? key = none) :
      Reads p i key (.request i (.get key))
  | resume {lookup : Lookup} (ha : p.activity = .reading key lookup) : Reads p i key (.advance i)

theorem Client.exists_read_of_get {p : Client} {key : String} {answer : Answer}
    (hf : p.transaction.finished = false) (hw : p.writes.get? key = none)
    (ha : (p.request (.get key)).activity = .answered answer) :
    ∃ value, answer = .ok value ∧ .read p.id key value ∈ p.requestEvents (.get key) := by
  have hw' : p.transaction.writes.get? key = none := hw
  cases hc : p.transaction.cache.get? key with
  | none => simp [Client.request, Transaction.request, hf, hw', hc] at ha
  | some value =>
      obtain rfl : .ok (some value) = answer := by
        simpa [Client.request, Transaction.request, hf, hw', hc] using ha
      refine ⟨some value, rfl, ?_⟩
      simp [Client.requestEvents, hf, hw, hc]

/-! ### The invariant -/

theorem Reading.moved {c c' : Coordinator σ} {A B : List Client} {t : Transaction} {a : Activity}
    {p' : Client} {es new : List Event} (hl : Locking ⟨c, A ++ ⟨t, a⟩ :: B, es⟩)
    (hv : Versioned c₀ ⟨c, A ++ ⟨t, a⟩ :: B, es⟩) (hs : c.shards.Sound)
    (h : Reading ⟨c, A ++ ⟨t, a⟩ :: B, es⟩) (hm : Move c t a new p' c') :
    Reading ⟨c', A ++ p' :: B, es ++ new⟩ := by
  have hp : (⟨t, a⟩ : Client) ∈ A ++ ⟨t, a⟩ :: B := by simp
  have hfit := hl.fits _ hp
  have hid : t.id ≤ c.lastVersion := hl.bounded _ hp
  refine ⟨fun {t₁ key asked version} hq => ?_, fun {t₁ key value} hq => ?_,
    fun q hq key value hc => ?_, fun {id key value} hr => ?_⟩
  · rcases mem_moved hq with hq | hq
    · refine Settled.moved ?_ hm
      obtain ⟨rfl, ⟨rfl, hk⟩ | ⟨lock, rfl, ho⟩⟩ := hm.of_looking hq.symm
      · obtain rfl : version = t₁.id := hfit.2.2.2
        exact settled_of_owner hl hv hid fun lock hlock => by simp [hk] at hlock
      · obtain rfl : version = t₁.id := hfit.2.2.2
        refine settled_of_owner hl hv hid fun m hm => ?_
        rw [hl.watched hp] at hm
        exact Option.some.inj hm ▸ ho
    · exact (h.looking (mem_of_others hq)).moved hm
  · rcases mem_moved hq with hq | hq
    · obtain ⟨rfl, asked, version, rfl, rfl⟩ := hm.of_found hq.symm
      obtain rfl : asked = key := hfit.2.2.1
      obtain rfl : version = t₁.id := hfit.2.2.2
      have ho : Observed ⟨c, _, es⟩ t₁.id asked (c.shards.get t₁.id asked) :=
        ⟨h.looking hp, rfl⟩
      exact ho.moved hs hm
    · exact (h.found (mem_of_others hq)).moved hs hm
  · rcases mem_moved hq with rfl | hq
    · rw [hm.id_eq]
      rcases hm.of_cached hc with hc | rfl
      · exact (h.cached _ hp hc).moved hs hm
      · exact (h.found hp).moved hs hm
    · exact (h.cached q (mem_of_others hq) hc).moved hs hm
  · rcases List.mem_append.mp hr with hr | hr
    · obtain ⟨hb, ho⟩ := h.answered hr
      exact ⟨List.mem_append_left _ hb, ho.moved hs hm⟩
    · obtain ⟨rfl, hseen⟩ := hm.of_read hr
      refine ⟨List.mem_append_left _ (hv.began _ hp), ?_⟩
      rcases hseen with ⟨found, rfl, hc⟩ | rfl
      · exact (h.cached _ hp hc).moved hs hm
      · exact (h.found hp).moved hs hm

/-- A step that changes no shards and adds no client that reads or commits. -/
theorem Reading.extend {s s' : System σ} (h : Reading s)
    (hlast : s.coordinator.lastVersion ≤ s'.coordinator.lastVersion)
    (hshards : s'.coordinator.shards = s.coordinator.shards)
    (hold : ∀ e ∈ s.trace, e ∈ s'.trace)
    (hread : ∀ {id key value}, .read id key value ∈ s'.trace → .read id key value ∈ s.trace)
    (hclients : ∀ p ∈ s'.clients, p ∈ s.clients ∨ ∃ id, p = .fresh (.fresh id)) :
    Reading s' := by
  have hsettled {version : ℕ} {key : String} (hs : Settled s version key) :
      Settled s' version key := by
    refine ⟨Nat.le_trans hs.1 hlast, fun q hq v hv hk => ?_⟩
    rcases hclients q hq with hq | ⟨id, rfl⟩
    · exact hs.2 q hq v hv hk
    · simp [Client.pending?, Client.fresh] at hv
  have hobserved {version : ℕ} {key : String} {value : Option String}
      (ho : Observed s version key value) : Observed s' version key value :=
    ⟨hsettled ho.1, hshards ▸ ho.2⟩
  refine ⟨fun hq => ?_, fun hq => ?_, fun q hq key value hc => ?_,
    fun hr => ⟨hold _ (h.answered (hread hr)).1, hobserved (h.answered (hread hr)).2⟩⟩
  · rcases hclients _ hq with hq | ⟨id, hq⟩
    · exact hsettled (h.looking hq)
    · simp [Client.fresh] at hq
  · rcases hclients _ hq with hq | ⟨id, hq⟩
    · exact hobserved (h.found hq)
    · simp [Client.fresh] at hq
  · rcases hclients _ hq with hq | ⟨id, rfl⟩
    · exact hobserved (h.cached q hq hc)
    · simp [Client.fresh, Transaction.fresh] at hc

section stored
variable [LogStore σ] {s s' : System σ}

theorem Reading.step (hl : Locking s) (hv : Versioned c₀ s) (hs : s.coordinator.shards.Sound)
    (h : Reading s) (hstep : Step s s') : Reading s' := by
  cases hstep with
  | began c ps es =>
      refine h.extend (Nat.le_succ _) rfl (fun e he => List.mem_append_left _ he) (by simp)
        fun p hp => ?_
      rcases List.mem_append.mp hp with hp | hp
      · exact .inl hp
      · exact .inr ⟨_, List.mem_singleton.mp hp⟩
  | moved hm => exact h.moved hl hv hs hm
  | flushed hj hf =>
      next c ps es j j' event =>
      exact h.extend (Nat.le_refl _) rfl (fun e he => List.mem_append_left _ he)
        (mem_append_flushEvents es (by simp)).mp fun p hp => .inl hp

theorem Reachable.reading (hc : Fresh c₀) (h : Reachable c₀ s) : Reading s := by
  induction h with
  | start => constructor <;> simp [System.start]
  | step hr hs ih =>
      exact ih.step (hr.locking hc) (hr.versioned hc) (hr.committed hc).sound (.of_next hs)

/-! ### Snapshot reads -/

/-- Whether an event is the read of a key by a transaction that gives a value. -/
def Event.isRead (id : ℕ) (key : String) (value : Option String) : Event → Bool
  | .read i k v => i = id && k = key && v = value
  | _ => false

theorem mem_of_isRead {es : List Event} {id : ℕ} {key : String} {value : Option String}
    (h : es.any (Event.isRead id key value) = true) : .read id key value ∈ es := by
  obtain ⟨e, he, hr⟩ := List.any_eq_true.mp h
  cases e with
  | read i k v =>
      simp only [Event.isRead, Bool.and_eq_true, decide_eq_true_eq] at hr
      obtain ⟨⟨rfl, rfl⟩, rfl⟩ := hr
      exact he
  | _ => simp [Event.isRead] at hr

theorem Reachable.read_eq (hc : Fresh c₀) (h : Reachable c₀ s) {id : ℕ} {key : String}
    {value : Option String} (hr : .read id key value ∈ s.trace) :
    value = stateAt c₀ s.trace id key := by
  have hv := h.versioned hc
  obtain ⟨hb, -, hval⟩ := (h.reading hc).answered hr
  have hbase := (hv.numbered.bounds _ (mem_versions hb rfl)).1
  rw [hval]
  exact (h.committed hc).get_eq hc hv (Nat.le_of_lt hbase) key

/-- A read that is answered is noted with the value that its client gets. -/
theorem System.exists_read {i : ℕ} {p p' : Client} {choice : Choice} {key : String} {answer : Answer}
    (hp : s.clients[i]? = some p) (hreads : p.Reads i key choice) (hs : s.next choice = some s')
    (hp' : s'.clients[i]? = some p') (ha : p'.activity = .answered answer) :
    ∃ value, answer = .ok value ∧ .read p.id key value ∈ s'.trace := by
  have hi : i < s.clients.length := (List.getElem?_eq_some_iff.mp hp).1
  cases hreads with
  | ask hf hw =>
      obtain ⟨q, hq, -, rfl⟩ := System.of_request hs
      obtain rfl := Option.some.inj (hp.symm.trans hq)
      obtain rfl := Option.some.inj ((List.getElem?_set_self hi).symm.trans hp')
      obtain ⟨value, hvalue, hr⟩ := Client.exists_read_of_get hf hw ha
      exact ⟨value, hvalue, List.mem_append_right _ hr⟩
  | resume hreading =>
      obtain ⟨q, q', c', hq, hadvance, rfl⟩ := System.of_advance hs
      obtain rfl := Option.some.inj (hp.symm.trans hq)
      obtain rfl := Option.some.inj ((List.getElem?_set_self hi).symm.trans hp')
      obtain ⟨value, hvalue, hr⟩ := (Move.of_advance hadvance).of_reading hreading ha
      exact ⟨value, hvalue, List.mem_append_right _ hr⟩

/-- Every read gives the value of its key in the snapshot at the begin version of the reader.  Hence
a transaction reads the same value again, and sees every other commit whole, up to later commits that
it sees as well, or reads as if the commit had not been.  The value is what the client is answered. -/
theorem snapshot_reads (hc : Fresh c₀) (h : Reachable c₀ s) :
    (∀ id key value, .read id key value ∈ s.trace → value = stateAt c₀ s.trace id key) ∧
    (∀ id key value again, .read id key value ∈ s.trace → .read id key again ∈ s.trace →
      again = value) ∧
    (∀ id x, .applied x ∈ s.trace →
      (∀ key value, .read id key value ∈ s.trace → key ∈ x.writes.keys →
        ∃ y, .applied y ∈ s.trace ∧ x.version ≤ y.version ∧ y.version ≤ id ∧
          y.writes.get? key = some value) ∨
      (∀ key value, .read id key value ∈ s.trace → value = afterCommits (initial c₀)
        ((applied s.trace).filter fun y => y.version ≤ id ∧ y.version ≠ x.version) key)) ∧
    (∀ (i : ℕ) (p : Client) (key : String) (choice : Choice), s.clients[i]? = some p →
      p.Reads i key choice → ∀ (s' : System σ) (p' : Client) (answer : Answer),
        s.next choice = some s' → s'.clients[i]? = some p' → p'.activity = .answered answer →
        answer = .ok (stateAt c₀ s'.trace p.id key) ∧
          .read p.id key (stateAt c₀ s'.trace p.id key) ∈ s'.trace) := by
  have hread (id : ℕ) (key : String) (value : Option String)
      (hr : .read id key value ∈ s.trace) : value = stateAt c₀ s.trace id key := h.read_eq hc hr
  refine ⟨hread, fun id key value again hr hagain => ?_, fun id x hx => ?_,
    fun i p key choice hp hreads s' p' answer hs hp' ha => ?_⟩
  · rw [hread _ _ _ hr, hread _ _ _ hagain]
  · by_cases hle : x.version ≤ id
    · refine .inl fun key value hr hk => ?_
      have hmem {y : Attempt} : y ∈ (applied s.trace).filter (·.version ≤ id) ↔
          .applied y ∈ s.trace ∧ y.version ≤ id := by
        rw [List.mem_filter, mem_applied, decide_eq_true_eq]
      rcases afterCommits_cases (initial c₀) ((applied s.trace).filter (·.version ≤ id)) key with
        ⟨hnone, -⟩ | ⟨y, hy, hvalue, hmax⟩
      · exact absurd hk ((Table.get?_eq_none_iff _).mp (hnone x (hmem.mpr ⟨hx, hle⟩)))
      · rw [← stateAt, ← hread _ _ _ hr] at hvalue
        exact ⟨y, (hmem.mp hy).1, hmax x (hmem.mpr ⟨hx, hle⟩) hk, (hmem.mp hy).2, hvalue⟩
    · refine .inr fun key value hr => ?_
      have hfilter : (applied s.trace).filter (fun y => y.version ≤ id ∧ y.version ≠ x.version) =
          (applied s.trace).filter (·.version ≤ id) := by
        refine List.filter_congr fun y _ => ?_
        simp only [decide_eq_decide]
        omega
      rw [hfilter]
      exact hread _ _ _ hr
  · obtain ⟨value, rfl, hr⟩ := System.exists_read hp hreads hs hp' ha
    obtain rfl := (h.step hs).read_eq hc hr
    exact ⟨rfl, hr⟩

/-- Whether a client is reading a key at a version. -/
def Client.isReading (p : Client) (id : ℕ) (key : String) : Bool :=
  match p.activity with
  | .reading k _ => p.id = id && k = key
  | _ => false

theorem Client.reads_of_isReading {p : Client} {id : ℕ} {key : String}
    (h : p.isReading id key = true) (i : ℕ) : p.id = id ∧ p.Reads i key (.advance i) := by
  unfold isReading at h
  split at h
  · next k lookup ha =>
    simp only [Bool.and_eq_true, decide_eq_true_eq] at h
    obtain ⟨hid, rfl⟩ := h
    exact ⟨hid, .resume ha⟩
  · simp at h

/-- A reader that began after a commit minted its end version waits for it and reads the new value; one
that began before reads nothing, even after the commit, and is answered so with the last step. -/
theorem snapshot_reads_sample :
    ∃ s, Reachable sample s ∧ .read 2 "k" none ∈ s.trace ∧ .read 4 "k" (some "v") ∈ s.trace ∧
      none = stateAt sample s.trace 2 "k" ∧ some "v" = stateAt sample s.trace 4 "k" ∧
      ∃ p, s.clients[1]? = some p ∧ p.activity = .answered (.ok none) := by
  have hrun : ((System.start sample).run ([.begin, .begin] ++ Choice.write 0 "k" "v" ++
      Choice.mint 0 ++ [.begin, .request 2 (.get "k"), .advance 2] ++ Choice.conclude 0 ++
      [.advance 2, .advance 2, .advance 2, .request 1 (.get "k")] ++
      List.replicate 3 (.advance 1))).any (fun s =>
        s.clients[1]?.any (·.isReading 2 "k") && (s.next (.advance 1)).any fun s' =>
          s'.clients[1]?.any (·.isIdle) && s'.trace.any (Event.isRead 2 "k" none) &&
            s'.trace.any (Event.isRead 4 "k" (some "v"))) = true := by
    decide +kernel
  obtain ⟨s, hs, hlast⟩ := exists_reachable hrun
  simp only [Bool.and_eq_true, Option.any_eq_true] at hlast
  obtain ⟨⟨p, hp, hreading⟩, s', hnext, ⟨⟨p', hp', hidle⟩, hold⟩, hnew⟩ := hlast
  obtain ⟨hid, hreads⟩ := Client.reads_of_isReading hreading 1
  obtain ⟨answer, ha⟩ := Client.exists_answered hidle
  obtain ⟨-, -, -, hanswer⟩ := snapshot_reads fresh_sample hs
  obtain ⟨rfl, -⟩ := hanswer 1 p "k" _ hp hreads s' p' answer hnext hp' ha
  have hread := (snapshot_reads fresh_sample (hs.step hnext)).1
  have hnone := hread _ _ _ (mem_of_isRead hold)
  refine ⟨s', hs.step hnext, mem_of_isRead hold, mem_of_isRead hnew, hnone,
    hread _ _ _ (mem_of_isRead hnew), p', hp', ?_⟩
  rw [ha, hid, ← hnone]

end stored
end Run
end SnapshotStore

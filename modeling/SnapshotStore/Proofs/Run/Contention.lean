import SnapshotStore.Proofs.Run.Answers
import SnapshotStore.Proofs.Run.Ownership

/-! # Contention

Some transactions, the contenders, write what they like and commit, in any order of steps, while nobody
else commits on their keys and the log takes their records (`Fair`, in every system on the way there:
`Through`).  Then one of them wins (`some_contender_wins`).

The locks of a commit are taken in the order of keys, so the contender with the last of all keys that
contenders have a grip on cannot be beaten: whoever had its next lock would have a grip on a later key.
`Contending` follows this contender, who changes when another one gets a grip on a later key, until one has
taken effect.  A contender that finds one of its keys written after it began gives up too, but only if one
has taken effect already. -/

namespace SnapshotStore
namespace Run

open Journal (LogStore MemoryLog)

variable {σ : Type} {c₀ : Coordinator σ}

/-! ### Commits that contend -/

namespace Client

variable (p : Client)

/-- Whether a commit has neither taken effect nor given up. -/
def Contends : Prop :=
  match p.activity with
  | .committing (.locking _ _) => True
  | .committing (.contending _ _ _) => True
  | .committing (.checking _ _ _) => True
  | .committing (.logging _ _ _) => True
  | _ => False

/-- The answer of a commit that has taken effect or given up. -/
def result? : Option (Outcome Unit) :=
  match p.activity with
  | .committing (.releasing _ _ result) => some result
  | .committing (.done result) => some result
  | _ => none

variable {p}

theorem Contends.commits (h : p.Contends) : p.Commits := by
  unfold Contends at h
  unfold Commits
  split at h <;> simp_all

theorem exists_next {t : Transaction} {held : List ℕ} {lock : ℕ} {todo : List String}
    (hf : (⟨t, .committing (.contending held lock todo)⟩ : Client).Fits) :
    ∃ got key, Commit.sortedKeys t.writes = got ++ key :: todo ∧ got.length = held.length ∧
      (⟨t, .committing (.contending held lock todo)⟩ : Client).gripped = got ∧
      ∀ k ∈ got, k < key := by
  obtain ⟨-, got, key, hk, hlen⟩ := hf
  have hk : Commit.sortedKeys t.writes = got ++ key :: todo := hk
  have hsorted : (Commit.sortedKeys t.writes).Pairwise (· < ·) := t.writes.pairwise_mergeSort_keys
  rw [hk] at hsorted
  refine ⟨got, key, hk, hlen, ?_, fun k hkg => ?_⟩
  · show (Commit.sortedKeys t.writes).take held.length = got
    rw [hk]
    exact List.take_left' hlen
  · exact (List.pairwise_append.mp hsorted).2.2 k hkg key (List.mem_cons_self ..)

end Client

/-- How a commit stops to contend. -/
inductive Stops (c : Coordinator σ) (p : Client) (new : List Event) : Prop
  | beaten {held : List ℕ} {lock : ℕ} {todo : List String}
      (ha : p.activity = .committing (.contending held lock todo))
      (ho : c.locks.owner lock ≠ unlocked)
  | outdated {key : String} {version : ℕ} (hk : key ∈ p.unchecked)
      (hx : c.shards.existsBetween p.id version key = true)
  | applied {version : ℕ} (hx : .applied (p.attempt version) ∈ new)
  | unlogged {held : List ℕ} {version : ℕ}
      (ha : p.activity = .committing (.logging held version (.done false)))

section moves
variable {c c' : Coordinator σ} {t : Transaction} {a : Activity} {new : List Event} {p' : Client}

theorem Move.not_began (h : Move c t a new p' c') {id : ℕ} : .began id ∉ new := by
  intro hb
  cases h with
  | log h => rcases mem_marks hb with ⟨_, _, he⟩ | ⟨_, _, -, he⟩ <;> simp at he
  | write key value hf => cases value <;> simp [writeRequest] at hb
  | _ => simp at hb

/-- A client that contends goes on with the keys that it has a grip on, or stops. -/
theorem Move.contends (h : Move c t a new p' c') (hp : (⟨t, a⟩ : Client).Contends) :
    p'.Contends ∧ (⟨t, a⟩ : Client).gripped ⊆ p'.gripped ∨ Stops c ⟨t, a⟩ new := by
  cases h with
  | lock => exact .inl ⟨trivial, List.Subset.refl _⟩
  | acquire h =>
      next held lock todo locks =>
      have hle : held.length ≤ (held ++ [lock]).length := by simp
      exact .inl ⟨trivial, (List.take_prefix_take_left hle).subset⟩
  | lose ho => exact .inr (.beaten rfl ho)
  | mint => exact .inl ⟨trivial, List.Subset.refl _⟩
  | conflict hx => exact .inr (.outdated (List.mem_cons_self ..) hx)
  | clear hx => exact .inl ⟨trivial, List.Subset.refl _⟩
  | pledge => exact .inl ⟨trivial, List.Subset.refl _⟩
  | apply => exact .inr (.applied (List.mem_singleton.mpr rfl))
  | abort => exact .inr (.unlogged rfl)
  | log h =>
      next purpose save save' =>
      cases purpose with
      | sealing held version => exact .inl ⟨trivial, List.Subset.refl _⟩
      | _ => exact hp.elim
  | _ => exact hp.elim

/-- A client gets a grip on at most one more key with a step, which comes after those that it has a
grip on already. -/
theorem Move.gripped (h : Move c t a new p' c') (hf : (⟨t, a⟩ : Client).Fits) :
    p'.gripped ⊆ (⟨t, a⟩ : Client).gripped ∨ p'.Contends ∧
      ∃ key, p'.gripped = (⟨t, a⟩ : Client).gripped ++ [key] ∧
        ∀ k ∈ (⟨t, a⟩ : Client).gripped, k < key := by
  cases h with
  | acquire h =>
      next held lock todo locks =>
      obtain ⟨got, key, hk, hlen, hgot, hlt⟩ := Client.exists_next hf
      refine .inr ⟨trivial, key, ?_, hgot ▸ hlt⟩
      have hlen' : (got ++ [key]).length = (held ++ [lock]).length := by simp [hlen]
      show (Commit.sortedKeys t.writes).take (held ++ [lock]).length = _
      rw [hgot, hk, List.append_cons got key todo]
      exact List.take_left' hlen'
  | log h =>
      next purpose save save' => cases purpose <;> exact .inl (List.Subset.refl _)
  | leave => exact .inl (List.nil_subset _)
  | _ => exact .inl (List.Subset.refl _)

theorem Move.contends_of_commits (h : Move c t a new p' c') (hp : p'.Commits) :
    (⟨t, a⟩ : Client).Commits ∨ p'.Contends ∨ p'.writes.isEmpty = true := by
  cases h with
  | commitNothing hf hw => exact .inr (.inr hw)
  | commit hf hw => exact .inr (.inl trivial)
  | log h =>
      next purpose save save' =>
      cases purpose with
      | sealing held version => exact .inl trivial
      | _ => exact hp.elim
  | _ => first | exact .inl trivial | exact hp.elim

/-- A commit answers that all is well, or that another one was faster, or that the log failed. -/
theorem Move.of_result (h : Move c t a new p' c') {result : Outcome Unit}
    (hr : p'.result? = some result) :
    (⟨t, a⟩ : Client).result? = some result ∨ result = .ok () ∨ result = .error .interfered ∨
      ∃ held version, a = .committing (.logging held version (.done false)) := by
  cases h with
  | commitNothing hf hw => exact .inr (.inl (Option.some.inj hr).symm)
  | lose ho => exact .inr (.inr (.inl (Option.some.inj hr).symm))
  | conflict hx => exact .inr (.inr (.inl (Option.some.inj hr).symm))
  | apply => exact .inr (.inl (Option.some.inj hr).symm)
  | abort => exact .inr (.inr (.inr ⟨_, _, rfl⟩))
  | free => exact .inl hr
  | leave => exact .inl hr
  | log h =>
      next purpose save save' => cases purpose <;> simp [Client.result?, Purpose.activity] at hr
  | _ => simp [Client.result?] at hr

end moves

/-! ### Fair runs -/

section stored
variable [LogStore σ]

/-- A system that a coordinator gets to by way of systems with some property. -/
inductive Through (P : System σ → Prop) (c : Coordinator σ) : System σ → Prop
  | start (hp : P (.start c)) : Through P c (.start c)
  | step {s s' : System σ} {choice : Choice} (h : Through P c s) (hs : s.next choice = some s')
      (hp : P s') : Through P c s'

theorem Through.reachable {P : System σ → Prop} {s : System σ} (h : Through P c₀ s) :
    Reachable c₀ s := by
  induction h with
  | start hp => exact .start
  | step _ hs _ ih => exact ih.step hs

theorem Through.holds {P : System σ → Prop} {s : System σ} (h : Through P c₀ s) : P s := by
  cases h with
  | start hp => exact hp
  | step _ _ hp => exact hp

theorem Through.mono {P Q : System σ → Prop} (hPQ : ∀ {s}, P s → Q s) {s : System σ}
    (h : Through P c₀ s) : Through Q c₀ s := by
  induction h with
  | start hp => exact .start (hPQ hp)
  | step _ hs hp ih => exact ih.step hs (hPQ hp)

end stored

/-- What is assumed while some transactions contend: from the first of their begins on no other
transaction commits on one of their keys, and the log takes the record of each of their commits. -/
structure Fair (ids : Finset ℕ) (writes : ℕ → Writes) (s : System σ) : Prop where
  undisturbed : (∃ id ∈ ids, .began id ∈ s.trace) → ∀ p ∈ s.clients, p.Commits → p.id ∉ ids →
    ∀ id ∈ ids, ¬ Meet p.writes (writes id)
  logged : ∀ p ∈ s.clients, p.id ∈ ids → ∀ held version,
    p.activity ≠ .committing (.logging held version (.done false))

variable {ids : Finset ℕ} {writes : ℕ → Writes}

/-- Whether the commits of the contenders that are under way are those of certain writes. -/
def Stages (ids : Finset ℕ) (writes : ℕ → Writes) (s : System σ) : Prop :=
  ∀ p ∈ s.clients, p.id ∈ ids → p.Commits → p.writes = writes p.id

/-! ### The invariant -/

/-- Whether a contender has taken effect. -/
def Won (ids : Finset ℕ) (es : List Event) : Prop := ∃ x, .applied x ∈ es ∧ x.id ∈ ids

/-- No contender has a lock or has stopped. -/
structure Untouched (ids : Finset ℕ) (s : System σ) : Prop where
  gripped : ∀ p ∈ s.clients, p.id ∈ ids → p.gripped = []
  contends : ∀ p ∈ s.clients, p.id ∈ ids → p.Commits → p.Contends
  ended : ∀ {id w r}, .ended id w r ∈ s.trace → id ∉ ids

/-- The contender with the last of all keys that contenders have a grip on still contends. -/
def Led (ids : Finset ℕ) (s : System σ) : Prop :=
  ∃ p ∈ s.clients, p.id ∈ ids ∧ p.Contends ∧
    ∃ top ∈ p.gripped, ∀ q ∈ s.clients, q.id ∈ ids → ∀ key ∈ q.gripped, key ≤ top

/-- What holds while some transactions contend. -/
structure Contending (ids : Finset ℕ) (writes : ℕ → Writes) (s : System σ) : Prop where
  owned : ∀ {x}, .minted x ∈ s.trace → ∀ {id}, id ∈ ids → .began id ∈ s.trace → id < x.version →
    Meet x.writes (writes id) → x.id ∈ ids
  results : ∀ p ∈ s.clients, p.id ∈ ids → ∀ {result}, p.result? = some result →
    result = .ok () ∨ result = .error .interfered
  ended : ∀ {id w result}, .ended id w result ∈ s.trace → id ∈ ids →
    result = .ok () ∨ result = .error .interfered
  decided : Won ids s.trace ∨ Untouched ids s ∨ Led ids s

section moved
variable {c c' : Coordinator σ} {A B : List Client} {t : Transaction} {a : Activity}
  {p p' : Client} {es new : List Event}

theorem Led.moved (hm : Move c t a new p' c') (hp : p ∈ A ++ p' :: B) (hid : p.id ∈ ids)
    (hcontends : p.Contends) {top : String} (htop : top ∈ p.gripped)
    (hothers : ∀ q ∈ A ++ B, q.id ∈ ids → ∀ key ∈ q.gripped, key ≤ top)
    (hself : t.id ∈ ids → ∀ key ∈ p'.gripped, key ≤ top) :
    Led ids ⟨c', A ++ p' :: B, es ++ new⟩ := by
  refine ⟨p, hp, hid, hcontends, top, htop, fun q hq hqid => ?_⟩
  rcases mem_moved hq with rfl | hq
  · exact hself (hm.id_eq ▸ hqid)
  · exact hothers q hq hqid

theorem Led.of_gripped (hm : Move c t a new p' c') (hid : t.id ∈ ids) (hcontends : p'.Contends)
    {key : String} (hkey : p'.gripped = (⟨t, a⟩ : Client).gripped ++ [key])
    (hlt : ∀ k ∈ (⟨t, a⟩ : Client).gripped, k < key)
    (hothers : ∀ q ∈ A ++ B, q.id ∈ ids → ∀ k ∈ q.gripped, k ≤ key) :
    Led ids ⟨c', A ++ p' :: B, es ++ new⟩ := by
  have htop : key ∈ p'.gripped := hkey ▸ List.mem_append_right _ (List.mem_singleton.mpr rfl)
  refine .moved hm (by simp) (hm.id_eq ▸ hid) hcontends htop hothers fun _ k hk => ?_
  · rw [hkey] at hk
    rcases List.mem_append.mp hk with hk | hk
    · exact String.not_lt.mp (String.lt_asymm (hlt k hk))
    · exact List.mem_singleton.mp hk ▸ String.le_refl key

theorem Untouched.moved_other (hu : Untouched ids ⟨c, A ++ ⟨t, a⟩ :: B, es⟩)
    (hm : Move c t a new p' c') (hid : t.id ∉ ids) :
    Untouched ids ⟨c', A ++ p' :: B, es ++ new⟩ := by
  have hback {q : Client} (hq : q ∈ A ++ p' :: B) (hqid : q.id ∈ ids) :
      q ∈ A ++ ⟨t, a⟩ :: B := by
    rcases mem_moved hq with rfl | hq
    · exact absurd (hm.id_eq ▸ hqid) hid
    · exact mem_of_others hq
  refine ⟨fun q hq hqid => hu.gripped q (hback hq hqid) hqid,
    fun q hq hqid => hu.contends q (hback hq hqid) hqid, fun he => ?_⟩
  rcases List.mem_append.mp he with he | he
  · exact hu.ended he
  · exact (hm.of_ended he).1 ▸ hid

section stored
variable [LogStore σ] (hc : Fresh c₀) (hr : Reachable c₀ ⟨c, A ++ ⟨t, a⟩ :: B, es⟩)
  (hfair : Fair ids writes ⟨c, A ++ ⟨t, a⟩ :: B, es⟩)
  (hstages : Stages ids writes ⟨c, A ++ ⟨t, a⟩ :: B, es⟩)
  (h : Contending ids writes ⟨c, A ++ ⟨t, a⟩ :: B, es⟩)
include hc hr hfair hstages h

/-- A contender stops because one has taken effect, or because one has a grip on a later key. -/
theorem Stops.won_or_exists (hs : Stops c ⟨t, a⟩ new) (hid : t.id ∈ ids)
    (hcontends : (⟨t, a⟩ : Client).Contends) : Won ids (es ++ new) ∨
      ∃ q ∈ A ++ ⟨t, a⟩ :: B, q.id ∈ ids ∧
        ∃ key ∈ q.gripped, ∀ k ∈ (⟨t, a⟩ : Client).gripped, k < key := by
  have hl := hr.locking hc
  have hv := hr.versioned hc
  have hp : (⟨t, a⟩ : Client) ∈ A ++ ⟨t, a⟩ :: B := by simp
  have hb : .began t.id ∈ es := hv.began _ hp
  have hw : t.writes = writes t.id := hstages _ hp hid hcontends.commits
  cases hs with
  | beaten ha ho =>
      next held lock todo =>
      obtain rfl : a = .committing (.contending held lock todo) := ha
      obtain ⟨got, key, hk, hlen, hgot, hlt⟩ := Client.exists_next (hl.fits _ hp)
      obtain ⟨names, hown⟩ := hr.owning hc
      obtain ⟨q, hq, hqc, hqk⟩ := hown.exists_owner hl hp hk hlen ho
      refine .inr ⟨q, hq, ?_, key, hqk, hgot ▸ hlt⟩
      have hkq : key ∈ q.writes.keys := Client.mem_keys.mp (Client.mem_keys_of_gripped hqk)
      have hkt : key ∈ t.writes.keys := by
        refine (List.mem_mergeSort ..).mp (show key ∈ Commit.sortedKeys t.writes from ?_)
        exact hk ▸ List.mem_append_right got (List.mem_cons_self ..)
      by_contra hqid
      exact hfair.undisturbed ⟨t.id, hid, hb⟩ q hq hqc hqid t.id hid ⟨key, hkq, hw ▸ hkt⟩
  | outdated hk hx =>
      next key version =>
      obtain ⟨x, hx, hlt, -, hkx⟩ := ((hr.committed hc).existsBetween_iff hc hv hb).mp hx
      have hkw : key ∈ (writes t.id).keys := hw ▸ (hr.answered hc).unchecked _ hp hk
      exact .inl ⟨x, List.mem_append_left _ hx,
        h.owned (hv.applied hx) hid hb hlt ⟨key, hkx, hkw⟩⟩
  | applied hx => exact .inl ⟨_, List.mem_append_right _ hx, hid⟩
  | unlogged ha => exact absurd ha (hfair.logged _ hp hid _ _)

/-- A contender gets a grip on its first key, or contends without one, or has won. -/
theorem Untouched.moved (hu : Untouched ids ⟨c, A ++ ⟨t, a⟩ :: B, es⟩)
    (hempty : ∀ id ∈ ids, (writes id).isEmpty = false)
    (hstages' : Stages ids writes ⟨c', A ++ p' :: B, es ++ new⟩)
    (hm : Move c t a new p' c') (hid : t.id ∈ ids) :
    Won ids (es ++ new) ∨ Untouched ids ⟨c', A ++ p' :: B, es ++ new⟩ ∨
      Led ids ⟨c', A ++ p' :: B, es ++ new⟩ := by
  have hp : (⟨t, a⟩ : Client) ∈ A ++ ⟨t, a⟩ :: B := by simp
  have hnone : (⟨t, a⟩ : Client).gripped = [] := hu.gripped _ hp hid
  have hothers {key : String} : ∀ q ∈ A ++ B, q.id ∈ ids → ∀ k ∈ q.gripped, k ≤ key := by
    intro q hq hqid k hk
    simp [hu.gripped q (mem_of_others hq) hqid] at hk
  rcases hm.gripped ((hr.locking hc).fits _ hp) with hsub | ⟨hcontends, key, hkey, hlt⟩
  · by_cases hwon : Won ids (es ++ new)
    · exact .inl hwon
    refine .inr (.inl ⟨fun q hq hqid => ?_, fun q hq hqid hqc => ?_, fun {id w r} he => ?_⟩)
    · rcases mem_moved hq with rfl | hq
      · exact List.subset_nil.mp (hnone ▸ hsub)
      · exact hu.gripped q (mem_of_others hq) hqid
    · rcases mem_moved hq with rfl | hq
      · rcases hm.contends_of_commits hqc with hcommits | hcontends | hnothing
        · have hcontends := hu.contends _ hp hid hcommits
          rcases hm.contends hcontends with ⟨hcontends, -⟩ | hstops
          · exact hcontends
          · rcases hstops.won_or_exists hc hr hfair hstages h hid hcontends with hw | hbeaten
            · exact absurd hw hwon
            · obtain ⟨q, hq, hqid, key, hkey, -⟩ := hbeaten
              simp [hu.gripped q hq hqid] at hkey
        · exact hcontends
        · rw [hstages' q (by simp) hqid hqc, hempty _ hqid] at hnothing
          simp at hnothing
      · exact hu.contends q (mem_of_others hq) hqid hqc
    · rcases List.mem_append.mp he with he | he
      · exact hu.ended he
      · obtain ⟨rfl, -, rfl⟩ := hm.of_ended he
        exact (hu.contends _ hp hid trivial).elim
  · exact .inr (.inr (.of_gripped hm hid hcontends hkey hlt hothers))

/-- While a contender leads, one leads after the step of a contender, or has won. -/
theorem Led.moved_contender (hled : Led ids ⟨c, A ++ ⟨t, a⟩ :: B, es⟩) (hm : Move c t a new p' c')
    (hid : t.id ∈ ids) :
    Won ids (es ++ new) ∨ Led ids ⟨c', A ++ p' :: B, es ++ new⟩ := by
  have hp : (⟨t, a⟩ : Client) ∈ A ++ ⟨t, a⟩ :: B := by simp
  obtain ⟨q, hq, hqid, hqc, top, htop, hle⟩ := hled
  have hothers : ∀ q ∈ A ++ B, q.id ∈ ids → ∀ key ∈ q.gripped, key ≤ top :=
    fun q hq => hle q (mem_of_others hq)
  rcases hm.gripped ((hr.locking hc).fits _ hp) with hsub | ⟨hcontends, key, hkey, hlt⟩
  · have hself : t.id ∈ ids → ∀ key ∈ p'.gripped, key ≤ top :=
      fun hid key hk => hle _ hp hid key (hsub hk)
    rcases mem_moved hq with rfl | hq
    · rcases hm.contends hqc with ⟨hqc', hkeep⟩ | hstops
      · exact .inr (.moved hm (by simp) (hm.id_eq ▸ hid) hqc' (hkeep htop) hothers hself)
      · rcases hstops.won_or_exists hc hr hfair hstages h hid hqc with hw | hbeaten
        · exact .inl hw
        · obtain ⟨q, hq, hqid, key, hkey, hlt⟩ := hbeaten
          exact absurd (hle q hq hqid key hkey) (String.not_le.mpr (hlt top htop))
    · exact .inr (.moved hm (mem_of_others hq) hqid hqc htop hothers hself)
  · by_cases htk : top < key
    · exact .inr (.of_gripped hm hid hcontends hkey hlt
        fun q hq hqid k hk => String.le_trans (hothers q hq hqid k hk) (String.not_lt.mp (String.lt_asymm htk)))
    · have hself : t.id ∈ ids → ∀ k ∈ p'.gripped, k ≤ top := by
        intro hid k hk
        rw [hkey] at hk
        rcases List.mem_append.mp hk with hk | hk
        · exact hle _ hp hid k hk
        · exact List.mem_singleton.mp hk ▸ String.not_lt.mp htk
      rcases mem_moved hq with rfl | hq
      · exact absurd (hlt top htop) htk
      · exact .inr (.moved hm (mem_of_others hq) hqid hqc htop hothers hself)

theorem Contending.decided_moved (hempty : ∀ id ∈ ids, (writes id).isEmpty = false)
    (hstages' : Stages ids writes ⟨c', A ++ p' :: B, es ++ new⟩) (hm : Move c t a new p' c') :
    Won ids (es ++ new) ∨ Untouched ids ⟨c', A ++ p' :: B, es ++ new⟩ ∨
      Led ids ⟨c', A ++ p' :: B, es ++ new⟩ := by
  rcases h.decided with ⟨x, hx, hxid⟩ | hu | hled
  · exact .inl ⟨x, List.mem_append_left _ hx, hxid⟩
  · by_cases hid : t.id ∈ ids
    · exact hu.moved hc hr hfair hstages h hempty hstages' hm hid
    · exact .inr (.inl (hu.moved_other hm hid))
  · by_cases hid : t.id ∈ ids
    · exact (hled.moved_contender hc hr hfair hstages h hm hid).imp_right .inr
    · obtain ⟨q, hq, hqid, hqc, top, htop, hle⟩ := hled
      rcases mem_moved hq with rfl | hq
      · exact absurd hqid hid
      · exact .inr (.inr (.moved hm (mem_of_others hq) hqid hqc htop
          (fun q hq => hle q (mem_of_others hq)) fun hid' => absurd hid' hid))

theorem Contending.moved (hempty : ∀ id ∈ ids, (writes id).isEmpty = false)
    (hstages' : Stages ids writes ⟨c', A ++ p' :: B, es ++ new⟩) (hm : Move c t a new p' c') :
    Contending ids writes ⟨c', A ++ p' :: B, es ++ new⟩ := by
  have hp : (⟨t, a⟩ : Client) ∈ A ++ ⟨t, a⟩ :: B := by simp
  refine ⟨fun {x} hx id hid hb hlt hmeet => ?_, fun q hq hqid result hres => ?_,
    fun {id w result} he hid => ?_, h.decided_moved hc hr hfair hstages hempty hstages' hm⟩
  · have hb : .began id ∈ es := (List.mem_append.mp hb).resolve_right hm.not_began
    rcases List.mem_append.mp hx with hx | hx
    · exact h.owned hx hid hb hlt hmeet
    · obtain ⟨rfl, ho, -⟩ := hm.of_minted hx
      by_contra hxid
      exact hfair.undisturbed ⟨id, hid, hb⟩ _ hp (Client.commits_of_owns ho) hxid id hid hmeet
  · rcases mem_moved hq with rfl | hq
    · have hid : t.id ∈ ids := hm.id_eq ▸ hqid
      rcases hm.of_result hres with hres | hok | hbeaten | ⟨held, version, ha⟩
      · exact h.results _ hp hid hres
      · exact .inl hok
      · exact .inr hbeaten
      · exact absurd ha (hfair.logged _ hp hid held version)
    · exact h.results q (mem_of_others hq) hqid hres
  · rcases List.mem_append.mp he with he | he
    · exact h.ended he hid
    · obtain ⟨rfl, -, rfl⟩ := hm.of_ended he
      exact h.results _ hp hid rfl

end stored
end moved

section stored
variable [LogStore σ] {s s' : System σ}

theorem Contending.step (hc : Fresh c₀) (hr : Reachable c₀ s) (hfair : Fair ids writes s)
    (hstages : Stages ids writes s) (hstages' : Stages ids writes s')
    (hempty : ∀ id ∈ ids, (writes id).isEmpty = false) (h : Contending ids writes s)
    (hs : Step s s') : Contending ids writes s' := by
  cases hs with
  | began c ps es =>
      have hback {q : Client} (hq : q ∈ ps ++ [.fresh (.fresh c.mint.1)]) :
          q ∈ ps ∨ q = .fresh (.fresh c.mint.1) := by simpa using hq
      refine ⟨fun {x} hx id hid hb hlt => ?_, fun q hq hqid result hres => ?_,
        fun he => h.ended (by simpa using he), ?_⟩
      · have hx : .minted x ∈ es := by simpa using hx
        rcases List.mem_append.mp hb with hb | hb
        · exact h.owned hx hid hb hlt
        · obtain rfl : id = c.mint.1 := by simpa using hb
          have hle : x.version ≤ c.lastVersion := ((hr.versioned hc).version_le hx).2
          exact absurd (Nat.lt_succ_of_le hle) (Nat.lt_asymm hlt)
      · rcases hback hq with hq | rfl
        · exact h.results q hq hqid hres
        · simp [Client.fresh, Client.result?] at hres
      · rcases h.decided with ⟨x, hx, hxid⟩ | hu | ⟨q, hq, hqid, hqc, top, htop, hle⟩
        · exact .inl ⟨x, List.mem_append_left _ hx, hxid⟩
        · refine .inr (.inl ⟨fun q hq hqid => ?_, fun q hq hqid hqc => ?_,
            fun he => hu.ended (by simpa using he)⟩)
          · rcases hback hq with hq | rfl
            · exact hu.gripped q hq hqid
            · rfl
          · rcases hback hq with hq | rfl
            · exact hu.contends q hq hqid hqc
            · exact hqc.elim
        · refine .inr (.inr ⟨q, List.mem_append_left _ hq, hqid, hqc, top, htop,
            fun q hq hqid key hk => ?_⟩)
          rcases hback hq with hq | rfl
          · exact hle q hq hqid key hk
          · simp [Client.gripped, Client.taken, Client.fresh] at hk
  | moved hm => exact h.moved hc hr hfair hstages hempty hstages' hm
  | flushed hj hf =>
      next c ps es j j' event =>
      have hback {e : Event} (he : ∀ batch, e ≠ .stored batch) : e ∈ es ++ flushEvents j → e ∈ es :=
        (mem_append_flushEvents es he).mp
      refine ⟨fun hx id hid hb => h.owned (hback (by simp) hx) hid (hback (by simp) hb), h.results,
        fun he => h.ended (hback (by simp) he), ?_⟩
      rcases h.decided with ⟨x, hx, hxid⟩ | hu | hled
      · exact .inl ⟨x, List.mem_append_left _ hx, hxid⟩
      · exact .inr (.inl ⟨hu.gripped, hu.contends, fun he => hu.ended (hback (by simp) he)⟩)
      · exact .inr (.inr hled)

/-- What holds while transactions contend that will all have answered at some time. -/
theorem Through.contending (hc : Fresh c₀) (hempty : ∀ id ∈ ids, (writes id).isEmpty = false)
    (h : Through (Fair ids writes) c₀ s) {choices : List Choice} (hrun : s.run choices = some s')
    (hended : ∀ id ∈ ids, ∃ result, .ended id (writes id) result ∈ s'.trace) :
    Contending ids writes s := by
  have hstages {s : System σ} (h : Through (Fair ids writes) c₀ s) {choices : List Choice}
      (hrun : s.run choices = some s') : Stages ids writes s := by
    intro p hp hid hcommits
    obtain ⟨result, he⟩ := hended p.id hid
    exact h.reachable.writes_eq_of_ended hc hp hcommits hrun he
  induction h generalizing choices with
  | start hp =>
      refine ⟨by simp [System.start], by simp [System.start], by simp [System.start],
        .inr (.inl ⟨by simp [System.start], by simp [System.start], by simp [System.start]⟩)⟩
  | step h hs hp ih =>
      next s s₁ choice =>
      have hrun' : s.run (choice :: choices) = some s' := by
        rw [System.run, List.foldlM_cons, hs]
        exact hrun
      exact (ih hrun').step hc h.reachable h.holds (hstages h hrun') (hstages (.step h hs hp) hrun)
        hempty (.of_next hs)

end stored

/-! ### Some contender wins -/

/-- Whether all contenders began before any of them was asked to commit. -/
def BeganFirst (ids : Finset ℕ) (es : List Event) : Prop :=
  ∀ before after id, es = before ++ .requested id .commit :: after → id ∈ ids →
    ∀ id' ∈ ids, .began id' ∈ before

/-- Some transactions, all with something to write, have contended and answered. -/
structure Contest [LogStore σ] (c₀ : Coordinator σ) (ids : Finset ℕ) (writes : ℕ → Writes)
    (result : ℕ → Outcome Unit) (s : System σ) : Prop where
  nonempty : ids.Nonempty
  writing : ∀ id ∈ ids, (writes id).isEmpty = false
  ended : ∀ id ∈ ids, .ended id (writes id) (result id) ∈ s.trace
  fair : Through (Fair ids writes) c₀ s

section stored
variable [LogStore σ] {s : System σ} {result : ℕ → Outcome Unit}

theorem Contest.not_commits (hc : Fresh c₀) (h : Contest c₀ ids writes result s) {p : Client}
    (hp : p ∈ s.clients) (hid : p.id ∈ ids) : ¬ p.Commits := by
  intro hcommits
  have hr := h.fair.reachable
  refine (hr.requested hc).not_isOver (hr.locking hc) hp hcommits (.inr ?_)
  exact ⟨_, _, h.ended p.id hid⟩

theorem Contest.result_of_applied (hc : Fresh c₀) (h : Contest c₀ ids writes result s) {x : Attempt}
    (hx : .applied x ∈ s.trace) (hid : x.id ∈ ids) : result x.id = .ok () := by
  have hr := h.fair.reachable
  rcases (hr.answered hc).applied hx with ⟨p, hp, hpid, hok⟩ | ⟨w, hw⟩
  · exact (h.not_commits hc hp (hpid ▸ hid) hok.commits).elim
  · exact ((hr.answered hc).once (h.ended x.id hid) hw).2

theorem Contest.exists_applied (h : Contest c₀ ids writes result s) {id : ℕ} (hid : id ∈ ids)
    (hok : result id = .ok ()) : ∃ version, .applied ⟨id, version, writes id⟩ ∈ s.trace := by
  have hend := h.ended id hid
  rw [hok] at hend
  rcases h.fair.reachable.effective.ended hend with hnone | hx
  · simp [h.writing id hid] at hnone
  · exact hx

/-- If all contenders began before any of them was asked to commit, no two of them that succeed write
a common key. -/
theorem Contest.not_meet (hc : Fresh c₀) (h : Contest c₀ ids writes result s)
    (hfirst : BeganFirst ids s.trace) {i j : ℕ} (hi : i ∈ ids) (hj : j ∈ ids) (hne : i ≠ j)
    (hiok : result i = .ok ()) (hjok : result j = .ok ()) : ¬ Meet (writes i) (writes j) := by
  have hr := h.fair.reachable
  have hlate {x : Attempt} (hx : .applied x ∈ s.trace) (hxid : x.id ∈ ids) {id : ℕ}
      (hid : id ∈ ids) : id < x.version := by
    obtain ⟨before, after, hsplit, hb⟩ := (hr.answered hc).asked ((hr.versioned hc).applied hx)
    exact hb (hfirst before after x.id hsplit hxid id hid)
  intro hmeet
  obtain ⟨v, hx⟩ := h.exists_applied hi hiok
  obtain ⟨w, hy⟩ := h.exists_applied hj hjok
  have hxy : (⟨i, v, writes i⟩ : Attempt) ≠ ⟨j, w, writes j⟩ :=
    fun he => hne (congrArg Attempt.id he)
  rcases (hr.committed hc).apart hx hy hxy hmeet with hlt | hlt
  · exact Nat.lt_asymm hlt (hlate hx hi hj)
  · exact Nat.lt_asymm hlt (hlate hy hj hi)

/-- Of some transactions that contend one always wins, and every other one that does not is told that
another one was faster.  If they all began before any of them was asked to commit, those that succeed
write no common key, so exactly one succeeds if any two of them write a common key. -/
theorem some_contender_wins (hc : Fresh c₀) (h : Contest c₀ ids writes result s) :
    (∃ id ∈ ids, result id = .ok ()) ∧
    (∀ id ∈ ids, result id = .ok () ∨ result id = .error .interfered) ∧
    (BeganFirst ids s.trace →
      (∀ i ∈ ids, ∀ j ∈ ids, i ≠ j → result i = .ok () → result j = .ok () →
        ¬ Meet (writes i) (writes j)) ∧
      ((∀ i ∈ ids, ∀ j ∈ ids, i ≠ j → Meet (writes i) (writes j)) →
        ∃! id, id ∈ ids ∧ result id = .ok ())) := by
  have hcont : Contending ids writes s :=
    h.fair.contending hc h.writing (show s.run [] = some s from rfl)
      fun id hid => ⟨result id, h.ended id hid⟩
  have hwinner : ∃ id ∈ ids, result id = .ok () := by
    rcases hcont.decided with ⟨x, hx, hid⟩ | hu | ⟨p, hp, hid, hpc, -⟩
    · exact ⟨x.id, hid, h.result_of_applied hc hx hid⟩
    · obtain ⟨id, hid⟩ := h.nonempty
      exact absurd hid (hu.ended (h.ended id hid))
    · exact (h.not_commits hc hp hid hpc.commits).elim
  have hapart (hfirst : BeganFirst ids s.trace) : ∀ i ∈ ids, ∀ j ∈ ids, i ≠ j →
      result i = .ok () → result j = .ok () → ¬ Meet (writes i) (writes j) :=
    fun i hi j hj hne => h.not_meet hc hfirst hi hj hne
  refine ⟨hwinner, fun id hid => hcont.ended (h.ended id hid) hid, fun hfirst =>
    ⟨hapart hfirst, fun hmeet => ?_⟩⟩
  obtain ⟨id, hid, hok⟩ := hwinner
  refine ⟨id, ⟨hid, hok⟩, fun id' ⟨hid', hok'⟩ => ?_⟩
  by_contra hne
  exact hapart hfirst id' hid' id hid hne hok' hok (hmeet id' hid' id hid hne)

end stored

/-! ### A contest -/

section stored
variable [LogStore σ]

theorem exists_through {check goal : System σ → Bool} {choices : List Choice} {s : System σ}
    (hs : Through (check · = true) c₀ s)
    (h : (choices.foldlM (fun s choice => (System.next s choice).filter check) s).any goal = true) :
    ∃ s, Through (check · = true) c₀ s ∧ goal s = true := by
  induction choices generalizing s with
  | nil => exact ⟨s, hs, by simpa using h⟩
  | cons choice choices ih =>
      rw [List.foldlM_cons] at h
      obtain ⟨s', hrun, hgoal⟩ := (Option.any_eq_true goal _).mp h
      obtain ⟨s₁, hs₁, hrun⟩ := Option.bind_eq_some_iff.mp hrun
      obtain ⟨hnext, hcheck⟩ := Option.filter_eq_some_iff.mp hs₁
      exact ih (hs.step hnext hcheck) ((Option.any_eq_true goal _).mpr ⟨s', hrun, hgoal⟩)

end stored

/-- Three clients write one key.  The second one takes the lock of the key first, the other two come while
it has its end version. -/
def contest : List Choice :=
  List.replicate 3 .begin ++ Choice.write 0 "k" "u" ++ Choice.write 1 "k" "v" ++
    Choice.write 2 "k" "w" ++ Choice.mint 1 ++ .request 0 .commit :: List.replicate 4 (.advance 0) ++
    .request 2 .commit :: List.replicate 4 (.advance 2) ++ Choice.conclude 1

/-- Whether there is nobody but the contenders, and the log takes the records of their commits. -/
def isFair (ids : List ℕ) (s : System σ) : Bool :=
  s.clients.all fun p => ids.contains p.id && match p.activity with
    | .committing (.logging _ _ (.done false)) => false
    | _ => true

theorem fair_of_isFair {l : List ℕ} {s : System σ} (h : isFair l s = true) :
    Fair l.toFinset writes s := by
  rw [isFair, List.all_eq_true] at h
  refine ⟨fun _ p hp _ hid => ?_, fun p hp _ held version ha => ?_⟩
  · have := h p hp
    simp_all
  · have := h p hp
    simp [ha] at this

theorem beganFirst_of_prefix {ids : Finset ℕ} {l : List ℕ} {es : List Event}
    (hids : ∀ id ∈ ids, id ∈ l) (h : l.map Event.began <+: es) : BeganFirst ids es := by
  obtain ⟨rest, rfl⟩ := h
  intro before after id hsplit _ id' hid'
  rcases List.append_eq_append_iff.mp hsplit with ⟨more, rfl, -⟩ | ⟨more, hl, hmore⟩
  · exact List.mem_append_left _ (List.mem_map_of_mem (hids id' hid'))
  · cases more with
    | nil =>
        obtain rfl : l.map Event.began = before := by simpa using hl
        exact List.mem_map_of_mem (hids id' hid')
    | cons e more =>
        obtain ⟨rfl, -⟩ := List.cons.inj hmore
        have hmem : Event.requested id .commit ∈ l.map Event.began := by simp [hl]
        simp at hmem

/-- Whether a transaction that wrote a certain key got a certain answer. -/
def answers (es : List Event) (id : ℕ) (key : String) (result : Outcome Unit) : Bool :=
  es.any fun
    | .ended i w r => i = id ∧ w.keys = [key] ∧ r = result
    | _ => false

theorem ended_of_answers {es : List Event} {id : ℕ} {key : String} {result : Outcome Unit}
    (h : answers es id key result = true) :
    ∃ w : Writes, w.keys = [key] ∧ .ended id w result ∈ es := by
  obtain ⟨e, he, hanswer⟩ := List.any_eq_true.mp h
  split at hanswer
  · next i w r =>
    obtain ⟨rfl, hkeys, rfl⟩ := of_decide_eq_true hanswer
    exact ⟨w, hkeys, he⟩
  · simp at hanswer

/-- Whether a trace starts with the begins of three transactions. -/
def startsThree : List Event → Bool
  | .began 1 :: .began 2 :: .began 3 :: _ => true
  | _ => false

theorem exists_contest :
    ∃ s, Through (isFair [1, 2, 3] · = true) sample s ∧
      [1, 2, 3].map Event.began <+: s.trace ∧ answers s.trace 1 "k" (.error .interfered) = true ∧
      answers s.trace 2 "k" (.ok ()) = true ∧ answers s.trace 3 "k" (.error .interfered) = true := by
  have hrun : (contest.foldlM (fun s choice => (System.next s choice).filter (isFair [1, 2, 3]))
      (.start sample)).any (fun s => startsThree s.trace &&
        answers s.trace 1 "k" (.error .interfered) && answers s.trace 2 "k" (.ok ()) &&
        answers s.trace 3 "k" (.error .interfered)) = true := by
    decide +kernel
  obtain ⟨s, hs, hgoal⟩ := exists_through (.start rfl) hrun
  simp only [Bool.and_eq_true] at hgoal
  obtain ⟨⟨⟨hbegan, h₁⟩, h₂⟩, h₃⟩ := hgoal
  refine ⟨s, hs, ?_, h₁, h₂, h₃⟩
  unfold startsThree at hbegan
  split at hbegan
  · next heq => exact heq ▸ List.prefix_append _ _
  · simp at hbegan

/-- The client that took the lock first wins, and the other two are told that it was faster. -/
theorem some_contender_wins_sample :
    ∃ writes result s, Contest sample {1, 2, 3} writes result s ∧ BeganFirst {1, 2, 3} s.trace ∧
      (∀ i ∈ ({1, 2, 3} : Finset ℕ), ∀ j ∈ ({1, 2, 3} : Finset ℕ), i ≠ j →
        Meet (writes i) (writes j)) ∧
      result 2 = .ok () ∧ ∃! id, id ∈ ({1, 2, 3} : Finset ℕ) ∧ result id = .ok () := by
  obtain ⟨s, hs, hbegan, h₁, h₂, h₃⟩ := exists_contest
  obtain ⟨w₁, hw₁, he₁⟩ := ended_of_answers h₁
  obtain ⟨w₂, hw₂, he₂⟩ := ended_of_answers h₂
  obtain ⟨w₃, hw₃, he₃⟩ := ended_of_answers h₃
  let writes : ℕ → Writes := fun id => if id = 1 then w₁ else if id = 2 then w₂ else w₃
  let result : ℕ → Outcome Unit := fun id => if id = 2 then .ok () else .error .interfered
  have hkeys (id : ℕ) : (writes id).keys = ["k"] := by
    simp only [writes]
    split
    · exact hw₁
    · split <;> assumption
  have hcontest : Contest sample {1, 2, 3} writes result s := by
    refine ⟨by simp, fun id _ => ?_, fun id hid => ?_, hs.mono (fair_of_isFair (l := [1, 2, 3]))⟩
    · cases hw : (writes id).entries with
      | nil => simpa [Table.keys, hw] using hkeys id
      | cons e es => simp [Table.isEmpty, hw]
    · rcases (by simpa using hid : id = 1 ∨ id = 2 ∨ id = 3) with rfl | rfl | rfl
      · exact he₁
      · exact he₂
      · exact he₃
  have hfirst : BeganFirst {1, 2, 3} s.trace := beganFirst_of_prefix (by simp) hbegan
  have hmeet : ∀ i ∈ ({1, 2, 3} : Finset ℕ), ∀ j ∈ ({1, 2, 3} : Finset ℕ), i ≠ j →
      Meet (writes i) (writes j) := fun i _ j _ _ => ⟨"k", by simp [hkeys], by simp [hkeys]⟩
  exact ⟨writes, result, s, hcontest, hfirst, hmeet, rfl,
    ((some_contender_wins fresh_sample hcontest).2.2 hfirst).2 hmeet⟩

end Run
end SnapshotStore

import SnapshotStore.Proofs.Run.Blocking
import SnapshotStore.Proofs.Run.Durability

/-! # Operations in a run

An operation of a client goes from its request to its answer, while others make steps in between.
`System.transitions` lists the steps of a run, and `stepsOf` those of one client.  `Serving` says how
far an operation has come and what its own steps did:

* a write or a rollback touches nothing that transactions share but the log;
* a commit changes the shards only on its way to success, mints one version at most, and leaves the
  locks of others alone;
* a rollback, and a commit that fails, have given up.

The main statement is that this holds after every run from the request on (`System.serving`). -/

namespace SnapshotStore
namespace Run

open Journal (LogStore)

variable {σ : Type}

/-! ### The steps of a run -/

/-- The client whose step a choice is, if any. -/
def Choice.client? : Choice → Option ℕ
  | request i _ => some i
  | advance i => some i
  | _ => none

/-- One step of a run. -/
structure Transition (σ : Type) where
  before : System σ
  choice : Choice
  after : System σ

namespace Transition

variable (x : Transition σ)

/-- Whether a step leaves the coordinator and the trace as they are. -/
def Still : Prop := x.after.coordinator = x.before.coordinator ∧ x.after.trace = x.before.trace

/-- Whether a step leaves the shards alone. -/
def KeepsShards : Prop := x.after.coordinator.shards = x.before.coordinator.shards

/-- Whether a step leaves everything alone that transactions share, apart from the log. -/
def Quiet : Prop :=
  x.KeepsShards ∧ x.after.coordinator.locks = x.before.coordinator.locks ∧
    x.after.coordinator.lastVersion = x.before.coordinator.lastVersion

/-- Whether a step leaves the locks alone that others than one transaction own. -/
def SparesOthers (id : ℕ) : Prop :=
  ∀ lock, x.before.coordinator.locks.owner lock ≠ unlocked →
    x.before.coordinator.locks.owner lock ≠ id →
      x.after.coordinator.locks.owner lock = x.before.coordinator.locks.owner lock

/-- Whether a step does not turn the counter of versions back. -/
def Counts : Prop := x.before.coordinator.lastVersion ≤ x.after.coordinator.lastVersion

/-- How many versions a step mints. -/
def minted : ℕ := x.after.coordinator.lastVersion - x.before.coordinator.lastVersion

end Transition

/-- How many versions some steps mint. -/
def mintedBy : List (Transition σ) → ℕ
  | [] => 0
  | x :: steps => x.minted + mintedBy steps

theorem mintedBy_append (steps more : List (Transition σ)) :
    mintedBy (steps ++ more) = mintedBy steps + mintedBy more := by
  induction steps with
  | nil => simp [mintedBy]
  | cons x steps ih => simp only [List.cons_append, mintedBy, ih, Nat.add_assoc]

/-- The steps of one client. -/
def stepsOf (i : ℕ) (ts : List (Transition σ)) : List (Transition σ) :=
  ts.filter (·.choice.client? = some i)

section stored
variable [LogStore σ] {s s' : System σ} {i : ℕ}

/-- The steps of a run, as far as they can be made. -/
def System.transitions (s : System σ) : List Choice → List (Transition σ)
  | [] => []
  | choice :: choices =>
    match s.next choice with
    | none => []
    | some s' => ⟨s, choice, s'⟩ :: s'.transitions choices

theorem System.transitions_append {before : List Choice} (h : s.run before = some s')
    (after : List Choice) :
    s.transitions (before ++ after) = s.transitions before ++ s'.transitions after := by
  induction before generalizing s with
  | nil =>
      obtain rfl := Option.some.inj h
      rfl
  | cons choice before ih =>
      obtain ⟨s₁, hs, h⟩ := Option.bind_eq_some_iff.mp h
      simp only [List.cons_append, transitions, hs, ih h]

theorem System.transitions_singleton {choice : Choice} (h : s.next choice = some s') :
    s.transitions [choice] = [⟨s, choice, s'⟩] := by
  simp [transitions, h]

/-- Others leave a client as it is. -/
theorem System.of_other {choice : Choice} (h : s.next choice = some s')
    (hother : choice.client? ≠ some i) {p : Client} (hp : s.clients[i]? = some p) :
    s'.clients[i]? = some p ∧ ∃ new, s'.trace = s.trace ++ new := by
  cases choice with
  | begin =>
      obtain rfl := Option.some.inj h
      refine ⟨?_, _, rfl⟩
      show (s.clients ++ _)[i]? = some p
      rw [List.getElem?_append_left (List.getElem?_eq_some_iff.mp hp).1]
      exact hp
  | request k r =>
      obtain ⟨q, -, -, rfl⟩ := of_request h
      exact ⟨(List.getElem?_set_ne fun hk => hother (congrArg some hk)).trans hp, _, rfl⟩
  | advance k =>
      obtain ⟨q, q', c', -, -, rfl⟩ := of_advance h
      exact ⟨(List.getElem?_set_ne fun hk => hother (congrArg some hk)).trans hp, _, rfl⟩
  | flush event =>
      obtain ⟨j, j', -, -, rfl⟩ := of_flush h
      exact ⟨hp, _, rfl⟩

end stored

/-! ### How far an operation has come -/

/-- A commit fails because another one was faster, or because the log failed. -/
def StopsCommit (f : Fault) : Prop := f = .interfered ∨ f = .logFailure

namespace Client

variable (t : Transaction) (p : Client)

/-- A read of an open transaction, which never fails. -/
def Gets : Prop :=
  match p.activity with
  | .reading _ _ => True
  | .answered (.ok _) => True
  | _ => False

/-- A write of an open transaction, which is as it was until the write succeeds. -/
def Stages : Prop :=
  match p.activity with
  | .writing _ _ _ => p.transaction = t
  | .answered (.ok _) => True
  | .answered (.error f) => f = .logFailure ∧ p.transaction = t
  | _ => False

/-- The commit of a transaction, which is finished at once. -/
def Finishes : Prop :=
  p.transaction = { t with finished := true } ∧
    match p.activity with
    | .committing (.releasing _ _ (.error f)) => StopsCommit f
    | .committing (.done (.error f)) => StopsCommit f
    | .committing _ => True
    | .answered (.ok _) => True
    | .answered (.error f) => StopsCommit f
    | _ => False

/-- The rollback of a transaction, which is finished at once and has nothing staged any more. -/
def Discards : Prop :=
  p.transaction = { t with finished := true, writes := ∅, cache := ∅ } ∧
    match p.activity with
    | .discarding _ => True
    | .answered (.ok _) => True
    | .answered (.error f) => f = .logFailure
    | _ => False

/-- A client that serves a request of an open transaction, or has answered it. -/
def ServesOpen : Request → Prop
  | .get _ => p.Gets
  | .set _ _ => p.Stages t
  | .del _ => p.Stages t
  | .commit => p.Finishes t
  | .rollback => p.Discards t

/-- A client that serves a request, or has answered it.  A finished transaction is told so. -/
def Serves (r : Request) : Prop :=
  if t.finished = true then p = ⟨t, .answered (.error .finished)⟩ else p.ServesOpen t r

/-- How many versions an operation can have minted. -/
def mintsAtMost : ℕ :=
  match p.activity with
  | .committing (.locking _ _) => 0
  | .committing (.contending _ _ _) => 0
  | _ => 1

/-- Whether an operation has succeeded, as far as the client knows. -/
def HasSucceeded : Prop := p.Succeeded ∨ ∃ value, p.activity = .answered (.ok value)

variable {p}

theorem serves_request (r : Request) : (p.request r).Serves p.transaction r := by
  unfold Serves request Transaction.request
  split
  · rfl
  · cases r with
    | get key =>
        simp only
        split <;> trivial
    | set key value => exact rfl
    | del key => exact rfl
    | commit =>
        refine ⟨rfl, ?_⟩
        cases hw : p.transaction.writes.isEmpty <;> simp [Commit.start, hw]
    | rollback =>
        refine ⟨rfl, ?_⟩
        cases hw : p.transaction.writes.isEmpty <;> simp

end Client

section moves
variable {c c' : Coordinator σ} {t t₀ : Transaction} {a : Activity} {new : List Event} {p' : Client}
  (h : Move c t a new p' c') (hbusy : ∀ answer, a ≠ .answered answer)
include h

section busy
include hbusy

theorem Move.gets (hp : (⟨t, a⟩ : Client).Gets) : p'.Gets := by
  cases h with
  | tell => trivial
  | log hs =>
      next purpose save save' => cases purpose <;> exact hp.elim
  | _ => first | trivial | exact hp.elim | exact absurd rfl (hbusy _)

theorem Move.stages (hp : (⟨t, a⟩ : Client).Stages t₀) : p'.Stages t₀ := by
  cases h with
  | log hs =>
      next purpose save save' =>
      cases purpose with
      | staging key value => exact hp
      | _ => exact hp.elim
  | stage => trivial
  | unstage => exact ⟨rfl, hp⟩
  | _ => first | exact hp.elim | exact absurd rfl (hbusy _)

theorem Move.discards (hp : (⟨t, a⟩ : Client).Discards t₀) : p'.Discards t₀ := by
  obtain ⟨ht, ha⟩ := hp
  cases h with
  | log hs =>
      next purpose save save' =>
      cases purpose with
      | discarding => exact ⟨ht, trivial⟩
      | _ => exact ha.elim
  | discarded =>
      next persisted =>
      refine ⟨ht, ?_⟩
      cases persisted with
      | true => trivial
      | false => rfl
  | _ => first | exact ha.elim | exact absurd rfl (hbusy _)

theorem Move.finishes (hp : (⟨t, a⟩ : Client).Finishes t₀) : p'.Finishes t₀ := by
  obtain ⟨ht, ha⟩ := hp
  cases h with
  | log hs =>
      next purpose save save' =>
      cases purpose with
      | sealing held version => exact ⟨ht, trivial⟩
      | _ => exact ha.elim
  | lose ho => exact ⟨ht, .inl rfl⟩
  | conflict hx => exact ⟨ht, .inl rfl⟩
  | abort => exact ⟨ht, .inr rfl⟩
  | free =>
      next held todo lock result => cases result <;> exact ⟨ht, ha⟩
  | leave =>
      next held result => cases result <;> exact ⟨ht, ha⟩
  | finish =>
      next result => cases result <;> exact ⟨ht, ha⟩
  | _ => first | exact ⟨ht, trivial⟩ | exact ha.elim | exact absurd rfl (hbusy _)

theorem Move.servesOpen {r : Request} (hp : (⟨t, a⟩ : Client).ServesOpen t₀ r) :
    p'.ServesOpen t₀ r := by
  cases r with
  | get key => exact h.gets hbusy hp
  | set key value => exact h.stages hbusy hp
  | del key => exact h.stages hbusy hp
  | commit => exact h.finishes hbusy hp
  | rollback => exact h.discards hbusy hp

end busy

theorem Move.quiet (hp : (⟨t, a⟩ : Client).Stages t₀ ∨ (⟨t, a⟩ : Client).Discards t₀)
    (hbusy : ∀ answer, a ≠ .answered answer) :
    c'.shards = c.shards ∧ c'.locks = c.locks ∧ c'.lastVersion = c.lastVersion := by
  cases h with
  | log hs =>
      obtain ⟨_, rfl⟩ := eq_of_logStep hs
      exact ⟨rfl, rfl, rfl⟩
  | stage => exact ⟨rfl, rfl, rfl⟩
  | unstage => exact ⟨rfl, rfl, rfl⟩
  | discarded => exact ⟨rfl, rfl, rfl⟩
  | _ => first | exact absurd rfl (hbusy _) | exact (hp.elim id And.right).elim

theorem Move.shards_or_succeeded : c'.shards = c.shards ∨ p'.Succeeded := by
  cases h with
  | apply => exact .inr trivial
  | log hs =>
      obtain ⟨_, rfl⟩ := eq_of_logStep hs
      exact .inl rfl
  | _ => exact .inl rfl

/-- An operation that has succeeded goes on to answer so. -/
theorem Move.hasSucceeded (hbusy : ∀ answer, a ≠ .answered answer)
    (hp : (⟨t, a⟩ : Client).HasSucceeded) : p'.HasSucceeded := by
  rcases hp with hp | ⟨value, ha⟩
  · cases h with
    | log hs =>
        next purpose save save' => cases purpose <;> exact hp.elim
    | free =>
        next held todo lock result => cases result <;> exact .inl hp
    | leave =>
        next held result => cases result <;> exact .inl hp
    | finish =>
        next result =>
        cases result with
        | ok u => exact .inr ⟨none, rfl⟩
        | error f => exact hp.elim
    | _ => exact hp.elim
  · exact absurd ha (hbusy _)

theorem Move.minted_le (hbusy : ∀ answer, a ≠ .answered answer) :
    c'.lastVersion - c.lastVersion + (⟨t, a⟩ : Client).mintsAtMost ≤ p'.mintsAtMost := by
  cases h with
  | mint =>
      show c.lastVersion + 1 - c.lastVersion + 0 ≤ 1
      omega
  | log hs =>
      next purpose save save' =>
      obtain ⟨_, rfl⟩ := eq_of_logStep hs
      cases purpose <;> simp [Client.mintsAtMost, Purpose.activity]
  | _ => first | exact absurd rfl (hbusy _) | simp [Client.mintsAtMost]

/-- A commit that answers that it failed notes so. -/
theorem Move.ended_of_finishes (hbusy : ∀ answer, a ≠ .answered answer)
    (hp : (⟨t, a⟩ : Client).Finishes t₀) {f : Fault} (hf : p'.activity = .answered (.error f)) :
    .ended t.id t.writes (.error f) ∈ new := by
  obtain ⟨-, ha⟩ := hp
  cases h with
  | finish =>
      next result =>
      cases result with
      | ok u => simp [Except.map] at hf
      | error g =>
          obtain rfl : g = f := by simpa [Except.map] using hf
          exact List.mem_singleton.mpr rfl
  | log hs =>
      next purpose save save' => cases purpose <;> simp [Purpose.activity] at hf
  | _ => first | exact absurd rfl (hbusy _) | exact ha.elim | simp at hf

end moves

/-! ### Operations of a run -/

/-- A client serves a request of a transaction, or has answered it: how far it has come, and what its
steps from the request on did. -/
structure Serving (t₀ : Transaction) (r : Request) (steps : List (Transition σ)) (es : List Event)
    (p : Client) : Prop where
  serves : p.Serves t₀ r
  id : p.id = t₀.id
  still : t₀.finished = true → ∀ x ∈ steps, x.Still
  quiet : (∀ key, r ≠ .get key) → r ≠ .commit → ∀ x ∈ steps, x.Quiet
  shards : (∀ x ∈ steps, x.KeepsShards) ∨ p.HasSucceeded
  spares : ∀ x ∈ steps, x.SparesOthers t₀.id
  counts : ∀ x ∈ steps, x.Counts
  versions : mintedBy steps ≤ p.mintsAtMost
  gaveUp : t₀.finished = false →
    r = .rollback ∨ r = .commit ∧ (∃ f, p.activity = .answered (.error f)) → GaveUp es t₀.id

variable {t₀ : Transaction} {r : Request} {steps : List (Transition σ)} {es new : List Event}
  {p p' : Client} {x : Transition σ}

/-- A client that was just asked. -/
theorem Serving.asked (hi : p.isIdle = true) (hc : x.after.coordinator = x.before.coordinator)
    (htrace : x.after.trace = x.before.trace ++ p.requestEvents r) :
    Serving p.transaction r [x] x.after.trace (p.request r) where
  serves := Client.serves_request r
  id := (Move.of_request x.before.coordinator hi r).id_eq
  still hfin x' hx := by
    obtain rfl := List.mem_singleton.mp hx
    refine ⟨hc, htrace.trans ?_⟩
    simp [Client.requestEvents, hfin]
  quiet _ _ x' hx := by
    obtain rfl := List.mem_singleton.mp hx
    exact ⟨congrArg _ hc, congrArg _ hc, congrArg _ hc⟩
  shards := .inl fun x' hx => List.mem_singleton.mp hx ▸ congrArg _ hc
  spares x' hx lock _ _ := by
    rw [List.mem_singleton.mp hx, hc]
  counts x' hx := List.mem_singleton.mp hx ▸ Nat.le_of_eq (congrArg _ hc.symm)
  versions := by simp [mintedBy, Transition.minted, hc]
  gaveUp hopen hr := by
    rcases hr with rfl | ⟨rfl, f, hf⟩
    · refine .inl (htrace ▸ List.mem_append_right _ ?_)
      simp [Client.requestEvents, Client.id, hopen]
    · simp [Client.request, Transaction.request, hopen] at hf

theorem Client.Serves.of_busy (h : p.Serves t₀ r) (hbusy : ∀ answer, p.activity ≠ .answered answer) :
    t₀.finished = false ∧ p.ServesOpen t₀ r := by
  unfold Client.Serves at h
  split at h
  · exact absurd (congrArg Client.activity h) (hbusy _)
  · next hopen => exact ⟨Bool.eq_false_iff.mpr hopen, h⟩

theorem GaveUp.append {id : ℕ} (h : GaveUp es id) (new : List Event) : GaveUp (es ++ new) id := by
  rcases h with hr | ⟨w, f, he⟩
  · exact .inl (List.mem_append_left _ hr)
  · exact .inr ⟨w, f, List.mem_append_left _ he⟩

theorem Move.sparesOthers {t : Transaction} {a : Activity}
    (h : Move x.before.coordinator t a new p' x.after.coordinator) : x.SparesOthers t.id := by
  intro lock hlocked hother
  rcases h.owner_cases lock with hsame | ⟨hfree, -⟩ | ⟨hown, -⟩
  · exact hsame
  · exact absurd hfree hlocked
  · exact absurd hown hother

/-- A step of the client. -/
theorem Serving.moved {t : Transaction} {a : Activity} (h : Serving t₀ r steps es ⟨t, a⟩)
    (hm : Move x.before.coordinator t a new p' x.after.coordinator)
    (hbusy : ∀ answer, a ≠ .answered answer) :
    Serving t₀ r (steps ++ [x]) (es ++ new) p' := by
  obtain ⟨hopen, hserves⟩ := h.serves.of_busy hbusy
  have hsteps {P : Transition σ → Prop} (hold : ∀ y ∈ steps, P y) (hx : P x) :
      ∀ y ∈ steps ++ [x], P y := by
    intro y hy
    rcases List.mem_append.mp hy with hy | hy
    · exact hold y hy
    · exact List.mem_singleton.mp hy ▸ hx
  refine ⟨?_, hm.id_eq.trans h.id, fun hfin => ?_, fun hget hcommit => ?_, ?_, ?_,
    hsteps h.counts hm.lastVersion_le, ?_, fun _ hr => ?_⟩
  · rw [Client.Serves, hopen]
    exact hm.servesOpen hbusy hserves
  · simp [hopen] at hfin
  · have hlogs : (⟨t, a⟩ : Client).Stages t₀ ∨ (⟨t, a⟩ : Client).Discards t₀ := by
      cases r with
      | get key => exact absurd rfl (hget key)
      | commit => exact absurd rfl hcommit
      | set key value => exact .inl hserves
      | del key => exact .inl hserves
      | rollback => exact .inr hserves
    exact hsteps (h.quiet hget hcommit) (hm.quiet hlogs hbusy)
  · rcases h.shards with hkeep | hok
    · rcases hm.shards_or_succeeded with hx | hok
      · exact .inl (hsteps hkeep hx)
      · exact .inr (.inl hok)
    · exact .inr (hm.hasSucceeded hbusy hok)
  · have hid : t.id = t₀.id := h.id
    exact hsteps h.spares (hid ▸ hm.sparesOthers)
  · calc mintedBy (steps ++ [x])
        = mintedBy steps + x.minted := mintedBy_append steps [x]
      _ ≤ (⟨t, a⟩ : Client).mintsAtMost + x.minted := Nat.add_le_add_right h.versions _
      _ ≤ p'.mintsAtMost := by
          rw [Nat.add_comm]
          exact hm.minted_le hbusy
  · rcases hr with rfl | ⟨rfl, f, hf⟩
    · exact (h.gaveUp hopen (.inl rfl)).append new
    · have hid : t.id = t₀.id := h.id
      exact .inr ⟨t.writes, f, List.mem_append_right _ (hid ▸ hm.ended_of_finishes hbusy hserves hf)⟩

theorem Serving.append (h : Serving t₀ r steps es p) (new : List Event) :
    Serving t₀ r steps (es ++ new) p :=
  ⟨h.serves, h.id, h.still, h.quiet, h.shards, h.spares, h.counts, h.versions,
    fun hopen hr => (h.gaveUp hopen hr).append new⟩

section stored
variable [LogStore σ] {s₀ s s' : System σ} {i : ℕ}

theorem System.stepsOf_append {before : List Choice} {choice : Choice}
    (h : s₀.run before = some s) (hs : s.next choice = some s') :
    stepsOf i (s₀.transitions (before ++ [choice])) =
      stepsOf i (s₀.transitions before) ++
        if choice.client? = some i then [⟨s, choice, s'⟩] else [] := by
  rw [transitions_append h, transitions_singleton hs, stepsOf, List.filter_append]
  simp [stepsOf, List.filter_cons]

/-- From the request of a client on, as long as it makes no other request, it serves this one or has
answered it. -/
theorem System.serving {choices : List Choice} (hp : s₀.clients[i]? = some p)
    (hrun : s₀.run (.request i r :: choices) = some s) (honly : ∀ r', .request i r' ∉ choices) :
    ∃ p', s.clients[i]? = some p' ∧ Serving p.transaction r
      (stepsOf i (s₀.transitions (.request i r :: choices))) s.trace p' := by
  induction choices using List.reverseRecOn generalizing s with
  | nil =>
      obtain ⟨s₁, hs, hnil⟩ := Option.bind_eq_some_iff.mp hrun
      obtain rfl := Option.some.inj hnil
      obtain ⟨q, hq, hi, heq⟩ := of_request hs
      obtain rfl := Option.some.inj (hq.symm.trans hp)
      have hasked := Serving.asked (r := r) (x := ⟨s₀, .request i r, s₁⟩) hi
        (by rw [heq]) (by rw [heq])
      refine ⟨q.request r, ?_, ?_⟩
      · rw [heq]
        exact List.getElem?_set_self (List.getElem?_eq_some_iff.mp hq).1
      · rw [transitions_singleton hs]
        simpa [stepsOf, Choice.client?] using hasked
  | append_singleton choices choice ih =>
      rw [← List.cons_append] at hrun
      obtain ⟨s₁, hrun₁, hs⟩ := exists_of_run_concat hrun
      obtain ⟨p₁, hp₁, hserving⟩ := ih hrun₁ fun r' hr' => honly r' (List.mem_append_left _ hr')
      rw [← List.cons_append, stepsOf_append hrun₁ hs]
      by_cases hmine : choice.client? = some i
      · rw [if_pos hmine]
        cases choice with
        | request k r' =>
            obtain rfl := Option.some.inj hmine
            exact absurd (List.mem_append_right _ (List.mem_singleton.mpr rfl)) (honly r')
        | advance k =>
            obtain rfl := Option.some.inj hmine
            obtain ⟨q, p₂, c₂, hq, ha, rfl⟩ := of_advance hs
            obtain rfl := Option.some.inj (hq.symm.trans hp₁)
            have hbusy : ∀ answer, q.activity ≠ .answered answer := fun answer hanswer => by
              simp [Client.advance, hanswer, Activity.step] at ha
            refine ⟨p₂, List.getElem?_set_self (List.getElem?_eq_some_iff.mp hq).1, ?_⟩
            exact hserving.moved (.of_advance ha) hbusy
        | _ => simp [Choice.client?] at hmine
      · rw [if_neg hmine, List.append_nil]
        obtain ⟨hp₂, new, htrace⟩ := of_other hs hmine hp₁
        exact ⟨p₁, hp₂, htrace ▸ hserving.append new⟩

end stored

end Run
end SnapshotStore

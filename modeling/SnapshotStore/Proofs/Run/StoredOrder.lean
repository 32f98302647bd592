import SnapshotStore.Proofs.Replay.Order
import SnapshotStore.Proofs.Run.Recovery

/-! # The order of stored records

Batches are not always stored in the order of the numbers of their records: a full batch waits until
its writer hands it over, and meanwhile a tick may store the next batch.  But tied records are stored
in the order of their numbers (`Turns`):

* a transaction logs a record only when it knows the outcome of the one before;
* a commit logs its record while it has the locks of its keys, and keeps them until it knows the
  outcome.

Hence a replay of the log in stored order gives what a replay in the order of the numbers gives
(`replay_stored_order`). -/

namespace SnapshotStore

/-! ### Batches that are stored -/

namespace Journal

variable {σ : Type} {base : List Record} {j : Journal σ} {noted : List (ℕ × Record)}
  {stored : List Batch}

theorem Logged.of_lsn_lt (h : Logged base j noted stored) {R : ℕ × Record → ℕ × Record → Prop}
    (hR : noted.Pairwise R) {e f : ℕ × Record} (he : e ∈ noted) (hf : f ∈ noted)
    (hlt : e.2.lsn < f.2.lsn) : R e f := by
  have hforward : noted.Pairwise fun e f => e.2.lsn < f.2.lsn → R e f :=
    hR.imp fun {e f} hef (_ : e.2.lsn < f.2.lsn) => hef
  have hbackward : noted.Pairwise (flip fun e f => e.2.lsn < f.2.lsn → R e f) :=
    (List.pairwise_map.mp h.ordered).imp fun hef hfe => absurd hfe (Nat.lt_asymm hef)
  exact hforward.forall_of_forall_of_flip (fun e _ hlt => absurd hlt (Nat.lt_irrefl _)) hbackward
    he hf hlt

theorem Logged.mem_of_stored (h : Logged base j noted stored) {b : Batch} (hb : b ∈ stored)
    {r : Record} (hr : r ∈ b.records) : (b.number, r) ∈ noted :=
  mem_recordsIn.mp (h.kept b hb ▸ hr)

/-- If the first of two tied records has its outcome when the second one is taken, then they are stored
in this order. -/
theorem Logged.pairwise_storing [LogStore σ] (h : Logged base j noted stored)
    {T : Record → Record → Prop} (hT : ∀ {r q}, T r q → T q r)
    (htaken : noted.Pairwise fun e f => T e.2 f.2 → j.outcome? e.1 ≠ none)
    (hstored : (stored.flatMap (·.records)).Pairwise fun r q => T r q → r.lsn < q.lsn) :
    ((stored ++ storing j).flatMap (·.records)).Pairwise fun r q => T r q → r.lsn < q.lsn := by
  rcases storing_cases j with hnone | ⟨b, htake, hb⟩
  · rwa [hnone, List.append_nil]
  · have hflight : b ∈ flight j := by simp [flight, htake]
    rw [hb, List.flatMap_append, List.flatMap_singleton]
    refine List.pairwise_append.mpr ⟨hstored, ?_, fun r hr q hq ht => ?_⟩
    · have hordered := (List.pairwise_map.mp h.ordered).sublist
        (List.filter_sublist (p := fun e => e.1 = b.number))
      rw [h.records b hflight, recordsIn]
      exact List.pairwise_map.mpr (hordered.imp fun {e f} hlt (_ : T e.2 f.2) => hlt)
    · obtain ⟨d, hd, hr⟩ := List.mem_flatMap.mp hr
      have hr := h.mem_of_stored hd hr
      have hq := mem_recordsIn.mp (h.records b hflight ▸ hq)
      have hunknown := h.unknown b hflight
      have hknown := h.persisted.mpr (List.mem_map_of_mem hd)
      by_contra hle
      rcases Nat.lt_or_eq_of_le (Nat.le_of_not_lt hle) with hlt | heq
      · exact h.of_lsn_lt htaken hq hr hlt (hT ht) hunknown
      · have hsame := List.inj_on_of_nodup_map
          (List.Pairwise.imp (fun hlt => Nat.ne_of_lt hlt) h.ordered) hq hr heq
        rw [← (Prod.mk.inj hsame).1, hunknown] at hknown
        simp at hknown

end Journal

namespace Run

open Journal (LogStore Logged Grows Ready Noted byLsn durable)
open Replay (Tied InTurn)

variable {σ : Type} {c₀ : Coordinator σ} {base : List Record} {j j' : Journal σ}

/-! ### The invariant -/

/-- Whether the outcome of all records is known. -/
def Known (j : Journal σ) (L : List (ℕ × Record)) : Prop := ∀ e ∈ L, j.outcome? e.1 ≠ none

theorem ne_none_of_grows (hj : Grows j j') {n : ℕ} (h : j.outcome? n ≠ none) :
    j'.outcome? n ≠ none := by
  obtain ⟨persisted, ho⟩ := Option.ne_none_iff_exists'.mp h
  simp [hj ho]

theorem Known.grow {L : List (ℕ × Record)} (h : Known j L) (hj : Grows j j') : Known j' L :=
  fun e he => ne_none_of_grows hj (h e he)

theorem Known.of_noted {L : List (ℕ × Record)} {w : Writes} {entry : RecordKind × List String}
    {n : ℕ} {persisted : Bool} (h : Noted j L w entry n) (ho : j.outcome? n = some persisted) :
    Known j L := by
  obtain ⟨past, r, rfl, -, hpast⟩ := h
  intro e he
  rcases List.mem_append.mp he with he | he
  · exact hpast.known e he
  · rw [List.mem_singleton.mp he]
    simp [ho]

/-- Whether the order of two records matters in a run, given the writes of its commits. -/
def TiedIn (es : List Event) : Record → Record → Prop := Tied (writesIn (sealed es))

/-- When a record is taken, the outcome of every record that it is tied to is known, and so tied records
are stored in the order of their numbers.  A commit whose record has no outcome yet still has its
locks. -/
structure Turns (j : Journal σ) (s : System σ) : Prop where
  taken : (noted s.trace).Pairwise fun e f => TiedIn s.trace e.2 f.2 → j.outcome? e.1 ≠ none
  held : ∀ x ∈ sealed s.trace, Known j (recordsOf s.trace x.id) ∨
    ∃ p ∈ s.clients, p.pending? = some x.version ∧ p.attempt x.version = x
  order : ((stored s.trace).flatMap (·.records)).Pairwise fun r q =>
    TiedIn s.trace r q → r.lsn < q.lsn

theorem writesIn_append {xs : List Attempt} {id : ℕ} (h : id ∈ xs.map (·.id))
    (ys : List Attempt) : writesIn (xs ++ ys) id = writesIn xs id := by
  obtain ⟨x, hx, rfl⟩ := List.mem_map.mp h
  obtain ⟨y, hy⟩ := Option.isSome_iff_exists.mp
    (List.find?_isSome.mpr ⟨x, hx, by simp⟩ : (xs.find? (·.id = x.id)).isSome)
  rw [writesIn, List.find?_append, hy, writesIn, hy]
  rfl

theorem Logging.mem_ids {s : System σ} (h : Logging base j s) {e : ℕ × Record}
    (he : e ∈ noted s.trace) (hk : e.2.kind = .commit) :
    e.2.tx ∈ (sealed s.trace).map (·.id) := by
  rw [← h.commits]
  exact List.mem_map.mpr ⟨e, List.mem_filter.mpr ⟨he, by simpa using hk⟩, rfl⟩

/-! ### Steps of a client -/

section moves
variable {c c' : Coordinator σ} {t : Transaction} {a : Activity} {new : List Event} {p' : Client}

theorem Move.noted_cases (h : Move c t a new p' c') (hj : c.journal = some j) :
    noted new = [] ∨ ∃ e, noted new = [e] := by
  rcases h.journal hj with ⟨_, save, _, _, -, hs, -⟩ | ⟨-, hnone, -⟩
  · generalize noted new = taken at hs
    cases hs with
    | taken => exact .inr ⟨_, rfl⟩
    | _ => exact .inl rfl
  · exact .inl hnone

/-- A pending commit stays so with a step, unless a key that it checks is not clear or it learns the
outcome of its record. -/
theorem Move.of_was_pending (h : Move c t a new p' c') {version : ℕ}
    (hp : (⟨t, a⟩ : Client).pending? = some version) :
    p'.pending? = some version ∧ p'.attempt version = ⟨t.id, version, t.writes⟩ ∨
      (∃ held todo, a = .committing (.checking held version todo)) ∨
      ∃ held persisted, a = .committing (.logging held version (.done persisted)) := by
  cases h with
  | log h =>
      next purpose save save' =>
      cases purpose with
      | sealing held v => exact .inl ⟨hp, rfl⟩
      | _ => simp [Client.pending?, Purpose.activity] at hp
  | conflict =>
      obtain rfl := Option.some.inj hp
      exact .inr (.inl ⟨_, _, rfl⟩)
  | clear h => exact .inl ⟨hp, rfl⟩
  | pledge => exact .inl ⟨hp, rfl⟩
  | apply =>
      obtain rfl := Option.some.inj hp
      exact .inr (.inr ⟨_, _, rfl⟩)
  | abort =>
      obtain rfl := Option.some.inj hp
      exact .inr (.inr ⟨_, _, rfl⟩)
  | _ => simp [Client.pending?] at hp

theorem Move.pending_of_noted (h : Move c t a new p' c') (hnew : noted new ≠ []) {held : List ℕ}
    {version : ℕ} {save : Save} (ha : a = .committing (.logging held version save)) :
    p'.pending? = some version ∧ p'.attempt version = ⟨t.id, version, t.writes⟩ := by
  cases h with
  | log h =>
      next purpose save save' =>
      cases purpose with
      | sealing held v =>
          obtain ⟨-, rfl, -⟩ := by simpa [Purpose.activity] using ha
          exact ⟨rfl, rfl⟩
      | _ => simp [Purpose.activity] at ha
  | _ => exact absurd rfl hnew

end moves

theorem Logging.tiedIn_append {s : System σ} (h : Logging base j s) (new : List Event)
    {m n : ℕ} {r q : Record} (hr : (m, r) ∈ noted s.trace) (hq : (n, q) ∈ noted s.trace)
    (ht : TiedIn (s.trace ++ new) r q) : TiedIn s.trace r q := by
  rcases ht with htx | ⟨hkr, hkq, key, hr', hq'⟩
  · exact .inl htx
  · rw [sealed_append, writesIn_append (h.mem_ids hr hkr)] at hr'
    rw [sealed_append, writesIn_append (h.mem_ids hq hkq)] at hq'
    exact .inr ⟨hkr, hkq, key, hr', hq'⟩

section moved
variable {c c' : Coordinator σ} {A B : List Client} {t : Transaction} {a : Activity}
  {p' : Client} {es new : List Event} (hl : Locking ⟨c, A ++ ⟨t, a⟩ :: B, es⟩)
  (hlog : Logging base j ⟨c, A ++ ⟨t, a⟩ :: B, es⟩) (h : Turns j ⟨c, A ++ ⟨t, a⟩ :: B, es⟩)
  (hm : Move c t a new p' c') (hgrow : Grows j j')

include hl hlog h hm in
/-- The records that a step takes are tied only to records with an outcome. -/
theorem Turns.known_of_tied {e f : ℕ × Record} (he : e ∈ noted es) (hf : f ∈ noted new)
    (ht : TiedIn (es ++ new) e.2 f.2) : j.outcome? e.1 ≠ none := by
  have hp : (⟨t, a⟩ : Client) ∈ A ++ ⟨t, a⟩ :: B := by simp
  obtain ⟨hown, hseals⟩ := hm.seals hlog.journal (hlog.tracks _ hp)
  obtain ⟨hft, w, hready⟩ := hown f hf
  rcases ht with htx | ⟨hke, hkf, key, hkey, hkey'⟩
  · exact hready.known e (mem_recordsOf.mpr ⟨he, htx.trans hft⟩)
  · rcases hseals with ⟨-, hnot⟩ | ⟨held, version, save, _, rfl, -, -, hs, -⟩
    · exact absurd hkf (hnot f hf)
    · obtain ⟨x, hx, hid⟩ := List.mem_map.mp (hlog.mem_ids he hke)
      have hmem {y : Attempt} (hy : y ∈ sealed es ∨ y = ⟨t.id, version, t.writes⟩) :
          writesIn (sealed (es ++ new)) y.id = y.writes := by
        refine writesIn_eq (hlog.once_moved hm) ?_
        rw [sealed_append, hs]
        simpa using hy
      have hkx : key ∈ x.writes.keys := by
        rw [← hmem (.inl hx), hid]
        exact hkey
      have hkt : key ∈ t.writes.keys := by
        have hself : writesIn (sealed (es ++ new)) t.id = t.writes :=
          hmem (y := ⟨t.id, version, t.writes⟩) (.inr rfl)
        rwa [hft, hself] at hkey'
      rcases h.held x hx with hknown | ⟨q, hq, hqv, hqx⟩
      · exact hknown e (mem_recordsOf.mpr ⟨he, hid.symm⟩)
      · have hkq : key ∈ q.writes.keys := by
          rw [← hqx] at hkx
          exact hkx
        have hsame := hl.exclusive hq hp (Client.owns_of_pending hqv) trivial hkq hkt
        refine absurd ?_ (hlog.id_ne_of_ready hready hx)
        rw [← hqx, hsame]
        rfl

include hl hlog h hm hgrow in
theorem Turns.taken_moved : (noted (es ++ new)).Pairwise fun e f =>
    TiedIn (es ++ new) e.2 f.2 → j'.outcome? e.1 ≠ none := by
  rw [noted_append]
  refine List.pairwise_append.mpr ⟨h.taken.imp_of_mem fun {e f} he hf hk ht => ?_, ?_,
    fun e he f hf ht => ne_none_of_grows hgrow (h.known_of_tied hl hlog hm he hf ht)⟩
  · exact ne_none_of_grows hgrow (hk (hlog.tiedIn_append new he hf ht))
  · rcases hm.noted_cases hlog.journal with hnone | ⟨e, hone⟩
    · simp [hnone]
    · simp [hone]

include hlog h hm hgrow in
theorem Turns.held_moved {x : Attempt} (hx : x ∈ sealed (es ++ new)) :
    Known j' (recordsOf (es ++ new) x.id) ∨
      ∃ p ∈ A ++ p' :: B, p.pending? = some x.version ∧ p.attempt x.version = x := by
  have hp : (⟨t, a⟩ : Client) ∈ A ++ ⟨t, a⟩ :: B := by simp
  have hp' : p' ∈ A ++ p' :: B := by simp
  have htrack := hlog.tracks _ hp
  rw [sealed_append] at hx
  rcases List.mem_append.mp hx with hx | hx
  · rw [hlog.recordsOf_sealed hm hx]
    rcases h.held x hx with hknown | ⟨q, hq, hqv, hqx⟩
    · exact .inl (hknown.grow hgrow)
    · rcases mem_moved hq with rfl | hq
      · have hid : x.id = t.id := by
          rw [← hqx]
          rfl
        have hready {w : Writes} (hw : Ready j (recordsOf es t.id) w) : False :=
          hlog.id_ne_of_ready hw hx hid
        have hnoted {n : ℕ} {persisted : Bool} {entry : RecordKind × List String}
            (hn : Noted j (recordsOf es t.id) t.writes entry n)
            (ho : j.outcome? n = some persisted) : Known j' (recordsOf es x.id) := by
          rw [hid]
          exact (Known.of_noted hn ho).grow hgrow
        rcases hm.of_was_pending hqv with ⟨hv, hx'⟩ | ⟨held, todo, rfl⟩ | ⟨held, persisted, rfl⟩
        · exact .inr ⟨p', hp', hv, hx'.trans hqx⟩
        · exact (hready htrack).elim
        · cases persisted with
          | true =>
              obtain ⟨n, hn, ho⟩ := htrack
              exact .inl (hnoted hn ho)
          | false =>
              rcases htrack with hw | ⟨n, hn, ho⟩
              · exact (hready hw).elim
              · exact .inl (hnoted hn ho)
      · exact .inr ⟨q, mem_of_others hq, hqv, hqx⟩
  · rcases (hm.seals hlog.journal htrack).2 with ⟨hs, -⟩ | ⟨held, version, save, e, ha, hn, -, hs, -⟩
    · simp [hs] at hx
    · rw [hs] at hx
      obtain rfl := List.mem_singleton.mp hx
      exact .inr ⟨p', hp', hm.pending_of_noted (by simp [hn]) ha⟩

include hlog h in
theorem Turns.order_append (new : List Event) :
    ((stored es).flatMap (·.records)).Pairwise fun r q => TiedIn (es ++ new) r q → r.lsn < q.lsn := by
  refine h.order.imp_of_mem fun {r q} hr hq hlt ht => hlt ?_
  obtain ⟨b, hb, hr⟩ := List.mem_flatMap.mp hr
  obtain ⟨d, hd, hq⟩ := List.mem_flatMap.mp hq
  exact hlog.tiedIn_append new (hlog.logged.mem_of_stored hb hr) (hlog.logged.mem_of_stored hd hq) ht

include hl hlog h hm hgrow in
theorem Turns.moved : Turns j' ⟨c', A ++ p' :: B, es ++ new⟩ := by
  refine ⟨h.taken_moved hl hlog hm hgrow, fun x hx => h.held_moved hlog hm hgrow hx, ?_⟩
  have hnone : stored new = [] := by
    rcases hm.journal hlog.journal with ⟨_, _, _, _, -, -, -, hnone, -⟩ | ⟨-, -, hnone, -⟩ <;>
      exact hnone
  rw [stored_append, hnone, List.append_nil]
  exact h.order_append hlog new

end moved

/-! ### Runs -/

/-- A step that takes no record. -/
theorem Turns.extend {s s' : System σ} {new : List Event} (h : Turns j s) (hgrow : Grows j j')
    (htrace : s'.trace = s.trace ++ new) (hnoted : noted new = []) (hsealed : sealed new = [])
    (hclients : ∀ p ∈ s.clients, p ∈ s'.clients)
    (horder : ((stored s'.trace).flatMap (·.records)).Pairwise fun r q =>
      TiedIn s.trace r q → r.lsn < q.lsn) : Turns j' s' := by
  have hn : noted s'.trace = noted s.trace := by
    rw [htrace, noted_append, hnoted, List.append_nil]
  have hs : sealed s'.trace = sealed s.trace := by
    rw [htrace, sealed_append, hsealed, List.append_nil]
  refine ⟨?_, fun x hx => ?_, ?_⟩
  · rw [hn, TiedIn, hs]
    exact h.taken.imp fun hk ht => ne_none_of_grows hgrow (hk ht)
  · rw [hs] at hx
    rw [recordsOf, hn]
    rcases h.held x hx with hknown | ⟨p, hp, hpx⟩
    · exact .inl (hknown.grow hgrow)
    · exact .inr ⟨p, hclients p hp, hpx⟩
  · rw [TiedIn, hs]
    exact horder

section stored
variable [LogStore σ] {s : System σ}

theorem Reachable.turns {j₀ : Journal σ} (hc : Fresh c₀) (hj : c₀.journal = some j₀)
    (hl : Logged base j₀ [] []) (h : Reachable c₀ s) :
    ∃ j, Logging base j s ∧ Turns j s := by
  induction h with
  | start =>
      obtain ⟨j, hlog, -⟩ := Reachable.start.logging hc hj hl
      refine ⟨j, hlog, ?_, ?_, ?_⟩ <;> simp [System.start, noted, sealed, stored]
  | step hr hs ih =>
      obtain ⟨j, hlog, hturns⟩ := ih
      have hstep := Step.of_next hs
      cases hstep with
      | began c ps es =>
          refine ⟨j, hlog.began_step (hr.versioned hc),
            hturns.extend (Grows.refl j) rfl rfl rfl (fun p hp => List.mem_append_left _ hp) ?_⟩
          rw [stored_append]
          exact (List.append_nil (stored es)).symm ▸ hturns.order
      | moved hm =>
          obtain ⟨j', hgrow, hlog'⟩ := hlog.moved hm (hr.locking hc) (hr.versioned hc)
            (hr.committed hc)
          exact ⟨j', hlog', hturns.moved (hr.locking hc) hlog hm hgrow⟩
      | flushed hj hf =>
          next c ps es j₁ j' event =>
          obtain rfl : j₁ = j := Option.some.inj (hj.symm.trans hlog.journal)
          refine ⟨j', hlog.flushed hf, hturns.extend (Grows.flusherStep hf) rfl
            (noted_flushEvents j₁) (sealed_flushEvents j₁) (fun p hp => hp) ?_⟩
          rw [stored_append, stored_flushEvents]
          exact hlog.logged.pairwise_storing Tied.symm hturns.taken hturns.order

/-! ### Logs -/

omit [LogStore σ] in
/-- What a run stored is in turn. -/
theorem Logging.inTurn (h : Logging base j s) (ht : Turns j s) :
    InTurn (writesIn (sealed s.trace)) ((stored s.trace).flatMap (·.records)) := by
  have hperm := h.logged.durable_perm
  have hdistinct : (((stored s.trace).flatMap (·.records)).map (·.lsn)).Nodup :=
    ((hperm.map _).nodup_iff).mpr
      (List.pairwise_map.mpr (h.logged.durable_pairwise.imp fun hlt => Nat.ne_of_lt hlt))
  refine ⟨hdistinct, fun r hr hk => ?_, ht.order⟩
  obtain ⟨x, hx, hid, qs, hqs, hw⟩ := h.exists_of_commit (hperm.mem_iff.mp hr) hk
  refine ⟨qs, ?_, ?_⟩
  · rw [← hqs]
    refine (hperm.filter _).eq_of_pairwise (fun r q hr hq hle hge => ?_) (?_ : List.Pairwise
      (fun r q : Record => r.lsn ≤ q.lsn) _) ((h.logged.durable_pairwise.imp Nat.le_of_lt).sublist
        List.filter_sublist)
    · refine List.inj_on_of_nodup_map hdistinct (List.mem_filter.mp hr).1
        (hperm.mem_iff.mpr (List.mem_filter.mp hq).1) (Nat.le_antisymm hle hge)
    · refine (ht.order.sublist List.filter_sublist).imp_of_mem fun {q q'} hq hq' hlt => ?_
      have hq : q.tx = r.tx := by simpa using (List.mem_filter.mp hq).2
      have hq' : q'.tx = r.tx := by simpa using (List.mem_filter.mp hq').2
      exact Nat.le_of_lt (hlt (.inl (hq.trans hq'.symm)))
  · rw [hw, ← hid, writesIn_eq h.once hx]

/-- A coordinator that starts on a store whose log has some records: a new one on an empty log, or one
that replayed the log. -/
inductive Opens (store : σ) : List Record → Coordinator σ → Prop
  | new {c : Coordinator σ} {batchSize : ℕ} (hc : Fresh c)
      (hj : c.journal = some (Journal.start store batchSize)) : Opens store [] c
  | replayed {c : Coordinator σ} {recovered : Journal.Recovered}
      (hread : LogStore.read store = .ok recovered) (hb : Booted store c) :
      Opens store recovered.records c

/-- The records that the lives of a store have stored, in the order in which they did.  Each life finds
what all before it have stored. -/
inductive StoredLog (σ : Type) [LogStore σ] : List Record → Prop
  | none : StoredLog σ []
  | life {rs : List Record} {store : σ} {c : Coordinator σ} {s : System σ} (h : StoredLog σ rs)
      (ho : Opens store rs c) (hr : Reachable c s) :
      StoredLog σ (rs ++ (stored s.trace).flatMap (·.records))

theorem Opens.logged {store : σ} {rs : List Record} {c : Coordinator σ} (h : Opens store rs c) :
    Fresh c ∧ (∀ r ∈ rs, r.tx ≤ c.lastVersion) ∧
      ∃ j, c.journal = some j ∧ Logged rs j [] [] := by
  cases h with
  | new hc hj => exact ⟨hc, by simp, _, hj, .of_fresh rfl rfl rfl (by simp)⟩
  | replayed hread hb =>
      obtain ⟨recovered, hread', hrestored⟩ := hb.recovered
      obtain rfl := Except.ok.inj (hread.symm.trans hread')
      obtain ⟨j, hj, hl, -⟩ := hrestored.logged
      exact ⟨hrestored.fresh, hrestored.past, j, hj, hl⟩

theorem StoredLog.inTurn {rs : List Record} (h : StoredLog σ rs) : ∃ w, InTurn w rs := by
  induction h with
  | none => exact ⟨fun _ => ∅, Replay.inTurn_nil _⟩
  | life h ho hr ih =>
      next rs store c s =>
      obtain ⟨w, hw⟩ := ih
      obtain ⟨hfresh, hpast, j₀, hj₀, hl⟩ := ho.logged
      obtain ⟨j, hlog, hturns⟩ := hr.turns hfresh hj₀ hl
      have hdurable {q : Record} (hq : q ∈ (stored s.trace).flatMap (·.records)) :
          q ∈ durable j (noted s.trace) := hlog.logged.durable_perm.mem_iff.mp hq
      refine hw.append (hlog.inTurn hturns) (fun r hr' q hq => ?_) fun r hr' q hq => ?_
      · have hlt := hlog.past_lt (hr.versioned hfresh) (hdurable hq)
        have hle := hpast r hr'
        omega
      · obtain ⟨e, he, rfl⟩ := List.mem_map.mp (hdurable hq)
        exact (hlog.logged.above r hr').2 e (List.mem_filter.mp he).1

/-- A replay of a log in the order in which its records were stored gives the values and the open
transactions that a replay in the order of the numbers of its records gives. -/
theorem replay_stored_order {rs : List Record} (h : StoredLog σ rs) {count : ℕ}
    {towers : ℕ → ℕ → Height} {shards : Shards} (hs : Shards.create count towers = .ok shards) :
    (∀ version key, (Replay.fresh.applyAll shards rs).2.2.get version key =
      (Replay.fresh.applyAll shards (byLsn rs)).2.2.get version key) ∧
    ∀ tx, (Replay.fresh.applyAll shards rs).2.1.pending.get? tx =
      (Replay.fresh.applyAll shards (byLsn rs)).2.1.pending.get? tx := by
  obtain ⟨w, hw⟩ := h.inTurn
  exact ⟨hw.get_byLsn hs, hw.pending_byLsn shards⟩

end stored

/-! ### A batch that is overtaken -/

/-- A coordinator with one shard, and a log with batches of two records. -/
def samplePairs : Coordinator Journal.MemoryLog :=
  Coordinator.create sample.shards (some (Journal.start .empty 2)) 1

/-- What is stored if a tick stores a batch of one record while a full batch with two commits waits for
its writer: the numbers of the records are out of order. -/
def sampleOvertaken : List Record :=
  [⟨1, 1, .set, ["k", "v"]⟩, ⟨2, 2, .set, ["m", "w"]⟩, ⟨5, 3, .set, ["k", "x"]⟩, ⟨3, 1, .commit, []⟩,
    ⟨4, 2, .commit, []⟩]

/-- Of three transactions two have committed, and one is open. -/
theorem replay_stored_order_sample :
    ∃ s : System Journal.MemoryLog, Reachable samplePairs s ∧
      (stored s.trace).flatMap (·.records) = sampleOvertaken ∧
      (∀ version key, (Replay.fresh.applyAll sample.shards sampleOvertaken).2.2.get version key =
        (Replay.fresh.applyAll sample.shards (byLsn sampleOvertaken)).2.2.get version key) ∧
      (∀ tx, (Replay.fresh.applyAll sample.shards sampleOvertaken).2.1.pending.get? tx =
        (Replay.fresh.applyAll sample.shards (byLsn sampleOvertaken)).2.1.pending.get? tx) := by
  have hrun : ((System.start samplePairs).run ([.begin, .begin, .begin,
      .request 0 (.set "k" "v"), .advance 0, .request 1 (.set "m" "w"), .advance 1, .advance 1,
      .flush .handedOver, .flush .handedOver, .advance 0, .advance 0, .advance 1, .advance 1] ++
      .request 0 .commit :: List.replicate 6 (.advance 0) ++
      .request 1 .commit :: List.replicate 6 (.advance 1) ++
      [.request 2 (.set "k" "x"), .advance 2] ++ List.replicate 4 (.flush .tick) ++
      [.advance 1, .flush .handedOver, .flush .handedOver])).any (fun s =>
        (stored s.trace).flatMap (·.records) = sampleOvertaken) = true := by
    decide +kernel
  obtain ⟨s, hr, hs⟩ := exists_reachable hrun
  have hs := of_decide_eq_true hs
  have hcreate : Shards.create 1 (fun _ => Height.ruler) = .ok sample.shards := rfl
  have hlog : StoredLog Journal.MemoryLog sampleOvertaken :=
    hs ▸ StoredLog.none.life (.new (Fresh.create hcreate _) rfl) hr
  obtain ⟨hget, hpending⟩ := replay_stored_order hlog hcreate
  exact ⟨s, hr, hs, hget, hpending⟩

end Run
end SnapshotStore

import SnapshotStore.Proofs.Journal.Writer
import SnapshotStore.Proofs.Replay

/-! # Replays in another order

A replay depends on the order of its records only as far as they are tied (`Tied`): records of one
transaction, and commits of transactions that write a common key.  A log whose tied records come in the
order of their numbers is in turn (`InTurn`).  A replay of it gives the values and the open
transactions that a replay in the order of the numbers gives (`InTurn.get_byLsn`,
`pending_byLsn`), in whatever order all other records come. -/

namespace SnapshotStore
namespace Replay

open Journal (byLsn byLsn_perm pairwise_byLsn)

/-! ### Open transactions -/

theorem get?_pending_applyAll (p : Replay) (s : Shards) (rs : List Record) (tx : ℕ) :
    (p.applyAll s rs).2.1.pending.get? tx =
      (rs.filter (·.tx = tx)).foldl remember (p.pending.get? tx) := by
  induction rs generalizing p s with
  | nil => rfl
  | cons r rs ih =>
      rw [applyAll_cons, ih, get?_pending_apply]
      by_cases htx : tx = r.tx
      · rw [if_pos htx, List.filter_cons_of_pos (by simp [htx]), List.foldl_cons]
      · rw [if_neg htx, List.filter_cons_of_neg (by simpa using Ne.symm htx)]

theorem of_remember {open? : Option Writes} {r : Record} {w : Writes} {key : String}
    {value : Option String} (h : remember open? r = some w) (hv : w.get? key = some value) :
    r.key? = some key ∧ r.value? = value ∨ ∃ v, open? = some v ∧ v.get? key = some value := by
  rw [remember_eq] at h
  split at h
  · cases h
  · cases hput : r.put? with
    | none => exact .inr ⟨w, by simpa [hput] using h, hv⟩
    | some put =>
        obtain rfl : (open?.getD ∅).insert put.1 put.2 = w := by simpa [hput] using h
        rw [Table.get?_insert] at hv
        split at hv
        · next hk =>
          obtain ⟨hkey, hvalue⟩ := Record.of_put? hput
          exact .inl ⟨hkey.trans (congrArg some hk.symm), hvalue.trans (Option.some.inj hv)⟩
        · cases open? with
          | none => simp at hv
          | some v => exact .inr ⟨v, rfl, hv⟩

/-- A write that a replay remembers of a transaction is that of a record of the transaction. -/
theorem exists_of_pending {s : Shards} {rs : List Record} {tx : ℕ} {w : Writes} {key : String}
    {value : Option String} (h : (fresh.applyAll s rs).2.1.pending.get? tx = some w)
    (hv : w.get? key = some value) :
    ∃ q ∈ rs, q.tx = tx ∧ q.key? = some key ∧ q.value? = value := by
  induction rs using List.reverseRecOn generalizing w with
  | nil => simp [applyAll, fresh] at h
  | append_singleton rs r ih =>
      rw [get?_pending_applyAll, filter_tx_concat, List.foldl_append, ← get?_pending_applyAll] at h
      have hold {w : Writes} (h : (fresh.applyAll s rs).2.1.pending.get? tx = some w)
          (hv : w.get? key = some value) :
          ∃ q ∈ rs ++ [r], q.tx = tx ∧ q.key? = some key ∧ q.value? = value := by
        obtain ⟨q, hq, hmatch⟩ := ih h hv
        exact ⟨q, List.mem_append_left _ hq, hmatch⟩
      split at h
      · next htx =>
        rcases of_remember h hv with hmatch | ⟨v, hopen, hv⟩
        · exact ⟨r, by simp, htx, hmatch⟩
        · exact hold hopen hv
      · exact hold h hv

/-! ### Records that are tied -/

/-- Whether the order of two records matters, if transactions have certain writes. -/
def Tied (w : ℕ → Writes) (r q : Record) : Prop :=
  r.tx = q.tx ∨
    r.kind = .commit ∧ q.kind = .commit ∧ ∃ key, key ∈ (w r.tx).keys ∧ key ∈ (w q.tx).keys

theorem Tied.symm {w : ℕ → Writes} {r q : Record} (h : Tied w r q) : Tied w q r := by
  rcases h with htx | ⟨hr, hq, key, hkr, hkq⟩
  · exact .inl htx.symm
  · exact .inr ⟨hq, hr, key, hkq, hkr⟩

/-- A log in which a commit is the last record of its transaction and the records before it make up the
writes, and in which tied records come in the order of their numbers. -/
structure InTurn (w : ℕ → Writes) (rs : List Record) : Prop where
  distinct : (rs.map (·.lsn)).Nodup
  closed : ∀ r ∈ rs, r.kind = .commit → ∃ qs, rs.filter (·.tx = r.tx) = qs ++ [r] ∧
    qs.foldl stage ∅ = w r.tx
  order : rs.Pairwise fun r q => Tied w r q → r.lsn < q.lsn

theorem inTurn_nil (w : ℕ → Writes) : InTurn w [] := ⟨by simp, by simp, .nil⟩

theorem filter_byLsn {rs : List Record} (hn : (rs.map (·.lsn)).Nodup) {p : Record → Bool}
    (h : (rs.filter p).Pairwise fun r q => r.lsn < q.lsn) : (byLsn rs).filter p = rs.filter p := by
  refine ((byLsn_perm rs).filter p).eq_of_pairwise (fun a b ha hb hab hba => ?_)
    ((pairwise_byLsn rs).sublist List.filter_sublist) (h.imp Nat.le_of_lt)
  refine List.inj_on_of_nodup_map hn ((byLsn_perm rs).mem_iff.mp (List.mem_filter.mp ha).1)
    (List.mem_filter.mp hb).1 (Nat.le_antisymm hab hba)

section inTurn
variable {v w : ℕ → Writes} {rs ss : List Record}

/-- A log can be extended by records of new transactions with higher numbers. -/
theorem InTurn.append (hr : InTurn v rs) (hs : InTurn w ss)
    (htx : ∀ r ∈ rs, ∀ q ∈ ss, r.tx ≠ q.tx) (hlsn : ∀ r ∈ rs, ∀ q ∈ ss, r.lsn < q.lsn) :
    ∃ u, InTurn u (rs ++ ss) := by
  let u : ℕ → Writes := fun tx => if tx ∈ rs.map (·.tx) then v tx else w tx
  have hleft {r : Record} (h : r ∈ rs) : u r.tx = v r.tx := if_pos (List.mem_map_of_mem h)
  have hright {q : Record} (h : q ∈ ss) : u q.tx = w q.tx := by
    refine if_neg fun hm => ?_
    obtain ⟨r, hr, he⟩ := List.mem_map.mp hm
    exact htx r hr q h he
  have hnone {xs ys : List Record} {r : Record} (hr : r ∈ ys)
      (h : ∀ q ∈ xs, ∀ r ∈ ys, q.tx ≠ r.tx) : xs.filter (·.tx = r.tx) = [] :=
    List.filter_eq_nil_iff.mpr fun q hq => by simpa using h q hq r hr
  refine ⟨u, ?_, fun r hm hk => ?_, ?_⟩
  · rw [List.map_append]
    refine List.nodup_append.mpr ⟨hr.distinct, hs.distinct, fun m hm n hn => ?_⟩
    obtain ⟨r, hr, rfl⟩ := List.mem_map.mp hm
    obtain ⟨q, hq, rfl⟩ := List.mem_map.mp hn
    exact Nat.ne_of_lt (hlsn r hr q hq)
  · rw [List.filter_append]
    rcases List.mem_append.mp hm with hm | hm
    · obtain ⟨qs, hqs, hw⟩ := hr.closed r hm hk
      refine ⟨qs, ?_, hw.trans (hleft hm).symm⟩
      rw [hqs, hnone hm fun q hq r hr => (htx r hr q hq).symm, List.append_nil]
    · obtain ⟨qs, hqs, hw⟩ := hs.closed r hm hk
      refine ⟨qs, ?_, hw.trans (hright hm).symm⟩
      rw [hqs, hnone hm htx, List.nil_append]
  · refine List.pairwise_append.mpr ⟨hr.order.imp_of_mem fun {r q} hr hq hlt ht => ?_,
      hs.order.imp_of_mem fun {r q} hr hq hlt ht => ?_, fun r hr q hq _ => hlsn r hr q hq⟩
    · rw [Tied, hleft hr, hleft hq] at ht
      exact hlt ht
    · rw [Tied, hright hr, hright hq] at ht
      exact hlt ht

theorem InTurn.filter_tx (h : InTurn w rs) (tx : ℕ) :
    (byLsn rs).filter (·.tx = tx) = rs.filter (·.tx = tx) := by
  refine filter_byLsn h.distinct ?_
  refine (h.order.sublist List.filter_sublist).imp_of_mem fun {r q} hr hq hlt => hlt (.inl ?_)
  have hr : r.tx = tx := by simpa using (List.mem_filter.mp hr).2
  have hq : q.tx = tx := by simpa using (List.mem_filter.mp hq).2
  exact hr.trans hq.symm

theorem InTurn.filter_commits (h : InTurn w rs) (key : String) :
    (byLsn rs).filter (fun r => r.kind = .commit && key ∈ (w r.tx).keys) =
      rs.filter fun r => r.kind = .commit && key ∈ (w r.tx).keys := by
  have hcommit {r : Record} (hr : r ∈ rs.filter fun r => r.kind = .commit && key ∈ (w r.tx).keys) :
      r.kind = .commit ∧ key ∈ (w r.tx).keys := by
    simpa only [Bool.and_eq_true, decide_eq_true_eq] using (List.mem_filter.mp hr).2
  refine filter_byLsn h.distinct ?_
  refine (h.order.sublist List.filter_sublist).imp_of_mem fun {r q} hr hq hlt => hlt ?_
  exact .inr ⟨(hcommit hr).1, (hcommit hq).1, key, (hcommit hr).2, (hcommit hq).2⟩

theorem InTurn.get_applyAll (h : InTurn w rs) {count : ℕ} {towers : ℕ → ℕ → Height} {s : Shards}
    (hs : Shards.create count towers = .ok s) (version : ℕ) (key : String) :
    (fresh.applyAll s rs).2.2.get version key = State.empty.writeAll
      ((rs.filter fun r => r.kind = .commit && key ∈ (w r.tx).keys).map fun r => w r.tx) key := by
  rw [get_applyAll_fresh hs, effects_eq (List.Nodup.of_map _ h.distinct) w h.closed,
    ← State.writeAll_filter (key ∈ ·.keys) fun v _ hv => v.get?_eq_none_iff.mpr (by simpa using hv)]
  rw [List.filter_map, List.filter_filter]
  congr 3
  funext r
  exact Bool.and_comm ..

/-- In the order of their numbers, the records of a log in turn are in turn. -/
theorem InTurn.byLsn (h : InTurn w rs) : InTurn w (byLsn rs) where
  distinct := ((byLsn_perm rs).map _).nodup_iff.mpr h.distinct
  closed r hr hk := by
    rw [h.filter_tx]
    exact h.closed r ((byLsn_perm rs).mem_iff.mp hr) hk
  order := by
    have hn := ((byLsn_perm rs).map (·.lsn)).nodup_iff.mpr h.distinct
    have hsorted := (pairwise_byLsn rs).and (List.pairwise_map.mp hn)
    exact hsorted.imp fun hlt _ => Nat.lt_of_le_of_ne hlt.1 hlt.2

/-- A replay of a log in turn gives the values that a replay in the order of the numbers gives. -/
theorem InTurn.get_byLsn (h : InTurn w rs) {count : ℕ} {towers : ℕ → ℕ → Height} {s : Shards}
    (hs : Shards.create count towers = .ok s) (version : ℕ) (key : String) :
    (fresh.applyAll s rs).2.2.get version key =
      (fresh.applyAll s (Journal.byLsn rs)).2.2.get version key := by
  rw [h.get_applyAll hs, h.byLsn.get_applyAll hs, h.filter_commits]

/-- A replay of a log in turn leaves the open transactions that a replay in the order of the numbers
leaves. -/
theorem InTurn.pending_byLsn (h : InTurn w rs) (s : Shards) (tx : ℕ) :
    (fresh.applyAll s rs).2.1.pending.get? tx =
      (fresh.applyAll s (Journal.byLsn rs)).2.1.pending.get? tx := by
  rw [get?_pending_applyAll, get?_pending_applyAll, h.filter_tx]

end inTurn
end Replay
end SnapshotStore

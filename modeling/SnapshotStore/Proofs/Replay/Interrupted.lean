import SnapshotStore.Proofs.Replay

/-! # Replays that start anew

If a replay stops and another one goes on with the records that follow, the second one knows nothing
of the transactions that were open.  A write that was met before the break is lost if its transaction
commits after it (`Stale`); a key reads the same as after a single replay unless the last commit that
writes it has lost that write (`writeAll_effects_iff`). -/

namespace SnapshotStore
namespace Replay

variable {f g : ℕ → Writes} {rs A B : List Record} {r : Record} {key : String}

/-! ### More writes at the start -/

/-- All writes of the first table are in the second one. -/
def Within (v w : Writes) : Prop :=
  ∀ ⦃key value⦄, v.get? key = some value → w.get? key = some value

theorem Within.insert {v w : Writes} (h : Within v w) (key : String) (value : Option String) :
    Within (v.insert key value) (w.insert key value) := by
  intro k u hu
  rw [Table.get?_insert] at hu ⊢
  split
  · next hk => rwa [if_pos hk] at hu
  · next hk =>
      rw [if_neg hk] at hu
      exact h hu

theorem within_empty (w : Writes) : Within ∅ w := by
  intro key value h
  simp at h

theorem Within.stage {v w : Writes} (h : Within v w) (r : Record) :
    Within (stage v r) (stage w r) := by
  rw [stage_eq, stage_eq]
  split
  · exact within_empty _
  · cases r.put? with
    | none => exact h
    | some put => exact h.insert put.1 put.2

theorem within_staged (h : ∀ tx, Within (f tx) (g tx)) (rs : List Record) (tx : ℕ) :
    Within (staged f rs tx) (staged g rs tx) := by
  unfold staged
  generalize rs.filter (·.tx = tx) = qs
  induction qs using List.reverseRecOn with
  | nil => exact h tx
  | append_singleton qs r ih =>
      rw [List.foldl_append, List.foldl_append]
      exact ih.stage r

/-! ### The commits that write a key -/

/-- No commit among some records writes a key. -/
def Untouched (f : ℕ → Writes) (rs : List Record) (key : String) : Prop :=
  ∀ w ∈ effects f rs, w.get? key = none

theorem effects_concat (f : ℕ → Writes) (rs : List Record) (r : Record) :
    effects f (rs ++ [r]) = effects f rs ++ if r.kind = .commit then [staged f rs r.tx] else [] := by
  rw [effects_append, effects, effects, List.append_nil]

theorem effects_split (f : ℕ → Writes) (A B : List Record) (hk : r.kind = .commit) :
    effects f (A ++ r :: B) =
      effects f A ++ staged f A r.tx :: effects (staged f (A ++ [r])) B := by
  rw [List.append_cons, effects_append, effects_concat, if_pos hk, List.append_assoc,
    List.singleton_append]

theorem untouched_nil (f : ℕ → Writes) (key : String) : Untouched f [] key := by
  simp [Untouched, effects]

theorem Untouched.concat_iff :
    Untouched f (rs ++ [r]) key ↔
      Untouched f rs key ∧ (r.kind = .commit → (staged f rs r.tx).get? key = none) := by
  rw [Untouched, effects_concat, Untouched]
  by_cases hk : r.kind = .commit
  · simp [hk, or_imp, forall_and]
  · simp [hk]

theorem Untouched.of_within (hfg : ∀ tx, Within (g tx) (f tx)) (h : Untouched f rs key) :
    Untouched g rs key := by
  induction rs using List.reverseRecOn with
  | nil => exact untouched_nil g key
  | append_singleton rs r ih =>
      obtain ⟨hrs, hr⟩ := concat_iff.mp h
      refine concat_iff.mpr ⟨ih hrs, fun hk => ?_⟩
      rw [Option.eq_none_iff_forall_ne_some]
      intro value hv
      simpa [hr hk] using within_staged hfg rs r.tx hv

/-- No commit writes a key, or there is a last one that does. -/
theorem untouched_or_last (f : ℕ → Writes) (rs : List Record) (key : String) :
    Untouched f rs key ∨ ∃ A r B value, rs = A ++ r :: B ∧ r.kind = .commit ∧
      (staged f A r.tx).get? key = some value ∧ Untouched (staged f (A ++ [r])) B key := by
  induction rs using List.reverseRecOn with
  | nil => exact .inl (untouched_nil f key)
  | append_singleton rs q ih =>
      by_cases hq : q.kind = .commit → (staged f rs q.tx).get? key = none
      · rcases ih with hrs | ⟨A, r, B, value, rfl, hk, hv, hB⟩
        · exact .inl (Untouched.concat_iff.mpr ⟨hrs, hq⟩)
        · refine .inr ⟨A, r, B ++ [q], value, by simp, hk, hv, Untouched.concat_iff.mpr ⟨hB, ?_⟩⟩
          rwa [List.append_cons, staged_append] at hq
      · obtain ⟨hk, hv⟩ := Classical.not_imp.mp hq
        obtain ⟨value, hv⟩ := Option.ne_none_iff_exists'.mp hv
        exact .inr ⟨rs, q, [], value, rfl, hk, hv, untouched_nil _ key⟩

/-! ### Lost writes -/

/-- The last commit among some records that writes a key gives it a value that was staged before
them, and not again. -/
def Stale (f : ℕ → Writes) (rs : List Record) (key : String) (value : Option String) : Prop :=
  ∃ A r B, rs = A ++ r :: B ∧ r.kind = .commit ∧ (staged f A r.tx).get? key = some value ∧
    (staged (fun _ => ∅) A r.tx).get? key = none ∧ Untouched (staged f (A ++ [r])) B key

variable {m : State} {value : Option String}

theorem writeAll_effects_of_last (hk : r.kind = .commit)
    (hv : (staged f A r.tx).get? key = some value) (hB : Untouched (staged f (A ++ [r])) B key) :
    m.writeAll (effects f (A ++ r :: B)) key = value := by
  rw [effects_split f A B hk]
  exact State.writeAll_of_last hv hB

/-- A replay that goes on without what was staged before gives a key another value than one that
has it if and only if the value of the key is lost. -/
theorem writeAll_effects_iff :
    m.writeAll (effects (fun _ => ∅) rs) key = m.writeAll (effects f rs) key ↔
      ∀ value, Stale f rs key value → m.writeAll (effects (fun _ => ∅) rs) key = value := by
  have hwithin (tx : ℕ) : Within ((fun _ => ∅) tx) (f tx) := within_empty (f tx)
  constructor
  · rintro h value ⟨A, r, B, rfl, hk, hv, -, hB⟩
    rw [h, writeAll_effects_of_last hk hv hB]
  · intro h
    rcases untouched_or_last f rs key with hrs | ⟨A, r, B, value, rfl, hk, hv, hB⟩
    · rw [State.writeAll_of_none (hrs.of_within hwithin), State.writeAll_of_none hrs]
    · rw [writeAll_effects_of_last hk hv hB]
      cases hown : (staged (fun _ => ∅) A r.tx).get? key with
      | none => exact h value ⟨A, r, B, rfl, hk, hv, hown, hB⟩
      | some own =>
          -- the transaction staged the value again, so that nothing is lost
          obtain rfl : own = value := by
            simpa [hv] using (within_staged hwithin A r.tx hown).symm
          exact writeAll_effects_of_last hk hown (hB.of_within fun tx => within_staged hwithin _ tx)

end Replay
end SnapshotStore

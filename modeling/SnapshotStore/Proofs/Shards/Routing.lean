import SnapshotStore.Proofs.Shards.History

/-! # Calls on several keys

A call on several keys visits the shards of its keys, each once and in ascending order
(`pairwise_touched`).  All it does there is told by the single keys:

* `setMany_eq_foldl`: recording several writes is one `Insert` after the other, and these are the writes,
  each in the shard of its key (`inserts_perm`, `shard_of_mem_inserts`);
* `getMany_eq_map_get`: reading several keys is reading each of them.

Inserts into different shards can trade places (`insert_comm`), and a read of another shard does not see
an insert (`get_insert_of_ne`). -/

namespace SnapshotStore
namespace Shards

variable {s t : Shards}

/-! ### The shards of some keys -/

theorem pairwise_insertAscending {n : ℕ} {ms : List ℕ} (h : ms.Pairwise (· < ·)) :
    (insertAscending n ms).Pairwise (· < ·) := by
  induction ms with
  | nil => exact List.pairwise_singleton _ n
  | cons m ms ih =>
      obtain ⟨hm, hms⟩ := List.pairwise_cons.mp h
      unfold insertAscending
      split
      · next hlt =>
        refine List.pairwise_cons.mpr ⟨fun k hk => ?_, h⟩
        rcases List.mem_cons.mp hk with rfl | hk
        · exact hlt
        · exact Nat.lt_trans hlt (hm k hk)
      · split
        · exact h
        · next hge hne =>
          refine List.pairwise_cons.mpr ⟨fun k hk => ?_, ih hms⟩
          rcases mem_insertAscending.mp hk with rfl | hk
          · omega
          · exact hm k hk

theorem pairwise_touched (s : Shards) (keys : List String) : (s.touched keys).Pairwise (· < ·) := by
  induction keys with
  | nil => exact List.Pairwise.nil
  | cons key keys ih => exact pairwise_insertAscending ih

theorem nodup_touched (s : Shards) (keys : List String) : (s.touched keys).Nodup :=
  (s.pairwise_touched keys).imp Nat.ne_of_lt

theorem val_shardFor_of_count (h : t.count = s.count) (key : String) :
    (t.shardFor key : ℕ) = s.shardFor key := by
  simp only [count] at h
  simp only [shardFor, h]

theorem touched_of_count (h : t.count = s.count) (keys : List String) :
    t.touched keys = s.touched keys := by
  simp only [touched, val_shardFor_of_count h]

/-! ### Reading several keys -/

theorem lookup_pick (s : Shards) (is : List ℕ) (i : ℕ) :
    (s.pick is).lookup i = if i ∈ is then s.lists[i]? else none := by
  induction is with
  | nil => rfl
  | cons j is ih =>
      unfold pick at ih ⊢
      rw [List.filterMap_cons]
      by_cases hij : i = j
      · subst hij
        cases hj : s.lists[i]? with
        | none => simp [ih, hj]
        | some l => simp
      · cases hj : s.lists[j]? with
        | none => simp [ih, hij]
        | some l => simp [List.lookup_cons, ih, hij, beq_false_of_ne hij]

theorem getFrom_pick (s : Shards) (is : List ℕ) (version : ℕ) (key : String) :
    s.getFrom (s.pick is) version key =
      if (s.shardFor key : ℕ) ∈ is then s.get version key else none := by
  unfold getFrom
  rw [lookup_pick]
  split
  · simp [get]
  · rfl

theorem getMany_eq_map_get (s : Shards) (version : ℕ) (keys : List String) :
    s.getMany version keys = keys.map (s.get version) := by
  refine List.map_congr_left fun key hkey => ?_
  rw [getFrom_pick, if_pos (mem_touched.mpr ⟨key, hkey, rfl⟩)]

/-! ### Single inserts -/

/-- An insert into one shard. -/
structure Insert where
  shard : ℕ
  key : String
  version : ℕ
  value : Option String
deriving DecidableEq, Repr

/-- The shards after an insert into one of them. -/
def insert (s : Shards) (x : Insert) : Shards :=
  s.modify x.shard (·.insert x.key x.version x.value)

theorem set_eq_insert (s : Shards) (version : ℕ) (key : String) (value : Option String) :
    s.set version key value = s.insert ⟨s.shardFor key, key, version, value⟩ := rfl

@[simp] theorem count_insert (s : Shards) (x : Insert) : (s.insert x).count = s.count := by
  simp [count, insert, modify]

@[simp] theorem count_foldl_insert (s : Shards) (xs : List Insert) :
    (xs.foldl insert s).count = s.count := by
  induction xs generalizing s with
  | nil => rfl
  | cons x xs ih => rw [List.foldl_cons, ih, count_insert]

theorem modify_comm (s : Shards) {i j : ℕ} (hij : i ≠ j) (f g : SkipList → SkipList) :
    (s.modify i f).modify j g = (s.modify j g).modify i f := by
  simp only [modify, mk.injEq]
  refine Array.ext (by simp) fun k hk _ => ?_
  simp only [Array.getElem_modify]
  split <;> split <;> first | rfl | omega

/-- Inserts into different shards can trade places. -/
theorem insert_comm (s : Shards) {x y : Insert} (h : x.shard ≠ y.shard) :
    (s.insert x).insert y = (s.insert y).insert x :=
  s.modify_comm h _ _

/-- A read does not see an insert into another shard. -/
theorem get_insert_of_ne {x : Insert} {key : String} (h : x.shard ≠ s.shardFor key) (version : ℕ) :
    (s.insert x).get version key = s.get version key := by
  show (((s.insert x).home key).find key version).join = ((s.home key).find key version).join
  rw [insert, home_modify, if_neg (Ne.symm h)]

/-! ### Recording several writes -/

/-- The inserts that record several writes at one version, shard by shard. -/
def inserts (s : Shards) (version : ℕ) (writes : List (String × Option String)) : List Insert :=
  (s.touched (writes.map Prod.fst)).flatMap fun i =>
    (writes.filter fun w => (s.shardFor w.1 : ℕ) = i).map fun w => ⟨i, w.1, version, w.2⟩

section inserts
variable {version : ℕ} {writes : List (String × Option String)}

theorem inserts_of_count (h : t.count = s.count) :
    t.inserts version writes = s.inserts version writes := by
  simp only [inserts, touched_of_count h, val_shardFor_of_count h]

theorem modify_insertAll (s : Shards) (version i : ℕ) (writes : List (String × Option String)) :
    s.modify i (fun l => insertAll version l writes) =
      (writes.map fun w => (⟨i, w.1, version, w.2⟩ : Insert)).foldl insert s := by
  induction writes generalizing s with
  | nil =>
      simp only [modify, insertAll, List.foldl_nil, List.map_nil]
      congr 1
      exact Array.ext (by simp) fun k _ _ => by simp [Array.getElem_modify]
  | cons w writes ih =>
      rw [List.map_cons, List.foldl_cons, ← ih]
      simp only [insert, modify, mk.injEq]
      refine Array.ext (by simp) fun k _ _ => ?_
      simp only [Array.getElem_modify]
      split <;> rfl

theorem foldl_setShard_eq (s : Shards) (is : List ℕ) :
    is.foldl (fun t i => t.setShard version writes i) s =
      (is.flatMap fun i => (writes.filter fun w => (s.shardFor w.1 : ℕ) = i).map
        fun w => (⟨i, w.1, version, w.2⟩ : Insert)).foldl insert s := by
  induction is generalizing s with
  | nil => rfl
  | cons i is ih =>
      rw [List.foldl_cons, ih, List.flatMap_cons, List.foldl_append, setShard_eq, modify_insertAll]
      simp only [val_shardFor_of_count (count_foldl_insert s _)]

/-- Recording several writes is one insert after the other. -/
theorem setMany_eq_foldl (s : Shards) (version : ℕ) (w : Writes) :
    s.setMany version w = (s.inserts version w.entries).foldl insert s :=
  foldl_setShard_eq s _

/-- A list is a reordering of its parts under the values of a function. -/
theorem flatMap_filter_perm {α : Type} (f : α → ℕ) {is : List ℕ} (his : is.Nodup) (l : List α) :
    (is.flatMap fun i => l.filter fun a => f a = i).Perm (l.filter fun a => f a ∈ is) := by
  induction is with
  | nil => simp
  | cons i is ih =>
      obtain ⟨hi, his⟩ := List.nodup_cons.mp his
      have hparts := List.filter_append_perm (fun a => f a = i) (l.filter fun a => f a ∈ i :: is)
      have hhere : (l.filter fun a => f a ∈ i :: is).filter (fun a => f a = i) =
          l.filter fun a => f a = i := by
        rw [List.filter_filter]
        exact List.filter_congr fun a _ => by by_cases h : f a = i <;> simp [h]
      have hrest : (l.filter fun a => f a ∈ i :: is).filter (fun a => !decide (f a = i)) =
          l.filter fun a => f a ∈ is := by
        rw [List.filter_filter]
        exact List.filter_congr fun a _ => by by_cases h : f a = i <;> simp [h, hi]
      rw [hhere, hrest] at hparts
      rw [List.flatMap_cons]
      exact ((ih his).append_left _).trans hparts

/-- The inserts of several writes are these writes, in some order. -/
theorem inserts_perm (s : Shards) (version : ℕ) (writes : List (String × Option String)) :
    ((s.inserts version writes).map fun x => (x.key, x.value)).Perm writes := by
  have hwrites : (s.inserts version writes).map (fun x => (x.key, x.value)) =
      (s.touched (writes.map Prod.fst)).flatMap fun i =>
        writes.filter fun w => (s.shardFor w.1 : ℕ) = i := by
    simp [inserts, List.map_flatMap, Function.comp_def]
  have hall : writes.filter (fun w => (s.shardFor w.1 : ℕ) ∈ s.touched (writes.map Prod.fst)) =
      writes := by
    refine List.filter_eq_self.mpr fun w hw => decide_eq_true ?_
    exact mem_touched.mpr ⟨w.1, List.mem_map_of_mem hw, rfl⟩
  rw [hwrites]
  have hperm := flatMap_filter_perm (fun w : String × Option String => (s.shardFor w.1 : ℕ))
    (s.nodup_touched (writes.map Prod.fst)) writes
  rwa [hall] at hperm

theorem shard_of_mem_inserts {x : Insert} (hx : x ∈ s.inserts version writes) :
    x.shard = s.shardFor x.key ∧ x.version = version ∧
      x.shard ∈ s.touched (writes.map Prod.fst) := by
  simp only [inserts, List.mem_flatMap, List.mem_map, List.mem_filter, decide_eq_true_eq] at hx
  obtain ⟨i, hi, w, ⟨-, hw⟩, rfl⟩ := hx
  exact ⟨hw.symm, rfl, hi⟩

end inserts

end Shards
end SnapshotStore

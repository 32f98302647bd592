import SnapshotStore.Shards
import SnapshotStore.Proofs.SkipList.Entries

/-! # The history of a key

`history` is what the shards recorded for a key at each version, seen through the one shard that
the key lives in.  With well-formed shards (`Sound`):

* `Sound.get_eq_latest`: a read gives the latest value up to a version;
* `Sound.existsBetween_iff`: a question for an interval is one about the history;
* `Sound.history_setMany`: recording the writes of a transaction changes the histories of its keys
  at its version, and nothing else. -/

namespace SnapshotStore
namespace Shards

variable {s : Shards}

/-- Every shard is a well-formed skip list. -/
def Sound (s : Shards) : Prop := ∀ (i : ℕ) (h : i < s.lists.size), s.lists[i].Linked

/-- One of the shards. -/
def shard (s : Shards) (i : Fin s.lists.size) : SkipList := s.lists[i]

/-- The shard that a key lives in. -/
def home (s : Shards) (key : String) : SkipList := s.shard (s.shardFor key)

/-- What was recorded for a key at a version: a value, or a delete (`none`). -/
def history (s : Shards) (key : String) (version : ℕ) : Option (Option String) :=
  (s.home key).recorded ⟨key, version⟩

theorem Sound.home (h : s.Sound) (key : String) : (s.home key).Linked :=
  h _ (s.shardFor key).isLt

/-! ### Reading -/

theorem Sound.get_eq_latest (h : s.Sound) (version : ℕ) (key : String) :
    s.get version key = (latest (s.history key) version).join := by
  show ((s.home key).find key version).join = _
  rw [(h.home key).find_eq_latest]
  rfl

theorem Sound.existsBetween_iff (h : s.Sound) {low high : ℕ} {key : String} :
    s.existsBetween low high key = true ↔
      ∃ u, low < u ∧ u ≤ high ∧ s.history key u ≠ none :=
  (h.home key).existsBetween_iff

/-! ### Changing one shard -/

theorem val_shardFor_modify (i : ℕ) (f : SkipList → SkipList) (key : String) :
    ((s.modify i f).shardFor key : ℕ) = s.shardFor key := by
  simp [shardFor, modify]

theorem home_modify (i : ℕ) (f : SkipList → SkipList) (key : String) :
    (s.modify i f).home key =
      if (s.shardFor key : ℕ) = i then f (s.home key) else s.home key := by
  have hk : ((s.modify i f).shardFor key : ℕ) = s.shardFor key := val_shardFor_modify i f key
  simp only [home, shard, Fin.getElem_fin, hk]
  simp only [modify, Array.getElem_modify, eq_comm]

theorem Sound.modify (h : s.Sound) (i : ℕ) {f : SkipList → SkipList}
    (hf : ∀ l : SkipList, l.Linked → (f l).Linked) : (s.modify i f).Sound := by
  intro j hj
  simp only [Shards.modify, Array.size_modify] at hj
  simp only [Shards.modify, Array.getElem_modify]
  split
  · exact hf _ (h j hj)
  · exact h j hj

/-! ### Recording the writes of a transaction -/

section writes
variable (version : ℕ)

/-- Inserts several writes at one version. -/
def insertAll (l : SkipList) (writes : List (String × Option String)) : SkipList :=
  writes.foldl (fun l w => l.insert w.1 version w.2) l

theorem linked_insertAll {l : SkipList} (hl : l.Linked) (writes : List (String × Option String)) :
    (insertAll version l writes).Linked := by
  induction writes generalizing l with
  | nil => exact hl
  | cons w ws ih => exact ih (hl.insert w.1 version w.2)

theorem recorded_insertAll {l : SkipList} (hl : l.Linked) {writes : List (String × Option String)}
    (hn : (writes.map Prod.fst).Nodup) (key : String) (u : ℕ) :
    (insertAll version l writes).recorded ⟨key, u⟩ =
      if u = version then ((writes.find? (·.1 = key)).map Prod.snd).or (l.recorded ⟨key, u⟩)
      else l.recorded ⟨key, u⟩ := by
  induction writes generalizing l with
  | nil => simp [insertAll]
  | cons w ws ih =>
      obtain ⟨hw, hws⟩ := List.nodup_cons.mp hn
      have hstep : insertAll version l (w :: ws) =
        insertAll version (l.insert w.1 version w.2) ws := rfl
      rw [hstep, ih (hl.insert _ _ _) hws, hl.recorded_insert]
      by_cases hu : u = version
      · subst hu
        by_cases hk : w.1 = key
        · subst hk
          have hnone : ws.find? (fun e => e.1 = w.1) = none := by
            rw [List.find?_eq_none]
            intro e he
            have : w.1 ≠ e.1 := fun h => hw (h ▸ List.mem_map_of_mem he)
            simpa using this.symm
          simp [hnone]
        · simp [hk, Ne.symm hk]
      · simp [hu]

theorem setShard_eq (writes : List (String × Option String)) (i : ℕ) :
    s.setShard version writes i =
      s.modify i fun l => insertAll version l (writes.filter fun w => s.shardFor w.1 = i) := rfl

theorem Sound.setShard (h : s.Sound) (writes : List (String × Option String)) (i : ℕ) :
    (s.setShard version writes i).Sound := by
  rw [setShard_eq]
  exact h.modify i fun l hl => linked_insertAll version hl _

theorem Sound.history_setShard (h : s.Sound) (w : Writes) (i : ℕ) (key : String) (u : ℕ) :
    (s.setShard version w.entries i).history key u =
      if u = version ∧ (s.shardFor key : ℕ) = i then (w.get? key).or (s.history key u)
      else s.history key u := by
  rw [setShard_eq, history, home_modify]
  by_cases hi : (s.shardFor key : ℕ) = i
  · have hn : ((w.entries.filter fun w => (s.shardFor w.1 : ℕ) = i).map Prod.fst).Nodup :=
      w.nodup.sublist (List.filter_sublist.map _)
    rw [if_pos hi, recorded_insertAll version (h.home key) hn, List.find?_filter]
    have hfind : w.entries.find? (fun e => decide (decide ((s.shardFor e.1 : ℕ) = i) = true ∧
        decide (e.1 = key) = true)) = w.entries.find? (·.1 = key) := by
      congr 1
      funext e
      by_cases he : e.1 = key
      · simp [he, hi]
      · simp [he]
    rw [hfind]
    simp only [hi, and_true]
    rfl
  · simp [hi, history]

theorem val_shardFor_setShard (writes : List (String × Option String)) (i : ℕ) (key : String) :
    ((s.setShard version writes i).shardFor key : ℕ) = s.shardFor key :=
  val_shardFor_modify i _ key

theorem mem_insertAscending {n m : ℕ} {ms : List ℕ} :
    n ∈ insertAscending m ms ↔ n = m ∨ n ∈ ms := by
  induction ms with
  | nil => simp [insertAscending]
  | cons k ms ih =>
      unfold insertAscending
      split
      · simp
      · split
        · next h => simp [h]
        · rw [List.mem_cons, ih, List.mem_cons]
          tauto

theorem mem_touched {keys : List String} {i : ℕ} :
    i ∈ s.touched keys ↔ ∃ key ∈ keys, (s.shardFor key : ℕ) = i := by
  induction keys with
  | nil => simp [touched]
  | cons key keys ih =>
      have hstep : s.touched (key :: keys) = insertAscending (s.shardFor key) (s.touched keys) :=
        rfl
      rw [hstep, mem_insertAscending, ih]
      simp [eq_comm]

theorem Sound.foldl_setShard (h : s.Sound) (w : Writes) (is : List ℕ) :
    (is.foldl (fun t i => t.setShard version w.entries i) s).Sound ∧
    ∀ key u, (is.foldl (fun t i => t.setShard version w.entries i) s).history key u =
      if u = version ∧ (s.shardFor key : ℕ) ∈ is then (w.get? key).or (s.history key u)
      else s.history key u := by
  induction is generalizing s with
  | nil => exact ⟨h, fun key u => by simp⟩
  | cons i is ih =>
      obtain ⟨hs, hh⟩ := ih (h.setShard version w.entries i)
      refine ⟨hs, fun key u => ?_⟩
      rw [List.foldl_cons, hh, h.history_setShard, val_shardFor_setShard]
      have htwice : (w.get? key).or ((w.get? key).or (s.history key u)) =
          (w.get? key).or (s.history key u) := by
        rw [← Option.or_assoc, Option.or_self]
      by_cases hu : u = version <;> by_cases hi : (s.shardFor key : ℕ) = i <;>
        by_cases his : (s.shardFor key : ℕ) ∈ is <;> simp_all

theorem Sound.setMany (h : s.Sound) (w : Writes) : (s.setMany version w).Sound :=
  (h.foldl_setShard version w _).1

/-- Recording the writes of a transaction changes its keys at its version. -/
theorem Sound.history_setMany (h : s.Sound) (w : Writes) (key : String) (u : ℕ) :
    (s.setMany version w).history key u =
      if u = version then (w.get? key).or (s.history key u) else s.history key u := by
  have hh := (h.foldl_setShard version w (s.touched w.keys)).2 key u
  rw [Shards.setMany, hh]
  by_cases hu : u = version
  · cases hw : w.get? key with
    | none => simp
    | some x =>
        have hm : (s.shardFor key : ℕ) ∈ s.touched w.keys :=
          mem_touched.mpr ⟨key, (w.mem_keys_iff key).mpr ⟨x, hw⟩, rfl⟩
        simp [hu, hm]
  · simp [hu]

end writes

/-! ### New shards -/

theorem Sound.create {count : ℕ} {towers : ℕ → ℕ → Height} (h : Shards.create count towers = .ok s) :
    s.Sound := by
  unfold Shards.create at h
  split at h
  · cases h
    intro i hi
    simpa using SkipList.Linked.empty _
  · cases h

theorem history_create {count : ℕ} {towers : ℕ → ℕ → Height}
    (h : Shards.create count towers = .ok s) (key : String) (version : ℕ) :
    s.history key version = none := by
  unfold Shards.create at h
  split at h
  · cases h
    simp [history, home, shard, SkipList.recorded_empty]
  · cases h

end Shards
end SnapshotStore

import SnapshotStore.Proofs.Shards.Routing
import Mathlib.Data.Finmap
import Mathlib.Data.List.Perm.Basic

/-! # Shards as one map

A `VersionMap` is one map from keys at versions to what was written there.  Shards that hold what such a
map holds (`Holds`) answer every call as the map does and hold the same afterwards (`Holds.serve`), so no
list of calls can tell how many shards there are (`sharding_invisible`). -/

namespace SnapshotStore

/-! ### The map -/

/-- What was written under each key at each version: a value, or a delete (`none`). -/
abbrev VersionMap := Finmap fun _ : VersionedKey => Option String

namespace VersionMap

/-- Records a value, or a delete, for a key at a version. -/
def set (m : VersionMap) (version : ℕ) (key : String) (value : Option String) : VersionMap :=
  Finmap.insert ⟨key, version⟩ value m

/-- Records several writes at one version, one after the other. -/
def setAll (m : VersionMap) (version : ℕ) (writes : List (String × Option String)) : VersionMap :=
  writes.foldl (fun m w => m.set version w.1 w.2) m

/-- What was written last for a key up to a version; nothing and a delete read alike. -/
def get (m : VersionMap) (version : ℕ) (key : String) : Option String :=
  (latest (fun u => m.lookup ⟨key, u⟩) version).join

/-- Whether a key was written at a version above `low` and at most `high`. -/
def existsBetween (m : VersionMap) (low high : ℕ) (key : String) : Bool :=
  decide (∃ k ∈ m.keys, k.key = key ∧ low < k.version ∧ k.version ≤ high)

/-- The number of keys at versions. -/
def versionCount (m : VersionMap) : ℕ := m.keys.card

theorem lookup_set (m : VersionMap) (version : ℕ) (key : String) (value : Option String)
    (k : VersionedKey) :
    (m.set version key value).lookup k = if k = ⟨key, version⟩ then some value else m.lookup k := by
  split
  · next h =>
    rw [h]
    exact Finmap.lookup_insert m
  · next h => exact Finmap.lookup_insert_of_ne m h

theorem versionCount_set (m : VersionMap) (version : ℕ) (key : String) (value : Option String) :
    (m.set version key value).versionCount =
      m.versionCount + if m.lookup ⟨key, version⟩ = none then 1 else 0 := by
  have hkeys : (m.set version key value).keys = insert ⟨key, version⟩ m.keys := by
    ext k
    rw [Finset.mem_insert, Finmap.mem_keys, Finmap.mem_keys]
    exact Finmap.mem_insert
  unfold versionCount
  rw [hkeys]
  by_cases h : (⟨key, version⟩ : VersionedKey) ∈ m.keys
  · have hsome : m.lookup ⟨key, version⟩ ≠ none := by
      rwa [ne_eq, Finmap.lookup_eq_none, not_not, ← Finmap.mem_keys]
    rw [Finset.card_insert_of_mem h, if_neg hsome, Nat.add_zero]
  · have hnone : m.lookup ⟨key, version⟩ = none := by
      rwa [Finmap.lookup_eq_none, ← Finmap.mem_keys]
    rw [Finset.card_insert_of_notMem h, if_pos hnone]

theorem setAll_perm (m : VersionMap) (version : ℕ) {writes order : List (String × Option String)}
    (hperm : order.Perm writes) (hkeys : (writes.map Prod.fst).Nodup) :
    m.setAll version order = m.setAll version writes := by
  refine (hperm.symm.foldl_eq' (fun x hx y hy z => ?_) m).symm
  by_cases hxy : x = y
  · rw [hxy]
  · have hkey : x.1 ≠ y.1 := fun h => hxy (List.inj_on_of_nodup_map hkeys hx hy h)
    exact Finmap.insert_insert_of_ne z fun h => hkey (congrArg VersionedKey.key h)

end VersionMap

namespace Shards

/-! ### Calls -/

/-- The calls on a store of versions. -/
inductive Call
  | set (version : ℕ) (key : String) (value : Option String)
  | setMany (version : ℕ) (writes : Writes)
  | get (version : ℕ) (key : String)
  | getMany (version : ℕ) (keys : List String)
  | existsBetween (low high : ℕ) (key : String)
  | versionCount

/-- What a call returns. -/
inductive Answer
  | done
  | value (value : Option String)
  | values (values : List (Option String))
  | found (b : Bool)
  | count (n : ℕ)
deriving DecidableEq, Repr

/-- The answer of shards to a call, and the shards afterwards. -/
def serve (s : Shards) : Call → Answer × Shards
  | .set version key value => (.done, s.set version key value)
  | .setMany version writes => (.done, s.setMany version writes)
  | .get version key => (.value (s.get version key), s)
  | .getMany version keys => (.values (s.getMany version keys), s)
  | .existsBetween low high key => (.found (s.existsBetween low high key), s)
  | .versionCount => (.count s.versionCount, s)

/-- The answer of a map to a call, and the map afterwards. -/
def serveMap (m : VersionMap) : Call → Answer × VersionMap
  | .set version key value => (.done, m.set version key value)
  | .setMany version writes => (.done, m.setAll version writes.entries)
  | .get version key => (.value (m.get version key), m)
  | .getMany version keys => (.values (keys.map (m.get version)), m)
  | .existsBetween low high key => (.found (m.existsBetween low high key), m)
  | .versionCount => (.count m.versionCount, m)

section calls
variable {σ : Type} (serve : σ → Call → Answer × σ)

/-- The answers of a store to some calls, one after the other. -/
def answers : σ → List Call → List Answer
  | _, [] => []
  | s, c :: calls => (serve s c).1 :: answers (serve s c).2 calls

/-- A store after some calls. -/
def after (s : σ) (calls : List Call) : σ := calls.foldl (fun s c => (serve s c).2) s

end calls

variable {s t : Shards} {m : VersionMap}

/-! ### One insert -/

theorem Sound.insert (h : s.Sound) (x : Insert) : (s.insert x).Sound :=
  h.modify x.shard fun _ hl => hl.insert x.key x.version x.value

theorem Sound.history_insert (h : s.Sound) {x : Insert} (hx : x.shard = s.shardFor x.key)
    (key : String) (u : ℕ) :
    (s.insert x).history key u =
      if (⟨key, u⟩ : VersionedKey) = ⟨x.key, x.version⟩ then some x.value else s.history key u := by
  unfold history Shards.insert
  rw [home_modify]
  split
  · exact (h.home key).recorded_insert x.key x.version x.value ⟨key, u⟩
  · next hne =>
    rw [if_neg]
    rintro hk
    obtain rfl : key = x.key := congrArg VersionedKey.key hk
    exact hne hx.symm

theorem versionCount_eq_foldl (s : Shards) :
    s.versionCount = s.lists.toList.foldl (fun n l => n + l.size) 0 :=
  (Array.foldl_toList _).symm

theorem foldl_size_eq_add (ls : List SkipList) (n : ℕ) :
    ls.foldl (fun n l => n + l.size) n = n + ls.foldl (fun n l => n + l.size) 0 := by
  induction ls generalizing n with
  | nil => rfl
  | cons l ls ih => rw [List.foldl_cons, List.foldl_cons, ih, ih (0 + l.size), Nat.zero_add, Nat.add_assoc]

theorem versionCount_modify (s : Shards) (i : Fin s.lists.size) (f : SkipList → SkipList) :
    (s.modify i f).versionCount + (s.shard i).size = s.versionCount + (f (s.shard i)).size := by
  obtain ⟨before, l, later, hlists, hlength, hmodify⟩ :=
    List.exists_of_modify f (show (i : ℕ) < s.lists.toList.length from i.isLt)
  have hl : s.shard i = l := by
    have hget : s.lists.toList[(i : ℕ)]? = some l := by
      rw [hlists, ← hlength, List.getElem?_append_right (Nat.le_refl _), Nat.sub_self]
      rfl
    simpa [shard] using hget
  rw [versionCount_eq_foldl, versionCount_eq_foldl, Shards.modify, Array.toList_modify, hmodify, hlists,
    hl, List.foldl_append, List.foldl_append, List.foldl_cons, List.foldl_cons,
    foldl_size_eq_add later (_ + (f l).size), foldl_size_eq_add later (_ + l.size)]
  omega

theorem Sound.versionCount_insert (h : s.Sound) {x : Insert} (hx : x.shard = s.shardFor x.key) :
    (s.insert x).versionCount =
      s.versionCount + if s.history x.key x.version = none then 1 else 0 := by
  have hcount := s.versionCount_modify (s.shardFor x.key) (·.insert x.key x.version x.value)
  have hsize : ((s.shard (s.shardFor x.key)).insert x.key x.version x.value).size =
      (s.shard (s.shardFor x.key)).size + if s.history x.key x.version = none then 1 else 0 :=
    (h.home x.key).size_insert x.key x.version x.value
  rw [hsize] at hcount
  unfold Shards.insert
  rw [hx]
  omega

/-! ### Holding the same -/

/-- Shards hold what a map holds. -/
structure Holds (s : Shards) (m : VersionMap) : Prop where
  sound : s.Sound
  history : ∀ key u, s.history key u = m.lookup ⟨key, u⟩
  versionCount : s.versionCount = m.versionCount

theorem versionCount_create {count : ℕ} {towers : ℕ → ℕ → Height}
    (h : Shards.create count towers = .ok s) : s.versionCount = 0 := by
  unfold Shards.create at h
  split at h
  · cases h
    have hempty (ls : List SkipList) (hls : ∀ l ∈ ls, l.size = 0) :
        ls.foldl (fun n l => n + l.size) 0 = 0 := by
      induction ls with
      | nil => rfl
      | cons l ls ih =>
          obtain ⟨hl, hls⟩ := List.forall_mem_cons.mp hls
          rw [List.foldl_cons, hl, ih hls]
    rw [versionCount_eq_foldl]
    refine hempty _ fun l hl => ?_
    obtain ⟨i, rfl⟩ := List.mem_ofFn.mp (Array.toList_ofFn ▸ hl)
    rfl
  · cases h

theorem Holds.create {count : ℕ} {towers : ℕ → ℕ → Height} (h : Shards.create count towers = .ok s) :
    s.Holds ∅ where
  sound := Sound.create h
  history key u := by rw [history_create h, Finmap.lookup_empty]
  versionCount := versionCount_create h

theorem Holds.insert (h : s.Holds m) {x : Insert} (hx : x.shard = s.shardFor x.key) :
    (s.insert x).Holds (m.set x.version x.key x.value) where
  sound := h.sound.insert x
  history key u := by rw [h.sound.history_insert hx, VersionMap.lookup_set, h.history]
  versionCount := by
    rw [h.sound.versionCount_insert hx, VersionMap.versionCount_set, h.history, h.versionCount]

theorem Holds.set (h : s.Holds m) (version : ℕ) (key : String) (value : Option String) :
    (s.set version key value).Holds (m.set version key value) := by
  rw [set_eq_insert]
  exact h.insert rfl

theorem Holds.foldl_insert (h : s.Holds m) (version : ℕ) {xs : List Insert}
    (hxs : ∀ x ∈ xs, x.shard = s.shardFor x.key ∧ x.version = version) :
    (xs.foldl Shards.insert s).Holds (m.setAll version (xs.map fun x => (x.key, x.value))) := by
  induction xs generalizing s m with
  | nil => exact h
  | cons x xs ih =>
      obtain ⟨⟨hshard, rfl⟩, hxs⟩ := List.forall_mem_cons.mp hxs
      refine ih (h.insert hshard) fun y hy => ?_
      rw [val_shardFor_of_count (count_insert s x)]
      exact hxs y hy

theorem Holds.foldl_set (h : s.Holds m) (version : ℕ) (writes : List (String × Option String)) :
    (writes.foldl (fun t w => t.set version w.1 w.2) s).Holds (m.setAll version writes) := by
  induction writes generalizing s m with
  | nil => exact h
  | cons w writes ih => exact ih (h.set version w.1 w.2)

theorem Holds.setMany (h : s.Holds m) (version : ℕ) (w : Writes) :
    (s.setMany version w).Holds (m.setAll version w.entries) := by
  have hplaced : ∀ x ∈ s.inserts version w.entries, x.shard = s.shardFor x.key ∧ x.version = version :=
    fun x hx => ⟨(shard_of_mem_inserts hx).1, (shard_of_mem_inserts hx).2.1⟩
  have hfold := h.foldl_insert version hplaced
  rw [VersionMap.setAll_perm m version (s.inserts_perm version w.entries) w.nodup] at hfold
  rw [setMany_eq_foldl]
  exact hfold

theorem Holds.get_eq (h : s.Holds m) (version : ℕ) (key : String) :
    s.get version key = m.get version key := by
  rw [h.sound.get_eq_latest, VersionMap.get, latest_congr fun u _ => h.history key u]

theorem Holds.existsBetween_eq (h : s.Holds m) (low high : ℕ) (key : String) :
    s.existsBetween low high key = m.existsBetween low high key := by
  rw [Bool.eq_iff_iff, h.sound.existsBetween_iff, VersionMap.existsBetween, decide_eq_true_eq]
  simp only [h.history, ne_eq, Finmap.lookup_eq_none, not_not, ← Finmap.mem_keys]
  constructor
  · rintro ⟨u, hlow, hhigh, hu⟩
    exact ⟨⟨key, u⟩, hu, rfl, hlow, hhigh⟩
  · rintro ⟨k, hk, rfl, hlow, hhigh⟩
    exact ⟨k.version, hlow, hhigh, hk⟩

/-! ### Every list of calls -/

/-- Shards that hold what a map holds answer a call as the map does, and hold the same afterwards. -/
theorem Holds.serve (h : s.Holds m) (c : Call) :
    (s.serve c).1 = (serveMap m c).1 ∧ (s.serve c).2.Holds (serveMap m c).2 := by
  cases c with
  | set version key value => exact ⟨rfl, h.set version key value⟩
  | setMany version writes => exact ⟨rfl, h.setMany version writes⟩
  | get version key => exact ⟨congrArg Answer.value (h.get_eq version key), h⟩
  | getMany version keys =>
      refine ⟨congrArg Answer.values ?_, h⟩
      rw [getMany_eq_map_get]
      exact List.map_congr_left fun key _ => h.get_eq version key
  | existsBetween low high key => exact ⟨congrArg Answer.found (h.existsBetween_eq low high key), h⟩
  | versionCount => exact ⟨congrArg Answer.count h.versionCount, h⟩

theorem Holds.answers (h : s.Holds m) (calls : List Call) :
    Shards.answers Shards.serve s calls = Shards.answers serveMap m calls := by
  induction calls generalizing s m with
  | nil => rfl
  | cons c calls ih =>
      obtain ⟨hanswer, hnext⟩ := h.serve c
      rw [Shards.answers, Shards.answers, hanswer, ih hnext]

theorem Holds.after (h : s.Holds m) (calls : List Call) :
    (Shards.after Shards.serve s calls).Holds (Shards.after serveMap m calls) := by
  induction calls generalizing s m with
  | nil => exact h
  | cons c calls ih => exact ih (h.serve c).2

/-- No list of calls can tell how many shards there are: new shards, as many as there may be, answer it
as a single one does, and as one map does that was empty at first.  Recording the writes of a
transaction at a version is setting its keys there in any order: no call sees a difference later. -/
theorem sharding_invisible {count : ℕ} (hcount : 0 < count) (towers single : ℕ → ℕ → Height) :
    ∃ many one, create count towers = .ok many ∧ create 1 single = .ok one ∧
      ∀ calls,
        answers serve many calls = answers serve one calls ∧
        answers serve many calls = answers serveMap ∅ calls ∧
        ∀ version (writes : Writes) (order : List (String × Option String)) later,
          order.Perm writes.entries →
          answers serve ((after serve many calls).setMany version writes) later =
            answers serve (order.foldl (fun t w => t.set version w.1 w.2) (after serve many calls))
              later := by
  obtain ⟨many, hmany⟩ : ∃ many, create count towers = .ok many := ⟨_, dif_pos hcount⟩
  obtain ⟨one, hone⟩ : ∃ one, create 1 single = .ok one := ⟨_, dif_pos Nat.one_pos⟩
  refine ⟨many, one, hmany, hone, fun calls => ⟨?_, (Holds.create hmany).answers calls, ?_⟩⟩
  · rw [(Holds.create hmany).answers, (Holds.create hone).answers]
  · intro version writes order later horder
    have hafter := (Holds.create hmany).after calls
    rw [(hafter.setMany version writes).answers, (hafter.foldl_set version order).answers,
      VersionMap.setAll_perm _ version horder writes.nodup]

/-! ### Three shards -/

/-- A value, a delete and another value. -/
def sampleWrites : Writes := ⟨[("tide", some "2"), ("wave", none), ("ebb", some "3")], by decide⟩

/-- Two versions of a key, the second one among the writes of a transaction, and questions for them. -/
def sampleCalls : List Call :=
  [.set 1 "wave" (some "1"), .setMany 4 sampleWrites, .get 3 "wave", .get 4 "wave",
    .getMany 4 ["tide", "wave", "flood", "tide"], .existsBetween 1 4 "wave", .existsBetween 4 9 "wave",
    .set 4 "tide" none, .versionCount]

/-- Three shards answer the calls, and record the writes as if they were set in the opposite order. -/
theorem sharding_invisible_sample : ∃ many : Shards,
    create 3 (fun _ => Height.ruler) = .ok many ∧
    answers serve many sampleCalls = [.done, .done, .value (some "1"), .value none,
      .values [some "2", none, none, some "2"], .found true, .found false, .done, .count 4] ∧
    answers serve ((after serve many [.set 1 "wave" (some "1")]).setMany 4 sampleWrites) sampleCalls =
      answers serve (sampleWrites.entries.reverse.foldl (fun t w => t.set 4 w.1 w.2)
        (after serve many [.set 1 "wave" (some "1")])) sampleCalls := by
  obtain ⟨many, one, hmany, -, hcalls⟩ := sharding_invisible (show 0 < 3 by decide)
    (fun _ => Height.ruler) (fun _ => Height.ruler)
  obtain ⟨-, hmap, -⟩ := hcalls sampleCalls
  obtain ⟨-, -, horder⟩ := hcalls [.set 1 "wave" (some "1")]
  exact ⟨many, hmany, hmap.trans (by decide +kernel),
    horder 4 sampleWrites _ _ (List.reverse_perm _)⟩

end Shards
end SnapshotStore

import SnapshotStore.Table
import Mathlib.Data.List.Nodup

/-! # Look-ups and entries

The keys of a table are distinct, so a look-up finds a value exactly when the table has the entry
(`get?_eq_some_iff`), and texts that are keys come in a strict order when they are sorted. -/

namespace SnapshotStore
namespace Table

variable {κ ν : Type} [DecidableEq κ] (t : Table κ ν)

theorem get?_eq_some_iff {k : κ} {v : ν} : t.get? k = some v ↔ (k, v) ∈ t.entries := by
  rw [get?, Option.map_eq_some_iff]
  constructor
  · rintro ⟨⟨k', v'⟩, he, rfl⟩
    obtain rfl : k' = k := by simpa using List.find?_some he
    exact List.mem_of_find?_eq_some he
  · intro hm
    obtain ⟨e, he⟩ := Option.isSome_iff_exists.mp
      (List.find?_isSome.mpr ⟨(k, v), hm, by simp⟩ :
        (t.entries.find? fun e => e.1 = k).isSome)
    have hk : e.1 = k := by simpa using List.find?_some he
    have heq : e = (k, v) :=
      List.inj_on_of_nodup_map t.nodup (List.mem_of_find?_eq_some he) hm hk
    exact ⟨e, he, by rw [heq]⟩

theorem get?_insert_of_ne {k j : κ} (h : j ≠ k) (v : ν) : (t.insert k v).get? j = t.get? j := by
  rw [get?_insert, if_neg h]

theorem get?_eq_none_iff {k : κ} : t.get? k = none ↔ k ∉ t.keys := by
  rw [mem_keys_iff, Option.eq_none_iff_forall_ne_some]
  simp

theorem get?_filter (p : κ → ν → Bool) (k : κ) :
    (t.filter p).get? k = (t.get? k).filter (p k) := by
  ext v
  rw [get?_eq_some_iff, Option.filter_eq_some_iff, get?_eq_some_iff]
  simp [filter]

theorem size_insert_of_none {k : κ} (h : t.get? k = none) (v : ν) :
    (t.insert k v).size = t.size + 1 := by
  have hkeep : t.entries.filter (fun e => e.1 ≠ k) = t.entries := by
    rw [List.filter_eq_self]
    intro e he
    have hmem : e.1 ∈ t.keys := List.mem_map_of_mem he
    have hne : e.1 ≠ k := fun heq => t.get?_eq_none_iff.mp h (heq ▸ hmem)
    exact decide_eq_true hne
  simp only [size, insert, erase, hkeep, List.length_cons]

theorem pairwise_mergeSort_keys (t : Table String ν) :
    (t.keys.mergeSort fun a b => !(b < a : Bool)).Pairwise (· < ·) := by
  have hle {a b : String} : (!decide (b < a)) = true ↔ a ≤ b := by
    rw [Bool.not_eq_true', decide_eq_false_iff_not, String.not_lt]
  have hsorted : (t.keys.mergeSort fun a b => !(b < a : Bool)).Pairwise (· ≤ ·) := by
    refine (List.pairwise_mergeSort (fun a b c hab hbc => ?_) (fun a b => ?_) t.keys).imp hle.mp
    · exact hle.mpr (String.le_trans (hle.mp hab) (hle.mp hbc))
    · rw [Bool.or_eq_true, hle, hle]
      exact String.le_total a b
  have hnodup : (t.keys.mergeSort fun a b => !(b < a : Bool)).Nodup :=
    (List.mergeSort_perm t.keys _).nodup_iff.mpr t.nodup
  exact (hsorted.and hnodup).imp fun ⟨h, hne⟩ =>
    String.not_le.mp fun hge => hne (String.le_antisymm h hge)

end Table
end SnapshotStore

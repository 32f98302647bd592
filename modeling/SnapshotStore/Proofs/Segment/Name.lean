import SnapshotStore.Segment.Archive
import SnapshotStore.Proofs.Text.Words
import Mathlib.Data.List.Basic
import Mathlib.Data.String.Basic
import Mathlib.Tactic.IntervalCases

/-! # What segment names look like

A segment name is the stem, the digits of its number and the extension (`id?_eq_some_iff`), so the
temporary file of a segment is never taken for a segment itself (`id?_temporary`).  The name of a number
gives the number back (`id?_name`) and the number of a name the name (`eq_name_of_id?`), and names are in
the order of their numbers (`name_lt_name`). -/

namespace SnapshotStore
namespace Segment

theorem id?_eq_some_iff {s : String} {n : ℕ} :
    id? s = some n ↔ ∃ digits, s.toList = stem.toList ++ digits ++ extension.toList ∧
      digits.length = idWidth ∧ digits.all Char.isDigit ∧ Size.decimal digits = n ∧
      n < Wire.wordLimit := by
  simp only [id?, Option.bind_eq_some_iff, Text.isPrefixOf?_eq_some_iff,
    Text.isSuffixOf?_eq_some_iff]
  constructor
  · rintro ⟨rest, hs, digits, rfl, h⟩
    split at h
    · next hd =>
      obtain rfl := Option.some.inj h
      exact ⟨digits, by rw [hs, List.append_assoc], hd.1, hd.2.1, rfl, hd.2.2⟩
    · cases h
  · rintro ⟨digits, hs, hlength, hall, rfl, hlimit⟩
    exact ⟨_, by rw [hs, List.append_assoc], digits, rfl, if_pos ⟨hlength, hall, hlimit⟩⟩

theorem id?_temporary (name : String) : id? (temporary name) = none := by
  rw [Option.eq_none_iff_forall_ne_some]
  intro n hn
  obtain ⟨digits, hs, -⟩ := id?_eq_some_iff.mp hn
  have hlast := congrArg List.getLast? hs
  simp [temporary, extension] at hlast

theorem checkName_of_id? {name : String} {n : ℕ} (h : id? name = some n) :
    checkName name = .ok n := by rw [checkName, h]

/-! ### Names of numbers -/

theorem length_decimals (width n : ℕ) : (decimals width n).length = width := by
  induction width generalizing n with
  | zero => rfl
  | succ width ih => rw [decimals, List.length_append, ih]; rfl

theorem isDigit_ofNat {d : ℕ} (h : d < 10) : (Char.ofNat ('0'.toNat + d)).isDigit = true := by
  interval_cases d <;> rfl

theorem toNat_ofNat_sub {d : ℕ} (h : d < 10) :
    (Char.ofNat ('0'.toNat + d)).toNat - '0'.toNat = d := by
  interval_cases d <;> rfl

theorem ofNat_lt_ofNat {d e : ℕ} (h : d < e) (he : e < 10) :
    Char.ofNat ('0'.toNat + d) < Char.ofNat ('0'.toNat + e) := by
  interval_cases e <;> interval_cases d <;> decide

theorem all_isDigit_decimals (width n : ℕ) : (decimals width n).all Char.isDigit = true := by
  induction width generalizing n with
  | zero => rfl
  | succ width ih =>
      rw [decimals, List.all_append, ih, List.all_cons, isDigit_ofNat (Nat.mod_lt _ (by decide))]
      rfl

theorem decimal_decimals {width n : ℕ} (h : n < 10 ^ width) :
    Size.decimal (decimals width n) = n := by
  induction width generalizing n with
  | zero =>
      obtain rfl : n = 0 := by simpa using h
      rfl
  | succ width ih =>
      have hdiv : n / 10 < 10 ^ width := by
        rw [Nat.div_lt_iff_lt_mul (by decide), ← Nat.pow_succ]
        exact h
      have ih := ih hdiv
      unfold Size.decimal at ih ⊢
      rw [decimals, List.foldl_append, ih, List.foldl_cons, List.foldl_nil,
        toNat_ofNat_sub (Nat.mod_lt _ (by decide))]
      omega

theorem append_lt_append {l m : List Char} (h : l < m) (hlength : l.length = m.length)
    (l' m' : List Char) : l ++ l' < m ++ m' := by
  induction l generalizing m with
  | nil =>
      obtain rfl := List.length_eq_zero_iff.mp hlength.symm
      exact absurd h (List.lt_irrefl _)
  | cons c l ih =>
      cases m with
      | nil => simp at hlength
      | cons d m =>
          rw [List.cons_append, List.cons_append, List.cons_lt_cons_iff]
          rcases List.cons_lt_cons_iff.mp h with hlt | ⟨rfl, hlt⟩
          · exact .inl hlt
          · exact .inr ⟨rfl, ih hlt (Nat.succ.inj hlength)⟩

/-- Padded digits are in the order of their numbers. -/
theorem decimals_lt_decimals {width m n : ℕ} (h : m < n) (hn : n < 10 ^ width) :
    decimals width m < decimals width n := by
  induction width generalizing m n with
  | zero =>
      obtain rfl : n = 0 := by simpa using hn
      simp at h
  | succ width ih =>
      rw [decimals, decimals]
      rcases Nat.lt_or_ge (m / 10) (n / 10) with hlt | hle
      · have hdiv : n / 10 < 10 ^ width := by
          rw [Nat.div_lt_iff_lt_mul (by decide), ← Nat.pow_succ]
          exact hn
        exact append_lt_append (ih hlt hdiv) (by rw [length_decimals, length_decimals]) _ _
      · have heq : m / 10 = n / 10 := by omega
        rw [heq]
        refine List.append_left_lt (List.cons_lt_cons_iff.mpr (.inl ?_))
        exact ofNat_lt_ofNat (by omega) (by omega)

theorem toList_name (n : ℕ) :
    (name n).toList = stem.toList ++ decimals idWidth n ++ extension.toList := by
  rw [name, String.toList_append, String.toList_append, String.toList_ofList]

theorem lt_pow_of_lt {n : ℕ} (h : n < Wire.wordLimit) : n < 10 ^ idWidth :=
  Nat.lt_trans h (by decide)

/-- The name of a number that fits gives the number back. -/
theorem id?_name {n : ℕ} (h : n < Wire.wordLimit) : id? (name n) = some n :=
  id?_eq_some_iff.mpr ⟨decimals idWidth n, toList_name n, length_decimals .., all_isDigit_decimals ..,
    decimal_decimals (lt_pow_of_lt h), h⟩

/-- Names are in the order of their numbers. -/
theorem name_lt_name {m n : ℕ} (h : m < n) (hn : n < Wire.wordLimit) : name m < name n := by
  rw [String.lt_iff_toList_lt, toList_name, toList_name, List.append_assoc, List.append_assoc]
  refine List.append_left_lt (append_lt_append ?_ ?_ _ _)
  · exact decimals_lt_decimals h (lt_pow_of_lt hn)
  · rw [length_decimals, length_decimals]

theorem toNat_of_isDigit {c : Char} (h : c.isDigit = true) :
    '0'.toNat ≤ c.toNat ∧ c.toNat < '0'.toNat + 10 := by
  simp only [Char.isDigit, Bool.and_eq_true, decide_eq_true_eq, ge_iff_le] at h
  exact ⟨h.1, Nat.lt_succ_of_le h.2⟩

/-- Digits are those of their number. -/
theorem decimals_decimal {width : ℕ} {digits : List Char} (hlength : digits.length = width)
    (hall : digits.all Char.isDigit = true) : decimals width (Size.decimal digits) = digits := by
  induction width generalizing digits with
  | zero =>
      obtain rfl := List.length_eq_zero_iff.mp hlength
      rfl
  | succ width ih =>
      rcases List.eq_nil_or_concat digits with rfl | ⟨digits', c, rfl⟩
      · simp at hlength
      · rw [List.concat_eq_append] at hlength hall ⊢
        simp only [List.all_append, List.all_cons, List.all_nil, Bool.and_eq_true] at hall
        have hc := toNat_of_isDigit hall.2.1
        have ih := ih (by simpa using hlength) hall.1
        unfold Size.decimal at ih ⊢
        rw [List.foldl_append, List.foldl_cons, List.foldl_nil, decimals]
        have hdiv (n : ℕ) : (n * 10 + (c.toNat - '0'.toNat)) / 10 = n := by omega
        have hmod (n : ℕ) : '0'.toNat + (n * 10 + (c.toNat - '0'.toNat)) % 10 = c.toNat := by omega
        rw [hdiv, hmod, ih, Char.ofNat_toNat]

/-- A segment name is the name of its number. -/
theorem eq_name_of_id? {s : String} {n : ℕ} (h : id? s = some n) : s = name n := by
  obtain ⟨digits, hs, hlength, hall, rfl, -⟩ := id?_eq_some_iff.mp h
  rw [← String.toList_inj, hs, toList_name, decimals_decimal hlength hall]

theorem empty_lt_of_id? {s : String} {n : ℕ} (h : id? s = some n) : "" < s := by
  rw [eq_name_of_id? h, String.lt_iff_toList_lt, toList_name]
  exact List.nil_lt_cons ..

end Segment
end SnapshotStore

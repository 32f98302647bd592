import SnapshotStore.Size
import SnapshotStore.Proofs.Text.Words
import Mathlib.Data.List.Induction
import Mathlib.Data.Nat.Digits.Defs

/-! # Reading sizes

A text gives a size if it is a number in decimal digits and a unit, with blanks around and between them
(`Gives`).  The reader finds these digits and this unit (`parts_of_spells`), so a text is read as the number
of bytes that it gives, if the number and the bytes fit in eight bytes each, and refused otherwise
(`sizes_read_exactly`). -/

namespace SnapshotStore
namespace Size

open Text (IsGap IsWord Recased isBlank trim)

variable {input symbol : String} {digits unit gap : List Char} {value factor n : ℕ} {c : Char}

/-! ### Numbers and units -/

theorem decimal_eq_ofDigits (digits : List Char) :
    decimal digits = Nat.ofDigits 10 (digits.reverse.map fun c => c.toNat - '0'.toNat) := by
  induction digits using List.reverseRecOn with
  | nil => rfl
  | append_singleton digits c ih =>
      unfold decimal at ih ⊢
      rw [List.foldl_append, ih, List.reverse_append, List.reverse_singleton, List.singleton_append,
        List.map_cons, Nat.ofDigits_cons, List.foldl_cons, List.foldl_nil]
      show _ * 10 + _ = _ + 10 * _
      omega

/-- The units in capitals, with the number of bytes that each stands for. -/
def units : List (String × ℕ) := [("", 1), ("B", 1), ("KB", 2 ^ 10), ("MB", 2 ^ 20), ("GB", 2 ^ 30)]

theorem unitFactor?_eq_some_iff : unitFactor? symbol = some factor ↔ (symbol, factor) ∈ units := by
  constructor
  · intro h
    unfold unitFactor? at h
    split at h
    · next hsymbol => obtain rfl | rfl := hsymbol <;> cases h <;> decide
    · split at h
      · next hsymbol => cases hsymbol; cases h; decide
      · split at h
        · next hsymbol => cases hsymbol; cases h; decide
        · split at h
          · next hsymbol => cases hsymbol; cases h; decide
          · cases h
  · intro h
    simp only [units, List.mem_cons, Prod.mk.injEq, List.not_mem_nil, or_false] at h
    obtain ⟨rfl, rfl⟩ | ⟨rfl, rfl⟩ | ⟨rfl, rfl⟩ | ⟨rfl, rfl⟩ | ⟨rfl, rfl⟩ := h <;> rfl

theorem map_toUpper_of_mem_units (h : (symbol, factor) ∈ units) :
    symbol.toList.map Char.toUpper = symbol.toList := by
  have hall : ∀ u ∈ units, u.1.toList.map Char.toUpper = u.1.toList := by decide
  exact hall _ h

theorem isBlank_of_toNat (hlow : 33 ≤ c.toNat) (hhigh : c.toNat ≤ 126) : isBlank c = false := by
  unfold isBlank
  simp only [Bool.or_eq_false_iff, Bool.and_eq_false_iff, decide_eq_false_iff_not, beq_eq_false_iff_ne]
  omega

theorem isBlank_of_isDigit (h : c.isDigit = true) : isBlank c = false := by
  have hrange : 48 ≤ c.toNat ∧ c.toNat ≤ 57 := Char.isDigit_iff_toNat.mp h
  exact isBlank_of_toNat (by omega) (by omega)

/-- Neither a blank nor a digit. -/
def IsLetter (c : Char) : Prop := isBlank c = false ∧ c.isDigit = false

/-- A unit in any case is made of letters. -/
theorem isLetter_of_recased (h : (symbol, factor) ∈ units) (hunit : Recased unit symbol.toList) :
    ∀ c ∈ unit, IsLetter c := by
  have hcapitals : (units.all fun u => u.1.toList.all Char.isUpper) = true := by decide
  have hcapitals := List.all_eq_true.mp (List.all_eq_true.mp hcapitals _ h)
  have hupper : unit.map Char.toUpper = symbol.toList :=
    (Text.map_toUpper_eq_iff.mpr hunit).trans (map_toUpper_of_mem_units h)
  intro c hc
  have hcapital := hcapitals c.toUpper (hupper ▸ List.mem_map_of_mem hc)
  rw [Text.isUpper_iff_toNat, Text.toNat_toUpper] at hcapital
  have hrange : 65 ≤ c.toNat ∧ c.toNat ≤ 122 := by
    split at hcapital <;> omega
  refine ⟨isBlank_of_toNat (by omega) (by omega), ?_⟩
  rw [Bool.eq_false_iff]
  intro hdigit
  have hhigh : c.toNat ≤ 57 := (Char.isDigit_iff_toNat.mp hdigit).2
  omega

/-! ### The parts of a text -/

/-- The digits that a text starts with. -/
def digitsOf (input : String) : List Char := (trim input.toList).takeWhile Char.isDigit

/-- What follows the first digits of a text, without the blanks around it. -/
def unitOf (input : String) : List Char := trim ((trim input.toList).dropWhile Char.isDigit)

/-- A text of some digits and a unit, with blanks around and between them. -/
def Spells (input : String) (digits unit : List Char) : Prop :=
  ∃ before gap after, IsGap before ∧ IsGap gap ∧ IsGap after ∧
    input.toList = before ++ digits ++ gap ++ unit ++ after

theorem spells_parts (input : String) : Spells input (digitsOf input) (unitOf input) := by
  obtain ⟨before, after, hbefore, hafter, hinput, -⟩ :=
    Text.trim_eq_iff.mp (rfl : trim input.toList = trim input.toList)
  obtain ⟨gap, last, hgap, hlast, hrest, -⟩ :=
    Text.trim_eq_iff.mp (rfl : trim ((trim input.toList).dropWhile Char.isDigit) = unitOf input)
  refine ⟨before, gap, last ++ after, hbefore, hgap, List.forall_mem_append.mpr ⟨hlast, hafter⟩, ?_⟩
  rw [hinput, ← List.takeWhile_append_dropWhile (p := Char.isDigit) (l := trim input.toList), hrest]
  simp only [List.append_assoc]
  rfl

/-- The reader finds the digits and the unit. -/
theorem parts_of_spells (h : Spells input digits unit) (hne : digits ≠ [])
    (hdigits : ∀ c ∈ digits, c.isDigit = true) (hunit : ∀ c ∈ unit, IsLetter c) :
    digitsOf input = digits ∧ unitOf input = unit := by
  obtain ⟨before, gap, after, hbefore, hgap, hafter, hinput⟩ := h
  have hword : IsWord digits := ⟨hne, fun c hc => isBlank_of_isDigit (hdigits c hc)⟩
  obtain ⟨gap', hgap', htrim⟩ : ∃ gap', IsGap gap' ∧ trim input.toList = digits ++ (gap' ++ unit) := by
    cases unit with
    | nil =>
        refine ⟨[], by simp [IsGap], Text.trim_eq_iff.mpr ⟨before, gap ++ after, hbefore,
          List.forall_mem_append.mpr ⟨hgap, hafter⟩, ?_, ?_⟩⟩
        · simpa using hinput
        · simpa using Text.trimmed_of_forall hword.2
    | cons c unit =>
        refine ⟨gap, hgap, Text.trim_eq_iff.mpr ⟨before, after, hbefore, hafter, ?_, ?_⟩⟩
        · simpa using hinput
        · exact Text.trimmed_append hword ⟨by simp, fun d hd => (hunit d hd).1⟩ gap
  have hstop : ∀ c ∈ (gap' ++ unit).head?, c.isDigit = false := by
    intro c hc
    obtain hc | hc := List.mem_append.mp (List.mem_of_mem_head? hc)
    · rw [Bool.eq_false_iff]
      intro hdigit
      simpa [hgap' c hc] using isBlank_of_isDigit hdigit
    · exact (hunit c hc).2
  unfold unitOf digitsOf
  rw [htrim, Text.takeWhile_append_of_stop hdigits hstop, Text.dropWhile_append_of_stop hdigits hstop]
  refine ⟨rfl, Text.trim_eq_iff.mpr ⟨gap', [], hgap', by simp [IsGap], by simp, ?_⟩⟩
  exact Text.trimmed_of_forall fun c hc => (hunit c hc).1

/-! ### Sizes -/

/-- A text that gives a size: a number in digits, and a unit in any ASCII case that stands for some number of
bytes. -/
def Gives (input : String) (value factor : ℕ) : Prop :=
  ∃ digits unit symbol, Spells input digits unit ∧ digits ≠ [] ∧ (∀ c ∈ digits, c.isDigit = true) ∧
    Nat.ofDigits 10 (digits.reverse.map fun c => c.toNat - '0'.toNat) = value ∧
    (symbol, factor) ∈ units ∧ Recased unit symbol.toList

theorem gives_iff : Gives input value factor ↔ digitsOf input ≠ [] ∧ decimal (digitsOf input) = value ∧
    unitFactor? (String.ofList ((unitOf input).map Char.toUpper)) = some factor := by
  constructor
  · rintro ⟨digits, unit, symbol, hspells, hne, hdigits, hvalue, hmem, hunit⟩
    obtain ⟨rfl, rfl⟩ := parts_of_spells hspells hne hdigits (isLetter_of_recased hmem hunit)
    have hsymbol : String.ofList ((unitOf input).map Char.toUpper) = symbol := by
      rw [Text.map_toUpper_eq_iff.mpr hunit, map_toUpper_of_mem_units hmem, String.ofList_toList]
    exact ⟨hne, (decimal_eq_ofDigits _).trans hvalue, hsymbol ▸ unitFactor?_eq_some_iff.mpr hmem⟩
  · rintro ⟨hne, hvalue, hfactor⟩
    have hmem := unitFactor?_eq_some_iff.mp hfactor
    refine ⟨_, _, _, spells_parts input, hne, fun c hc => List.mem_takeWhile_imp hc,
      (decimal_eq_ofDigits _).symm.trans hvalue, hmem, Text.map_toUpper_eq_iff.mp ?_⟩
    rw [map_toUpper_of_mem_units hmem, String.toList_ofList]

/-- A text is read as the number of bytes that it gives. -/
theorem parse_eq_ok_iff : parse input = .ok n ↔ ∃ value factor, Gives input value factor ∧
    value < 2 ^ 64 ∧ value * factor < 2 ^ 64 ∧ n = value * factor := by
  constructor
  · intro h
    unfold parse at h
    dsimp only at h
    split at h
    · cases h
    · next hdigits =>
      obtain ⟨hne, hvalue⟩ := not_or.mp hdigits
      split at h
      · cases h
      · next factor hfactor =>
        split at h
        · next hbytes =>
          obtain rfl := Except.ok.inj h
          exact ⟨_, factor, gives_iff.mpr ⟨hne, rfl, hfactor⟩, Nat.lt_of_not_le hvalue, hbytes, rfl⟩
        · cases h
  · rintro ⟨value, factor, hgives, hvalue, hbytes, rfl⟩
    obtain ⟨hne, rfl, hfactor⟩ := gives_iff.mp hgives
    have hdigits : ¬ (digitsOf input = [] ∨ Wire.wordLimit ≤ decimal (digitsOf input)) :=
      not_or.mpr ⟨hne, Nat.not_le_of_lt hvalue⟩
    unfold unitOf at hfactor
    unfold digitsOf at hdigits hbytes ⊢
    unfold parse
    dsimp only
    rw [if_neg hdigits, hfactor]
    exact if_pos hbytes

theorem ok_or_config (input : String) :
    (∃ n, parse input = .ok n) ∨ ∃ detail, parse input = .error (.config detail) := by
  unfold parse
  dsimp only
  split
  · exact .inr ⟨_, rfl⟩
  · split
    · exact .inr ⟨_, rfl⟩
    · split
      · exact .inl ⟨_, rfl⟩
      · exact .inr ⟨_, rfl⟩

/-- Sizes are read exactly: a text is read as a number of bytes if and only if it gives this number and both
it and the number in front of the unit fit in eight bytes.  Every other text is refused. -/
theorem sizes_read_exactly (input : String) :
    (∀ n, parse input = .ok n ↔ ∃ value factor, Gives input value factor ∧
      value < 2 ^ 64 ∧ value * factor < 2 ^ 64 ∧ n = value * factor) ∧
    ((∃ detail, parse input = .error (.config detail)) ↔ ¬ ∃ value factor, Gives input value factor ∧
      value < 2 ^ 64 ∧ value * factor < 2 ^ 64) := by
  refine ⟨fun n => parse_eq_ok_iff, ?_⟩
  constructor
  · rintro ⟨detail, hrefused⟩ ⟨value, factor, hgives, hvalue, hbytes⟩
    have hread := parse_eq_ok_iff.mpr ⟨value, factor, hgives, hvalue, hbytes, rfl⟩
    rw [hrefused] at hread
    cases hread
  · intro hnone
    obtain ⟨n, hread⟩ | hrefused := ok_or_config input
    · obtain ⟨value, factor, hgives, hvalue, hbytes, -⟩ := parse_eq_ok_iff.mp hread
      exact absurd ⟨value, factor, hgives, hvalue, hbytes⟩ hnone
    · exact hrefused

/-- Blanks and leading zeros do not matter, and a size just above the limit does not wrap around. -/
theorem sizes_read_exactly_sample :
    parse " 0512\u00a0kb " = .ok (512 * 2 ^ 10) ∧
    ∃ detail, parse "17179869184GB" = .error (.config detail) := by
  have hsmall : Gives " 0512\u00a0kb " 512 (2 ^ 10) := gives_iff.mpr (by decide +kernel)
  have hlarge : Gives "17179869184GB" (2 ^ 34) (2 ^ 30) := gives_iff.mpr (by decide +kernel)
  refine ⟨((sizes_read_exactly _).1 _).mpr ⟨512, 2 ^ 10, hsmall, by decide, by decide, rfl⟩, ?_⟩
  refine (sizes_read_exactly _).2.mpr ?_
  rintro ⟨value, factor, hgives, -, hbytes⟩
  obtain ⟨-, rfl, hfactor⟩ := gives_iff.mp hgives
  obtain ⟨-, hvalue, hfactor'⟩ := gives_iff.mp hlarge
  rw [hfactor] at hfactor'
  obtain rfl := Option.some.inj hfactor'
  rw [hvalue] at hbytes
  exact absurd hbytes (by decide)

end Size
end SnapshotStore

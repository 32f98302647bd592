import SnapshotStore.Text.Blank
import Mathlib.Data.List.Basic
import Mathlib.Data.List.Forall2
import Mathlib.Data.List.TakeWhile

/-! # Words, blanks and the case of letters

A text can have another one at its beginning or its end, with a rest (`isPrefixOf?_eq_some_iff`,
`isSuffixOf?_eq_some_iff`).

A text is made of words with gaps around them (`Spaced`), and `words` finds just these words
(`words_eq_iff`).  Taking the blanks off both ends leaves the part of the text between them (`trim_eq_iff`).

Two texts are alike in upper case if they are the same but for the case of ASCII letters
(`map_toUpper_eq_iff`). -/

namespace SnapshotStore
namespace Text

variable {cs ds w gap before after body rest : List Char} {ws : List (List Char)} {p : Char → Bool}
  {c d : Char}

/-! ### Runs -/

theorem takeWhile_append_of_stop (hrun : ∀ c ∈ cs, p c = true) (hstop : ∀ c ∈ rest.head?, p c = false) :
    (cs ++ rest).takeWhile p = cs := by
  rw [List.takeWhile_append_of_pos hrun]
  cases rest with
  | nil => simp
  | cons c rest =>
      have hc : p c = false := hstop c rfl
      simp [hc]

theorem dropWhile_append_of_stop (hrun : ∀ c ∈ cs, p c = true) (hstop : ∀ c ∈ rest.head?, p c = false) :
    (cs ++ rest).dropWhile p = rest := by
  rw [List.dropWhile_append_of_pos hrun]
  cases rest with
  | nil => rfl
  | cons c rest =>
      have hc : p c = false := hstop c rfl
      simp [hc]

theorem of_head?_dropWhile (h : c ∈ (cs.dropWhile p).head?) : p c = false := by
  have hhead := List.head?_dropWhile_not p cs
  rw [Option.mem_def] at h
  rwa [h] at hhead

/-! ### Beginnings and ends -/

/-- What follows a text at the beginning of another one. -/
theorem isPrefixOf?_eq_some_iff {l m rest : List Char} :
    l.isPrefixOf? m = some rest ↔ m = l ++ rest := by
  induction l generalizing m with
  | nil => simp [List.isPrefixOf?]
  | cons c l ih =>
      cases m with
      | nil => simp [List.isPrefixOf?]
      | cons d m =>
          rw [List.isPrefixOf?, List.cons_append, List.cons_eq_cons, ← ih]
          by_cases hcd : c = d
          · simp [hcd]
          · simp [hcd, Ne.symm hcd]

/-- What stands before a text at the end of another one. -/
theorem isSuffixOf?_eq_some_iff {l m rest : List Char} :
    l.isSuffixOf? m = some rest ↔ m = rest ++ l := by
  rw [List.isSuffixOf?, Option.map_eq_some_iff]
  constructor
  · rintro ⟨t, ht, rfl⟩
    rw [← List.reverse_inj, isPrefixOf?_eq_some_iff.mp ht]
    simp
  · rintro rfl
    exact ⟨rest.reverse, isPrefixOf?_eq_some_iff.mpr (by simp), by simp⟩

/-! ### Words -/

/-- Blanks and nothing else, or nothing at all. -/
def IsGap (cs : List Char) : Prop := ∀ c ∈ cs, isBlank c = true

/-- One character at least, and no blank among them. -/
def IsWord (cs : List Char) : Prop := cs ≠ [] ∧ ∀ c ∈ cs, isBlank c = false

/-- A text that is made of some words, with gaps before, between and after them.  A word goes on up to
the next blank or the end of the text. -/
inductive Spaced : List Char → List (List Char) → Prop
  | gap {gap : List Char} (hgap : IsGap gap) : Spaced gap []
  | word {gap w rest : List Char} {ws : List (List Char)} (hgap : IsGap gap) (hword : IsWord w)
      (hstop : ∀ c ∈ rest.head?, isBlank c = true) (hrest : Spaced rest ws) :
      Spaced (gap ++ w ++ rest) (w :: ws)

theorem Spaced.isWord (h : Spaced cs ws) : ∀ w ∈ ws, IsWord w := by
  induction h with
  | gap hgap => simp
  | word hgap hword hstop hrest ih => exact List.forall_mem_cons.mpr ⟨hword, ih⟩

theorem Spaced.cons (hc : isBlank c = true) (h : Spaced cs ws) : Spaced (c :: cs) ws := by
  cases h with
  | gap hgap => exact .gap (List.forall_mem_cons.mpr ⟨hc, hgap⟩)
  | @word gap w rest ws hgap hword hstop hrest =>
      have hgap : IsGap (c :: gap) := List.forall_mem_cons.mpr ⟨hc, hgap⟩
      have hspaced : Spaced (c :: gap ++ w ++ rest) (w :: ws) := .word hgap hword hstop hrest
      exact hspaced

theorem Spaced.of_isWord (hrest : Spaced rest ws) (hword : IsWord w)
    (hstop : ∀ c ∈ rest.head?, isBlank c = true) : Spaced (w ++ rest) (w :: ws) := by
  have hgap : IsGap ([] : List Char) := by simp [IsGap]
  exact .word hgap hword hstop hrest

theorem spaced_intercalate (h : ∀ w ∈ ws, IsWord w) : Spaced ([' '].intercalate ws) ws := by
  induction ws with
  | nil => exact .gap (by simp [IsGap])
  | cons w ws ih =>
      obtain ⟨hw, hws⟩ := List.forall_mem_cons.mp h
      cases ws with
      | nil =>
          have hend : Spaced [] [] := .gap (by simp [IsGap])
          simpa using hend.of_isWord hw (by simp)
      | cons v ws =>
          rw [List.intercalate_cons_cons, List.append_assoc]
          exact ((ih hws).cons (by decide)).of_isWord hw (by simp [isBlank])

theorem words_append_of_isGap (h : IsGap gap) (cs : List Char) : words (gap ++ cs) = words cs := by
  induction gap with
  | nil => rfl
  | cons c gap ih =>
      obtain ⟨hc, hgap⟩ := List.forall_mem_cons.mp h
      rw [List.cons_append, words, if_pos hc]
      exact ih hgap

theorem words_append_of_isWord (hword : IsWord w) (hstop : ∀ c ∈ rest.head?, isBlank c = true) :
    words (w ++ rest) = w :: words rest := by
  obtain ⟨hne, hword⟩ := hword
  cases w with
  | nil => exact absurd rfl hne
  | cons c w =>
      obtain ⟨hc, hw⟩ := List.forall_mem_cons.mp hword
      have hrun : ∀ d ∈ w, (!isBlank d) = true := fun d hd => by rw [hw d hd]; rfl
      have hstop' : ∀ d ∈ rest.head?, (!isBlank d) = false := fun d hd => by rw [hstop d hd]; rfl
      rw [List.cons_append, words, if_neg (by simp [hc]), takeWhile_append_of_stop hrun hstop',
        dropWhile_append_of_stop hrun hstop']

theorem spaced_words (cs : List Char) : Spaced cs (words cs) := by
  fun_induction words cs with
  | case1 => exact .gap (by simp [IsGap])
  | case2 c cs hc ih => exact ih.cons hc
  | case3 c cs hc ih =>
      have hword : IsWord (c :: cs.takeWhile (!isBlank ·)) := by
        refine ⟨by simp, List.forall_mem_cons.mpr ⟨by simpa using hc, fun d hd => ?_⟩⟩
        simpa using List.mem_takeWhile_imp hd
      have hstop : ∀ d ∈ (cs.dropWhile (!isBlank ·)).head?, isBlank d = true := by
        intro d hd
        simpa using of_head?_dropWhile hd
      have hspaced := ih.of_isWord hword hstop
      rwa [List.cons_append, List.takeWhile_append_dropWhile] at hspaced

/-- The words of a text are those that it is made of. -/
theorem words_eq_iff : words cs = ws ↔ Spaced cs ws := by
  constructor
  · rintro rfl
    exact spaced_words cs
  · intro h
    induction h with
    | @gap gap hgap => simpa [words] using words_append_of_isGap hgap []
    | word hgap hword hstop hrest ih =>
        rw [List.append_assoc, words_append_of_isGap hgap, words_append_of_isWord hword hstop, ih]

/-! ### Blanks at the ends -/

/-- A text that neither starts nor ends with a blank. -/
def Trimmed (cs : List Char) : Prop :=
  (∀ c ∈ cs.head?, isBlank c = false) ∧ ∀ c ∈ cs.getLast?, isBlank c = false

theorem trimmed_of_forall (h : ∀ c ∈ cs, isBlank c = false) : Trimmed cs :=
  ⟨fun c hc => h c (List.mem_of_mem_head? hc), fun c hc => h c (List.mem_of_mem_getLast? hc)⟩

theorem trimmed_append (hw : IsWord w) (hbody : IsWord body) (gap : List Char) :
    Trimmed (w ++ (gap ++ body)) := by
  constructor
  · intro c hc
    rw [List.head?_append_of_ne_nil _ hw.1] at hc
    exact hw.2 c (List.mem_of_mem_head? hc)
  · intro c hc
    rw [← List.append_assoc, List.getLast?_append_of_ne_nil _ hbody.1] at hc
    exact hbody.2 c (List.mem_of_mem_getLast? hc)

theorem IsGap.reverse (h : IsGap gap) : IsGap gap.reverse := fun c hc => h c (List.mem_reverse.mp hc)

theorem exists_gap_append_dropWhile (cs : List Char) : ∃ gap, IsGap gap ∧ cs = gap ++ cs.dropWhile isBlank :=
  ⟨cs.takeWhile isBlank, fun _ hc => List.mem_takeWhile_imp hc, List.takeWhile_append_dropWhile.symm⟩

/-- A text without the blanks around it is what it has between gaps. -/
theorem trim_eq_iff : trim cs = body ↔
    ∃ before after, IsGap before ∧ IsGap after ∧ cs = before ++ body ++ after ∧ Trimmed body := by
  constructor
  · rintro rfl
    obtain ⟨before, hbefore, hcs⟩ := exists_gap_append_dropWhile cs
    obtain ⟨after, hafter, hrest⟩ := exists_gap_append_dropWhile (cs.dropWhile isBlank).reverse
    have htrim : cs.dropWhile isBlank = trim cs ++ after.reverse := by
      rw [← List.reverse_inj, List.reverse_append, List.reverse_reverse, trim, List.reverse_reverse]
      exact hrest
    refine ⟨before, after.reverse, hbefore, hafter.reverse, ?_, ?_, ?_⟩
    · rw [List.append_assoc, ← htrim]
      exact hcs
    · intro c hc
      have hfirst : c ∈ (cs.dropWhile isBlank).head? := by
        rw [htrim, List.head?_append, Option.mem_def.mp hc]
        rfl
      exact of_head?_dropWhile hfirst
    · intro c hc
      rw [trim, List.getLast?_reverse] at hc
      exact of_head?_dropWhile hc
  · rintro ⟨before, after, hbefore, hafter, rfl, hhead, hlast⟩
    have hstop : ∀ c ∈ body.reverse.head?, isBlank c = false := by
      rwa [List.head?_reverse]
    unfold trim
    rw [List.append_assoc, List.dropWhile_append_of_pos hbefore]
    cases body with
    | nil =>
        have hnil : after.dropWhile isBlank = [] := List.dropWhile_eq_nil_iff.mpr hafter
        rw [List.nil_append, hnil]
        rfl
    | cons c body =>
        rw [List.cons_append, List.dropWhile_cons_of_neg (by simp [hhead c rfl]), ← List.cons_append,
          List.reverse_append, dropWhile_append_of_stop hafter.reverse hstop, List.reverse_reverse]

/-! ### Letters -/

/-- The same character, or the same ASCII letter in the other case: the small letters come 32 places after
the capitals. -/
def SameLetter (c d : Char) : Prop :=
  c = d ∨ c.isUpper = true ∧ d.toNat = c.toNat + 32 ∨ d.isUpper = true ∧ c.toNat = d.toNat + 32

/-- The same text but for the case of ASCII letters. -/
def Recased (cs ds : List Char) : Prop := List.Forall₂ SameLetter cs ds

theorem isUpper_iff_toNat : c.isUpper = true ↔ 65 ≤ c.toNat ∧ c.toNat ≤ 90 := decide_eq_true_iff

theorem toNat_toUpper (c : Char) :
    c.toUpper.toNat = if 97 ≤ c.toNat ∧ c.toNat ≤ 122 then c.toNat - 32 else c.toNat := by
  unfold Char.toUpper
  split
  · next h =>
    have h : 97 ≤ c.toNat ∧ c.toNat ≤ 122 := h
    rw [if_pos h]
    -- the difference of the letters is negative, so the sum wraps around
    have hsum : (c.val + ('A'.val - 'a'.val)).toNat = (c.toNat + (2 ^ 32 - 32)) % 2 ^ 32 :=
      UInt32.toNat_add ..
    have hlow : (c.toNat + (2 ^ 32 - 32)) % 2 ^ 32 = c.toNat - 32 := by omega
    exact hsum.trans hlow
  · next h => exact (if_neg h).symm

theorem toUpper_eq_iff : c.toUpper = d.toUpper ↔ SameLetter c d := by
  rw [← Char.toNat_inj, toNat_toUpper, toNat_toUpper, SameLetter, isUpper_iff_toNat, isUpper_iff_toNat,
    ← Char.toNat_inj]
  split <;> split <;> omega

/-- Texts that are alike in upper case differ in the case of ASCII letters only. -/
theorem map_toUpper_eq_iff : cs.map Char.toUpper = ds.map Char.toUpper ↔ Recased cs ds := by
  have hsame : SameLetter = fun c d => c.toUpper = d.toUpper := by
    funext c d
    exact propext toUpper_eq_iff.symm
  rw [Recased, hsame, ← List.forall₂_eq_eq_eq, List.forall₂_map_left_iff, List.forall₂_map_right_iff]

end Text
end SnapshotStore

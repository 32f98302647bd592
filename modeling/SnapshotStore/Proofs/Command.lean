import SnapshotStore.Command
import SnapshotStore.Proofs.Text.Words

/-! # Reading and printing commands

A line spells a keyword and some arguments if these are its words, the keyword in any ASCII case (`Spells`).
It is read as the command with this keyword and these arguments (`parse_eq_ok_iff`), and any other line has
its first fault named (`parse_eq_error_iff`).  A command that was read is printed in one form, which is read
as the same command (`parse_render`).

So a line is read exactly as the grammar has it, and neither the blanks nor the case of the keyword matter
(`commands_read_exactly`). -/

namespace SnapshotStore

open Text (Spaced Recased IsWord isBlank)

variable {line : String} {word : List Char} {rest : List (List Char)} {k : Keyword} {args : List String}
  {c : Command} {fault : Fault}

/-! ### Keywords -/

namespace Keyword

theorem isWord_text (k : Keyword) : IsWord k.text.toList := by
  have hne : k.text.toList ≠ [] := by cases k <;> decide
  have hletters : (k.text.toList.all fun c => !isBlank c) = true := by cases k <;> decide
  refine ⟨hne, ?_⟩
  intro c hc
  simpa using List.all_eq_true.mp hletters c hc

theorem map_toUpper_text (k : Keyword) : k.text.toList.map Char.toUpper = k.text.toList := by
  cases k <;> rfl

theorem ofWord?_eq_some_iff : ofWord? word = some k ↔ Recased word k.text.toList := by
  rw [← Text.map_toUpper_eq_iff, map_toUpper_text]
  unfold ofWord?
  constructor
  · intro h
    have htext := List.find?_some h
    exact (of_decide_eq_true htext).symm
  · intro h
    rw [h]
    cases k <;> rfl

theorem ofWord?_eq_none_iff : ofWord? word = none ↔ ∀ k : Keyword, ¬ Recased word k.text.toList := by
  rw [Option.eq_none_iff_forall_ne_some]
  exact forall_congr' fun k => not_congr ofWord?_eq_some_iff

end Keyword

namespace Command

/-! ### Arguments -/

theorem length_args (c : Command) : c.args.length = c.keyword.arity := by
  cases c <;> rfl

theorem exists_of_arity (h : args.length = k.arity) : ∃ c, ofArgs? k args = some c := by
  cases k with
  | get | del =>
      obtain ⟨key, rfl⟩ := List.length_eq_one_iff.mp h
      exact ⟨_, rfl⟩
  | set =>
      obtain ⟨key, value, rfl⟩ := List.length_eq_two.mp h
      exact ⟨_, rfl⟩
  | begin | commit | rollback =>
      obtain rfl := List.length_eq_zero_iff.mp h
      exact ⟨_, rfl⟩

theorem ofArgs?_eq_none_iff : ofArgs? k args = none ↔ args.length ≠ k.arity := by
  constructor
  · intro h harity
    obtain ⟨c, hc⟩ := exists_of_arity harity
    rw [h] at hc
    cases hc
  · intro h
    rw [Option.eq_none_iff_forall_ne_some]
    intro c hc
    obtain ⟨rfl, rfl⟩ := ofArgs?_eq_some_iff.mp hc
    exact h (length_args c)

/-! ### Lines -/

/-- A line of a keyword, in any ASCII case, and some arguments. -/
def Spells (line : String) (k : Keyword) (args : List String) : Prop :=
  ∃ word, Spaced line.toList (word :: args.map String.toList) ∧ Recased word k.text.toList

/-- Why a line is no command: it has no words, or its first word is no keyword, or the keyword takes another
number of arguments. -/
inductive Fails (line : String) : Fault → Prop
  | empty (h : Spaced line.toList []) : Fails line (.invalidCommand "empty command")
  | unknown {word : List Char} {rest : List (List Char)} (h : Spaced line.toList (word :: rest))
      (hword : ∀ k : Keyword, ¬ Recased word k.text.toList) :
      Fails line (.invalidCommand "bad command type")
  | amount {k : Keyword} {args : List String} (h : Spells line k args) (hlength : args.length ≠ k.arity) :
      Fails line (.invalidCommand "bad amount of args")

/-- A line has no words, or starts with a word that is no keyword, or with a keyword. -/
theorem line_cases (line : String) : Spaced line.toList [] ∨
    (∃ word rest, Spaced line.toList (word :: rest) ∧ ∀ k : Keyword, ¬ Recased word k.text.toList) ∨
      ∃ k args, Spells line k args := by
  have h := Text.spaced_words line.toList
  cases hwords : Text.words line.toList with
  | nil =>
      rw [hwords] at h
      exact .inl h
  | cons word rest =>
      rw [hwords] at h
      cases hk : Keyword.ofWord? word with
      | none => exact .inr (.inl ⟨word, rest, h, Keyword.ofWord?_eq_none_iff.mp hk⟩)
      | some k =>
          refine .inr (.inr ⟨k, rest.map String.ofList, word, ?_, Keyword.ofWord?_eq_some_iff.mp hk⟩)
          simpa [Function.comp_def] using h

theorem parse_of_empty (h : Spaced line.toList []) :
    parse line = .error (.invalidCommand "empty command") := by
  unfold parse
  rw [Text.words_eq_iff.mpr h]

theorem parse_of_unknown (h : Spaced line.toList (word :: rest))
    (hword : ∀ k : Keyword, ¬ Recased word k.text.toList) :
    parse line = .error (.invalidCommand "bad command type") := by
  unfold parse
  rw [Text.words_eq_iff.mpr h]
  simp only [Keyword.ofWord?_eq_none_iff.mpr hword]

theorem parse_of_spells (h : Spells line k args) : parse line =
    match ofArgs? k args with
    | none => .error (.invalidCommand "bad amount of args")
    | some c => .ok c := by
  obtain ⟨word, hspaced, hword⟩ := h
  have hargs : (args.map String.toList).map String.ofList = args := by simp [Function.comp_def]
  unfold parse
  rw [Text.words_eq_iff.mpr hspaced]
  cases hc : ofArgs? k args with
  | none => simp only [Keyword.ofWord?_eq_some_iff.mpr hword, hargs, hc]
  | some c => simp only [Keyword.ofWord?_eq_some_iff.mpr hword, hargs, hc]

/-- A command is read off the lines that spell it. -/
theorem parse_eq_ok_iff : parse line = .ok c ↔ Spells line c.keyword c.args := by
  constructor
  · intro h
    obtain hempty | ⟨word, rest, hspaced, hword⟩ | ⟨k, args, hspells⟩ := line_cases line
    · rw [parse_of_empty hempty] at h
      cases h
    · rw [parse_of_unknown hspaced hword] at h
      cases h
    · rw [parse_of_spells hspells] at h
      split at h
      · cases h
      · next c' hc =>
        obtain rfl := Except.ok.inj h
        obtain ⟨rfl, rfl⟩ := ofArgs?_eq_some_iff.mp hc
        exact hspells
  · intro h
    rw [parse_of_spells h, ofArgs?_keyword_args]

/-- Any other line has its first fault named. -/
theorem parse_eq_error_iff : parse line = .error fault ↔ Fails line fault := by
  constructor
  · intro h
    obtain hempty | ⟨word, rest, hspaced, hword⟩ | ⟨k, args, hspells⟩ := line_cases line
    · rw [parse_of_empty hempty] at h
      cases h
      exact .empty hempty
    · rw [parse_of_unknown hspaced hword] at h
      cases h
      exact .unknown hspaced hword
    · rw [parse_of_spells hspells] at h
      split at h
      · next hnone =>
        cases h
        exact .amount hspells (ofArgs?_eq_none_iff.mp hnone)
      · cases h
  · intro h
    cases h with
    | empty h => exact parse_of_empty h
    | unknown h hword => exact parse_of_unknown h hword
    | amount h hlength => rw [parse_of_spells h, ofArgs?_eq_none_iff.mpr hlength]

theorem exists_parse_iff : (∃ c, parse line = .ok c) ↔
    ∃ k args, Spells line k args ∧ args.length = k.arity := by
  constructor
  · rintro ⟨c, hc⟩
    exact ⟨c.keyword, c.args, parse_eq_ok_iff.mp hc, length_args c⟩
  · rintro ⟨k, args, hspells, harity⟩
    obtain ⟨c, hc⟩ := exists_of_arity harity
    exact ⟨c, by rw [parse_of_spells hspells, hc]⟩

/-! ### The canonical form -/

/-- A command that was read is read off its canonical line. -/
theorem parse_render (h : parse line = .ok c) : parse c.render = .ok c := by
  obtain ⟨word, hspaced, -⟩ := parse_eq_ok_iff.mp h
  have hwords : ∀ w ∈ c.keyword.text.toList :: c.args.map String.toList, IsWord w := by
    have hargs := (List.forall_mem_cons.mp hspaced.isWord).2
    exact List.forall_mem_cons.mpr ⟨c.keyword.isWord_text, hargs⟩
  have hline : c.render.toList = [' '].intercalate (c.keyword.text.toList :: c.args.map String.toList) := by
    rw [render, String.toList_intercalate, List.map_cons]
    rfl
  refine parse_eq_ok_iff.mpr ⟨c.keyword.text.toList, ?_, Text.map_toUpper_eq_iff.mp rfl⟩
  rw [hline]
  exact Text.spaced_intercalate hwords

theorem parse_congr {line' : String} {word' : List Char} (h : Spaced line.toList (word :: rest))
    (h' : Spaced line'.toList (word' :: rest)) (hword : Recased word word') : parse line' = parse line := by
  have hkeyword : Keyword.ofWord? word' = Keyword.ofWord? word := by
    unfold Keyword.ofWord?
    rw [Text.map_toUpper_eq_iff.mpr hword]
  unfold parse
  rw [Text.words_eq_iff.mpr h, Text.words_eq_iff.mpr h']
  simp only [hkeyword]

/-- Lines are read exactly as the grammar has it.

* A command is read off the lines that spell its keyword and arguments, and a line is some command if and
  only if it has as many arguments as its keyword takes.
* All other lines fail: those without words, those whose first word is no keyword, and those with a wrong
  number of arguments.
* A command that was read is read again off its canonical line, and is printed as this line.
* Two lines of the same words, but for the case of the first one, are read alike. -/
theorem commands_read_exactly (line : String) :
    (∀ c, parse line = .ok c ↔ Spells line c.keyword c.args) ∧
    ((∃ c, parse line = .ok c) ↔ ∃ k args, Spells line k args ∧ args.length = k.arity) ∧
    (∀ fault, parse line = .error fault ↔ Fails line fault) ∧
    (∀ c, parse line = .ok c →
      parse c.render = .ok c ∧ (parse c.render).map render = .ok c.render) ∧
    ∀ line' word word' rest, Spaced line.toList (word :: rest) → Spaced line'.toList (word' :: rest) →
      Recased word word' → parse line' = parse line := by
  refine ⟨fun _ => parse_eq_ok_iff, exists_parse_iff, fun _ => parse_eq_error_iff, ?_, ?_⟩
  · intro c hc
    have hagain := parse_render hc
    exact ⟨hagain, congrArg (Except.map render) hagain⟩
  · intro line' word word' rest h h' hword
    exact parse_congr h h' hword

/-- Tabs and a keyword in mixed case, and the same command in its canonical form. -/
theorem commands_read_exactly_sample :
    parse "  sEt   key\tvalue \n" = .ok (.set "key" "value") ∧
    parse (set "key" "value").render = .ok (.set "key" "value") ∧
    parse "set key  value" = parse "  sEt   key\tvalue \n" := by
  have hread : parse "  sEt   key\tvalue \n" = .ok (.set "key" "value") := by decide +kernel
  obtain ⟨-, -, -, hprint, halike⟩ := commands_read_exactly "  sEt   key\tvalue \n"
  refine ⟨hread, (hprint _ hread).1, ?_⟩
  refine halike "set key  value" "sEt".toList "set".toList ["key".toList, "value".toList] ?_ ?_ ?_
  · exact Text.words_eq_iff.mp (by decide +kernel)
  · exact Text.words_eq_iff.mp (by decide +kernel)
  · exact Text.map_toUpper_eq_iff.mp (by decide +kernel)

end Command
end SnapshotStore

import SnapshotStore.Reply
import SnapshotStore.Proofs.Text.Words
import Mathlib.Data.String.Basic

/-! # Reading replies back

The text of a reply does not say what kind of reply it is.  A status is read back as it was printed, and so is
a value, unless it is itself the text of a status (`IsStatus`, `parse_render_iff`). -/

namespace SnapshotStore
namespace Reply

variable {text reason : String} {cs rest : List Char}

/-- The text of a status: `OK`, `NIL`, or `ERROR(` any reason `)`. -/
def IsStatus (text : String) : Prop :=
  text = "OK" ∨ text = "NIL" ∨ ∃ reason, text = "ERROR(" ++ reason ++ ")"

theorem reason?_eq_some_iff : reason? cs = some rest ↔ cs = "ERROR(".toList ++ rest ++ ")".toList := by
  simp only [reason?, Option.bind_eq_some_iff, Text.isPrefixOf?_eq_some_iff,
    Text.isSuffixOf?_eq_some_iff]
  constructor
  · rintro ⟨_, rfl, rfl⟩
    exact (List.append_assoc ..).symm
  · rintro rfl
    exact ⟨_, List.append_assoc .., rfl⟩

theorem parse_error (reason : String) : parse ("ERROR(" ++ reason ++ ")") = error reason := by
  have htext : ("ERROR(" ++ reason ++ ")").toList = "ERROR(".toList ++ reason.toList ++ ")".toList := by
    rw [String.toList_append, String.toList_append]
  have hne {word : String} (hword : word.toList.head? ≠ some 'E') : "ERROR(" ++ reason ++ ")" ≠ word := by
    rintro rfl
    rw [htext] at hword
    exact hword rfl
  unfold parse
  rw [if_neg (hne (by decide)), if_neg (hne (by decide)), reason?_eq_some_iff.mpr htext]
  simp

theorem parse_of_not_isStatus (h : ¬ IsStatus text) : parse text = value text := by
  obtain ⟨hok, hnil, herror⟩ : text ≠ "OK" ∧ text ≠ "NIL" ∧ ¬ ∃ reason, text = "ERROR(" ++ reason ++ ")" := by
    simpa [IsStatus] using h
  have hreason : reason? text.toList = none := by
    rw [Option.eq_none_iff_forall_ne_some]
    intro rest hrest
    refine herror ⟨String.ofList rest, ?_⟩
    have htext : text.toList = "ERROR(".toList ++ rest ++ ")".toList := reason?_eq_some_iff.mp hrest
    rw [← String.ofList_toList (s := text), htext, String.ofList_append, String.ofList_append,
      String.ofList_toList, String.ofList_toList]
  unfold parse
  rw [if_neg hok, if_neg hnil, hreason]

theorem parse_ne_value_of_isStatus (h : IsStatus text) (v : String) : parse text ≠ value v := by
  obtain rfl | rfl | ⟨reason, rfl⟩ := h
  · exact Reply.noConfusion
  · exact Reply.noConfusion
  · rw [parse_error]
    exact Reply.noConfusion

theorem parse_value_iff : parse text = value text ↔ ¬ IsStatus text := by
  constructor
  · intro h hstatus
    exact parse_ne_value_of_isStatus hstatus text h
  · exact parse_of_not_isStatus

/-- A reply is read back as it was printed, if it is no value that is the text of a status. -/
theorem parse_render_iff (r : Reply) : parse r.render = r ↔ ∀ v, r = value v → ¬ IsStatus v := by
  cases r with
  | value text =>
      constructor
      · rintro h v ⟨⟩
        exact parse_value_iff.mp h
      · intro h
        exact parse_value_iff.mpr (h text rfl)
  | ok => exact iff_of_true rfl (by simp)
  | nil => exact iff_of_true rfl (by simp)
  | error reason => exact iff_of_true (parse_error reason) (by simp)

end Reply
end SnapshotStore

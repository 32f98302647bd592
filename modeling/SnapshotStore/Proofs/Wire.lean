import SnapshotStore.Record
import Mathlib.Data.List.Basic

/-! # Reading back what was written

`Reader.Reads r bytes a` says that a reader takes exactly the given bytes off the front of any stream,
and gives a value.  It composes (`Reads.bind`), so every writer has one lemma that says what its reader
gives: numbers, texts and lists that fit their length fields, and log records (`reads_record`).

A list is at least as long as any of its items (`length_le_length_list`), so the length fields inside a
value fit as soon as the value as a whole is short enough (`Record.sized_of_length_lt`). -/

namespace SnapshotStore
namespace Wire

/-! ### Lengths -/

theorem length_text (s : String) : (text s).length = 8 + (Text.encode s).length := by
  rw [text, List.length_append, length_word]

theorem length_list {α : Type} (item : α → Bytes) (xs : List α) :
    (list item xs).length = 8 + (xs.flatMap item).length := by
  rw [list, List.length_append, length_word]

/-- An item is no longer than the list that it is in. -/
theorem length_le_length_list {α : Type} {item : α → Bytes} {xs : List α} {x : α} (hx : x ∈ xs) :
    (item x).length ≤ (list item xs).length := by
  obtain ⟨A, B, rfl⟩ := List.append_of_mem hx
  rw [length_list, List.flatMap_append, List.flatMap_cons, List.length_append, List.length_append]
  omega

theorem length_items_le {α : Type} {item : α → Bytes} (h : ∀ x, 0 < (item x).length)
    (xs : List α) : xs.length ≤ (list item xs).length := by
  rw [length_list]
  induction xs with
  | nil => simp
  | cons x xs ih =>
      have hx := h x
      rw [List.flatMap_cons, List.length_append, List.length_cons]
      omega

/-! ### Values that fit -/

/-- A text with a number of bytes that fits its length field. -/
def FitsText (s : String) : Prop := (Text.encode s).length < wordLimit

/-- Values that fit, as many as the length field of a list can tell. -/
def FitsList {α : Type} (fits : α → Prop) (xs : List α) : Prop :=
  xs.length < wordLimit ∧ ∀ x ∈ xs, fits x

theorem fitsList_text {texts : List String} (h : (list text texts).length < wordLimit) :
    FitsList FitsText texts := by
  refine ⟨Nat.lt_of_le_of_lt (length_items_le (fun s => ?_) texts) h, fun s hs => ?_⟩
  · rw [length_text]
    omega
  · have hle : (text s).length ≤ (list text texts).length := length_le_length_list hs
    rw [length_text] at hle
    exact Nat.lt_of_le_of_lt (Nat.le_of_add_left_le hle) h

end Wire

/-- A record whose numbers and texts fit their fields. -/
def Record.Sized (r : Record) : Prop := r.fits = true ∧ Wire.FitsList Wire.FitsText r.args

theorem Record.sized_of_length_lt {r : Record} (hfits : r.fits = true)
    (h : r.encode.length < Wire.wordLimit) : r.Sized := by
  refine ⟨hfits, Wire.fitsList_text ?_⟩
  simp only [Record.encode, List.length_append] at h
  omega

namespace Wire
namespace Reader

/-- A reader takes some bytes off the front of any stream, and gives a value. -/
def Reads {α : Type} (r : Reader α) (bytes : Bytes) (a : α) : Prop :=
  ∀ rest, r.run (bytes ++ rest) = .ok (a, rest)

section reads
variable {α β : Type} {r : Reader α} {bytes bytes' : Bytes} {a : α} {b : β}

theorem Reads.pure (a : α) : Reads (Pure.pure a) [] a := fun _ => rfl

/-- One reader after the other. -/
theorem Reads.bind {f : α → Reader β} (h : Reads r bytes a) (hf : Reads (f a) bytes' b) :
    Reads (r >>= f) (bytes ++ bytes') b := by
  intro rest
  rw [List.append_assoc]
  show (do let (a, s) ← r.run (bytes ++ (bytes' ++ rest)); (f a).run s) = _
  rw [h]
  exact hf rest

theorem Reads.map {f : α → β} (h : Reads r bytes a) : Reads (do return f (← r)) bytes (f a) := by
  have := h.bind (f := fun a => Pure.pure (f a)) (.pure (f a))
  rwa [List.append_nil] at this

end reads

theorem reads_take (bytes : Bytes) (short : Problem) :
    Reads (take bytes.length short) bytes bytes := by
  intro rest
  show (if _ then _ else _) = _
  rw [if_neg (by rw [List.length_append]; omega), List.take_left, List.drop_left]

theorem reads_number {width n : ℕ} (h : n < span width) : Reads (number width) (word width n) n := by
  have htake := (reads_take (word width n) .shortData).map (f := value)
  rwa [length_word, value_word h] at htake

theorem reads_long {n : ℕ} (h : n < wordLimit) : Reads (number 8) (word 8 n) n :=
  reads_number (by rwa [span_eight])

theorem reads_text {s : String} (h : FitsText s) : Reads text (Wire.text s) s := by
  refine (reads_long h).bind ?_
  refine (congrArg (Reads _ · s) (List.append_nil (Text.encode s))).mp ?_
  refine (reads_take (Text.encode s) .shortText).bind ?_
  rw [Text.decode_encode]
  exact .pure s

theorem reads_many {α : Type} {item : Reader α} {write : α → Bytes} {xs : List α}
    (h : ∀ x ∈ xs, Reads item (write x) x) :
    Reads (many item xs.length) (xs.flatMap write) xs := by
  induction xs with
  | nil => exact .pure []
  | cons x xs ih =>
      rw [List.flatMap_cons]
      refine (h x (List.mem_cons_self ..)).bind ?_
      exact (ih fun y hy => h y (List.mem_cons_of_mem _ hy)).map

theorem reads_list {α : Type} {item : Reader α} {write : α → Bytes} {xs : List α}
    (hlength : xs.length < wordLimit) (h : ∀ x ∈ xs, Reads item (write x) x) :
    Reads (list item) (Wire.list write xs) xs :=
  (reads_long hlength).bind (reads_many h)

theorem reads_blob {bytes : Bytes} (h : bytes.length < wordLimit) :
    Reads blob (Wire.blob bytes) bytes := (reads_long h).bind (reads_take bytes .shortData)

theorem reads_flag (b : Bool) : Reads flag (Wire.flag b) b := by cases b <;> exact fun _ => rfl

theorem Reads.parse {α : Type} {r : Reader α} {bytes : Bytes} {a : α} (h : Reads r bytes a) :
    r.parse bytes = .ok a := by
  have hrun := h []
  rw [List.append_nil] at hrun
  rw [Reader.parse, hrun]

/-! ### Log records -/

theorem ofNumber?_number (kind : RecordKind) : RecordKind.ofNumber? kind.number = some kind := by
  cases kind <;> rfl

theorem number_lt (kind : RecordKind) : kind.number < span 4 := by
  cases kind <;> decide

theorem reads_record {r : Record} (h : r.Sized) : Reads Record.reader r.encode r := by
  obtain ⟨lsn, tx, kind, args⟩ := r
  obtain ⟨hfits, hlength, hargs⟩ := h
  simp only [Record.fits, Bool.and_eq_true, decide_eq_true_eq] at hfits
  unfold Record.encode Record.reader
  rw [List.append_assoc, List.append_assoc]
  refine (reads_long hfits.1).bind ((reads_long hfits.2).bind
    ((reads_number (number_lt kind)).bind ?_))
  rw [ofNumber?_number]
  exact (reads_list hlength fun s hs => reads_text (hargs s hs)).map

end Reader
end Wire
end SnapshotStore

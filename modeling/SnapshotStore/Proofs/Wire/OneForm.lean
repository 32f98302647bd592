import SnapshotStore.Journal.Framing
import SnapshotStore.Proofs.Wire
import SnapshotStore.Replication.Message

/-! # One wire form for every value

A reader is `Exact` for a writer if it takes a value off the front of some bytes exactly when the value
fits its fields and the bytes start with what the writer makes of it.  Numbers, flags, texts and raw bytes
have exact readers, and readers that are put together from exact ones are exact: field by field, and item
by item in a list.

So questions, answers and the records of a batch have one wire form each (`messages_have_one_form`): bytes
stand for a message exactly when they start with its form (`OneForm`). -/

namespace SnapshotStore
namespace Wire
namespace Reader

variable {α β : Type} {bytes rest : Bytes}

/-! ### Exact readers -/

/-- A reader that accepts what a writer makes of the values that fit, and nothing else. -/
structure Exact (r : Reader α) (write : α → Bytes) (fits : α → Prop) : Prop where
  reads : ∀ {a}, fits a → Reads r (write a) a
  eq_of_run : ∀ {bytes a rest}, r.run bytes = .ok (a, rest) → fits a ∧ bytes = write a ++ rest

theorem exists_of_run_bind {r : Reader α} {f : α → Reader β} {b : β}
    (h : (r >>= f).run bytes = .ok (b, rest)) :
    ∃ a mid, r.run bytes = .ok (a, mid) ∧ (f a).run mid = .ok (b, rest) := by
  have h : (do let (a, s) ← r.run bytes; (f a).run s) = Except.ok (b, rest) := h
  cases hr : r.run bytes with
  | error problem =>
      rw [hr] at h
      cases h
  | ok read =>
      rw [hr] at h
      exact ⟨read.1, read.2, rfl, h⟩

theorem eq_of_run_pure {a b : α} (h : (pure a : Reader α).run bytes = .ok (b, rest)) :
    a = b ∧ bytes = rest := Prod.mk.inj (Except.ok.inj h)

theorem eq_of_run_take {n : ℕ} {short : Problem} {taken : Bytes}
    (h : (take n short).run bytes = .ok (taken, rest)) :
    taken.length = n ∧ bytes = taken ++ rest := by
  have h : (if bytes.length < n then Except.error short
      else .ok (bytes.take n, bytes.drop n)) = .ok (taken, rest) := h
  split at h
  · cases h
  · next hle =>
    obtain ⟨rfl, rfl⟩ := Prod.mk.inj (Except.ok.inj h)
    refine ⟨?_, (List.take_append_drop n bytes).symm⟩
    rw [List.length_take]
    omega

theorem exact_number (width : ℕ) : Exact (number width) (word width) (· < span width) where
  reads := reads_number
  eq_of_run h := by
    obtain ⟨taken, mid, htake, hvalue⟩ := exists_of_run_bind h
    obtain ⟨rfl, rfl⟩ := eq_of_run_take htake
    obtain ⟨rfl, rfl⟩ := eq_of_run_pure hvalue
    exact ⟨value_lt taken, by rw [word_value]⟩

theorem eq_of_run_long {n : ℕ} (h : (number 8).run bytes = .ok (n, rest)) :
    n < wordLimit ∧ bytes = word 8 n ++ rest := by
  rw [← span_eight]
  exact (exact_number 8).eq_of_run h

theorem exact_flag : Exact flag Wire.flag (fun _ => True) where
  reads _ := reads_flag _
  eq_of_run h := by
    obtain ⟨n, mid, hn, hflag⟩ := exists_of_run_bind h
    obtain ⟨-, rfl⟩ := (exact_number 1).eq_of_run hn
    split at hflag
    · obtain ⟨rfl, rfl⟩ := eq_of_run_pure hflag
      exact ⟨trivial, rfl⟩
    · obtain ⟨rfl, rfl⟩ := eq_of_run_pure hflag
      exact ⟨trivial, rfl⟩
    · cases hflag

theorem exact_text : Exact text Wire.text FitsText where
  reads := reads_text
  eq_of_run h := by
    obtain ⟨n, mid, hn, htext⟩ := exists_of_run_bind h
    obtain ⟨taken, mid', htake, hdecode⟩ := exists_of_run_bind htext
    obtain ⟨hlt, rfl⟩ := eq_of_run_long hn
    obtain ⟨rfl, rfl⟩ := eq_of_run_take htake
    split at hdecode
    · next s hs =>
      obtain ⟨rfl, rfl⟩ := eq_of_run_pure hdecode
      obtain rfl := Text.eq_encode_of_decode hs
      exact ⟨hlt, by rw [Wire.text, List.append_assoc]⟩
    · cases hdecode

theorem exact_blob : Exact blob Wire.blob (·.length < wordLimit) where
  reads := reads_blob
  eq_of_run h := by
    obtain ⟨n, mid, hn, htake⟩ := exists_of_run_bind h
    obtain ⟨hlt, rfl⟩ := eq_of_run_long hn
    obtain ⟨rfl, rfl⟩ := eq_of_run_take htake
    exact ⟨hlt, by rw [Wire.blob, List.append_assoc]⟩

section list
variable {item : Reader α} {write : α → Bytes} {fits : α → Prop}

/-- A number of items, read one after the other. -/
theorem Exact.eq_of_run_many (h : Exact item write fits) {n : ℕ} {xs : List α}
    (hr : (many item n).run bytes = .ok (xs, rest)) :
    xs.length = n ∧ (∀ x ∈ xs, fits x) ∧ bytes = xs.flatMap write ++ rest := by
  induction n generalizing bytes xs with
  | zero =>
      obtain ⟨rfl, rfl⟩ := eq_of_run_pure hr
      exact ⟨rfl, by simp, rfl⟩
  | succ n ih =>
      obtain ⟨x, mid, hx, hmore⟩ := exists_of_run_bind hr
      obtain ⟨ys, mid', hys, hlast⟩ := exists_of_run_bind hmore
      obtain ⟨rfl, rfl⟩ := eq_of_run_pure hlast
      obtain ⟨hfit, rfl⟩ := h.eq_of_run hx
      obtain ⟨hlength, hfits, rfl⟩ := ih hys
      refine ⟨congrArg Nat.succ hlength, List.forall_mem_cons.mpr ⟨hfit, hfits⟩, ?_⟩
      rw [List.flatMap_cons, List.append_assoc]

theorem Exact.list (h : Exact item write fits) :
    Exact (Reader.list item) (Wire.list write) (FitsList fits) where
  reads hfits := reads_list hfits.1 fun x hx => h.reads (hfits.2 x hx)
  eq_of_run hr := by
    obtain ⟨n, mid, hn, hitems⟩ := exists_of_run_bind hr
    obtain ⟨hlt, rfl⟩ := eq_of_run_long hn
    obtain ⟨rfl, hfits, rfl⟩ := h.eq_of_run_many hitems
    exact ⟨⟨hlt, hfits⟩, by rw [Wire.list, List.append_assoc]⟩

end list

/-! ### Log records -/

theorem eq_of_ofNumber? {n : ℕ} {kind : RecordKind} (h : RecordKind.ofNumber? n = some kind) :
    n = kind.number := by
  unfold RecordKind.ofNumber? at h
  split at h <;> cases h <;> rfl

theorem exact_record : Exact Record.reader Record.encode Record.Sized where
  reads := reads_record
  eq_of_run h := by
    obtain ⟨lsn, mid, hlsn, hafter⟩ := exists_of_run_bind h
    obtain ⟨tx, mid', htx, hafter'⟩ := exists_of_run_bind hafter
    obtain ⟨n, mid'', hn, hkinded⟩ := exists_of_run_bind hafter'
    obtain ⟨hl, rfl⟩ := eq_of_run_long hlsn
    obtain ⟨ht, rfl⟩ := eq_of_run_long htx
    obtain ⟨-, rfl⟩ := (exact_number 4).eq_of_run hn
    split at hkinded
    · cases hkinded
    · next kind hkind =>
      obtain ⟨args, last, hargs, hlast⟩ := exists_of_run_bind hkinded
      obtain ⟨rfl, rfl⟩ := eq_of_run_pure hlast
      obtain ⟨hfits, rfl⟩ := exact_text.list.eq_of_run hargs
      refine ⟨⟨?_, hfits⟩, ?_⟩
      · simp only [Record.fits, Bool.and_eq_true, decide_eq_true_eq]
        exact ⟨hl, ht⟩
      · rw [eq_of_ofNumber? hkind]
        simp only [Record.encode, List.append_assoc]

end Reader
end Wire

/-! ### Replication messages -/

namespace Replication

/-- A question with a name that fits its length field. -/
def Query.Fits (q : Query) : Prop := Wire.FitsText q.lastSegment

/-- An answer with a name and a segment that fit their length fields. -/
def Delivery.Fits (d : Delivery) : Prop :=
  Wire.FitsText d.filename ∧ d.segment.length < Wire.wordLimit

open Wire.Reader

theorem Query.exact_reader : Exact Query.reader Query.encode Query.Fits where
  reads hfits := (reads_text hfits).map (f := Query.mk)
  eq_of_run h := by
    obtain ⟨name, mid, hname, hlast⟩ := exists_of_run_bind h
    obtain ⟨rfl, rfl⟩ := eq_of_run_pure hlast
    exact exact_text.eq_of_run hname

theorem Delivery.exact_reader : Exact Delivery.reader Delivery.encode Delivery.Fits where
  reads {d} hfits := by
    unfold Delivery.encode Delivery.reader
    rw [List.append_assoc]
    refine (reads_flag d.ok).bind ((reads_text hfits.1).bind ?_)
    exact (reads_blob hfits.2).map
  eq_of_run h := by
    obtain ⟨ok, mid, hok, hafter⟩ := exists_of_run_bind h
    obtain ⟨name, mid', hname, hafter'⟩ := exists_of_run_bind hafter
    obtain ⟨segment, mid'', hsegment, hlast⟩ := exists_of_run_bind hafter'
    obtain ⟨rfl, rfl⟩ := eq_of_run_pure hlast
    obtain ⟨-, rfl⟩ := exact_flag.eq_of_run hok
    obtain ⟨hfits, rfl⟩ := exact_text.eq_of_run hname
    obtain ⟨hlt, rfl⟩ := exact_blob.eq_of_run hsegment
    exact ⟨⟨hfits, hlt⟩, by simp only [Delivery.encode, List.append_assoc]⟩

end Replication

/-! ### One form -/

namespace Wire

variable {α : Type}

/-- Every value that fits has one wire form.

* Bytes stand for a value exactly when it fits and they start with its form.
* A form is read back, whatever follows it.
* No form starts another one.
* What is left of a form that was cut short stands for nothing. -/
structure OneForm (decode : Bytes → Outcome α) (encode : α → Bytes) (fits : α → Prop) : Prop where
  decode_iff : ∀ bytes x, decode bytes = .ok x ↔ fits x ∧ encode x <+: bytes
  decode_append : ∀ x rest, fits x → decode (encode x ++ rest) = .ok x
  eq_of_starts : ∀ x y, fits x → fits y → encode x <+: encode y → x = y
  cut_short : ∀ x bytes, fits x → bytes <+: encode x → bytes ≠ encode x →
    ∃ detail, decode bytes = .error (.serialization detail)

theorem Reader.Exact.parse_iff {r : Reader α} {write : α → Bytes} {fits : α → Prop}
    (h : Exact r write fits) (bytes : Bytes) (x : α) :
    r.parse bytes = .ok x ↔ fits x ∧ write x <+: bytes := by
  constructor
  · intro hp
    unfold parse at hp
    split at hp
    · next rest hr =>
      obtain rfl := Except.ok.inj hp
      obtain ⟨hfits, rfl⟩ := h.eq_of_run hr
      exact ⟨hfits, List.prefix_append ..⟩
    · cases hp
  · rintro ⟨hfits, rest, rfl⟩
    rw [parse, h.reads hfits rest]

theorem Reader.Exact.oneForm {r : Reader α} {write : α → Bytes} {fits : α → Prop}
    (h : Exact r write fits) : OneForm r.parse write fits := by
  have hread : ∀ x rest, fits x → r.parse (write x ++ rest) = .ok x := fun x rest hx =>
    (h.parse_iff _ x).mpr ⟨hx, List.prefix_append ..⟩
  have hstarts : ∀ x y, fits x → fits y → write x <+: write y → x = y := by
    rintro x y hx hy ⟨rest, hrest⟩
    have hxy := hread x rest hx
    have hyy := hread y [] hy
    rw [hrest] at hxy
    rw [List.append_nil, hxy] at hyy
    exact Except.ok.inj hyy
  refine ⟨h.parse_iff, hread, hstarts, fun x bytes hx hcut hne => ?_⟩
  cases hp : r.parse bytes with
  | ok y =>
      -- the form of what was read would start the bytes, and so the whole form that they are left of
      obtain ⟨hy, hstart⟩ := (h.parse_iff bytes y).mp hp
      obtain rfl := hstarts y x hy hx (hstart.trans hcut)
      exact absurd (hcut.eq_of_length_le hstart.length_le) hne
  | error fault =>
      unfold Reader.parse at hp
      split at hp
      · cases hp
      · obtain rfl := Except.error.inj hp
        exact ⟨_, rfl⟩

/-- Questions, answers and the records of a batch have one wire form each. -/
theorem messages_have_one_form :
    OneForm Replication.Query.decode Replication.Query.encode Replication.Query.Fits ∧
    OneForm Replication.Delivery.decode Replication.Delivery.encode Replication.Delivery.Fits ∧
    OneForm (Reader.list Record.reader).parse Journal.payload (FitsList Record.Sized) :=
  ⟨Replication.Query.exact_reader.oneForm, Replication.Delivery.exact_reader.oneForm,
    Reader.exact_record.list.oneForm⟩

end Wire
end SnapshotStore

import SnapshotStore.Proofs.Journal.Framing
import Mathlib.Data.List.Infix

/-! # Segments cut at any byte

The frames of some batches are read back whole, whatever follows them, and what is left of one more frame
adds nothing but the sign of damage.  A segment of whole frames that is cut at a byte therefore keeps
exactly the batches whose frames fit before it (`within_iff`), and counts as damaged exactly if the cut is
not between two frames (`segment_read_back`). -/

namespace SnapshotStore
namespace Journal

variable {batches : List (List Record)} {frames : List Bytes}

theorem forall₂_encode_iff : List.Forall₂ (fun b f => encode b = .ok f) batches frames ↔
    (∀ b ∈ batches, Fits b) ∧ frames = batches.map frame := by
  induction batches generalizing frames with
  | nil => simp
  | cons b batches ih =>
      cases frames with
      | nil => simp
      | cons f frames =>
          rw [List.forall₂_cons, encode_eq_ok_iff, ih, List.forall_mem_cons, List.map_cons,
            List.cons.injEq]
          tauto

theorem cut_of_encode {b : List Record} {f torn : Bytes} (h : encode b = .ok f) (htorn : torn <+: f)
    (hne : torn ≠ f) : Cut torn := by
  obtain ⟨hfits, rfl⟩ := encode_eq_ok_iff.mp h
  refine ⟨b, hfits, htorn, Nat.lt_of_le_of_ne htorn.length_le fun hlength => hne ?_⟩
  exact htorn.eq_of_length hlength

/-- The first so many frames lie within a number of bytes exactly if their batches are among those that
lie wholly within it. -/
theorem within_iff {n j : ℕ} (hj : j ≤ batches.length) :
    ((batches.take j).flatMap frame).length ≤ n ↔ j ≤ (wholeWithin n batches).length := by
  induction batches generalizing n j with
  | nil =>
      obtain rfl : j = 0 := Nat.le_zero.mp hj
      simp
  | cons b batches ih =>
      cases j with
      | zero => simp
      | succ j =>
          rw [List.take_succ_cons, List.flatMap_cons, List.length_append]
          unfold wholeWithin
          split
          · next hle =>
            rw [List.length_cons, Nat.succ_le_succ_iff, ← ih (Nat.le_of_succ_le_succ hj)]
            omega
          · next hlt =>
            rw [List.length_nil]
            omega

theorem eq_take_wholeWithin (n : ℕ) (batches : List (List Record)) :
    wholeWithin n batches = batches.take (wholeWithin n batches).length :=
  List.prefix_iff_eq_take.mp (isPrefix_wholeWithin n batches)

/-- A cut leaves more than whole frames exactly if no frame ends there. -/
theorem ne_take_iff {n : ℕ} (hn : n ≤ (batches.flatMap frame).length) :
    (wholeWithin n batches).flatMap frame ≠ (batches.flatMap frame).take n ↔
      ∀ j ≤ batches.length, ((batches.take j).flatMap frame).length ≠ n := by
  have hk := (isPrefix_wholeWithin n batches).length_le
  have hwhole := eq_take_wholeWithin n batches
  rw [← not_iff_not]
  push Not
  constructor
  · intro heq
    refine ⟨_, hk, ?_⟩
    rw [← hwhole, heq, List.length_take, Nat.min_eq_left hn]
  · rintro ⟨j, hj, hlength⟩
    have hjk : j ≤ (wholeWithin n batches).length := (within_iff hj).mp (Nat.le_of_eq hlength)
    have hle : ((batches.take j).flatMap frame).length ≤
        ((wholeWithin n batches).flatMap frame).length := by
      rw [hwhole]
      exact ((List.take_prefix_take_left hjk).flatMap frame).length_le
    have hge := (within_iff hk).mpr (Nat.le_refl _)
    rw [← hwhole] at hge
    have htake := List.prefix_iff_eq_take.mp ((isPrefix_wholeWithin n batches).flatMap frame)
    rwa [Nat.le_antisymm hge (hlength ▸ hle)] at htake

/-- The frames of some batches are read back whole, and what follows them is read as if it stood alone.

* A batch has a frame if its records take less than 2^32 bytes, and their numbers fit their fields.
* Alone, the frames are not damaged; what is left of one more frame adds the sign of damage only.
* Cut at any byte, they give the batches of the frames that fit before it, and count as damaged exactly if
  no frame ends there. -/
theorem segment_read_back (h : List.Forall₂ (fun b f => encode b = .ok f) batches frames) :
    (∀ b, (∃ f, encode b = .ok f) ↔
      (payload b).length < Wire.shortLimit ∧ ∀ r ∈ b, r.fits = true) ∧
    (∀ rest, decode (frames.flatten ++ rest) = ⟨batches.flatten ++ (decode rest).records,
      batches.length + (decode rest).frames, (decode rest).damaged⟩) ∧
    decode frames.flatten = ⟨batches.flatten, batches.length, false⟩ ∧
    (∀ b f torn, encode b = .ok f → torn <+: f → torn ≠ f → torn ≠ [] →
      decode (frames.flatten ++ torn) = ⟨batches.flatten, batches.length, true⟩) ∧
    ∀ n ≤ frames.flatten.length, ∃ k ≤ frames.length, ∃ damaged,
      decode (frames.flatten.take n) = ⟨(batches.take k).flatten, k, damaged⟩ ∧
      (∀ j ≤ frames.length, (frames.take j).flatten.length ≤ n ↔ j ≤ k) ∧
      (damaged = true ↔ ∀ j ≤ frames.length, (frames.take j).flatten.length ≠ n) := by
  obtain ⟨hfits, rfl⟩ := forall₂_encode_iff.mp h
  have hflat (j : ℕ) : ((batches.map frame).take j).flatten = (batches.take j).flatMap frame := by
    rw [← List.map_take, List.flatMap_def]
  rw [← List.flatMap_def, List.length_map]
  have hread (rest : Bytes) : decode (batches.flatMap frame ++ rest) =
      ⟨batches.flatten ++ (decode rest).records, batches.length + (decode rest).frames,
        (decode rest).damaged⟩ := by
    rw [decode_frames hfits, Nat.add_comm]
  refine ⟨fun b => ⟨?_, fun hb => ⟨frame b, Fits.encode_eq ⟨hb.1, hb.2⟩⟩⟩, hread, ?_,
    fun b f torn hf htorn hne hsome => ?_, fun n hn => ?_⟩
  · rintro ⟨f, hf⟩
    obtain ⟨hb, -⟩ := encode_eq_ok_iff.mp hf
    exact ⟨hb.short, hb.numbers⟩
  · have halone := hread []
    rwa [List.append_nil, decode_nil, List.append_nil] at halone
  · have hdecode := decode_cut (cut_of_encode hf htorn hne)
    rw [List.isEmpty_eq_false_iff.mpr hsome] at hdecode
    rw [hread, hdecode, List.append_nil]
    rfl
  · have hwhole := eq_take_wholeWithin n batches
    have hk : (wholeWithin n batches).length ≤ batches.length :=
      (isPrefix_wholeWithin n batches).length_le
    have hcut := decode_take_frames_eq hfits n
    rw [congrArg List.flatten hwhole] at hcut
    refine ⟨_, hk, _, hcut, fun j hj => ?_, ?_⟩
    · rw [hflat]
      exact within_iff hj
    · simp only [decide_eq_true_eq, hflat]
      exact ne_take_iff hn

/-! ### A cut inside the second frame -/

/-- A batch with texts of more than one byte a character, and the one that ends its transaction. -/
def sampleBatches : List (List Record) :=
  [[⟨1, 1, .set, ["κ", "→"]⟩, ⟨2, 1, .del, [""]⟩], [⟨3, 1, .commit, []⟩]]

/-- Three bytes of the second frame are left. -/
theorem segment_read_back_sample : ∃ frames : List Bytes,
    List.Forall₂ (fun b f => encode b = .ok f) sampleBatches frames ∧ frames.flatten.length = 145 ∧
    decode (frames.flatten.take 104) = ⟨[⟨1, 1, .set, ["κ", "→"]⟩, ⟨2, 1, .del, [""]⟩], 1, true⟩ := by
  have hfits : ∀ b ∈ sampleBatches, Fits b := by
    have hall : ∀ b ∈ sampleBatches,
        (payload b).length < Wire.shortLimit ∧ ∀ r ∈ b, r.fits = true := by
      decide +kernel
    exact fun b hb => ⟨(hall b hb).1, (hall b hb).2⟩
  have hencode := forall₂_encode_iff.mpr ⟨hfits, rfl⟩
  have hends : (List.range 3).map (fun j => ((sampleBatches.map frame).take j).flatten.length) =
      [0, 101, 145] := by
    decide +kernel
  have hend (j : ℕ) (hj : j < 3) : ((sampleBatches.map frame).take j).flatten.length =
      ([0, 101, 145] : List ℕ)[j] := by
    simp only [← hends, List.getElem_map, List.getElem_range]
  have hlength : (sampleBatches.map frame).flatten.length = 145 := hend 2 (by decide)
  obtain ⟨-, -, -, -, hcut⟩ := segment_read_back hencode
  obtain ⟨k, hk, damaged, hdecode, hfit, hdamaged⟩ := hcut 104 (by omega)
  have hone : 1 ≤ k := (hfit 1 (by decide)).mp (by rw [hend 1 (by decide)]; decide)
  have htwo : ¬ 2 ≤ k := fun h => absurd ((hfit 2 (by decide)).mpr h)
    (by rw [hend 2 (by decide)]; decide)
  obtain rfl : k = 1 := by omega
  have hbetween : ∀ j, (hj : j < 3) → ([0, 101, 145] : List ℕ)[j] ≠ 104 := by decide
  have htorn : damaged = true := hdamaged.mpr fun j hj => by
    have hlt : j < 3 := Nat.lt_succ_of_le hj
    rw [hend j hlt]
    exact hbetween j hlt
  refine ⟨_, hencode, hlength, ?_⟩
  rw [hdecode, htorn]
  rfl

end Journal
end SnapshotStore

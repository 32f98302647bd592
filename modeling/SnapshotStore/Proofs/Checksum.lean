import SnapshotStore.Checksum
import SnapshotStore.Wire
import Mathlib.Logic.Function.Iterate

/-! # What the checksum tells apart

A shift of the register is linear in exclusive or (`shift_xor`) and loses nothing (`shift_injective`), so
two registers that differ once differ after any bytes (`register_injective`).  Four bytes at most leave
the register that the number they spell, taken in at once, leaves after as many shifts
(`register_eq_iterate`).

So a run of at most four bytes cannot be replaced without a change of the checksum, whatever stands before
and after it (`crc32_ne_of_burst`). -/

namespace SnapshotStore
namespace Checksum

/-! ### Shifts -/

theorem and_one_eq_one_iff (x : UInt32) : x &&& 1 = 1 ↔ x.toBitVec.getLsbD 0 = true := by
  rw [← UInt32.toBitVec_inj, UInt32.toBitVec_and, show (1 : UInt32).toBitVec = 1#32 from rfl,
    BitVec.and_one_eq_setWidth_ofBool_getLsbD]
  cases x.toBitVec.getLsbD 0 <;> decide

theorem getLsbD_shift (x : UInt32) (i : ℕ) : (shift x).toBitVec.getLsbD i =
    (x.toBitVec.getLsbD (i + 1) ^^ (x.toBitVec.getLsbD 0 && polynomial.toBitVec.getLsbD i)) := by
  have hdown : (x >>> 1).toBitVec.getLsbD i = x.toBitVec.getLsbD (i + 1) := by
    simp [UInt32.toBitVec_shiftRight, Nat.add_comm]
  unfold shift
  split
  · next h => rw [UInt32.toBitVec_xor, BitVec.getLsbD_xor, hdown, (and_one_eq_one_iff x).mp h,
      Bool.true_and]
  · next h => rw [hdown, Bool.eq_false_iff.mpr (mt (and_one_eq_one_iff x).mpr h), Bool.false_and,
      Bool.xor_false]

theorem eq_of_getLsbD_eq {x y : UInt32}
    (h : ∀ i, x.toBitVec.getLsbD i = y.toBitVec.getLsbD i) : x = y :=
  UInt32.toBitVec_inj.mp (BitVec.eq_of_getLsbD_eq fun i _ => h i)

theorem shift_xor (x y : UInt32) : shift (x ^^^ y) = shift x ^^^ shift y := by
  refine eq_of_getLsbD_eq fun i => ?_
  simp only [UInt32.toBitVec_xor, BitVec.getLsbD_xor, getLsbD_shift]
  cases x.toBitVec.getLsbD 0 <;> cases y.toBitVec.getLsbD 0 <;>
    cases x.toBitVec.getLsbD (i + 1) <;> cases y.toBitVec.getLsbD (i + 1) <;>
    cases polynomial.toBitVec.getLsbD i <;> rfl

/-- The highest bit after a shift is the lowest one before, so nothing is lost. -/
theorem shift_injective : Function.Injective shift := by
  intro x y h
  have hbit (i : ℕ) := congrArg (fun z : UInt32 => z.toBitVec.getLsbD i) h
  simp only [getLsbD_shift] at hbit
  have htop : polynomial.toBitVec.getLsbD 31 = true := by decide
  have hlow : x.toBitVec.getLsbD 0 = y.toBitVec.getLsbD 0 := by
    have h31 := hbit 31
    rwa [BitVec.getLsbD_of_ge x.toBitVec 32 (Nat.le_refl _),
      BitVec.getLsbD_of_ge y.toBitVec 32 (Nat.le_refl _), htop, Bool.false_xor, Bool.false_xor,
      Bool.and_true, Bool.and_true] at h31
  refine eq_of_getLsbD_eq fun i => ?_
  cases i with
  | zero => exact hlow
  | succ i =>
      have hi := hbit i
      rwa [hlow, Bool.xor_left_inj] at hi

theorem iterate_shift_xor (n : ℕ) (x y : UInt32) :
    shift^[n] (x ^^^ y) = shift^[n] x ^^^ shift^[n] y := by
  induction n generalizing x y with
  | zero => rfl
  | succ n ih => rw [Function.iterate_succ_apply, Function.iterate_succ_apply,
      Function.iterate_succ_apply, shift_xor, ih]

theorem getLsbD_iterate_shift {x : UInt32} {n : ℕ} (h : ∀ i < n, x.toBitVec.getLsbD i = false)
    (i : ℕ) : (shift^[n] x).toBitVec.getLsbD i = x.toBitVec.getLsbD (i + n) := by
  induction n generalizing x i with
  | zero => rfl
  | succ n ih =>
      have hlow : x.toBitVec.getLsbD 0 = false := h 0 (Nat.succ_pos n)
      have hnext (j : ℕ) : (shift x).toBitVec.getLsbD j = x.toBitVec.getLsbD (j + 1) := by
        rw [getLsbD_shift, hlow, Bool.false_and, Bool.xor_false]
      rw [Function.iterate_succ_apply, ih fun j hj => ?_]
      · rw [hnext, Nat.add_assoc]
      · rw [hnext]
        exact h _ (Nat.succ_lt_succ hj)

/-! ### Bytes -/

theorem register_append (start : UInt32) (xs ys : Bytes) :
    register start (xs ++ ys) = register (register start xs) ys := List.foldl_append

theorem feed_eq (start : UInt32) (b : UInt8) :
    feed start b = shift^[8] (start ^^^ b.toUInt32) := rfl

/-- Registers that differ are not brought together by the bytes that follow. -/
theorem register_injective (bytes : Bytes) : Function.Injective (register · bytes) := by
  induction bytes with
  | nil => exact Function.injective_id
  | cons b bytes ih =>
      intro x y h
      have hfeed : feed x b = feed y b := ih h
      rw [feed_eq, feed_eq] at hfeed
      have hxor := shift_injective.iterate 8 hfeed
      rwa [UInt32.xor_left_inj] at hxor

/-- The number that a few bytes spell, lowest byte first. -/
def spelled (bytes : Bytes) : UInt32 := UInt32.ofNat (Wire.value bytes)

theorem span_le_span {m n : ℕ} (h : m ≤ n) : Wire.span m ≤ Wire.span n := by
  induction h with
  | refl => exact Nat.le_refl _
  | step _ ih => exact Nat.le_trans ih (Nat.le_mul_of_pos_left _ (by decide))

theorem value_lt_span {bytes : Bytes} {n : ℕ} (h : bytes.length ≤ n) :
    Wire.value bytes < Wire.span n := Nat.lt_of_lt_of_le (Wire.value_lt bytes) (span_le_span h)

theorem toNat_spelled {bytes : Bytes} (h : bytes.length ≤ 4) :
    (spelled bytes).toNat = Wire.value bytes := UInt32.toNat_ofNat_of_lt' (value_lt_span h)

theorem spelled_injective {xs ys : Bytes} (hx : xs.length ≤ 4) (hlength : xs.length = ys.length)
    (h : spelled xs = spelled ys) : xs = ys := by
  have hvalue : Wire.value xs = Wire.value ys := by
    rw [← toNat_spelled hx, ← toNat_spelled (hlength ▸ hx), h]
  rw [← Wire.word_value xs, ← Wire.word_value ys, hvalue, hlength]

theorem xor_mul_eq_add {b : ℕ} (hb : b < 256) (n : ℕ) : b ^^^ 256 * n = b + 256 * n := by
  have hmod : (b ^^^ 256 * n) % 2 ^ 8 = b := by
    rw [Nat.xor_mod_two_pow, Nat.mul_mod_right, Nat.xor_zero, Nat.mod_eq_of_lt hb]
  have hdiv : (b ^^^ 256 * n) / 2 ^ 8 = n := by
    rw [Nat.xor_div_two_pow, Nat.div_eq_of_lt hb, Nat.zero_xor,
      Nat.mul_div_cancel_left n (by decide)]
  omega

theorem spelled_cons (b : UInt8) {bytes : Bytes} (h : bytes.length ≤ 3) :
    spelled (b :: bytes) = b.toUInt32 ^^^ spelled bytes <<< 8 := by
  have hrest : Wire.value bytes < 2 ^ 24 := value_lt_span h
  have hcons : (spelled (b :: bytes)).toNat = Wire.value (b :: bytes) :=
    toNat_spelled (Nat.succ_le_succ h)
  apply UInt32.toNat_inj.mp
  rw [hcons, UInt32.toNat_xor, UInt32.toNat_shiftLeft, toNat_spelled (Nat.le_succ_of_le h),
    UInt8.toNat_toUInt32, Wire.value]
  have hshift : Wire.value bytes <<< ((8 : UInt32).toNat % 32) % 2 ^ 32 = 256 * Wire.value bytes := by
    rw [show (8 : UInt32).toNat % 32 = 8 from rfl, Nat.shiftLeft_eq]
    omega
  rw [hshift, xor_mul_eq_add b.toNat_lt]

theorem iterate_shift_spelled {bytes : Bytes} (h : bytes.length ≤ 3) :
    shift^[8] (spelled bytes <<< 8) = spelled bytes := by
  have hhigh {i : ℕ} (hi : 24 ≤ i) : (spelled bytes).toBitVec.getLsbD i = false := by
    rw [BitVec.getLsbD, UInt32.toNat_toBitVec, toNat_spelled (Nat.le_succ_of_le h)]
    have hpow : 2 ^ 24 ≤ 2 ^ i := Nat.pow_le_pow_right Nat.two_pos hi
    exact Nat.testBit_lt_two_pow (Nat.lt_of_lt_of_le (value_lt_span h) hpow)
  have hup (i : ℕ) : (spelled bytes <<< 8).toBitVec.getLsbD i =
      (decide (i < 32) && !decide (i < 8) && (spelled bytes).toBitVec.getLsbD (i - 8)) := by
    simp [UInt32.toBitVec_shiftLeft]
  refine eq_of_getLsbD_eq fun i => ?_
  rw [getLsbD_iterate_shift fun j hj => by simp [hj], hup, Nat.add_sub_cancel]
  rcases Nat.lt_or_ge i 24 with hi | hi
  · simp [show i + 8 < 32 by omega]
  · rw [hhigh hi, Bool.and_false]

/-- A few bytes leave the register that their number, taken in at once, leaves after as many shifts. -/
theorem register_eq_iterate (start : UInt32) {bytes : Bytes} (h : bytes.length ≤ 4) :
    register start bytes = shift^[8 * bytes.length] (start ^^^ spelled bytes) := by
  induction bytes generalizing start with
  | nil => exact UInt32.xor_zero.symm
  | cons b bytes ih =>
      have hrest : bytes.length ≤ 3 := Nat.le_of_succ_le_succ h
      calc register (feed start b) bytes
          = shift^[8 * bytes.length] (shift^[8] (start ^^^ b.toUInt32) ^^^ spelled bytes) :=
            ih _ (Nat.le_succ_of_le hrest)
        _ = shift^[8 * bytes.length]
              (shift^[8] (start ^^^ b.toUInt32) ^^^ shift^[8] (spelled bytes <<< 8)) := by
            rw [iterate_shift_spelled hrest]
        _ = shift^[8 * bytes.length]
              (shift^[8] (start ^^^ (b.toUInt32 ^^^ spelled bytes <<< 8))) := by
            rw [← iterate_shift_xor, UInt32.xor_assoc]
        _ = shift^[8 * (b :: bytes).length] (start ^^^ spelled (b :: bytes)) := by
            rw [← spelled_cons b hrest, ← Function.iterate_add_apply, List.length_cons, Nat.mul_succ]

/-! ### Bursts -/

/-- Other bytes in the place of at most four change the checksum. -/
theorem crc32_ne_of_burst {xs ys : Bytes} (hx : xs.length ≤ 4) (hlength : ys.length = xs.length)
    (hne : ys ≠ xs) (before after : Bytes) :
    crc32 (before ++ ys ++ after) ≠ crc32 (before ++ xs ++ after) := by
  intro h
  unfold crc32 at h
  rw [UInt32.xor_left_inj, register_append, register_append, register_append, register_append] at h
  have hburst := register_injective after h
  rw [register_eq_iterate _ hx, register_eq_iterate _ (hlength ▸ hx), hlength] at hburst
  have hnumber := shift_injective.iterate _ hburst
  rw [UInt32.xor_right_inj] at hnumber
  exact hne (spelled_injective (hlength ▸ hx) hlength hnumber)

end Checksum
end SnapshotStore

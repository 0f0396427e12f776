import Peephole.Literal
import Mathlib.Algebra.Group.Nat.Defs

/-!
# Low bits

What masks and two's complement readings of words come to. The low `n` bits of a word survive the
reading at any width from `n` on, `ofInt_signed_and_mask`, and a pair of shifts extends their sign,
`signed_shifts`.
-/

namespace Peephole

/-- Integers have at least one bit, and fit in a word. -/
theorem Integer.width_bounds {w : Nat} (hw : supported w) : 0 < w ∧ w ≤ 64 := by
  obtain ⟨c, hc⟩ := Option.isSome_iff_exists.mp hw
  rw [← WidthClass.bits_of_ofBits? hc]
  cases c <;> decide

/-! ### Masks -/

theorem getLsbD_mask (w : Nat) {i : Nat} (hi : i < 64) : (mask w).getLsbD i = decide (i < w) := by
  have hpow : twoPow w = 2 ^ w := rfl
  rw [mask, BitVec.getLsbD_ofNat, hpow, Nat.testBit_two_pow_sub_one]
  simp [hi]

/-- Masks of which one is contained in the other. -/
theorem and_mask_and_mask {m n : Nat} (h : n ≤ m) (b : Word) :
    b &&& mask n &&& mask m = b &&& mask n := by
  refine BitVec.eq_of_getLsbD_eq fun i hi => ?_
  simp only [BitVec.getLsbD_and, getLsbD_mask _ hi]
  by_cases hn : i < n
  · simp [hn, Nat.lt_of_lt_of_le hn h]
  · simp [hn]

theorem mask_and_mask {m n : Nat} (h : n ≤ m) : mask n &&& mask m = mask n := by
  have hall := and_mask_and_mask h (BitVec.allOnes 64)
  rwa [BitVec.allOnes_and] at hall

theorem setWidth_and_mask {n w : Nat} (h : w ≤ n) (b : Word) :
    (b &&& mask n).setWidth w = b.setWidth w := by
  refine BitVec.eq_of_getLsbD_eq fun i hi => ?_
  by_cases hi64 : i < 64
  · rw [BitVec.getLsbD_setWidth, BitVec.getLsbD_setWidth, BitVec.getLsbD_and, getLsbD_mask _ hi64,
      decide_eq_true (Nat.lt_of_lt_of_le hi h), Bool.and_true]
  · have hb : b.getLsbD i = false := BitVec.getLsbD_of_ge b i (Nat.le_of_not_lt hi64)
    simp [BitVec.getLsbD_setWidth, hb]

/-- The number that the low bits of a word are. -/
theorem toNat_and_mask (b : Word) {w : Nat} (hw : w ≤ 64) :
    (b &&& mask w).toNat = b.toNat % twoPow w := by
  have hpow : twoPow w = 2 ^ w := rfl
  have hlt : 2 ^ w - 1 < 2 ^ 64 := by
    have := Nat.pow_le_pow_right (n := 2) (by decide) hw
    omega
  rw [mask, BitVec.toNat_and, BitVec.toNat_ofNat, hpow, Nat.mod_eq_of_lt hlt,
    Nat.and_two_pow_sub_one_eq_mod]

/-- Words have the same low bits when they agree modulo the power of two. -/
theorem and_mask_inj {a b : Word} {w : Nat} (hw : w ≤ 64) :
    a &&& mask w = b &&& mask w ↔ a.toNat % 2 ^ w = b.toNat % 2 ^ w := by
  rw [← BitVec.toNat_inj, toNat_and_mask a hw, toNat_and_mask b hw]
  rfl

/-! ### Two's complement -/

theorem signed_eq {w : Nat} (h0 : 0 < w) (h : w ≤ 64) (b : Word) :
    signed b w = (b.setWidth w).toInt := by
  have hw : (w + 63) % 64 + 1 = w := by omega
  rw [signed, hw]

/-- Bits above the width do not matter. -/
theorem signed_and_mask {n w : Nat} (h0 : 0 < w) (h : w ≤ 64) (hn : w ≤ n) (b : Word) :
    signed (b &&& mask n) w = signed b w := by
  rw [signed_eq h0 h, signed_eq h0 h, setWidth_and_mask hn]

/-- A word that is read at some width keeps its low bits. -/
theorem ofInt_signed_and_mask {n w : Nat} (h0 : 0 < w) (h : w ≤ 64) (hn : n ≤ w) (b : Word) :
    BitVec.ofInt 64 (signed b w) &&& mask n = b &&& mask n := by
  have hext : BitVec.ofInt 64 (signed b w) = (b.setWidth w).signExtend 64 := by
    rw [signed_eq h0 h, BitVec.signExtend]
  rw [hext]
  refine BitVec.eq_of_getLsbD_eq fun i hi => ?_
  simp only [BitVec.getLsbD_and, getLsbD_mask _ hi]
  by_cases hin : i < n
  · rw [BitVec.getLsbD_signExtend, if_pos (Nat.lt_of_lt_of_le hin hn), BitVec.getLsbD_setWidth,
      decide_eq_true hi, decide_eq_true (Nat.lt_of_lt_of_le hin hn), Bool.true_and, Bool.true_and]
  · simp [hin]

/-- Shifting up and down again extends the sign of the low bits. -/
theorem sshiftRight_shiftLeft {n s : Nat} (h0 : 0 < n) (hn : n ≤ s) (x : BitVec s) :
    (x <<< (s - n)).sshiftRight (s - n) = (x.setWidth n).signExtend s := by
  -- both sides show bit `i` below the narrow width, and its topmost bit from there on
  refine BitVec.eq_of_getLsbD_eq fun i hi => ?_
  have hmsb : (x <<< (s - n)).msb = x.getLsbD (n - 1) := by
    rw [BitVec.msb_eq_getLsbD_last, BitVec.getLsbD_shiftLeft]
    have hlast : s - 1 - (s - n) = n - 1 := by omega
    simp [hlast, show s - 1 < s by omega, show ¬ s - 1 < s - n by omega]
  rw [BitVec.getLsbD_sshiftRight, BitVec.getLsbD_signExtend, hmsb, BitVec.getLsbD_shiftLeft,
    BitVec.msb_setWidth, BitVec.getLsbD_setWidth]
  by_cases hin : i < n
  · have hsub : s - n + i - (s - n) = i := by omega
    simp [hi, hin, hsub, show s - n + i < s by omega, show ¬ s ≤ i by omega]
  · simp [hi, hin, h0, show ¬ s - n + i < s by omega, show ¬ s ≤ i by omega]

/-- Shifting up and down again at a width extends the sign of the low bits to that width. -/
theorem signed_shifts {n s : Nat} (h0 : 0 < n) (hn : n ≤ s) (hs : s ≤ 64) (b : Word) :
    signed (BitVec.ofInt 64
      (signed (b <<< (s - n) &&& mask s) s >>> (s - n)) &&& mask s) s = signed b n := by
  have hs0 : 0 < s := Nat.lt_of_lt_of_le h0 hn
  have hup : (b <<< (s - n)).setWidth s = b.setWidth s <<< (s - n) := by
    refine BitVec.eq_of_getLsbD_eq fun i hi => ?_
    rw [BitVec.getLsbD_setWidth, BitVec.getLsbD_shiftLeft, BitVec.getLsbD_shiftLeft,
      BitVec.getLsbD_setWidth, decide_eq_true hi, decide_eq_true (by omega : i < 64),
      decide_eq_true (by omega : i - (s - n) < s)]
    simp only [Bool.true_and]
  have hdown (x : BitVec s) : (BitVec.ofInt 64 x.toInt).setWidth s = x := by
    refine BitVec.eq_of_getLsbD_eq fun i hi => ?_
    have hext : BitVec.ofInt 64 x.toInt = x.signExtend 64 := rfl
    rw [hext, BitVec.getLsbD_setWidth, BitVec.getLsbD_signExtend, if_pos hi, decide_eq_true hi,
      decide_eq_true (Nat.lt_of_lt_of_le hi hs), Bool.true_and, Bool.true_and]
  rw [signed_and_mask hs0 hs (Nat.le_refl _), signed_and_mask hs0 hs (Nat.le_refl _),
    signed_eq hs0 hs, signed_eq hs0 hs, signed_eq h0 (Nat.le_trans hn hs), hup,
    ← BitVec.toInt_sshiftRight, hdown,
    sshiftRight_shiftLeft h0 hn, BitVec.toInt_signExtend_of_le hn,
    BitVec.setWidth_setWidth_of_le _ hn]

namespace Literal

@[simp] theorem width_of (b : Word) (w : Nat) : (of b w).width = w := rfl

@[simp] theorem bits_of (b : Word) (w : Nat) : (of b w).bits = b &&& mask w := rfl

theorem toInt_of {w : Nat} (h0 : 0 < w) (h : w ≤ 64) (b : Word) :
    (of b w).toInt = signed b w :=
  signed_and_mask h0 h (Nat.le_refl _) b

end Literal

end Peephole

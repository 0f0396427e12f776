import Peephole.Predicate
import Peephole.Proofs.Integer

/-!
# Predicates on powers of two

The conditions on powers of two read a literal as a signed integer, and what they accept is a
matter of its bits at its own width `w`. A **positive power** is a single bit below the sign bit;
a **negative power** is a run of ones from the sign bit down to some bit. The sign bit on its own
is a negative power, at every width down to one bit.

* `ValuePredicate.isPosPowerOfTwo_iff_cpop`: a positive integer is a power of two when one bit of
  its extension to a word is set.
* `ValuePredicate.powersOfTwo_spec`: what the conditions accept, and that a remainder by what the
  first one accepts keeps the low bits of the dividend.
-/

namespace Peephole

variable {w : Nat}

/-! ### Powers of two -/

theorem isPowerOfTwo_iff {n : Nat} : isPowerOfTwo n ↔ ∃ k, n = 2 ^ k := by
  simp only [isPowerOfTwo, Bool.and_eq_true, bne_iff_ne, beq_iff_eq]
  constructor
  · rintro ⟨-, hn⟩
    exact ⟨n.log2, hn.symm⟩
  · rintro ⟨k, rfl⟩
    refine ⟨Nat.ne_of_gt (Nat.two_pow_pos k), ?_⟩
    rw [Nat.log2_two_pow]
    rfl

namespace Integer

/-- A bit vector is a positive power of two when it is one bit below the sign bit. -/
theorem toInt_isPosPowerOfTwo_iff (x : BitVec w) :
    (0 < x.toInt ∧ isPowerOfTwo x.toInt.natAbs) ↔ ∃ k, k < w - 1 ∧ x.toNat = 2 ^ k := by
  rw [isPowerOfTwo_iff, BitVec.toInt_eq_toNat_cond]
  constructor
  · rintro ⟨hpos, k, hk⟩
    have hlt := x.isLt
    split at hpos <;> rename_i hhalf
    · have hx : x.toNat = 2 ^ k := by simpa [hhalf] using hk
      have hk1 : k + 1 < w := by
        rw [hx, ← Nat.pow_succ'] at hhalf
        exact (Nat.pow_lt_pow_iff_right (by decide)).mp hhalf
      exact ⟨k, Nat.lt_sub_of_add_lt hk1, hx⟩
    · omega
  · rintro ⟨k, hk, hx⟩
    have hhalf : 2 * x.toNat < 2 ^ w := by
      rw [hx, ← Nat.pow_succ']
      exact Nat.pow_lt_pow_right (by decide) (by omega)
    have hpos := Nat.two_pow_pos k
    rw [if_pos hhalf]
    exact ⟨by omega, k, by rw [Int.natAbs_natCast, hx]⟩

/-- A bit vector is the opposite of a power of two when it is the ones from some bit up. -/
theorem toInt_isNegPowerOfTwo_iff (hw : 0 < w) (x : BitVec w) :
    (x.toInt < 0 ∧ isPowerOfTwo x.toInt.natAbs) ↔ ∃ k, k ≤ w - 1 ∧ x.toNat = 2 ^ w - 2 ^ k := by
  rw [isPowerOfTwo_iff, BitVec.toInt_eq_toNat_cond]
  have hlt := x.isLt
  constructor
  · rintro ⟨hneg, k, hk⟩
    split at hneg <;> rename_i hhalf
    · omega
    · have hx : 2 ^ w - x.toNat = 2 ^ k := by
        rw [if_neg hhalf] at hk
        omega
      have hk1 : k + 1 ≤ w := by
        refine (Nat.pow_le_pow_iff_right (a := 2) (by decide)).mp ?_
        rw [Nat.pow_succ']
        omega
      exact ⟨k, by omega, by omega⟩
  · rintro ⟨k, hk, hx⟩
    have hdouble : 2 * 2 ^ k ≤ 2 ^ w := by
      rw [← Nat.pow_succ']
      exact Nat.pow_le_pow_right (by decide) (by omega)
    have hpos := Nat.two_pow_pos k
    rw [if_neg (by omega)]
    exact ⟨by omega, k, by omega⟩

/-- The remainder by a power of two is the low bits. -/
theorem umod_eq_and_sub_one {x y : BitVec w} {k : Nat} (hy : y.toNat = 2 ^ k) :
    x.umod y = x &&& (y - 1#w) := by
  have hpos := Nat.two_pow_pos k
  have hlt := hy ▸ y.isLt
  have hone : (1#w).toNat = 1 := by
    rw [BitVec.toNat_ofNat, Nat.mod_eq_of_lt (by omega)]
  have hsub : (y - 1#w).toNat = 2 ^ k - 1 := by
    have hle : 1#w ≤ y := BitVec.le_def.mpr (by omega)
    rw [BitVec.toNat_sub_of_le hle, hone, hy]
  refine BitVec.eq_of_toNat_eq ?_
  rw [BitVec.toNat_and, hsub, Nat.and_two_pow_sub_one_eq_mod, ← hy]
  exact BitVec.toNat_umod

/-! ### Counting bits -/

theorem toNat_cpop_eq_zero_iff (x : BitVec w) : x.cpop.toNat = 0 ↔ x.toNat = 0 := by
  induction w with
  | zero => simp [BitVec.of_length_zero]
  | succ w ih =>
    rw [← BitVec.cons_msb_setWidth x, BitVec.toNat_cpop_cons, BitVec.toNat_cons']
    have hpos := Nat.two_pow_pos w
    cases x.msb <;> simp [ih, Nat.shiftLeft_eq]

/-- Exactly one bit of a bit vector is set when it is a power of two. -/
theorem toNat_cpop_eq_one_iff (x : BitVec w) : x.cpop.toNat = 1 ↔ ∃ k, x.toNat = 2 ^ k := by
  induction w with
  | zero => simpa [BitVec.of_length_zero] using fun k => Nat.ne_of_lt (Nat.two_pow_pos k)
  | succ w ih =>
    rw [← BitVec.cons_msb_setWidth x, BitVec.toNat_cpop_cons, BitVec.toNat_cons']
    generalize x.setWidth w = y
    cases x.msb with
    | false => simpa using ih y
    | true =>
      -- the top bit is the one that is set, and a power that reaches it is the top bit alone
      have hlt := y.isLt
      rw [Bool.toNat_true, Nat.add_eq_left, toNat_cpop_eq_zero_iff, Nat.shiftLeft_eq, Nat.one_mul]
      constructor
      · intro hy
        exact ⟨w, by omega⟩
      · rintro ⟨k, hk⟩
        have hle : w ≤ k := by
          refine Nat.le_of_lt_succ ((Nat.pow_lt_pow_iff_right (a := 2) (by decide)).mp ?_)
          rw [Nat.pow_succ]
          have := Nat.two_pow_pos w
          omega
        have hge : k < w + 1 := by
          refine (Nat.pow_lt_pow_iff_right (a := 2) (by decide)).mp ?_
          rw [Nat.pow_succ]
          omega
        obtain rfl : k = w := by omega
        omega

end Integer

open Integer

/-! ### Conditions on literals -/

/-- The integer that a literal is fits in a word. -/
theorem Literal.toInt_lt (b : Literal) : b.toInt < twoPow 64 := by
  have hlt : b.toInt < 2 ^ ((b.width + 63) % 64) := BitVec.toInt_lt
  have hle : 2 ^ ((b.width + 63) % 64) ≤ twoPow 64 :=
    Nat.pow_le_pow_right (by decide) (by omega)
  exact Int.lt_of_lt_of_le hlt (by exact_mod_cast hle)

namespace ValuePredicate

variable {f : Func} {v : ValueId} {b : Literal}

theorem onLiteral_eq {p : Literal → Bool} (hb : f.literal? v = some b) :
    onLiteral p f v = p b := by
  rw [onLiteral, hb]
  rfl

/-- A positive literal is a power of two when one bit of its extension to a word is set. -/
theorem isPosPowerOfTwo_iff_cpop (hb : f.literal? v = some b) :
    isPosPowerOfTwo f v ↔ 0 < b.toInt ∧ (BitVec.ofInt 64 b.toInt).cpop.toNat = 1 := by
  rw [isPosPowerOfTwo, onLiteral_eq hb, Bool.and_eq_true, decide_eq_true_eq]
  refine and_congr_right fun hpos => ?_
  have hlt : b.toInt < (2 ^ 64 : Nat) := b.toInt_lt
  have habs : (BitVec.ofInt 64 b.toInt).toNat = b.toInt.natAbs := by
    rw [BitVec.toNat_ofInt]
    omega
  rw [isPowerOfTwo_iff, toNat_cpop_eq_one_iff, habs]

section Widths

variable {x y : BitVec w} (hw : supported w)
include hw

theorem isPosPowerOfTwo_ofBitVec (hx : f.literal? v = some (.ofBitVec x)) :
    isPosPowerOfTwo f v ↔ ∃ k, k < w - 1 ∧ x.toNat = 2 ^ k := by
  obtain ⟨h0, h64⟩ := width_bounds hw
  rw [isPosPowerOfTwo, onLiteral_eq hx, Bool.and_eq_true, decide_eq_true_eq,
    Literal.toInt_ofBitVec h0 h64, toInt_isPosPowerOfTwo_iff]

theorem isNegPowerOfTwo_ofBitVec (hx : f.literal? v = some (.ofBitVec x)) :
    isNegPowerOfTwo f v ↔ ∃ k, k ≤ w - 1 ∧ x.toNat = 2 ^ w - 2 ^ k := by
  obtain ⟨h0, h64⟩ := width_bounds hw
  rw [isNegPowerOfTwo, onLiteral_eq hx, Bool.and_eq_true, decide_eq_true_eq,
    Literal.toInt_ofBitVec h0 h64, toInt_isNegPowerOfTwo_iff h0]

/-- The remainder by a power of two is evaluated to what the conjunction with its predecessor is
evaluated to. -/
theorem evaluate_umod_twoPow {k : Nat} (hx : x.toNat = 2 ^ k) :
    evaluate .isub w [.ofBitVec x, ⟨1, w⟩] = .ok (some ((x - 1#w).setWidth 64)) ∧
      evaluate .umod w [.ofBitVec y, .ofBitVec x] = .ok (some ((y &&& (x - 1#w)).setWidth 64)) ∧
      evaluate .iand w [.ofBitVec y, .ofBitVec (x - 1#w)] =
        .ok (some ((y &&& (x - 1#w)).setWidth 64)) := by
  obtain ⟨h0, h64⟩ := width_bounds hw
  have hone : (⟨1, w⟩ : Literal) = .ofBitVec 1#w := by
    rw [Literal.ofBitVec, BitVec.setWidth_ofNat_of_le_of_lt h64 (Nat.one_lt_two_pow (Nat.ne_of_gt h0))]
    rfl
  have hne : x ≠ 0 := by
    rintro rfl
    exact absurd hx.symm (Nat.ne_of_gt (Nat.two_pow_pos k))
  have hmod : Computes .umod w [.ofBitVec y, .ofBitVec x] (y &&& (x - 1#w)) := by
    rw [← umod_eq_and_sub_one hx, ← if_neg (t := 0) (e := y.umod x) hne]
    exact .binary (p := fun y x => if x = 0 then 0 else y.umod x) rfl y x
  refine ⟨?_, ?_, ?_⟩
  · rw [hone]
    exact evaluate_of_computes (.binary rfl x 1#w) hw (by simp [hw])
  · exact evaluate_of_computes hmod hw (by simp [hw])
  · exact evaluate_of_computes (.binary rfl y (x - 1#w)) hw (by simp [hw])

end Widths

/-- The **conditions on powers of two** at the width of a literal: the first accepts one bit below
the sign bit, the second the ones from some bit up, and the remainder by what the first accepts is
the conjunction with its predecessor. -/
theorem powersOfTwo_spec (hb : f.literal? v = some b) (hm : b.IsMasked) (hw : supported b.width) :
    (isPosPowerOfTwo f v ↔ ∃ k, k < b.width - 1 ∧ b.bits.toNat = 2 ^ k) ∧
      (isNegPowerOfTwo f v ↔ ∃ k, k ≤ b.width - 1 ∧ b.bits.toNat = 2 ^ b.width - 2 ^ k) ∧
      (isPosPowerOfTwo f v → ∀ a : Literal, a.IsMasked → a.width = b.width →
        ∃ d r, evaluate .isub b.width [b, ⟨1, b.width⟩] = .ok (some d) ∧
          evaluate .umod b.width [a, b] = .ok (some r) ∧
          evaluate .iand b.width [a, ⟨d, b.width⟩] = .ok (some r)) := by
  have h64 := (width_bounds hw).2
  obtain ⟨w, x, rfl⟩ : ∃ w, ∃ x : BitVec w, b = .ofBitVec x := ⟨_, hm.exists_eq_ofBitVec h64⟩
  simp only [Literal.width_ofBitVec] at hw h64 ⊢
  rw [Literal.toNat_ofBitVec h64]
  refine ⟨isPosPowerOfTwo_ofBitVec hw hb, isNegPowerOfTwo_ofBitVec hw hb, fun hp a ha haw => ?_⟩
  obtain ⟨k, -, hk⟩ := (isPosPowerOfTwo_ofBitVec hw hb).mp hp
  obtain ⟨y, rfl⟩ : ∃ y : BitVec w, a = .ofBitVec y := haw ▸ ha.exists_eq_ofBitVec (haw ▸ h64)
  obtain ⟨hsub, hmod, hand⟩ := evaluate_umod_twoPow (y := y) hw hk
  exact ⟨_, _, hsub, hmod, hand⟩

/-- Eight bits with bit 4 set: the remainder of 255 is 15, whichever way it is evaluated. -/
theorem powersOfTwo_spec_sixteen :
    let f := ((Func.empty "f").pushValue (.literal 16) 8).2
    f.literal? ⟨0⟩ = some ⟨16, 8⟩ ∧ isPosPowerOfTwo f ⟨0⟩ ∧ ¬isNegPowerOfTwo f ⟨0⟩ ∧
      ∃ d r, evaluate .isub 8 [⟨16, 8⟩, ⟨1, 8⟩] = .ok (some d) ∧
        evaluate .umod 8 [⟨255, 8⟩, ⟨16, 8⟩] = .ok (some r) ∧
        evaluate .iand 8 [⟨255, 8⟩, ⟨d, 8⟩] = .ok (some r) := by
  intro f
  have hb : f.literal? ⟨0⟩ = some ⟨16, 8⟩ := by decide
  obtain ⟨hpos, -, hmod⟩ := powersOfTwo_spec hb (Literal.isMasked_of 16 8) (by decide)
  have hp : isPosPowerOfTwo f ⟨0⟩ := hpos.mpr ⟨4, by decide, by decide⟩
  exact ⟨hb, hp, by decide, hmod hp ⟨255, 8⟩ (Literal.isMasked_of 255 8) rfl⟩

/-- The sign bit alone is a negative power, and no positive one. -/
example :
    let f := ((Func.empty "f").pushValue (.literal 1) 1).2
    isNegPowerOfTwo f ⟨0⟩ = true ∧ isPosPowerOfTwo f ⟨0⟩ = false := by decide

end ValuePredicate

end Peephole

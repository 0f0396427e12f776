import Peephole.Integer
import Peephole.Proofs.Func.Fitting
import Peephole.Proofs.Func.Valuation
import Peephole.Proofs.Width

/-!
# Evaluation of integer operations

Integer operations are evaluated on words of 64 bits, into which their sources have been extended,
and the result is masked. That is the function on bit vectors of the exact width: the low bits of a
sum or a product depend on the low bits of the sources only, and where the high bits matter, as in
a quotient, an order or a shift to the right, the extension has made them those of the integer.

* `evaluate_of_computes`: what an operation computes is what it is evaluated to.
* `evaluate_integer`: an integer operation computes exactly one result from masked literals of the
  widths that it asks for, and is evaluated to it.
-/

namespace Peephole

variable {n w : Nat}

/-! ### Cutting off -/

namespace Integer

/-- Keeping the low bits of a word is cutting it off and extending it by zeros. -/
theorem and_mask_eq (hw : w ≤ 64) (b : Word) : b &&& mask w = (b.setWidth w).setWidth 64 := by
  refine BitVec.eq_of_toNat_eq ?_
  rw [toNat_and_mask b hw, BitVec.toNat_setWidth_of_le hw, BitVec.toNat_setWidth]
  rfl

/-- An extension by zeros cut off again. -/
theorem setWidth_setWidth (hw : w ≤ n) (x : BitVec w) : (x.setWidth n).setWidth w = x := by
  rw [BitVec.setWidth_setWidth_of_le _ hw, BitVec.setWidth_eq]

/-- The low bits of an integer depend on the integer only. -/
theorem setWidth_ofInt (hn : n ≤ w) (z : Int) :
    (BitVec.ofInt w z).setWidth n = BitVec.ofInt n z := by
  refine BitVec.eq_of_toInt_eq ?_
  rw [← BitVec.signExtend_eq_setWidth_of_le _ hn, BitVec.toInt_signExtend, BitVec.toInt_ofInt,
    BitVec.toInt_ofInt, Nat.min_eq_left hn, Int.bmod_bmod_of_dvd (Nat.pow_dvd_pow 2 hn)]

theorem ofInt_tdiv (x y : BitVec w) : BitVec.ofInt w (x.toInt.tdiv y.toInt) = x.sdiv y := by
  refine BitVec.eq_of_toInt_eq ?_
  rw [BitVec.toInt_ofInt, BitVec.toInt_sdiv]

theorem ofInt_tmod (x y : BitVec w) : BitVec.ofInt w (x.toInt.tmod y.toInt) = x.srem y := by
  rw [← BitVec.toInt_srem, BitVec.ofInt_toInt]

theorem ofInt_natAbs (x : BitVec w) : BitVec.ofInt w x.toInt.natAbs = x.abs := by
  rw [BitVec.abs_eq]
  split
  · next hneg =>
    have habs : (x.toInt.natAbs : Int) = -x.toInt := by
      have := BitVec.toInt_neg_of_msb_true hneg
      omega
    rw [habs, BitVec.ofInt_neg, BitVec.ofInt_toInt]
  · next hpos =>
    have habs : (x.toInt.natAbs : Int) = x.toInt := by
      have := BitVec.toInt_nonneg_of_msb_false (by simpa using hpos)
      omega
    rw [habs, BitVec.ofInt_toInt]

end Integer

/-! ### Literals as bit vectors -/

namespace Literal

open Integer

@[simp] theorem bits_ofBitVec (x : BitVec w) : (ofBitVec x).bits = x.setWidth 64 := rfl

@[simp] theorem width_ofBitVec (x : BitVec w) : (ofBitVec x).width = w := rfl

/-- A literal without bits above its width is a bit vector. -/
theorem IsMasked.exists_eq_ofBitVec {l : Literal} (h : l.IsMasked) (hw : l.width ≤ 64) :
    ∃ x : BitVec l.width, l = ofBitVec x := by
  refine ⟨l.bits.setWidth l.width, ?_⟩
  rw [ofBitVec, ← and_mask_eq hw, h]

theorem toInt_ofBitVec (h0 : 0 < w) (hw : w ≤ 64) (x : BitVec w) :
    (ofBitVec x).toInt = x.toInt := by
  rw [toInt, bits_ofBitVec, width_ofBitVec, signed_eq h0 hw, setWidth_setWidth hw]

theorem toNat_ofBitVec (hw : w ≤ 64) (x : BitVec w) : (ofBitVec x).bits.toNat = x.toNat :=
  BitVec.toNat_setWidth_of_le hw

theorem ofBitVec_inj (hw : w ≤ 64) {x y : BitVec w} :
    (ofBitVec x).bits = (ofBitVec y).bits ↔ x = y := by
  rw [← BitVec.toNat_inj, toNat_ofBitVec hw, toNat_ofBitVec hw, BitVec.toNat_inj]

theorem bits_ofBitVec_eq_zero (hw : w ≤ 64) {x : BitVec w} : (ofBitVec x).bits = 0 ↔ x = 0 := by
  rw [← ofBitVec_inj hw, bits_ofBitVec 0, BitVec.ofNat_eq_ofNat, BitVec.ofNat_eq_ofNat,
    BitVec.setWidth_zero]

theorem toBool_ofBitVec (hw : w ≤ 64) (x : BitVec w) : (ofBitVec x).toBool = (x != 0) := by
  rw [toBool, Bool.eq_iff_iff, bne_iff_ne, bne_iff_ne]
  exact not_congr (bits_ofBitVec_eq_zero hw)

end Literal

/-! ### The kinds of operations -/

namespace Integer

open Literal

variable {op : Opcode}

/-- A truth value cut off is one bit extended by zeros. -/
theorem setWidth_truth (b : Bool) :
    (Evaluate.truth b).setWidth w = (BitVec.ofBool b).setWidth w := by
  refine BitVec.eq_of_toNat_eq ?_
  cases b <;> simp [Evaluate.truth]

/-- A truth value in every bit of a word cut off is one bit extended by its sign. -/
theorem setWidth_filled (hw : w ≤ 64) (b : Bool) :
    (if b then BitVec.allOnes 64 else 0).setWidth w = (BitVec.ofBool b).signExtend w := by
  cases b with
  | false => exact setWidth_ofInt hw 0
  | true => exact setWidth_ofInt hw (-1)

/-- Shifts count modulo the width. -/
theorem distance_ofBitVec (hw : supported w) (amount : BitVec 32) :
    Evaluate.distance w (ofBitVec amount) = amount.toNat % w := by
  have hlt : amount.toNat % twoPow 32 = amount.toNat := Nat.mod_eq_of_lt amount.isLt
  obtain ⟨k, hk, rfl⟩ : ∃ k ≤ 6, w = 2 ^ k := by
    obtain ⟨c, hc⟩ := Option.isSome_iff_exists.mp hw
    rw [← WidthClass.bits_of_ofBits? hc]
    cases c with
    | b1 => exact ⟨0, by decide, rfl⟩
    | b8 => exact ⟨3, by decide, rfl⟩
    | b16 => exact ⟨4, by decide, rfl⟩
    | b32 => exact ⟨5, by decide, rfl⟩
    | b64 => exact ⟨6, by decide, rfl⟩
  have hmod : amount.toNat % 2 ^ k < 2 ^ 6 :=
    Nat.lt_of_lt_of_le (Nat.mod_lt _ (Nat.two_pow_pos k)) (Nat.pow_le_pow_right (by decide) hk)
  rw [Evaluate.distance, toNat_ofBitVec (by decide), hlt, Nat.and_two_pow_sub_one_eq_mod]
  exact Nat.mod_eq_of_lt hmod

/-- What a word is cut off to, when it is one of two. -/
theorem setWidth_ite (hw : w ≤ 64) {c : Prop} [Decidable c] {d : Bool} (hc : c ↔ d)
    (x y : BitVec w) :
    (if c then (ofBitVec x).bits else (ofBitVec y).bits).setWidth w = if d then x else y := by
  by_cases h : c
  · rw [if_pos h, if_pos (hc.mp h), bits_ofBitVec, setWidth_setWidth hw]
  · rw [if_neg h, if_neg (h ∘ hc.mpr), bits_ofBitVec, setWidth_setWidth hw]

/-- What a word is cut off to, when it is zero or has the value of a bit vector. -/
theorem setWidth_unless_zero (hw : w ≤ 64) {y r : BitVec w} {b : Word} (h : b.toNat = r.toNat) :
    (if (ofBitVec y).bits = 0 then 0 else b).setWidth w = if y = 0 then 0 else r := by
  simp only [bits_ofBitVec_eq_zero hw]
  split
  · rw [BitVec.ofNat_eq_ofNat, BitVec.setWidth_zero]
    rfl
  · refine BitVec.eq_of_toNat_eq ?_
    rw [BitVec.toNat_setWidth, h, Nat.mod_eq_of_lt r.isLt]

theorem ofInt_min (x y : BitVec w) :
    BitVec.ofInt w (min x.toInt y.toInt) = if x.sle y then x else y := by
  rw [Int.min_def, apply_ite (BitVec.ofInt w), BitVec.ofInt_toInt, BitVec.ofInt_toInt]
  simp only [BitVec.sle_iff_toInt_le]

theorem ofInt_max (x y : BitVec w) :
    BitVec.ofInt w (max x.toInt y.toInt) = if x.sle y then y else x := by
  rw [Int.max_def, apply_ite (BitVec.ofInt w), BitVec.ofInt_toInt, BitVec.ofInt_toInt]
  simp only [BitVec.sle_iff_toInt_le]

section Kinds

variable (hw : supported w)
include hw

theorem unary_sound {p : BitVec w → BitVec w} (h : unary? op = some p) (x : BitVec w) :
    (Evaluate.unary op w (ofBitVec x)).map (·.setWidth w) = some (p x) := by
  obtain ⟨h0, h64⟩ := width_bounds hw
  cases op <;> cases h
  case ineg => simp [Evaluate.unary, BitVec.setWidth_neg_of_le h64, setWidth_setWidth h64]
  case iabs =>
    rw [Evaluate.unary, Option.map_some, toInt_ofBitVec h0 h64, setWidth_ofInt h64, ofInt_natAbs]
  case inot => simp [Evaluate.unary, BitVec.setWidth_not h64, setWidth_setWidth h64]

theorem binary_sound {p : BitVec w → BitVec w → BitVec w} (h : binary? op = some p)
    (x y : BitVec w) :
    (Evaluate.binary op w (ofBitVec x) (ofBitVec y)).map (·.setWidth w) = some (p x y) := by
  obtain ⟨h0, h64⟩ := width_bounds hw
  have hle : (ofBitVec x).bits ≤ (ofBitVec y).bits ↔ x.ule y := by
    rw [BitVec.ule_iff_toNat_le, BitVec.le_def, toNat_ofBitVec h64, toNat_ofBitVec h64]
  have hzero : y.toInt = 0 ↔ y = 0 := by
    rw [← BitVec.toInt_inj, BitVec.ofNat_eq_ofNat, BitVec.toInt_zero]
  -- cutting off commutes with the operations of a ring and with bitwise ones; all others go by way
  -- of the integer or of the number that a source is
  cases op <;> cases h
  case iadd => simp [Evaluate.binary, BitVec.setWidth_add _ _ h64, setWidth_setWidth h64]
  case isub =>
    simp [Evaluate.binary, BitVec.sub_eq_add_neg, BitVec.setWidth_add _ _ h64,
      BitVec.setWidth_neg_of_le h64, setWidth_setWidth h64]
  case imul => simp [Evaluate.binary, BitVec.setWidth_mul _ _ h64, setWidth_setWidth h64]
  case iand | ior | ixor => simp [Evaluate.binary, setWidth_setWidth h64]
  case idiv =>
    simp only [Evaluate.binary, Option.map_some, toInt_ofBitVec h0 h64, setWidth_ofInt h64,
      ofInt_tdiv]
    split
    · next hy => rw [hy, BitVec.ofNat_eq_ofNat, BitVec.sdiv_zero]
    · rfl
  case irem =>
    simp only [Evaluate.binary, Option.map_some, toInt_ofBitVec h0 h64, hzero]
    split
    · rw [BitVec.ofNat_eq_ofNat, BitVec.setWidth_zero]
      rfl
    · rw [setWidth_ofInt h64, ofInt_tmod]
  case udiv =>
    rw [Evaluate.binary, Option.map_some, setWidth_unless_zero h64]
    rw [BitVec.toNat_udiv, toNat_ofBitVec h64, toNat_ofBitVec h64]
    exact BitVec.toNat_udiv.symm
  case umod =>
    rw [Evaluate.binary, Option.map_some, setWidth_unless_zero h64]
    rw [BitVec.toNat_umod, toNat_ofBitVec h64, toNat_ofBitVec h64]
    exact BitVec.toNat_umod.symm
  case imin =>
    rw [Evaluate.binary, Option.map_some, toInt_ofBitVec h0 h64, toInt_ofBitVec h0 h64,
      setWidth_ofInt h64, ofInt_min]
  case imax =>
    rw [Evaluate.binary, Option.map_some, toInt_ofBitVec h0 h64, toInt_ofBitVec h0 h64,
      setWidth_ofInt h64, ofInt_max]
  case umin => rw [Evaluate.binary, Option.map_some, setWidth_ite h64 hle]
  case umax => rw [Evaluate.binary, Option.map_some, setWidth_ite h64 hle]

theorem shift_sound {p : BitVec w → Nat → BitVec w} (h : shift? op = some p) (x : BitVec w)
    (amount : BitVec 32) :
    (Evaluate.binary op w (ofBitVec x) (ofBitVec amount)).map (·.setWidth w) =
      some (p x (amount.toNat % w)) := by
  obtain ⟨h0, h64⟩ := width_bounds hw
  cases op <;> cases h
  case ishl =>
    rw [Evaluate.binary, Option.map_some, distance_ofBitVec hw, bits_ofBitVec,
      BitVec.setWidth_shiftLeft_of_le h64, setWidth_setWidth h64]
  case ishr =>
    rw [Evaluate.binary, Option.map_some, distance_ofBitVec hw, toInt_ofBitVec h0 h64,
      setWidth_ofInt h64, ← BitVec.toInt_sshiftRight, BitVec.ofInt_toInt]
  case ushr =>
    rw [Evaluate.binary, Option.map_some, distance_ofBitVec hw, bits_ofBitVec,
      ← BitVec.setWidth_ushiftRight h64, setWidth_setWidth h64]

theorem comparison_sound {p : BitVec w → BitVec w → Bool} (h : comparison? op = some p)
    (x y : BitVec w) :
    (Evaluate.binary op n (ofBitVec x) (ofBitVec y)).map (·.setWidth 1) =
      some (BitVec.ofBool (p x y)) := by
  obtain ⟨h0, h64⟩ := width_bounds hw
  have hbeq : ((ofBitVec x).bits == (ofBitVec y).bits) = (x == y) := by
    rw [Bool.eq_iff_iff, beq_iff_eq, beq_iff_eq, ofBitVec_inj h64]
  cases op <;> cases h
  case ieq =>
    rw [Evaluate.binary, Option.map_some, setWidth_truth, BitVec.setWidth_eq, hbeq]
  case ine =>
    rw [Evaluate.binary, Option.map_some, setWidth_truth, BitVec.setWidth_eq, bne, hbeq]
    rfl
  case ilt | ige =>
    rw [Evaluate.binary, Option.map_some, setWidth_truth, BitVec.setWidth_eq,
      toInt_ofBitVec h0 h64, toInt_ofBitVec h0 h64]
    rfl
  case ult | uge =>
    simp only [Evaluate.binary, Option.map_some, setWidth_truth, BitVec.setWidth_eq,
      BitVec.lt_def, BitVec.le_def, toNat_ofBitVec h64]
    rfl

end Kinds

theorem conversion_sound {f : Family} {p : BitVec n → BitVec w} (hn : supported n)
    (hw : supported w) (h : conversion? f = some p) (x : BitVec n) :
    (Evaluate.convert f w (ofBitVec x)).map (·.setWidth w) = some (p x) := by
  obtain ⟨h0, h64⟩ := width_bounds hn
  obtain ⟨-, hw64⟩ := width_bounds hw
  cases f <;> cases h
  case i2i =>
    rw [Evaluate.convert, Option.map_some, toInt_ofBitVec h0 h64, setWidth_ofInt hw64]
    rfl
  case u2u =>
    refine congrArg some (BitVec.eq_of_toNat_eq ?_)
    rw [BitVec.toNat_setWidth, toNat_ofBitVec h64, BitVec.toNat_setWidth]
  case b2b =>
    rw [Evaluate.convert, Option.map_some, toBool_ofBitVec h64, setWidth_filled hw64]
  case b2i =>
    rw [Evaluate.convert, Option.map_some, toBool_ofBitVec h64]
    exact congrArg some (setWidth_truth _)

/-! ### Evaluation -/

theorem form_of_unary? {p : BitVec w → BitVec w} (h : unary? op = some p) :
    op ∈ operations ∧ op.family? = none ∧ op.arity = 1 ∧
      op.info.sourceWidths = [.dest, .dest, .dest] := by
  cases op <;> cases h <;> exact ⟨by decide, rfl, rfl, rfl⟩

theorem form_of_binary? {p : BitVec w → BitVec w → BitVec w} (h : binary? op = some p) :
    op ∈ operations ∧ op.family? = none ∧ op.arity = 2 ∧
      op.info.sourceWidths = [.dest, .dest, .dest] := by
  cases op <;> cases h <;> exact ⟨by decide, rfl, rfl, rfl⟩

theorem form_of_shift? {p : BitVec w → Nat → BitVec w} (h : shift? op = some p) :
    op ∈ operations ∧ op.family? = none ∧ op.arity = 2 ∧
      op.info.sourceWidths = [.dest, .fixed 32, .any] := by
  cases op <;> cases h <;> exact ⟨by decide, rfl, rfl, rfl⟩

theorem form_of_comparison? {p : BitVec n → BitVec n → Bool} (h : comparison? op = some p) :
    op ∈ operations ∧ op.family? = none ∧ op.arity = 2 ∧
      op.info.sourceWidths = [.paired, .paired, .paired] ∧ op.info.fixedWidth = some 1 := by
  cases op <;> cases h <;> exact ⟨by decide, rfl, rfl, rfl, rfl⟩

theorem mem_of_conversion? {f : Family} {p : BitVec n → BitVec w} (member : op.family? = some f)
    (h : conversion? f = some p) : op ∈ operations := by
  cases f <;> cases h <;> cases op <;> cases member <;> decide

/-- The **kind** of an integer operation at a width, by the table that has its function. -/
inductive Kind (op : Opcode) (w : Nat) : Prop
  | unary {p : BitVec w → BitVec w} (h : unary? op = some p)
  | binary {p : BitVec w → BitVec w → BitVec w} (h : binary? op = some p)
  | shift {p : BitVec w → Nat → BitVec w} (h : shift? op = some p)
  | comparison (h : ∀ n, ∃ p, comparison? (w := n) op = some p)
  | selection (h : op = .bcsel)
  | conversion {f : Family} (member : op.family? = some f)
      (h : ∀ n, ∃ p, conversion? (n := n) (w := w) f = some p)

theorem kind_of_mem (hop : op ∈ operations) (w : Nat) : Kind op w := by
  cases op
  case ineg | iabs | inot => exact .unary rfl
  case iadd | isub | imul | iand | ior | ixor | idiv | udiv | irem | umod | imin | imax | umin |
      umax => exact .binary rfl
  case ishl | ishr | ushr => exact .shift rfl
  case ieq | ine | ilt | ige | ult | uge => exact .comparison fun _ => ⟨_, rfl⟩
  case bcsel => exact .selection rfl
  case i2i8 | i2i16 | i2i32 | i2i64 | u2u8 | u2u16 | u2u32 | u2u64 | b2b1 | b2b32 | b2i8 | b2i16 |
      b2i32 | b2i64 => exact .conversion rfl fun _ => ⟨_, rfl⟩
  all_goals exact absurd hop (by decide)

/-- No integer operation has floats among its sources and results. -/
theorem classes_of_mem (hop : op ∈ operations) :
    op.hasResult ∧ op.info.resultClass ≠ .float ∧ .float ∉ op.info.sourceClasses := by
  revert op
  decide

theorem hasFormats_of_mem {ls : List Literal} (hop : op ∈ operations) : hasFormats op w ls := by
  obtain ⟨-, hclass, hclasses⟩ := classes_of_mem hop
  exact hasFormats_iff.mpr ⟨fun hc => absurd hc hclass,
    fun k l _ hc => absurd (List.mem_of_getElem? hc) hclasses⟩

/-- An integer operation that is no conversion is evaluated on words, and the low bits are kept. -/
theorem evaluate_operate {ls : List Literal} {r : BitVec w} (hop : op ∈ operations)
    (hf : op.family? = none) (hlen : ls.length = op.arity) (hw : w ≤ 64)
    (h : (Evaluate.operate op w ls).map (·.setWidth w) = some r) :
    evaluate op w ls = .ok (some (r.setWidth 64)) := by
  obtain ⟨raw, hraw, rfl⟩ := Option.map_eq_some_iff.mp h
  unfold evaluate
  rw [if_neg (not_not_intro hlen), if_neg (by simp [(classes_of_mem hop).1, hasFormats_of_mem hop])]
  simp only [hf, hraw, Option.map_some, and_mask_eq hw]

/-- A conversion of integers is evaluated on words, and the low bits are kept. -/
theorem evaluate_conversion {f : Family} {a : Literal} {r : BitVec w} (hop : op ∈ operations)
    (hf : op.family? = some f) (hw : w ≤ 64)
    (h : (Evaluate.convert f w a).map (·.setWidth w) = some r) :
    evaluate op w [a] = .ok (some (r.setWidth 64)) := by
  obtain ⟨raw, hraw, rfl⟩ := Option.map_eq_some_iff.mp h
  have hlen : [a].length = op.arity := (Evaluate.classes_of_family? hf).1.symm
  unfold evaluate
  rw [if_neg (not_not_intro hlen), if_neg (by simp [(classes_of_mem hop).1, hasFormats_of_mem hop])]
  simp only [hf, hraw, Option.map_some, and_mask_eq hw]

end Integer

open Integer

variable {op : Opcode} {ls : List Literal} {r : BitVec w}

/-- What an operation computes is what it is evaluated to. -/
theorem evaluate_of_computes (h : Computes op w ls r) (hw : supported w)
    (hls : ∀ l ∈ ls, supported l.width) : evaluate op w ls = .ok (some (r.setWidth 64)) := by
  have h64 := (width_bounds hw).2
  cases h with
  | unary h x =>
    obtain ⟨hop, hf, harity, -⟩ := form_of_unary? h
    exact evaluate_operate hop hf harity.symm h64 (unary_sound hw h x)
  | binary h x y =>
    obtain ⟨hop, hf, harity, -⟩ := form_of_binary? h
    exact evaluate_operate hop hf harity.symm h64 (binary_sound hw h x y)
  | shift h x amount =>
    obtain ⟨hop, hf, harity, -⟩ := form_of_shift? h
    exact evaluate_operate hop hf harity.symm h64 (shift_sound hw h x amount)
  | comparison h x y =>
    obtain ⟨hop, hf, harity, -⟩ := form_of_comparison? h
    have hn : supported _ := hls (.ofBitVec x) (List.mem_cons_self ..)
    exact evaluate_operate hop hf harity.symm h64 (comparison_sound hn h x y)
  | selection c x y =>
    refine evaluate_operate (by decide) rfl rfl h64 ?_
    have hbit : ∀ t : BitVec 1, (t != 0) = decide (t = 1) := by decide
    have hc : (Literal.ofBitVec c).toBool ↔ decide (c = 1) := by
      rw [Literal.toBool_ofBitVec (by decide), hbit]
    rw [Evaluate.operate, ← apply_ite some, Option.map_some, setWidth_ite h64 hc]
    simp
  | conversion member h x =>
    have hn : supported _ := hls (.ofBitVec x) (List.mem_cons_self ..)
    exact evaluate_conversion (mem_of_conversion? member h) member h64 (conversion_sound hn hw h x)

/-- An integer operation computes a result from masked literals of the widths that it asks for. -/
theorem exists_computes (hop : op ∈ operations) (hcheck : Func.checkInst op w ls.length = .ok ())
    (hfits : op.fits w (ls.map (·.width))) (hls : ∀ l ∈ ls, l.IsMasked ∧ supported l.width) :
    ∃ r : BitVec w, Computes op w ls r := by
  have hlen := length_of_checkInst hcheck
  have hbits (l : Literal) (hl : l ∈ ls) : ∃ n, ∃ x : BitVec n, l = .ofBitVec x :=
    ⟨_, (hls l hl).1.exists_eq_ofBitVec (width_bounds (hls l hl).2).2⟩
  cases kind_of_mem hop w with
  | unary h =>
    obtain ⟨-, -, harity, hwidths⟩ := form_of_unary? h
    obtain ⟨a, rfl⟩ := List.length_eq_one_iff.mp (hlen.trans harity)
    obtain ⟨n, x, rfl⟩ := hbits a (by simp)
    obtain rfl : n = w := Opcode.eq_of_fits_dest hfits (k := 0) rfl (by rw [hwidths]; rfl)
    exact ⟨_, .unary h x⟩
  | binary h =>
    obtain ⟨-, -, harity, hwidths⟩ := form_of_binary? h
    obtain ⟨a, b, rfl⟩ := List.length_eq_two.mp (hlen.trans harity)
    obtain ⟨n, x, rfl⟩ := hbits a (by simp)
    obtain ⟨m, y, rfl⟩ := hbits b (by simp)
    obtain rfl : n = w := Opcode.eq_of_fits_dest hfits (k := 0) rfl (by rw [hwidths]; rfl)
    obtain rfl : m = n := Opcode.eq_of_fits_dest hfits (k := 1) rfl (by rw [hwidths]; rfl)
    exact ⟨_, .binary h x y⟩
  | shift h =>
    obtain ⟨-, -, harity, hwidths⟩ := form_of_shift? h
    obtain ⟨a, b, rfl⟩ := List.length_eq_two.mp (hlen.trans harity)
    obtain ⟨n, x, rfl⟩ := hbits a (by simp)
    obtain ⟨m, y, rfl⟩ := hbits b (by simp)
    obtain rfl : n = w := Opcode.eq_of_fits_dest hfits (k := 0) rfl (by rw [hwidths]; rfl)
    obtain rfl : m = 32 := Opcode.eq_of_fits_fixed hfits (k := 1) rfl (by rw [hwidths]; rfl)
    exact ⟨_, .shift h x y⟩
  | comparison h =>
    obtain ⟨-, -, harity, hwidths, hfixed⟩ := form_of_comparison? (h w).choose_spec
    obtain rfl : 1 = w := Opcode.fixedWidth_of_checkInst hcheck hfixed
    obtain ⟨a, b, rfl⟩ := List.length_eq_two.mp (hlen.trans harity)
    obtain ⟨n, x, rfl⟩ := hbits a (by simp)
    obtain ⟨m, y, rfl⟩ := hbits b (by simp)
    obtain rfl : m = n :=
      Opcode.eq_of_fits_paired hfits (k := 0) (j := 1) rfl rfl (by rw [hwidths]; rfl)
        (by rw [hwidths]; rfl)
    obtain ⟨p, hp⟩ := h m
    exact ⟨_, .comparison hp x y⟩
  | selection h =>
    subst h
    obtain ⟨a, b, c, rfl⟩ := List.length_eq_three.mp hlen
    obtain ⟨k, t, rfl⟩ := hbits a (by simp)
    obtain ⟨n, x, rfl⟩ := hbits b (by simp)
    obtain ⟨m, y, rfl⟩ := hbits c (by simp)
    obtain rfl : k = 1 := Opcode.eq_of_fits_fixed hfits (k := 0) rfl rfl
    obtain rfl : n = w := Opcode.eq_of_fits_dest hfits (k := 1) rfl rfl
    obtain rfl : m = n := Opcode.eq_of_fits_dest hfits (k := 2) rfl rfl
    exact ⟨_, .selection t x y⟩
  | conversion member h =>
    have harity : op.arity = 1 := (Evaluate.classes_of_family? member).1
    obtain ⟨a, rfl⟩ := List.length_eq_one_iff.mp (hlen.trans harity)
    obtain ⟨n, x, rfl⟩ := hbits a (by simp)
    obtain ⟨p, hp⟩ := h n
    exact ⟨_, .conversion member hp x⟩

/-- An integer operation **computes** exactly one result from masked literals of the widths that it
asks for, and it is evaluated to that result. -/
theorem evaluate_integer (hop : op ∈ operations)
    (hcheck : Func.checkInst op w ls.length = .ok ()) (hfits : op.fits w (ls.map (·.width)))
    (hls : ∀ l ∈ ls, l.IsMasked ∧ supported l.width) :
    ∃ r : BitVec w, (∀ s, Computes op w ls s ↔ s = r) ∧
      evaluate op w ls = .ok (some (r.setWidth 64)) := by
  have hw : supported w := supported_of_checkInst hcheck (classes_of_mem hop).1
  obtain ⟨r, hr⟩ := exists_computes hop hcheck hfits hls
  have heval {s : BitVec w} (hs : Computes op w ls s) :
      evaluate op w ls = .ok (some (s.setWidth 64)) :=
    evaluate_of_computes hs hw fun l hl => (hls l hl).2
  refine ⟨r, fun s => ⟨fun hs => ?_, fun hs => hs ▸ hr⟩, heval hr⟩
  have heq : s.setWidth 64 = r.setWidth 64 := by
    simpa using (heval hs).symm.trans (heval hr)
  rw [← setWidth_setWidth (width_bounds hw).2 s, heq, setWidth_setWidth (width_bounds hw).2]

/-- The least integer of 8 bits divided by -1 is itself. -/
theorem evaluate_integer_idiv :
    Computes .idiv 8 [.ofBitVec 0x80#8, .ofBitVec 0xff#8] 0x80#8 ∧
      evaluate .idiv 8 [⟨0x80, 8⟩, ⟨0xff, 8⟩] = .ok (some 0x80) := by
  have hls : ∀ l ∈ [Literal.ofBitVec 0x80#8, .ofBitVec 0xff#8],
      l.bits &&& mask l.width = l.bits ∧ supported l.width = true := by decide
  have hcomputes : Computes .idiv 8 [.ofBitVec 0x80#8, .ofBitVec 0xff#8] 0x80#8 :=
    @Computes.binary .idiv 8 _ rfl 0x80#8 0xff#8
  obtain ⟨r, hr, heval⟩ :=
    @evaluate_integer 8 .idiv _ (by decide) (by decide) (by decide) hls
  obtain rfl : 0x80#8 = r := (hr _).mp hcomputes
  exact ⟨hcomputes, heval⟩

end Peephole

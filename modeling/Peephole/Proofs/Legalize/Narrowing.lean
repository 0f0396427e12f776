import Peephole.Legalize.Narrowing
import Peephole.Proofs.Rule.Buildable
import Peephole.Proofs.Width

/-!
# Integers through narrow integers

The rules for conversions through `n` bits that read an integer denote the same before and after.
Both ways of taking the low bits agree with a conversion to `n` bits, as far as the outer conversion
can tell: a mask keeps the bits that it reads, and a pair of shifts keeps the number that it reads,
`convert_extendLow`.
-/

namespace Peephole

open Pattern

/-! ### Conversions -/

section Convert

variable {f : Family} {op : Opcode} {w : Nat}

/-- What a member of a family looks like. -/
theorem Family.spec_of_withWidth? (h : f.withWidth? w = some op) :
    op.family? = some f ∧ op.info.fixedWidth = some w ∧ op.hasResult ∧ op.arity = 1 ∧
      op.info.sourceWidths = [.any, .any, .any] ∧
      op.info.sourceClasses = [f.source, f.source, f.source] ∧ op.info.resultClass = f.result := by
  have hfind := List.find?_some h
  simp only [Bool.and_eq_true, beq_iff_eq] at hfind
  obtain ⟨-, hwidths, -⟩ := Operation.form (o := .family f) h
  obtain ⟨harity, hsource, hresult⟩ := Evaluate.classes_of_family? hfind.1
  exact ⟨hfind.1, hfind.2, Operation.hasResult_of_family h, harity, hwidths, hsource, hresult⟩

/-- A conversion is evaluated as its family says. -/
theorem evaluate_convert (h : f.withWidth? w = some op) {a : Literal}
    (hs : f.source = .float → a.isFloatWidth) (hr : f.result = .float → isFloatWidth w) :
    evaluate op w [a] = .ok ((Evaluate.convert f w a).map (· &&& mask w)) := by
  obtain ⟨hfamily, -, hresult, harity, -, hsource, hclass⟩ := Family.spec_of_withWidth? h
  have hformats : hasFormats op w [a] := by
    refine hasFormats_iff.mpr ⟨fun hc => hr (hclass.symm.trans hc), fun k l hk hc => ?_⟩
    obtain _ | k := k
    · obtain rfl : a = l := by simpa using hk
      exact hs (by simpa [hsource] using hc)
    · simp at hk
  unfold evaluate
  rw [if_neg (by simp [harity]), if_neg (by simp [hresult, hformats]), hfamily]

/-- The term of a conversion to a width that its family has. -/
theorem Term.convert_eq_op (hw : f.withWidth? w = some op) (x : Term) :
    Term.convert f w x = .op op w [x] := by
  rw [Term.convert, hw]
  rfl

variable {slot : Nat} {e : ExpressionSlot} {q : Pattern}

theorem form_convert (hw : f.withWidth? w = some op) :
    (Operation.single op).withWidth? w = some op := by
  simp [Operation.withWidth?, (Family.spec_of_withWidth? hw).2.1]

/-- A conversion denotes what the literal of its source is converted to. -/
theorem meaning_convert (hw : f.withWidth? w = some op) {σ : Nat → Option Literal}
    (hs : ∀ a, q.meaning σ none = some a → f.source = .float → a.isFloatWidth)
    (hr : f.result = .float → isFloatWidth w) (hop : e.op = .single op) (he : e.width = some w)
    (expected : Option Nat) :
    (expr slot e none [q]).meaning σ expected =
      (q.meaning σ none).bind fun a => (Evaluate.convert f w a).map (.of · w) := by
  obtain ⟨-, -, -, -, hwidths, -⟩ := Family.spec_of_withWidth? hw
  rw [meaning_expr he (hop ▸ form_convert hw), hwidths, meanings_cons]
  simp only [Build.sourceWidth, meanings_nil, Option.map_some, Option.bind_assoc]
  cases ha : q.meaning σ none with
  | none => rfl
  | some a =>
    rw [Option.bind_some, Option.bind_some, Option.bind_some, evaluate_convert hw (hs a ha) hr]
    cases Evaluate.convert f w a with
    | none => rfl
    | some bits => simp [Except.toOption, Literal.of, BitVec.and_assoc]

/-- A conversion fits where its floats have formats. -/
theorem fits_convert {n : Nat} (hw : f.withWidth? w = some op)
    (hs : f.source = .float → isFloatWidth n) (hr : f.result = .float → isFloatWidth w) :
    op.fits w [n] := by
  obtain ⟨-, -, -, -, hwidths, hsource, hclass⟩ := Family.spec_of_withWidth? hw
  have hsource' : (f.source != .float || isFloatWidth n) = true := by
    by_cases hc : f.source = .float
    · rw [hs hc, Bool.or_true]
    · simp [hc]
  have hresult' : (f.result != .float || isFloatWidth w) = true := by
    by_cases hc : f.result = .float
    · rw [hr hc, Bool.or_true]
    · simp [hc]
  simp [Opcode.fits, hwidths, hsource, hclass, hsource', Bool.or_assoc, hresult']

/-- A conversion that is not absent may be built from every source that may. -/
theorem Term.mayBuild_convert {absent : List Opcode} {ω : Nat → Nat} {n : Nat} {x : Term}
    {expected : Option Nat} (hw : f.withWidth? w = some op)
    (hs : f.source = .float → isFloatWidth n) (hr : f.result = .float → isFloatWidth w)
    (habsent : op ∉ absent) (hx : x.MayBuild absent ω none n) :
    (Term.convert f w x).MayBuild absent ω expected w := by
  obtain ⟨-, -, hresult, -, hwidths, -, -⟩ := Family.spec_of_withWidth? hw
  have hbuild : op.mayBuild absent w [some n] := by
    simp [Opcode.mayBuild, hresult, habsent, fits_convert hw hs hr]
  rw [Term.convert_eq_op hw]
  exact mayBuild_one (form_convert hw) hwidths hx hbuild

end Convert

/-! ### The low bits of a literal -/

/-- The low `n` bits of a literal, extended to its width the way a family reads its source. -/
def Literal.extendLow (n : Nat) (outer : Family) (a : Literal) : Literal :=
  match outer.source with
  | .int => .of (BitVec.ofInt 64
      (signed (a.bits <<< (a.width - n) &&& mask a.width) a.width >>> (a.width - n))) a.width
  | _ => .of (a.bits &&& mask n) a.width

section Low

variable {n w : Nat} {outer inner : Family} {a : Literal}

/-- The conversions whose source is an integer and whose result is one or a float. -/
def Family.readsInteger : Family → Bool
  | .u2u | .i2i | .u2f | .i2f => true
  | _ => false

theorem Family.readsInteger_of_integer (h : outer = .u2u ∨ outer = .i2i) : outer.readsInteger := by
  obtain rfl | rfl := h <;> rfl

theorem Family.source_ne_float (houter : outer.readsInteger) : outer.source ≠ .float := by
  cases outer <;> first | decide | cases houter

theorem toInt_extendLow (h0 : 0 < n) (hn : n ≤ a.width) (hw : a.width ≤ 64)
    (hs : outer.source = .int) : (a.extendLow n outer).toInt = (Literal.of a.bits n).toInt := by
  rw [Literal.extendLow, hs, Literal.toInt_of h0 (Nat.le_trans hn hw)]
  exact signed_shifts h0 hn hw a.bits

/-- A conversion does not tell a literal that is extended from its low bits. -/
theorem convert_extendLow (h0 : 0 < n) (hn : n ≤ a.width) (hw : a.width ≤ 64)
    (houter : outer.readsInteger) :
    Evaluate.convert outer w (a.extendLow n outer) =
      Evaluate.convert outer w (.of a.bits n) := by
  have hbits (hs : outer.source ≠ .int) :
      (a.extendLow n outer).bits = (Literal.of a.bits n).bits := by
    unfold Literal.extendLow
    split
    · next h => exact (hs h).elim
    · exact and_mask_and_mask hn a.bits
  cases outer with
  | u2u => rw [Evaluate.convert, Evaluate.convert, hbits (by decide)]
  | u2f => rw [Evaluate.convert, Evaluate.convert, hbits (by decide)]
  | i2i => rw [Evaluate.convert, Evaluate.convert, toInt_extendLow h0 hn hw rfl]
  | i2f => rw [Evaluate.convert, Evaluate.convert, toInt_extendLow h0 hn hw rfl]
  | _ => cases houter

/-- Reading a literal as a number and writing that at the same width yields it again. -/
theorem Literal.of_ofInt_toInt (h0 : 0 < w) (h : w ≤ 64) (b : Word) :
    of (BitVec.ofInt 64 (of b w).toInt) w = of b w := by
  rw [toInt_of h0 h, of, ofInt_signed_and_mask h0 h (Nat.le_refl w), ← of]

/-- A conversion that narrows an integer keeps its low bits. -/
theorem convert_narrow (h0 : 0 < n) (hn : n ≤ a.width) (hw : a.width ≤ 64)
    (hinner : inner = .u2u ∨ inner = .i2i) :
    (Evaluate.convert inner n a).map (Literal.of · n) = some (.of a.bits n) := by
  obtain rfl | rfl := hinner
  · rfl
  · rw [Evaluate.convert, Option.map_some, Literal.toInt, Literal.of,
      ofInt_signed_and_mask (Nat.lt_of_lt_of_le h0 hn) hw hn, ← Literal.of]

/-- A conversion from the low bits to the width of a literal extends them. -/
theorem convert_widen (h0 : 0 < n) (hn : n ≤ a.width) (hw : a.width ≤ 64)
    (houter : outer = .u2u ∨ outer = .i2i) :
    (Evaluate.convert outer a.width (.of a.bits n)).map (Literal.of · a.width) =
      some (a.extendLow n outer) := by
  rw [← convert_extendLow h0 hn hw (Family.readsInteger_of_integer houter)]
  obtain rfl | rfl := houter
  · simp [Evaluate.convert, Literal.extendLow, Family.source, Literal.of, BitVec.and_assoc]
  · rw [Evaluate.convert, Option.map_some, Literal.extendLow]
    exact congrArg some (Literal.of_ofInt_toInt (Nat.lt_of_lt_of_le h0 hn) hw _)

end Low

/-! ### Terms for the low bits -/

namespace Legalize

/-- Widths that are wide for a narrow one. -/
theorem mem_wide {n w : Nat} : w ∈ wide n ↔ (w = 16 ∨ w = 32 ∨ w = 64) ∧ n < w := by
  simp [wide]

/-- The conversions of the rules have members of all widths that the rules use. -/
theorem exists_withWidth? {n w : Nat} {outer : Family} (houter : outer.readsInteger)
    (hw : w ∈ wide n) : ∃ op, outer.withWidth? w = some op := by
  obtain ⟨rfl | rfl | rfl, -⟩ := mem_wide.mp hw <;> cases outer <;>
    first | exact ⟨_, rfl⟩ | cases houter

theorem exists_narrow {n : Nat} (hn : n = 8 ∨ n = 16) {inner : Family}
    (h : inner = .u2u ∨ inner = .i2i ∨ inner = .f2u ∨ inner = .f2i) :
    ∃ op, inner.withWidth? n = some op := by
  obtain rfl | rfl := hn <;> obtain rfl | rfl | rfl | rfl := h <;> exact ⟨_, rfl⟩

theorem exists_withWidth?_inner {n w : Nat} {inner : Family} (h : inner = .f2u ∨ inner = .f2i)
    (hw : w ∈ wide n) : ∃ op, inner.withWidth? w = some op := by
  obtain ⟨rfl | rfl | rfl, -⟩ := mem_wide.mp hw <;> obtain rfl | rfl := h <;> exact ⟨_, rfl⟩

theorem exists_f2f {n w : Nat} (hw : w ∈ wide n) : ∃ op, Family.f2f.withWidth? w = some op := by
  obtain ⟨rfl | rfl | rfl, -⟩ := mem_wide.mp hw <;> exact ⟨_, rfl⟩

theorem isFloatWidth_of_mem_wide {n w : Nat} (hw : w ∈ wide n) : isFloatWidth w := by
  obtain ⟨rfl | rfl | rfl, -⟩ := mem_wide.mp hw <;> rfl

/-- A shift moves by as many bits as are missing. -/
theorem distance_sub {n s : Nat} (hn : n = 8 ∨ n = 16) (hs : s ∈ wide n) :
    Evaluate.distance s (.of (BitVec.ofNat 64 (s - n)) 32) = s - n := by
  obtain ⟨hwide, -⟩ := mem_wide.mp hs
  clear hs
  obtain rfl | rfl := hn <;> obtain rfl | rfl | rfl := hwide <;> decide

variable {n s : Nat} {outer : Family} {p : Pattern} {σ : Nat → Option Literal} {a : Literal}

/-- The variable of the rules denotes what it stands for. -/
theorem meaning_value {m : WidthMask} (h : (Term.value 0 m).Denotes p) (ha : σ 0 = some a)
    (expected : Option Nat) : p.meaning σ expected = some a := by
  obtain rfl := h.eq_var
  rw [meaning, ha]

/-- The terms for the low bits denote the low bits of what their source denotes, extended. -/
theorem meaning_lowBits (hn : n = 8 ∨ n = 16) (hs : s ∈ wide n) {x : Term}
    (h : (lowBits n outer s x).Denotes p)
    (hx : ∀ q, x.Denotes q → ∀ expected, q.meaning σ expected = some a) (hw : a.width = s)
    (expected : Option Nat) : p.meaning σ expected = some (a.extendLow n outer) := by
  have hconst (slot w : Nat) (bits : Word) (expected : Option Nat) :
      (const slot ⟨some w, .int, bits⟩).meaning σ expected = some (.of bits w) := by
    simp [meaning, Build.encodeConstant, Except.toOption]
  obtain rfl : s = a.width := hw.symm
  -- both shifts move by the same constant
  have hshift (op : Opcode) (hop : op = .ishl ∨ op = .ishr) (slot slot' : Nat) (children : List Nat)
      (q : Pattern) (l : Literal) (bits : Word) (hq : ∀ expected, q.meaning σ expected = some l)
      (hev : evaluate op a.width [l, .of (BitVec.ofNat 64 (a.width - n)) 32] = .ok (some bits))
      (expected : Option Nat) :
      (expr slot ⟨.single op, some a.width, children, false, false, false, none⟩ none
        [q, const slot' ⟨some 32, .int, BitVec.ofNat 64 (a.width - n)⟩]).meaning σ expected =
        some (.of bits a.width) := by
    have hform : (Operation.single op).withWidth? a.width = some op := by
      obtain rfl | rfl := hop <;> rfl
    refine meaning_expr_eq_some rfl hform ?_ hev
    obtain rfl | rfl := hop <;>
      simp [Opcode.info, OpInfo.shift, meanings_cons, hq, hconst]
  unfold lowBits at h
  split at h
  · next hsource =>
    obtain ⟨_, _, q, k, hq, hk, rfl⟩ := h.eq_expr_two
    obtain ⟨_, _, q', k', hq', hk', rfl⟩ := hq.eq_expr_two
    obtain ⟨_, rfl⟩ := hk.eq_const
    obtain ⟨_, rfl⟩ := hk'.eq_const
    rw [hshift .ishr (.inr rfl) _ _ _ _ _ _ (hshift .ishl (.inl rfl) _ _ _ _ _ _ (hx q' hq') rfl)
      rfl]
    rw [distance_sub hn hs, Literal.extendLow, hsource]
    simp [Literal.of, Literal.toInt, BitVec.and_assoc]
  · next hsource =>
    obtain ⟨_, _, q, k, hq, hk, rfl⟩ := h.eq_expr_two
    obtain ⟨_, rfl⟩ := hk.eq_const
    have hle : n ≤ a.width := Nat.le_of_lt (mem_wide.mp hs).2
    have hev : evaluate .iand a.width [a, .of (mask n) a.width] =
        .ok (some (a.bits &&& mask n &&& mask a.width)) := by
      have : evaluate .iand a.width [a, .of (mask n) a.width] =
          .ok (some (a.bits &&& (mask n &&& mask a.width) &&& mask a.width)) := rfl
      rw [this, mask_and_mask hle]
    rw [meaning_expr_eq_some rfl rfl ?_ hev]
    · have hlow : a.extendLow n outer = .of (a.bits &&& mask n) a.width := by
        unfold Literal.extendLow
        split
        · next h => exact (hsource h).elim
        · rfl
      simp [hlow, Literal.of, BitVec.and_assoc]
    · simp [Opcode.info, OpInfo.binary, meanings_cons, hx q hq, hconst]

/-- The terms for the low bits may be built on what may be built at their width. -/
theorem mayBuild_lowBits {absent : List Opcode} {ω : Nat → Nat} {x : Term} {expected : Option Nat}
    (habsent : ∀ o ∈ absent, o.info.sourceClasses[0]? = some .float)
    (hx : x.MayBuild absent ω (some s) s) :
    (lowBits n outer s x).MayBuild absent ω expected s := by
  unfold lowBits
  split
  · have hup : Opcode.ishl.mayBuild absent s [some s, some 32] :=
      Opcode.mayBuild_of_fits habsent (by decide) rfl
        (by simp [Opcode.fits, Opcode.info, OpInfo.shift])
    have hdown : Opcode.ishr.mayBuild absent s [some s, some 32] :=
      Opcode.mayBuild_of_fits habsent (by decide) rfl
        (by simp [Opcode.fits, Opcode.info, OpInfo.shift])
    have hdistance (expected : Option Nat) :
        (Term.int 32 (BitVec.ofNat 64 (s - n))).MayBuild absent ω expected 32 :=
      Term.mayBuild_int
    exact Term.mayBuild_two rfl rfl (Term.mayBuild_two rfl rfl hx (hdistance _) hup)
      (hdistance _) hdown
  · have hand : Opcode.iand.mayBuild absent s [some s, some s] :=
      Opcode.mayBuild_of_fits habsent (by decide) rfl
        (by simp [Opcode.fits, Opcode.info, OpInfo.binary])
    exact Term.mayBuild_two rfl rfl hx (Term.mayBuild_int) hand

end Legalize

end Peephole

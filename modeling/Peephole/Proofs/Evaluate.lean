import Peephole.Evaluate
import Peephole.Proofs.Opcode
import Peephole.Proofs.Outcome

/-!
# Operations that have a value

An operation with a result has a value on as many literals as it takes, once floats among them and
the result have widths with a format: `evaluate_ok`.
-/

namespace Peephole

variable {op : Opcode} {w : Nat} {a b : Literal} {ls : List Literal}

namespace Evaluate

/-! ### Floats -/

/-- A number has a bit pattern at every width with a format. -/
theorem isSome_toBits? (d : Datum) (hw : isFloatWidth w) : (toBits? w d).isSome := by
  simp only [isFloatWidth, Bool.or_eq_true, beq_iff_eq] at hw
  obtain (rfl | rfl) | rfl := hw <;> rfl

theorem isSome_datum? (ha : a.isFloatWidth) : a.datum?.isSome := by
  simp only [Literal.isFloatWidth, isFloatWidth, Bool.or_eq_true, beq_iff_eq] at ha
  unfold Literal.datum?
  obtain (h | h) | h := ha <;> rw [h] <;> rfl

/-- Literals that are read as data have widths with a format. -/
theorem isFloatWidth_of_datum? {d : Datum} (h : a.datum? = some d) : a.isFloatWidth := by
  obtain ⟨f, hf, -⟩ := Option.map_eq_some_iff.mp h
  rw [Literal.isFloatWidth]
  unfold FloatFormat.ofWidth? at hf
  split at hf
  case h_4 => cases hf
  all_goals simp_all [Peephole.isFloatWidth]

theorem isSome_ofInteger? (n : Int) (hw : isFloatWidth w) : (ofInteger? w n).isSome := by
  unfold ofInteger?
  split
  · exact isSome_toBits? _ hw
  · exact isSome_toBits? _ hw

/-! ### The kinds of operations -/

theorem isSome_convert (f : Family) (hs : f.source = .float → a.isFloatWidth)
    (hr : f.result = .float → isFloatWidth w) : (convert f w a).isSome := by
  cases f with
  | i2i | u2u | b2b | b2i => rfl
  | f2f =>
    obtain ⟨d, hd⟩ := Option.isSome_iff_exists.mp (isSome_datum? (hs rfl))
    rw [convert, hd, Option.bind_some]
    exact isSome_toBits? d (hr rfl)
  | f2u | f2i =>
    rw [convert, Option.isSome_map]
    exact isSome_datum? (hs rfl)
  | u2f | i2f => exact isSome_ofInteger? _ (hr rfl)
  | b2f => exact isSome_toBits? _ (hr rfl)

/-- The family of a conversion reads its source and its result the way the conversion does. -/
theorem classes_of_family? {f : Family} (h : op.family? = some f) :
    op.arity = 1 ∧ op.info.sourceClasses = [f.source, f.source, f.source] ∧
      op.info.resultClass = f.result := by
  cases op <;> cases h <;> exact ⟨rfl, rfl, rfl⟩

theorem isSome_unary (hop : op.arity = 1) (hf : op.family? = none) (hr : op.hasResult)
    (ha : op.info.sourceClasses[0]? = some .float → a.isFloatWidth) : (unary op w a).isSome := by
  cases op with
  | f2f16Rtz =>
    rw [unary, Option.isSome_map]
    exact isSome_datum? (ha rfl)
  | store => cases hr
  | ineg | iabs | inot | fneg | fabs | unpackHalf2x16SplitX | unpackHalf2x16SplitY => rfl
  | _ => first | exact absurd hop (by decide) | exact absurd hf (by decide)

theorem isSome_arithmetic (f : Datum → Datum → Datum) (ha : a.isFloatWidth) (hb : b.isFloatWidth)
    (hw : isFloatWidth w) : (arithmetic f w a b).isSome := by
  obtain ⟨x, hx⟩ := Option.isSome_iff_exists.mp (isSome_datum? ha)
  obtain ⟨y, hy⟩ := Option.isSome_iff_exists.mp (isSome_datum? hb)
  simp only [arithmetic, hx, hy, Option.bind_eq_bind, Option.bind_some]
  exact isSome_toBits? _ hw

theorem isSome_comparison (f : Datum → Datum → Bool) (ha : a.isFloatWidth)
    (hb : b.isFloatWidth) : (comparison f a b).isSome := by
  obtain ⟨x, hx⟩ := Option.isSome_iff_exists.mp (isSome_datum? ha)
  obtain ⟨y, hy⟩ := Option.isSome_iff_exists.mp (isSome_datum? hb)
  simp [comparison, hx, hy]

theorem isSome_extremum (greatest : Bool) (ha : a.isFloatWidth) (hb : b.isFloatWidth) :
    (extremum greatest a b).isSome := by
  obtain ⟨x, hx⟩ := Option.isSome_iff_exists.mp (isSome_datum? ha)
  obtain ⟨y, hy⟩ := Option.isSome_iff_exists.mp (isSome_datum? hb)
  simp only [extremum, hx, hy, Option.bind_eq_bind, Option.bind_some]
  split
  · rfl
  · split <;> rfl

theorem isSome_binary (hop : op.arity = 2)
    (ha : op.info.sourceClasses[0]? = some .float → a.isFloatWidth)
    (hb : op.info.sourceClasses[1]? = some .float → b.isFloatWidth)
    (hw : op.info.resultClass = .float → isFloatWidth w) : (binary op w a b).isSome := by
  cases op with
  | fadd | fsub | fmul | fdiv => exact isSome_arithmetic _ (ha rfl) (hb rfl) (hw rfl)
  | fmin | fmax => exact isSome_extremum _ (ha rfl) (hb rfl)
  | feq | fneu | flt | fge => exact isSome_comparison _ (ha rfl) (hb rfl)
  | packHalf2x16Split =>
    obtain ⟨x, hx⟩ := Option.isSome_iff_exists.mp (isSome_datum? (ha rfl))
    obtain ⟨y, hy⟩ := Option.isSome_iff_exists.mp (isSome_datum? (hb rfl))
    simp [binary, hx, hy]
  -- all others are defined on all words
  | _ => first | rfl | cases hop

/-- No operation takes more than three sources. -/
theorem arity_le (op : Opcode) : op.arity ≤ 3 := by
  cases op <;> decide

theorem isSome_operate (hf : op.family? = none) (hr : op.hasResult) (hl : ls.length = op.arity)
    (hs : ∀ (k : Nat) (l : Literal), ls[k]? = some l →
      op.info.sourceClasses[k]? = some .float → l.isFloatWidth)
    (hw : op.info.resultClass = .float → isFloatWidth w) : (operate op w ls).isSome := by
  have hpos := op.arity_pos
  have hle := arity_le op
  match ls, hl, hs with
  | [], hl, _ => simp only [List.length_nil] at hl; omega
  | [a], hl, hs => exact isSome_unary hl.symm hf hr (hs 0 a rfl)
  | [a, b], hl, hs => exact isSome_binary hl.symm (hs 0 a rfl) (hs 1 b rfl) hw
  | [c, a, b], _, _ =>
    rw [operate]
    split <;> rfl
  | _ :: _ :: _ :: _ :: _, hl, _ => simp only [List.length_cons] at hl; omega

end Evaluate

/-! ### Evaluation -/

theorem hasFormats_iff : hasFormats op w ls ↔
    (op.info.resultClass = .float → isFloatWidth w) ∧
      ∀ (k : Nat) (l : Literal), ls[k]? = some l →
        op.info.sourceClasses[k]? = some .float → l.isFloatWidth := by
  have hzip : (∀ x ∈ ls.zip op.info.sourceClasses,
        (x.2 != .float || x.1.isFloatWidth) = true) ↔
      ∀ (k : Nat) (l : Literal), ls[k]? = some l →
        op.info.sourceClasses[k]? = some .float → l.isFloatWidth := by
    constructor
    · intro h k l hl hc
      have hmem : (l, TypeClass.float) ∈ ls.zip op.info.sourceClasses :=
        List.mem_iff_getElem?.mpr ⟨k, List.getElem?_zip_eq_some.mpr ⟨hl, hc⟩⟩
      simpa using h _ hmem
    · rintro h ⟨l, c⟩ hmem
      obtain ⟨k, hk⟩ := List.mem_iff_getElem?.mp hmem
      obtain ⟨hl, hc⟩ := List.getElem?_zip_eq_some.mp hk
      by_cases hfloat : c = .float
      · simp [h k l hl (hfloat ▸ hc)]
      · simp [hfloat]
  rw [hasFormats, Bool.and_eq_true, List.all_eq_true]
  refine and_congr ?_ hzip
  by_cases hr : op.info.resultClass = .float <;> simp [hr]

/-- An operation with a result has a value on literals whose floats have formats. -/
theorem evaluate_ok (hr : op.hasResult) (hl : ls.length = op.arity) (hf : hasFormats op w ls) :
    ∃ bits, evaluate op w ls = .ok (some bits) := by
  obtain ⟨hw, hs⟩ := hasFormats_iff.mp hf
  unfold evaluate
  rw [if_neg (by simpa using hl), if_neg (by simp [hr, hf])]
  cases hfam : op.family? with
  | none =>
    obtain ⟨bits, hbits⟩ :=
      Option.isSome_iff_exists.mp (Evaluate.isSome_operate hfam hr hl hs hw)
    exact ⟨bits &&& mask w, by simp [hbits]⟩
  | some f =>
    obtain ⟨harity, hsource, hresult⟩ := Evaluate.classes_of_family? hfam
    rw [harity] at hl
    obtain ⟨a, rfl⟩ := List.length_eq_one_iff.mp hl
    have hconvert : (Evaluate.convert f w a).isSome :=
      Evaluate.isSome_convert f (fun h => hs 0 a rfl (by rw [hsource, h]; rfl))
        fun h => hw (hresult.trans h)
    obtain ⟨bits, hbits⟩ := Option.isSome_iff_exists.mp hconvert
    exact ⟨bits &&& mask w, by simp [hbits]⟩

end Peephole

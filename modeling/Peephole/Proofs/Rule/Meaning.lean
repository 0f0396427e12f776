import Peephole.Proofs.Build.Realized
import Peephole.Proofs.Func.Valuation
import Peephole.Proofs.Match
import Peephole.Rule.Meaning

/-!
# What matches and replacements mean

Under a model, a pattern denotes the literal of the value that realizes it, `Realized.meaning`, and
a plain pattern denotes the literal of the value that it is placed on, `Pattern.Placed.meaning`.
Both speak of the literals that the model gives to what the variables are bound to.
-/

namespace Peephole

open Func

/-- The literals of what variables are bound to. -/
def Bindings.literals (b : Bindings) (ρ : Valuation) (k : Nat) : Option Literal := (b k).map ρ

variable {f : Func} {b : Bindings} {c : InstId} {args : List Word} {ρ : Valuation}
  {gone : List InstId}

/-- A model gives literals what they stand for. -/
theorem Func.Models.map_eq {is : List InstId} (hm : f.Models args is ρ) {xs : List ValueId}
    {ls : List Literal} (h : xs.map f.literal? = ls.map some) : xs.map ρ = ls := by
  refine List.ext_getElem? fun k => ?_
  have hk := congrArg (·[k]?) h
  simp only [List.getElem?_map] at hk ⊢
  cases hx : xs[k]? with
  | none =>
    rw [hx] at hk
    exact (Option.map_eq_none_iff.mp hk.symm).symm
  | some x =>
    cases hl : ls[k]? with
    | none => simp [hx, hl] at hk
    | some l =>
      have hlit : f.literal? x = some l := by simpa [hx, hl] using hk
      rw [Option.map_some, hm.literal hlit]

/-! ### Meanings of expressions -/

namespace Pattern

variable {σ : Nat → Option Literal} {w : Nat}

/-- What an expression denotes that declares its width. -/
theorem meaning_expr {slot : Nat} {e : ExpressionSlot} {guard : Option InstPredicate}
    {args : List Pattern} {expected : Option Nat} {op : Opcode} (hw : e.width = some w)
    (hform : e.op.withWidth? w = some op) :
    (expr slot e guard args).meaning σ expected =
      (meanings σ w args op.info.sourceWidths none).bind fun ls =>
        (evaluate op w ls).toOption.join.map (.of · w) := by
  rw [meaning, hw]
  simp only [Option.orElse_eq_orElse, Option.orElse_eq_or, Option.some_or, Option.bind_eq_bind,
    Option.bind_some, hform, Option.map_eq_bind]
  rfl

@[simp] theorem meanings_nil {sws : List SourceWidth} {paired : Option Nat} :
    meanings σ w [] sws paired = some [] := by
  simp [meanings]

theorem meanings_cons {p : Pattern} {ps : List Pattern} {sw : SourceWidth}
    {sws : List SourceWidth} {paired : Option Nat} :
    meanings σ w (p :: ps) (sw :: sws) paired =
      (p.meaning σ (Build.sourceWidth w paired sw)).bind fun l =>
        (meanings σ w ps sws (if sw = .paired then paired <|> some l.width else paired)).map
          (l :: ·) := by
  rw [meanings]
  simp only [Option.bind_eq_bind, Option.map_eq_bind]
  rfl

/-- An expression denotes the value of its operation on what its sources denote. -/
theorem meaning_expr_eq_some {slot : Nat} {e : ExpressionSlot} {guard : Option InstPredicate}
    {args : List Pattern} {expected : Option Nat} {op : Opcode} {ls : List Literal} {bits : Word}
    (hw : e.width = some w) (hform : e.op.withWidth? w = some op)
    (hs : meanings σ w args op.info.sourceWidths none = some ls)
    (hev : evaluate op w ls = .ok (some bits)) :
    (expr slot e guard args).meaning σ expected = some (.of bits w) := by
  rw [meaning_expr hw hform, hs, Option.bind_some, hev]
  rfl

end Pattern

/-! ### Replacements -/

mutual

/-- A pattern denotes the literal of what realizes it. -/
theorem Realized.meaning (hf : f.Coherent) (hargs : args.length = f.params.length)
    (hm : f.Models args f.layout ρ) {p : Pattern} {expected : Option Nat} {x : ValueId} :
    Realized f b c p expected x → p.meaning (b.literals ρ) expected = some (ρ x)
  | .var bound _ _ => by
    rw [Pattern.meaning, Bindings.literals, bound]
    rfl
  | .const width encoded literal => by
    rw [Pattern.meaning, width, hm.literal literal]
    simp [encoded, Except.toOption]
  | .folded width form sources literals value literal => by
    rw [Pattern.meaning, width, hm.literal literal]
    simp [form, sources.meanings hf hargs hm, hm.map_eq literals, value, Except.toOption]
  | .emitted width form sources precedes inst opcode dwidth result => by
    obtain ⟨bits, hbits, hρ⟩ := hm.result precedes.mem_left inst result
    rw [opcode, dwidth] at hbits
    rw [Pattern.meaning, width, hρ, dwidth]
    simp [form, sources.meanings hf hargs hm, hbits, Except.toOption]

/-- Sources denote the literals of what realizes them. -/
theorem RealizedAll.meanings (hf : f.Coherent) (hargs : args.length = f.params.length)
    (hm : f.Models args f.layout ρ) {w : Nat} {ps : List Pattern} {sws : List SourceWidth}
    {paired : Option Nat} {xs : List ValueId} :
    RealizedAll f b c w ps sws paired xs →
      Pattern.meanings (b.literals ρ) w ps sws paired = some (xs.map ρ)
  | .nil stop => by
    obtain rfl | rfl := stop
    · simp [Pattern.meanings]
    · simp [Pattern.meanings]
  | .cons first _ others => by
    have hw := hm.width hf hargs first.available.determined
    rw [Pattern.meanings, first.meaning hf hargs hm]
    simp only [Option.bind_eq_bind, Option.bind_some, hw]
    rw [others.meanings hf hargs hm]
    rfl

end

/-! ### Matches -/

namespace Pattern

mutual

/-- Whether a pattern is **plain**: it has no constants, its expressions declare their widths, and
sources are matched in one order only. -/
def isPlain : Pattern → Bool
  | var .. => true
  | const .. => false
  | expr _ e _ args => e.width.isSome && !e.commutative && arePlain args

/-- Whether patterns are plain. -/
def arePlain : List Pattern → Bool
  | [] => true
  | p :: ps => isPlain p && arePlain ps

end

theorem PlacedAll.length_eq {swapped : Nat → Bool} {n : Nat} :
    ∀ {ps : List Pattern} {xs : List ValueId} {os : List Occurrence},
      PlacedAll f swapped n ps xs os → ps.length = xs.length
  | _, _, _, .nil => rfl
  | _, _, _, .cons _ others => congrArg (· + 1) others.length_eq

mutual

/-- A plain pattern denotes the literal of what it is placed on. -/
theorem Placed.meaning (hf : f.Settled gone) (hm : f.Models args f.layout ρ)
    {swapped : Nat → Bool} {n : Nat} {p : Pattern} {x : ValueId} {os : List Occurrence} :
    Placed f swapped n p x os → p.isPlain →
      (∀ i, f.definer? x = some i → i ∈ f.layout) →
      (∀ o ∈ os, b o.slot.index = some o.value) →
      ∀ expected, p.meaning (b.literals ρ) expected = some (ρ x)
  | .var, _, _, hheld, expected => by
    have hb := hheld _ List.mem_cons_self
    dsimp only at hb
    rw [Pattern.meaning, Bindings.literals, hb]
    rfl
  | .const _ _, hplain, _, _, _ => by simp [isPlain] at hplain
  | @Placed.expr _ _ _ _ e _ _ _ i d _ definer inst accepted sources, hplain, hi, hheld,
    expected => by
    simp only [isPlain, Bool.and_eq_true, Bool.not_eq_true'] at hplain
    obtain ⟨⟨hwidth, hcomm⟩, hargsPlain⟩ := hplain
    obtain ⟨w, hw⟩ := Option.isSome_iff_exists.mp hwidth
    simp only [ExpressionSlot.accepts, hw, Option.all_some, Bool.and_eq_true, beq_iff_eq]
      at accepted
    obtain ⟨⟨⟨hcovers, rfl⟩, -⟩, -⟩ := accepted
    have hform := Operation.withWidth?_of_covers hcovers (hf.coherent.checked inst)
    simp only [hcomm, Bool.false_and, Bool.false_eq_true, if_false] at sources
    have hresult := hf.coherent.definer?_eq_some.mp definer
    rw [result?, inst, Option.bind_some] at hresult
    obtain ⟨bits, hbits, hρ⟩ := hm.result (hi i definer) inst hresult
    -- operands are defined in the layout, so that the model tells their literals
    have hsources := sources.meanings hf hm hargsPlain (fun y hy j hj =>
      (hf.coherent.definer_precedes (hf.defined i (hi i definer) y
        (by rwa [operands, inst])) hj).mem_left) hheld d.width d.opcode.info.sourceWidths none
      (by
        rw [sources.length_eq, hf.coherent.length_operands inst]
        exact d.opcode.arity_le_sourceWidths)
    rw [Pattern.meaning, hw, hρ]
    simp [hform, hsources, hbits, Except.toOption]

/-- Plain patterns denote the literals of what they are placed on. -/
theorem PlacedAll.meanings (hf : f.Settled gone) (hm : f.Models args f.layout ρ)
    {swapped : Nat → Bool} {n : Nat} {ps : List Pattern} {xs : List ValueId}
    {os : List Occurrence} : PlacedAll f swapped n ps xs os → arePlain ps →
      (∀ x ∈ xs, ∀ i, f.definer? x = some i → i ∈ f.layout) →
      (∀ o ∈ os, b o.slot.index = some o.value) →
      ∀ w (sws : List SourceWidth) paired, ps.length ≤ sws.length →
        Pattern.meanings (b.literals ρ) w ps sws paired = some (xs.map ρ)
  | .nil, _, _, _, w, sws, paired, _ => by simp [Pattern.meanings]
  | .cons first others, hplain, hxs, hheld, w, [], paired, hlen => by simp at hlen
  | .cons first others, hplain, hxs, hheld, w, sw :: sws, paired, hlen => by
    rw [arePlain, Bool.and_eq_true] at hplain
    rw [List.forall_mem_cons] at hxs
    rw [List.forall_mem_append] at hheld
    rw [Pattern.meanings, first.meaning hf hm hplain.1 hxs.1 hheld.1]
    simp [others.meanings hf hm hplain.2 hxs.2 hheld.2 w sws _ (by simpa using hlen)]

end

end Pattern

end Peephole

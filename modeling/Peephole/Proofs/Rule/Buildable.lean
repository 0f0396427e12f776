import Peephole.Proofs.Pass.Safe

/-!
# Replacements that may be built

Whether what a written rule builds accepts the widths of its sources. A term **may be built** at a
width when every pattern that it denotes has that width and forms that may be built there,
`Term.MayBuild`. Terms of operations may be built from terms that may, so that one looks at a rule
from its variables upwards.
-/

namespace Peephole

open Pattern

/-- Whether a term **may be built** where some operations are absent, and has a width then, given
the widths of variables and an expected width. -/
def Term.MayBuild (absent : List Opcode) (ω : Nat → Nat) (x : Term) (expected : Option Nat)
    (w : Nat) : Prop :=
  ∀ p, x.Denotes p →
    p.widthAt ω expected = some w ∧ p.allForms (Opcode.mayBuild absent) ω expected

namespace Term

variable {absent : List Opcode} {ω : Nat → Nat} {x y : Term} {expected : Option Nat}
  {w n m : Nat}

theorem mayBuild_var {v : VariableSlot} (h : ω v.index = w) :
    (Term.var v).MayBuild absent ω expected w := by
  intro p hp
  obtain rfl := hp.eq_var
  exact ⟨by rw [widthAt, h], by rw [allForms]⟩

theorem mayBuild_const {c : ConstantSlot} (hw : c.width = some w)
    (hfloat : c.kind = .float → isFloatWidth w) : (Term.const c).MayBuild absent ω expected w := by
  intro p hp
  obtain ⟨_, rfl⟩ := hp.eq_const
  have hkind : (c.kind != .float || isFloatWidth w) = true := by
    by_cases hc : c.kind = .float
    · rw [hfloat hc, Bool.or_true]
    · simp [hc]
  exact ⟨by simp [widthAt, hw], by simp [allForms, hw, hkind]⟩

/-- Integers are built at their width. -/
theorem mayBuild_int {bits : Word} : (Term.int w bits).MayBuild absent ω expected w :=
  mayBuild_const rfl fun h => by cases h

section Op

variable {o : Opcode} {commutative : Bool} {sw sw' : SourceWidth} {sws : List SourceWidth}
  (hform : (Operation.single o).withWidth? w = some o)
include hform

/-- An operation on one source. -/
theorem mayBuild_one (hsources : o.info.sourceWidths = sw :: sws)
    (hx : x.MayBuild absent ω (Build.sourceWidth w none sw) n)
    (ho : o.mayBuild absent w [some n]) :
    (Term.apply (.single o) w commutative [x]).MayBuild absent ω expected w := by
  intro p hp
  obtain ⟨_, _, q, hq, rfl⟩ := hp.eq_expr_one
  obtain ⟨hwidth, hforms⟩ := hx q hq
  refine ⟨by rw [widthAt]; rfl, ?_⟩
  rw [allForms]
  simp [hform, hsources, widthsAt, allFormsAmong, hwidth, hforms, ho]

/-- An operation on two sources. -/
theorem mayBuild_two (hsources : o.info.sourceWidths = sw :: sw' :: sws)
    (hx : x.MayBuild absent ω (Build.sourceWidth w none sw) n)
    (hy : y.MayBuild absent ω (Build.sourceWidth w (pairedAfter none sw (some n)) sw') m)
    (ho : o.mayBuild absent w [some n, some m]) :
    (Term.apply (.single o) w commutative [x, y]).MayBuild absent ω expected w := by
  intro p hp
  obtain ⟨_, _, q, q', hq, hq', rfl⟩ := hp.eq_expr_two
  obtain ⟨hwidth, hforms⟩ := hx q hq
  obtain ⟨hwidth', hforms'⟩ := hy q' hq'
  refine ⟨by rw [widthAt]; rfl, ?_⟩
  rw [allForms]
  simp [hform, hsources, widthsAt, allFormsAmong, hwidth, hforms, hwidth', hforms', ho]

end Op

end Term

end Peephole

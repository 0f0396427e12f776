import Peephole.Func.Basic

/-!
# Validity

The validity of a function in terms of its layout, its operands and its use-chains alone.
`Func.isValid` decides it by walking the layout once and collecting violations.
-/

namespace Peephole

namespace Func

/-- Whether an instruction comes **before** another one in the layout. -/
def Precedes (f : Func) (i j : InstId) : Prop :=
  ∃ before between after, f.layout = before ++ i :: between ++ j :: after

/-- Whether an instruction may use a value: a literal, a parameter, or the result of an instruction
that comes before it. -/
def Available (f : Func) (i : InstId) (v : ValueId) : Prop :=
  f.isLiteral v ∨ v ∈ f.params ∨ ∃ j, f.result? j = some v ∧ f.Precedes j i

/-- Whether an attached instruction has a value at an operand position. -/
def Mentions (f : Func) (v : ValueId) (u : Use) : Prop :=
  u.user ∈ f.layout ∧ (f.operands u.user)[u.operand]? = some v

/-- Whether a value has the width that an instruction asks for at an operand position. Paired
operands are of one width. -/
def Suits (f : Func) (d : Inst) (v : ValueId) : SourceWidth → Prop
  | .dest => f.width v = d.width
  | .fixed bits => f.width v = bits
  | .paired => ∀ (k : Nat) (w : ValueId), d.operands[k]? = some w →
      d.opcode.info.sourceWidths[k]? = some .paired → f.width w = f.width v
  | .any => True

/-- Whether the definitions of a function come before their uses. -/
def Defined (f : Func) : Prop := ∀ i ∈ f.layout, ∀ v ∈ f.operands i, f.Available i v

open Classical in
/-- Whether the use-chain of a value lists every mention of it once, and nothing else. -/
def Lists (f : Func) (v : ValueId) : Prop :=
  ∀ u, (f.uses v).count u = if f.Mentions v u then 1 else 0

open Classical in
/-- Whether the use-chains list every mention of a value once, and nothing else. -/
def Tracked (f : Func) : Prop :=
  ∀ v u, (f.uses v).count u = if f.Mentions v u then 1 else 0

/-- Whether operands have the widths that instructions ask for. -/
def Sized (f : Func) : Prop :=
  ∀ i ∈ f.layout, ∀ d, f.inst? i = some d → ∀ (k : Nat) (v : ValueId) (w : SourceWidth),
    d.operands[k]? = some v → d.opcode.info.sourceWidths[k]? = some w → f.Suits d v w

/-- Whether float operands and float results have a width with a floating-point format. -/
def Formatted (f : Func) : Prop :=
  ∀ i ∈ f.layout, ∀ d, f.inst? i = some d →
    (∀ (k : Nat) (v : ValueId), d.operands[k]? = some v →
      d.opcode.info.sourceClasses[k]? = some .float → isFloatWidth (f.width v)) ∧
    (d.result.isSome → d.opcode.info.resultClass = .float → isFloatWidth d.width)

/-- A function is **valid** when definitions come before uses, use-chains list operands, and widths
fit. -/
structure Valid (f : Func) : Prop where
  defined : f.Defined
  tracked : f.Tracked
  sized : f.Sized
  formatted : f.Formatted

end Func

end Peephole

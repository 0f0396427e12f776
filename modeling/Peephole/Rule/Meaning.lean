import Peephole.Build

/-!
# The meaning of patterns

The literal that a pattern denotes once its variables stand for literals. Every occurrence of an
expression is evaluated on its own, at the width that `Build` would build it at; nothing is folded
and nothing is shared.
-/

namespace Peephole

namespace Pattern

mutual

/-- The literal of a pattern, at an expected width where nothing else gives one. -/
def meaning (σ : Nat → Option Literal) : Pattern → Option Nat → Option Literal
  | var v _, _ => σ v.index
  | const _ c, expected => do
    let width ← c.width <|> expected
    return .of (← (Build.encodeConstant c width).toOption) width
  | expr _ e _ args, expected => do
    let width ← e.width <|> e.op.fixedWidth <|> expected
    let op ← e.op.withWidth? width
    let sources ← meanings σ width args op.info.sourceWidths none
    return .of (← (evaluate op width sources).toOption.join) width

/-- The literals of the sources of an operation of a width, given the width of the paired source
before. -/
def meanings (σ : Nat → Option Literal) (width : Nat) :
    List Pattern → List SourceWidth → Option Nat → Option (List Literal)
  | p :: ps, w :: ws, paired => do
    let l ← meaning σ p (Build.sourceWidth width paired w)
    let paired := if w = .paired then paired <|> some l.width else paired
    return l :: (← meanings σ width ps ws paired)
  | _, _, _ => some []

end

end Pattern

end Peephole

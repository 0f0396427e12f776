import Peephole.Rule.Table

/-!
# Patterns

A **pattern** is the tree that a slot stands for, with sources and predicates in place of their
numbers. Nodes keep the number of their slot, since slots that occur several times in a replacement
are built once.

Patterns are read off a table from the first slot to the last. The sources of a slot come before it,
so that their patterns are known by then.
-/

namespace Peephole

/-- A pattern. The slot of an expression keeps its attributes, its sources are the arguments. -/
inductive Pattern
  | var (v : VariableSlot) (guard : Option ValuePredicate)
  | const (slot : Nat) (c : ConstantSlot)
  | expr (slot : Nat) (e : ExpressionSlot) (guard : Option InstPredicate) (args : List Pattern)

namespace Pattern

/-! ### From slots to patterns -/

/-- The pattern of a slot, given the patterns of the slots before it. -/
def ofSlot (t : RuleTable) (earlier : Array Pattern) : Slot → Pattern
  | .var v => var v (v.predicate.bind (t.valuePredicates[·]?))
  | .const c => const earlier.size c
  | .expr e =>
    expr earlier.size e (e.predicate.bind (t.instPredicates[·]?))
      (e.args.filterMap (earlier[·]?))

/-- The pattern of every slot of a table. -/
def ofTable (t : RuleTable) : Array Pattern :=
  t.slots.foldl (fun earlier s => earlier.push (ofSlot t earlier s)) #[]

/-! ### Analyses -/

mutual

/-- The number of commutative expressions of a pattern, counted once for each occurrence. -/
def commutativeCount : Pattern → Nat
  | expr _ e _ args => (if e.commutative then 1 else 0) + commutativeCountAll args
  | _ => 0

/-- The number of commutative expressions of a list of patterns. -/
def commutativeCountAll : List Pattern → Nat
  | [] => 0
  | p :: ps => commutativeCount p + commutativeCountAll ps

end

mutual

/-- Whether a variable occurs in a pattern. -/
def mentions (index : Nat) : Pattern → Bool
  | var v _ => v.index == index
  | const .. => false
  | expr _ _ _ args => mentionsAny index args

/-- Whether a variable occurs in a list of patterns. -/
def mentionsAny (index : Nat) : List Pattern → Bool
  | [] => false
  | p :: ps => mentions index p || mentionsAny index ps

end

/-- Whether a source at a position is given a width by the expression around it. The first of the
paired sources is not; the others take its width. -/
def isSized (paired : Bool) : SourceWidth → Bool
  | .dest | .fixed _ => true
  | .paired => paired
  | .any => false

mutual

/-- The first slot of a replacement that nothing gives a width: no declaration, no fixed width of
its operation, and nothing around it, as the flag tells. -/
def unsized? (inherited : Bool) : Pattern → Option Nat
  | var .. => none
  | const slot c => if c.width.isNone && !inherited then some slot else none
  | expr slot e _ args =>
    if (e.width <|> e.op.fixedWidth).isNone && !inherited then some slot
    else unsizedAmong? false args e.op.sourceWidths

/-- The first slot without a width among the sources of an expression; the flag tells whether a
paired source has come before. -/
def unsizedAmong? (paired : Bool) : List Pattern → List SourceWidth → Option Nat
  | p :: ps, w :: ws =>
    unsized? (isSized paired w) p <|> unsizedAmong? (paired || w == .paired) ps ws
  | _, _ => none

end

/-- The operation at the root of a pattern, and the width of what the pattern matches, as far as it
is known. -/
def root? : Pattern → Option (Operation × Option Nat)
  | expr _ e _ _ => some (e.op, e.width <|> e.op.fixedWidth)
  | _ => none

end Pattern

end Peephole

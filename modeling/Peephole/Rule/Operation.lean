import Peephole.Opcode

/-!
# Operations of rules

An expression of a rule speaks of one operation or of a whole family of conversions. Instructions
are dispatched to rules under the family of their operation, where it has one, and under the
operation itself otherwise.
-/

namespace Peephole

/-- The operation of an expression in a rule: one operation, or every member of a family. -/
inductive Operation
  | single (op : Opcode)
  | family (f : Family)
  deriving DecidableEq, Repr

namespace Operation

/-- The number of dispatch keys. -/
def keyCount : Nat := Opcode.all.length + Family.all.length

/-- The **dispatch key** of an operation: its family if it has one. -/
def ofOpcode (op : Opcode) : Operation :=
  match op.family? with
  | some f => family f
  | none => single op

/-- The dispatch key under which an expression is tried. -/
def dispatchKey : Operation → Operation
  | single op => ofOpcode op
  | family f => family f

/-- The position of a key among all keys, operations before families. -/
def index : Operation → Nat
  | single op => op.index
  | family f => Opcode.all.length + f.index

/-- The name of an operation or a family. -/
def name : Operation → String
  | single op => op.name
  | family f => f.name

/-- Whether an instruction's operation is one that the rule speaks of. -/
def covers : Operation → Opcode → Bool
  | single op, other => op == other
  | family f, other => other.family? == some f

/-- The number of sources. -/
def arity : Operation → Nat
  | single op => op.arity
  | family _ => 1

/-- The width that every operation spoken of produces, where there is one. -/
def fixedWidth : Operation → Option Nat
  | single op => op.info.fixedWidth
  | family _ => none

/-- What is asked of the width of each source; conversions take any width. -/
def sourceWidths : Operation → List SourceWidth
  | single op => op.info.sourceWidths
  | family _ => [.any, .any, .any]

/-- The operation that produces results of a width, if one does. -/
def withWidth? : Operation → Nat → Option Opcode
  | single op, bits =>
    match op.info.fixedWidth with
    | some fixed => if fixed = bits then some op else none
    | none => some op
  | family f, bits => f.withWidth? bits

end Operation

end Peephole

import Peephole.Legalize.Boolean
import Peephole.Legalize.Narrowing
import Peephole.Pass

/-!
# Legalizing programs

A target without 8-bit integers, with 16-bit ones in part, and with truth values of one bit only,
takes programs that have been through three passes, in this order: `lowering8`, `lowering16` and
`lowering1`. Each runs its rules over every function with the default settings.
-/

namespace Peephole

namespace Legalize

/-! ### Tables -/

/-- The table for conversions through 8 bits. -/
def lowering8 : RuleTable := .ofRules "lower_8bit_conv" (narrowing 8)

/-- The table for conversions through 16 bits. -/
def lowering16 : RuleTable := .ofRules "lower_16bit_conv" (narrowing 16 ++ halfPacking)

/-- The table for conversions between truth values. -/
def lowering1 : RuleTable := .ofRules "algebraic" booleans

/-- The tables, in the order of their passes. -/
def tables : List RuleTable := [lowering8, lowering16, lowering1]

/-! ### Passes -/

/-- What can go wrong with a pass: its table is refused, or a replacement is. -/
inductive Error
  | table (e : TableError)
  | fault (e : Fault)
  deriving DecidableEq, Repr

/-- The text of an error. -/
def Error.message : Error → String
  | table e => e.message
  | fault e => e.message

/-- Runs the rules of a table over a program with the default settings. Yields whether any function
has changed, the program and what was reported. -/
def runTable (t : RuleTable) (p : Program) : Except Error (Bool × Program × List Event) := do
  let rs ← (RuleSet.load t).mapError .table
  let (changed, p, events) ← ((Pass.new rs).runProgram p).mapError .fault
  return (changed, p, events ++ [.finished rs.name p.name changed])

/-- Runs the three passes in order. Yields the program. -/
def run (p : Program) : Except Error Program :=
  tables.foldlM (fun p t => return (← runTable t p).2.1) p

end Legalize

end Peephole

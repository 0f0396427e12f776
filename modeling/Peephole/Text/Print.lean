import Peephole.Func.Basic
import Peephole.Text.Quoted

/-!
# Printing

The text of a function and of a program. Parameters and results are numbered in the order in which
they are printed; literals stand where they are used, in base sixteen; a value that nothing printed
so far defines has the name `%?`. Blocks are labelled when there is more than one.
-/

namespace Peephole

namespace Print

/-- The name of a value, given the values printed so far. -/
def valueName (printed : List ValueId) (v : ValueId) : String :=
  match printed.idxOf? v with
  | some k => "%" ++ Numeral.decimal k
  | none => "%?"

/-- An operand: a literal with its width, or the name of a value. -/
def operand (f : Func) (printed : List ValueId) (v : ValueId) : String :=
  match f.literal? v with
  | some l => Numeral.hexadecimal l.bits.toNat ++ ":" ++ Numeral.decimal l.width
  | none => valueName printed v

/-- The line of an instruction, given the values printed before it. -/
def inst (f : Func) (printed : List ValueId) (d : Inst) : String :=
  let result :=
    if d.result.isSome then
      "%" ++ Numeral.decimal printed.length ++ ": " ++ Numeral.decimal d.width ++ " = "
    else ""
  let mark := if d.exact then "!" else ""
  let operands := d.operands.map (operand f (printed ++ d.result.toList))
  "  " ++ result ++ d.opcode.name ++ mark ++ " " ++ ", ".intercalate operands ++ "\n"

/-- The lines of instructions, and the values printed after them. -/
def insts (f : Func) (printed : List ValueId) : List InstId → String × List ValueId
  | [] => ("", printed)
  | i :: is =>
    match f.inst? i with
    | some d =>
      let (text, printed') := insts f (printed ++ d.result.toList) is
      (inst f printed d ++ text, printed')
    | none => insts f printed is

/-- The lines of blocks from a given number on. -/
def blocks (f : Func) (labelled : Bool) (k : Nat) (printed : List ValueId) :
    List (List InstId) → String
  | [] => ""
  | b :: bs =>
    let label := if labelled then "^bb" ++ Numeral.decimal k ++ ":\n" else ""
    let (text, printed) := insts f printed b
    label ++ text ++ blocks f labelled (k + 1) printed bs

/-- A parameter and its position. -/
def param (f : Func) (k : Nat) (v : ValueId) : String :=
  let letter :=
    match f.typeClass? v with
    | some c => String.singleton c.letter
    | none => ""
  "%" ++ Numeral.decimal k ++ ": " ++ letter ++ Numeral.decimal (f.width v)

end Print

/-- The text of a function. -/
def Func.print (f : Func) : String :=
  "fn @" ++ f.name ++ "(" ++ ", ".intercalate (f.params.mapIdx (Print.param f)) ++ ") \x7b\n" ++
    Print.blocks f (1 < f.blocks.size) 0 f.params f.blocks.toList ++ "\x7d\n"

/-- A summary of a function: its name, and the numbers of its parameters and of its attached
instructions. -/
def Func.summary (f : Func) : String :=
  "Function \x7b name: " ++ quoted f.name ++ ", params: " ++ Numeral.decimal f.params.length ++
    ", insts: " ++ Numeral.decimal f.layout.length ++ ", .. \x7d"

/-- The text of a program, with an empty line between functions. -/
def Program.print (p : Program) : String := "\n".intercalate (p.functions.map Func.print)

end Peephole

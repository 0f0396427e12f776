import Peephole.Func.Basic

/-!
# Shapes

What remains of a function when its entities lose their numbers: the parameters, and the attached
instructions block by block, with operands told apart by where they come from. Functions of one
shape differ in numbering only, and in detached instructions and values that nothing attached
mentions.
-/

namespace Peephole

/-- Where a value comes from, without its number. -/
inductive Source
  /-- A literal. -/
  | literal (l : Literal)
  /-- The parameter of a number. -/
  | parameter (k : Nat)
  /-- The result of the attached instruction at a position of the layout. -/
  | result (k : Nat)
  /-- Anything else. -/
  | elsewhere
  deriving DecidableEq, Repr

/-- An instruction without its number. -/
structure InstShape where
  /-- The operation. -/
  opcode : Opcode
  /-- The width of the result, 0 where there is none. -/
  width : Nat
  /-- Whether rules that change rounding must leave the instruction alone. -/
  exact : Bool
  /-- Where the operands come from. -/
  operands : List Source
  deriving DecidableEq, Repr

/-- A function without numbers. -/
structure Shape where
  /-- The width and the type class of each parameter. -/
  params : List (Nat × Option TypeClass)
  /-- The instructions of each block. -/
  blocks : List (List InstShape)
  deriving DecidableEq, Repr

namespace Func

/-- Where a value of a function comes from. -/
def source (f : Func) (v : ValueId) : Source :=
  match f.literal? v with
  | some l => .literal l
  | none =>
    match f.params.findIdx? (· = v) with
    | some k => .parameter k
    | none =>
      match f.layout.findIdx? fun i => f.result? i = some v with
      | some k => .result k
      | none => .elsewhere

/-- The shape of an instruction. -/
def instShape? (f : Func) (i : InstId) : Option InstShape :=
  (f.inst? i).map fun d => ⟨d.opcode, d.width, d.exact, d.operands.map f.source⟩

/-- The shape of a function. -/
def shape (f : Func) : Shape where
  params := f.params.map fun v => (f.width v, f.typeClass? v)
  blocks := f.blocks.toList.map (·.filterMap f.instShape?)

end Func

end Peephole

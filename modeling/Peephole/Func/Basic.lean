import Peephole.Literal

/-!
# Functions

A **function** in static single assignment form: parameters, blocks of instructions, and the values
that instructions use and produce. Entities live in arrays and are never deallocated; an
instruction that has been detached or removed keeps its number, and so does its result.

Every value has a **use-chain**, the list of operand positions that mention it, in the order in
which the mentions were made. Literals are values too, at most one for each bit pattern and width.

An operand may mention a value that does not exist yet, by the number that it will have; its
use-chain is kept for it. Look-ups of entities that do not exist find nothing.
-/

namespace Peephole

/-! ### Entities -/

/-- A use of a value: the instruction that uses it, and at which operand position. -/
structure Use where
  /-- The instruction. -/
  user : InstId
  /-- The position among its operands. -/
  operand : Nat
  deriving DecidableEq, Repr

/-- Where a value comes from. Only parameters carry a declared type class. -/
inductive Origin
  | parameter (index : Nat) (typeClass : Option TypeClass)
  | result (inst : InstId)
  | literal (bits : Word)
  deriving DecidableEq, Repr

/-- A value. -/
structure Value where
  /-- Where the value comes from. -/
  origin : Origin
  /-- The number of its bits. -/
  width : Nat
  deriving DecidableEq, Repr

/-- An instruction. -/
structure Inst where
  /-- The operation. -/
  opcode : Opcode
  /-- The width of the result, 0 where there is none. -/
  width : Nat
  /-- Whether rules that change rounding must leave the instruction alone. -/
  exact : Bool
  /-- The values that the operation is applied to. -/
  operands : List ValueId
  /-- The value that the instruction produces. -/
  result : Option ValueId
  /-- The block that the instruction belongs to. -/
  block : Option BlockId
  deriving DecidableEq, Repr

/-- A function. Blocks are laid out in the order of their creation. -/
structure Func where
  /-- The name of the function. -/
  name : String
  /-- The parameters, in order. -/
  params : List ValueId
  /-- Every value ever created. -/
  values : Array Value
  /-- The use-chain of each value, by number. Values beyond the last one have an empty chain. -/
  chains : Array (List Use)
  /-- Every instruction ever created. -/
  insts : Array Inst
  /-- The instructions of each block, in order. -/
  blocks : Array (List InstId)
  deriving DecidableEq, Repr

namespace Func

/-- The function of a name without parameters, values and blocks. -/
def empty (name : String) : Func := ⟨name, [], #[], #[], #[], #[]⟩

/-! ### Look-ups -/

/-- A value by reference. -/
def value? (f : Func) (v : ValueId) : Option Value := f.values[v.index]?

/-- An instruction by reference. -/
def inst? (f : Func) (i : InstId) : Option Inst := f.insts[i.index]?

/-- The instructions of a block. -/
def blockInsts (f : Func) (b : BlockId) : List InstId := f.blocks[b.index]?.getD []

/-- References to every value, in order of creation. -/
def valueIds (f : Func) : List ValueId := (List.range f.values.size).map ValueId.mk

/-- References to every instruction, in order of creation. -/
def instIds (f : Func) : List InstId := (List.range f.insts.size).map InstId.mk

/-- References to every block, in layout order. -/
def blockIds (f : Func) : List BlockId := (List.range f.blocks.size).map BlockId.mk

/-- The **attached** instructions, in layout order. -/
def layout (f : Func) : List InstId := f.blocks.toList.flatten

/-- The width of a value. -/
def width (f : Func) (v : ValueId) : Nat := (f.value? v).elim 0 (·.width)

/-- The use-chain of a value. -/
def uses (f : Func) (v : ValueId) : List Use := f.chains[v.index]?.getD []

/-- The instruction that defines a value, if one does. -/
def definer? (f : Func) (v : ValueId) : Option InstId :=
  match (f.value? v).map Value.origin with
  | some (.result i) => some i
  | _ => none

/-- The literal that a value is, if it is one. -/
def literal? (f : Func) (v : ValueId) : Option Literal :=
  match f.value? v with
  | some ⟨.literal bits, width⟩ => some (.of bits width)
  | _ => none

/-- Whether a value is a literal. -/
def isLiteral (f : Func) (v : ValueId) : Bool := (f.literal? v).isSome

/-- The operands of an instruction. -/
def operands (f : Func) (i : InstId) : List ValueId := (f.inst? i).elim [] (·.operands)

/-- The result of an instruction. -/
def result? (f : Func) (i : InstId) : Option ValueId := (f.inst? i).bind (·.result)

/-- Whether an instruction names a block that it belongs to. -/
def isAttached (f : Func) (i : InstId) : Bool := (f.inst? i).any (·.block.isSome)

/-- The type class of a value: how its defining operation reads its result, or the declared class of
a parameter. Literals have none. -/
def typeClass? (f : Func) (v : ValueId) : Option TypeClass :=
  match (f.value? v).map Value.origin with
  | some (.parameter _ c) => c
  | some (.result i) => (f.inst? i).map (·.opcode.info.resultClass)
  | _ => none

/-- Whether an instruction is **dead**: it has no effect but its result, which nothing uses. -/
def isDead (f : Func) (i : InstId) : Bool :=
  (f.inst? i).any fun d => d.opcode.isPure && d.result.any fun v => (f.uses v).isEmpty

/-- Whether the operands of an instruction exist. -/
def hasOperands (f : Func) (i : InstId) : Bool := (f.operands i).all fun v => (f.value? v).isSome

/-- Whether the block that an instruction names exists, if it names one. -/
def hasBlock (f : Func) (i : InstId) : Bool :=
  (f.inst? i).all fun d => d.block.all fun b => b.index < f.blocks.size

/-- Whether a function is **closed**: the operands of its blocks' instructions exist. Functions that
are not have no text, and cannot be validated. -/
def isClosed (f : Func) : Bool := f.layout.all f.hasOperands

end Func

/-- A named list of functions. -/
structure Program where
  /-- The name of the program. -/
  name : String
  /-- The functions, in order. -/
  functions : List Func
  deriving DecidableEq, Repr

/-- The first function of a name, if there is one. -/
def Program.function? (p : Program) (name : String) : Option Func :=
  p.functions.find? (·.name == name)

end Peephole

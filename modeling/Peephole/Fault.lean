import Peephole.Entity
import Peephole.Rule.Operation

/-!
# Faults

A **fault** is the misuse of an operation of this library by its caller: a wrong number of operands,
a width without a format, a reference to nothing.
-/

namespace Peephole

/-- The causes for which an operation is refused. -/
inductive Fault
  /-- A reference to an entity, a slot, a transform or a condition that does not exist. -/
  | outOfBounds
  /-- An operation evaluated on a wrong number of sources. -/
  | sourceCount (op : Opcode)
  /-- A number written at a width without a floating-point format. -/
  | encodingWidth (bits : Nat)
  /-- A number read at a width without a floating-point format. -/
  | decodingWidth (bits : Nat)
  /-- A parameter of an unsupported width. -/
  | parameterWidth (bits : Nat)
  /-- A literal of an unsupported width. -/
  | literalWidth (bits : Nat)
  /-- An instruction with a wrong number of operands. -/
  | operandCount (op : Opcode) (found : Nat)
  /-- An instruction whose width is not the one its operation produces. -/
  | fixedWidth (op : Opcode) (fixed : Nat)
  /-- An instruction of an unsupported width. -/
  | chosenWidth (op : Opcode) (bits : Nat)
  /-- An instruction appended although it is already in a block. -/
  | appendAttached (inst : InstId)
  /-- An instruction inserted although it is already in a block. -/
  | insertAttached (inst : InstId)
  /-- An insertion before an instruction that is in no block. -/
  | insertBeforeDetached
  /-- An insertion before an instruction that its block does not list. -/
  | insertBeforeAbsent
  /-- The removal of an instruction that is still in a block. -/
  | removeAttached (inst : InstId)
  /-- The removal of an instruction whose result is still used. -/
  | removeUsed (result : ValueId) (uses : Nat)
  /-- A replacement that mentions a variable without a value. -/
  | unbound (index : Nat)
  /-- A constant of a replacement whose width nothing determines. -/
  | constantWidth (slot : Nat)
  /-- An expression of a replacement whose width nothing determines. -/
  | expressionWidth (op : Operation) (slot : Nat)
  /-- An expression of a replacement at a width that its operation cannot produce. -/
  | noForm (op : Operation) (bits : Nat)
  /-- An expression of a replacement that produces no value. -/
  | noResult
  deriving DecidableEq, Repr

/-- The text of a fault. -/
def Fault.message : Fault → String
  | outOfBounds => "index out of bounds"
  | sourceCount op => s!"evaluate: {op.name} takes {op.arity} source(s)"
  | encodingWidth bits => s!"float_to_bits: no {bits}-bit float format"
  | decodingWidth bits => s!"bits_to_float: no {bits}-bit float format"
  | parameterWidth bits => s!"add_param: unsupported width {bits}"
  | literalWidth bits => s!"literal: unsupported width {bits}"
  | operandCount op found =>
    s!"create_inst: {op.name} takes {op.arity} operand(s), got {found}"
  | fixedWidth op fixed => s!"create_inst: {op.name} always produces {fixed} bits"
  | chosenWidth op bits => s!"create_inst: unsupported width {bits} for {op.name}"
  | appendAttached inst =>
    s!"push_inst: {inst.name} already belongs to a block; remove it first"
  | insertAttached inst =>
    s!"insert_inst_before: {inst.name} already belongs to a block; remove it first"
  | insertBeforeDetached => "insert_inst_before: `before` is not attached to a block"
  | insertBeforeAbsent => "insert_inst_before: `before` not found in its block"
  | removeAttached inst =>
    s!"remove_inst: {inst.name} is still attached to a block; call remove_inst_from_block first"
  | removeUsed result uses =>
    s!"remove_inst: result {result.name} still has {uses} use(s); " ++
      "replace all uses before removing the instruction"
  | unbound v => s!"build: variable {v} is unbound"
  | constantWidth slot => s!"build: no width for constant slot {slot}"
  | expressionWidth op slot => s!"build: no width for `{op.name}` at slot {slot}"
  | noForm op bits => s!"build: `{op.name}` has no {bits}-bit form"
  | noResult => "build: replacement operations produce a value"

end Peephole

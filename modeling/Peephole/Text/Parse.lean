import Peephole.Func.Edit
import Peephole.Text.Written

/-!
# Parsing

From a text to a program. Each written function is resolved as soon as it is read: names become
references, and operations, numbers of operands and widths are checked, so that every editing
operation that follows succeeds. Values are numbered in the order in which the text creates them:
parameters first, then for each instruction its literals, as far as they are new, and its result.
-/

namespace Peephole

/-- What is wrong with a text. -/
inductive ParseError.Cause
  /-- The text has not the form of the grammar. -/
  | malformed
  /-- A name that is no operation. -/
  | unknownOpcode (name : String)
  /-- An instruction with a wrong number of operands. -/
  | operandCount (op : Opcode) (found : Nat)
  /-- An instruction that produces a value and does not name it. -/
  | unnamedResult (op : Opcode)
  /-- An instruction that names a result and produces no value. -/
  | noResult (op : Opcode)
  /-- A result whose width is not the one that its operation produces. -/
  | resultWidth (op : Opcode) (fixed found : Nat)
  /-- A width that is not supported where it stands. -/
  | unsupportedWidth (bits : Nat)
  /-- An operand that no earlier line defines. -/
  | undefinedValue (name : String)
  /-- An integer that is too large for its width. -/
  | unfitLiteral (bits : Word) (width : Nat)
  /-- A name with two definitions. -/
  | redefinedValue (name : String)
  /-- A text that was to hold one function. -/
  | functionCount (found : Nat)
  /-- A function that cannot be edited as the text asks. -/
  | refused (fault : Fault)
  deriving DecidableEq, Repr

/-- The text of a cause. -/
def ParseError.Cause.message : ParseError.Cause → String
  | malformed => "syntax error: Parsing Error: ContextError \x7b context: [], cause: None \x7d"
  | unknownOpcode name => s!"unknown opcode `{name}`"
  | operandCount op found => s!"`{op.name}` takes {op.arity} operand(s), got {found}"
  | unnamedResult op => s!"`{op.name}` must name its result"
  | noResult op => s!"`{op.name}` has no result"
  | resultWidth op fixed found => s!"`{op.name}` produces {fixed} bits, not {found}"
  | unsupportedWidth bits => s!"unsupported width {bits}"
  | undefinedValue name => s!"use of undefined value %{name}"
  | unfitLiteral bits width =>
    s!"literal {Numeral.hexadecimal bits.toNat} does not fit in {width} bits"
  | redefinedValue name => s!"value %{name} is defined twice"
  | functionCount found => s!"expected one function, found {found}"
  | refused fault => fault.message

/-- An error of a text: its cause and the byte at which it was found. -/
structure ParseError where
  /-- What is wrong. -/
  cause : ParseError.Cause
  /-- The number of bytes in front of the place. -/
  offset : Nat
  deriving DecidableEq, Repr

namespace ParseError

/-- The text of an error, without its place. -/
def message (e : ParseError) : String := e.cause.message

/-- The text of an error with its place. -/
def display (e : ParseError) : String := s!"parse error at offset {e.offset}: {e.message}"

/-- The report of an error in a text that was meant to be free of them. -/
def report (e : ParseError) (text : String) : String :=
  s!"Failed to parse test IR at offset {e.offset}:\n  {e.message}\n\nInput:\n{text}"

end ParseError

namespace Parse

/-! ### Resolution -/

/-- A function under construction, and the values that names refer to. -/
structure State where
  /-- The function so far. -/
  func : Func
  /-- The value of each name. -/
  names : List (String × ValueId)

/-- What resolution yields: a value, or the cause of an error. -/
abbrev Resolved (α : Type) := Except ParseError.Cause α

/-- Lets an editing operation through, with its fault as the cause of an error. -/
def edit (r : Except Fault α) : Resolved α := r.mapError .refused

/-- Gives a name to a value. A name is given once. -/
def State.define (s : State) (name : String) (v : ValueId) : Resolved State :=
  if (s.names.lookup name).isSome then .error (.redefinedValue name)
  else .ok { s with names := (name, v) :: s.names }

/-- Refuses a width that does not suit a type class. -/
def checkWidth (bits : Nat) (typeClass : Option TypeClass) : Resolved Unit :=
  if (if typeClass = some .float then isFloatWidth bits else supported bits) then .ok ()
  else .error (.unsupportedWidth bits)

/-- Whether the low bits of a word stand for the word, read as an unsigned integer or in two's
complement. -/
def fits (bits : Word) (width : Nat) : Bool :=
  let masked := bits &&& mask width
  masked == bits || BitVec.ofInt 64 (signed masked width) == bits

/-- Resolves an operand. -/
def operand (s : State) : Written.Operand → Resolved (ValueId × State)
  | .value name =>
    match s.names.lookup name with
    | some v => .ok (v, s)
    | none => .error (.undefinedValue name)
  | .integer n width => do
    let bits := BitVec.ofNat 64 n
    checkWidth width none
    unless fits bits width do throw (.unfitLiteral bits width)
    let (v, f) ← edit (s.func.literal width bits)
    return (v, { s with func := f })
  | .float datum width => do
    checkWidth width (some .float)
    let (v, f) ← edit (do s.func.literal width (← encodeFloat datum width))
    return (v, { s with func := f })

/-- Resolves operands in order. -/
def operands (s : State) : List Written.Operand → Resolved (List ValueId × State)
  | [] => .ok ([], s)
  | o :: os => do
    let (v, s) ← operand s o
    let (vs, s) ← operands s os
    return (v :: vs, s)

/-- The width of a written instruction, if it suits its operation. -/
def instWidth (op : Opcode) (result : Option (String × Nat)) : Resolved Nat := do
  let width ←
    match result, op.hasResult with
    | some (_, bits), true => pure bits
    | none, false => pure 0
    | none, true => throw (.unnamedResult op)
    | some _, false => throw (.noResult op)
  match op.info.fixedWidth with
  | some fixed => if fixed ≠ width then throw (.resultWidth op fixed width)
  | none => unless supported width do throw (.unsupportedWidth width)
  return width

/-- Resolves an instruction at the end of a block. -/
def inst (s : State) (b : BlockId) (i : Written.Inst) : Resolved State := do
  let some op := Opcode.ofName? i.opcode | throw (.unknownOpcode i.opcode)
  if i.operands.length ≠ op.arity then throw (.operandCount op i.operands.length)
  let width ← instWidth op i.result
  let (vs, s) ← operands s i.operands
  let (k, f) ← edit (s.func.append b op width vs).toExcept
  let f ← edit (f.setExact k i.exact)
  let s := { s with func := f }
  match i.result, f.result? k with
  | some (name, _), some v => s.define name v
  | _, _ => return s

/-- Attaches a place to an error. -/
def locate (total remaining : Nat) (r : Resolved α) : Except ParseError α :=
  r.mapError fun cause => ⟨cause, total - remaining⟩

/-- Resolves the instructions of a block. -/
def insts (total : Nat) (b : BlockId) (s : State) (is : List Written.Inst) :
    Except ParseError State :=
  is.foldlM (fun s i => locate total i.remaining (inst s b i)) s

/-- Resolves a block. -/
def block (total : Nat) (s : State) (is : List Written.Inst) : Except ParseError State :=
  let (b, f) := s.func.createBlock
  insts total b { s with func := f } is

/-- Resolves a parameter. -/
def param (s : State) (p : Written.Param) : Resolved State := do
  checkWidth p.width p.typeClass
  let (v, f) ← edit (s.func.addParam p.width p.typeClass)
  { s with func := f }.define p.name v

/-- Resolves a function of a text of a given number of bytes. A function without a line has one
empty block. -/
def func (total : Nat) (w : Written.Func) : Except ParseError Func := do
  let s ← w.params.foldlM (fun s p => locate total w.remaining (param s p)) ⟨.empty w.name, []⟩
  let s ← (if w.blocks.isEmpty then [[]] else w.blocks).foldlM (block total) s
  return s.func

/-- Reads and resolves functions up to the end of a text of a given number of bytes. -/
def functions (total : Nat) (cs : List Char) : Except ParseError (List Func) :=
  match Written.dropBlank false cs with
  | [] => .ok []
  | start =>
    match Written.func start with
    | .error rest => .error ⟨.malformed, total - Written.byteLength rest⟩
    | .ok (w, rest) => do
      let f ← func total w
      if rest.length < cs.length then
        let fs ← functions total rest
        return f :: fs
      else return [f]
termination_by cs.length

end Parse

/-- Parses any number of functions. -/
def parseProgram (name text : String) : Except ParseError Program := do
  let cs := text.toList
  return ⟨name, ← Parse.functions (Written.byteLength cs) cs⟩

/-- Parses exactly one function. -/
def parseFunc (text : String) : Except ParseError Func := do
  let p ← parseProgram "" text
  match p.functions with
  | [f] => return f
  | fs => throw ⟨.functionCount fs.length, 0⟩

end Peephole

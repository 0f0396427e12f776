import Peephole.Opcode
import Peephole.FloatingPoint.Decimal
import Peephole.Text.Numeral
import Peephole.Text.Reader

/-!
# The text format

The grammar of the text format, and functions as they are **written**: with names in place of
references, and nothing checked but the form.

```text
fn @clamp(%x: f32, %n: 16) {
^entry:
  %y: 32 = fmin! %x, 255.0:f32
  %m: 16 = iand %n, 0xff:16     // the low byte
  store %y
}
```

Names of values, labels and functions are runs of ASCII letters, digits and underscores. A literal
is an integer in base ten or sixteen, or a decimal fraction, `nan`, `inf` or `-inf`, and ends in its
width. A comment runs from two slashes to the end of its line.
-/

namespace Peephole

namespace Written

/-! ### Written functions -/

/-- A written operand. -/
inductive Operand
  | value (name : String)
  | integer (bits width : Nat)
  | float (datum : Datum) (width : Nat)
  deriving DecidableEq, Repr

/-- A written parameter. -/
structure Param where
  /-- The name of the parameter. -/
  name : String
  /-- The type class in front of the width, if there is one. -/
  typeClass : Option TypeClass
  /-- The width. -/
  width : Nat
  deriving DecidableEq, Repr

/-- A written instruction. -/
structure Inst where
  /-- The number of bytes from the start of the instruction to the end of the text. -/
  remaining : Nat
  /-- The name and the width of the result, if it is named. -/
  result : Option (String × Nat)
  /-- The name of the operation. -/
  opcode : String
  /-- Whether the instruction is marked exact. -/
  exact : Bool
  /-- The operands. -/
  operands : List Operand
  deriving DecidableEq, Repr

/-- A written function. -/
structure Func where
  /-- The number of bytes from the start of the function to the end of the text. -/
  remaining : Nat
  /-- The name of the function. -/
  name : String
  /-- The parameters. -/
  params : List Param
  /-- The instructions of each block. -/
  blocks : List (List Inst)
  deriving DecidableEq, Repr

/-- The number of bytes of a text in UTF-8. -/
def byteLength : List Char → Nat
  | [] => 0
  | c :: cs => c.utf8Size + byteLength cs

/-! ### Blanks -/

/-- Whether a character is blank. -/
def isBlank (c : Char) : Bool := c == ' ' || c == '\t' || c == '\n' || c == '\x0c' || c == '\r'

/-- Drops blanks and comments from the front of a text; the flag tells that a comment is open. -/
def dropBlank : Bool → List Char → List Char
  | _, [] => []
  | true, c :: cs => dropBlank (c != '\n') cs
  | false, '/' :: '/' :: cs => dropBlank true cs
  | false, c :: cs => if isBlank c then dropBlank false cs else c :: cs

/-- Skips blanks and comments. -/
def blank : Reader Unit := fun cs => .ok ((), dropBlank false cs)

/-! ### Names -/

/-- Whether a character may occur in a name. -/
def isNameChar (c : Char) : Bool := c.isAlphanum || c == '_'

/-- A name that may start with a digit. -/
def name : Reader String := String.ofList <$> Reader.run1 isNameChar

/-- The name of an operation, which starts with a letter or an underscore. -/
def operationName : Reader String := do
  let c ← Reader.charIf fun c => c.isAlpha || c == '_'
  let cs ← Reader.run isNameChar
  return String.ofList (c :: cs)

/-- A reference to a value. -/
def valueName : Reader String := do
  Reader.char '%'
  name

/-! ### Numbers -/

/-- A number in base ten without superfluous zeros, up to a limit; a lone zero is a number, whatever
follows it. One beyond the limit stops before its first digit. -/
def natural (limit : Nat) : Reader Nat := fun cs =>
  match cs with
  | '0' :: rest => .ok (0, rest)
  | _ =>
    let taken := cs.takeWhile Char.isDigit
    if taken.isEmpty || limit < Numeral.value 10 taken then .error cs
    else .ok (Numeral.value 10 taken, cs.dropWhile Char.isDigit)

/-- A width. -/
def width : Reader Nat := natural 255

/-- Whether a character is a digit in base sixteen. -/
def isHexDigit (c : Char) : Bool :=
  c.isDigit || ('a' ≤ c && c ≤ 'f') || ('A' ≤ c && c ≤ 'F')

/-- A number in base sixteen of at most sixteen digits, leading zeros included. -/
def hexNatural : Reader Nat := do
  Reader.word "0x"
  fun cs =>
    let taken := cs.takeWhile isHexDigit
    if taken.isEmpty || 16 < taken.length then .error cs
    else .ok (Numeral.value 16 taken, cs.dropWhile isHexDigit)

/-- A number in base ten as a word; a negative one is written in two's complement. -/
def integer : Reader Nat := do
  let negative := (← Reader.attempt (Reader.char '-')).isSome
  let n ← natural (twoPow 64 - 1)
  if negative then
    if twoPow 63 < n then Reader.stop
    return (twoPow 64 - n) % twoPow 64
  return n

/-- The exponent of a decimal fraction. -/
def exponent : Reader Int := do
  discard <| Reader.charIf fun c => c == 'e' || c == 'E'
  let sign ← Reader.attempt (Reader.charIf fun c => c == '+' || c == '-')
  let digits ← Reader.run1 Char.isDigit
  let n : Int := Numeral.value 10 digits
  return if sign = some '-' then -n else n

/-- A decimal fraction, with digits on both sides of its point. -/
def fraction : Reader Datum := do
  let negative := (← Reader.attempt (Reader.char '-')).isSome
  let whole ← Reader.run1 Char.isDigit
  Reader.char '.'
  let part ← Reader.run1 Char.isDigit
  let shift := (← Reader.attempt exponent).getD 0
  let significant := (whole ++ part).dropWhile (· == '0')
  return Decimal.toDatum
    ⟨negative, Numeral.value 10 significant, significant.length, shift - part.length⟩

/-- The datum of a float literal. -/
def datum : Reader Datum :=
  Reader.orElse (do Reader.word "nan"; return .nan false quietBit) <|
  Reader.orElse (do Reader.word "inf"; return .infinite false) <|
  Reader.orElse (do Reader.word "-inf"; return .infinite true)
  fraction

/-! ### Instructions and functions -/

/-- A float literal. -/
def floatOperand : Reader Operand := do
  let d ← datum
  Reader.word ":f"
  return .float d (← width)

/-- An integer literal. -/
def integerOperand : Reader Operand := do
  let n ← Reader.orElse hexNatural integer
  Reader.char ':'
  return .integer n (← width)

/-- An operand. -/
def operand : Reader Operand :=
  Reader.orElse (Operand.value <$> valueName) (Reader.orElse floatOperand integerOperand)

/-- A parameter. -/
def param : Reader Param := do
  let name ← valueName
  blank
  Reader.char ':'
  blank
  let letter ← Reader.attempt (Reader.charIf fun c => (TypeClass.ofLetter? c).isSome)
  return ⟨name, letter.bind TypeClass.ofLetter?, ← width⟩

/-- The name and the width of a result, up to the operation. -/
def result : Reader (String × Nat) := do
  let name ← valueName
  blank
  Reader.char ':'
  blank
  let w ← width
  blank
  Reader.char '='
  blank
  return (name, w)

/-- An instruction. -/
def inst : Reader Inst := do
  let remaining := byteLength (← get)
  let result ← Reader.attempt result
  let opcode ← operationName
  let exact := (← Reader.attempt (Reader.char '!')).isSome
  let operands ← Reader.separated1 (do blank; operand) (do blank; Reader.char ',')
  return ⟨remaining, result, opcode, exact, operands⟩

/-- The label of a block. -/
def label : Reader Unit := do
  Reader.char '^'
  discard name
  blank
  Reader.char ':'

/-- A line of a function: an instruction, or the label of a block (`none`). -/
def line : Reader (Option Inst) := fun cs =>
  match cs with
  | '^' :: _ => (do label; return none : Reader (Option Inst)) cs
  | _ => (some <$> inst : Reader (Option Inst)) cs

/-- The lines of a function up to its closing brace. -/
def lines (cs : List Char) : Except (List Char) (List (Option Inst) × List Char) :=
  match dropBlank false cs with
  | '\x7d' :: rest => .ok ([], rest)
  | start =>
    match line start with
    | .error rest => .error rest
    | .ok (l, rest) =>
      if rest.length < cs.length then
        match lines rest with
        | .ok (ls, rest) => .ok (l :: ls, rest)
        | .error rest => .error rest
      else .error rest
termination_by cs.length

/-- The blocks of a list of lines. Instructions before the first label form a block of their
own. -/
def blocks (ls : List (Option Inst)) : List (List Inst) :=
  let (leading, labelled) := ls.foldr
    (fun l (current, closed) =>
      match l with
      | some i => (i :: current, closed)
      | none => ([], current :: closed)) ([], [])
  if leading.isEmpty then labelled else leading :: labelled

/-- A function. -/
def func : Reader Func := do
  let remaining := byteLength (← get)
  Reader.word "fn"
  blank
  Reader.char '@'
  let name ← name
  blank
  Reader.char '('
  blank
  let params ← Reader.separated param (do blank; Reader.char ','; blank)
  blank
  Reader.char ')'
  blank
  Reader.char '\x7b'
  let ls ← (lines : Reader (List (Option Inst)))
  return ⟨remaining, name, params, blocks ls⟩

end Written

end Peephole

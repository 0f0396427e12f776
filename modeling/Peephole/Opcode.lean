/-!
# Operations

The catalogue of operations. Every operation has a static description, an `OpInfo`: how many
sources it takes, what width it asks of each, how it reads their bits, what it produces, and whether
its sources may be exchanged. Conversions that differ only in the width they produce form a
**family**, so that one rule can speak of all of them.
-/

namespace Peephole

/-! ### Type classes and source widths -/

/-- How an operation reads the bits of a source or of its result. -/
inductive TypeClass
  | int | uint | float | bool
  deriving DecidableEq, Repr

namespace TypeClass

/-- Every class. -/
def all : List TypeClass := [int, uint, float, bool]

/-- The letter of a class in the text format. -/
def letter : TypeClass → Char
  | int => 'i'
  | uint => 'u'
  | float => 'f'
  | bool => 'b'

/-- The class of a letter, if it has one. -/
def ofLetter? : Char → Option TypeClass
  | 'i' => some int
  | 'u' => some uint
  | 'f' => some float
  | 'b' => some bool
  | _ => none

@[simp] theorem ofLetter?_letter (c : TypeClass) : ofLetter? c.letter = some c := by
  cases c <;> rfl

end TypeClass

/-- The width that an operation asks of one of its sources. -/
inductive SourceWidth
  /-- The width of the result. -/
  | dest
  /-- The width of every other paired source. -/
  | paired
  /-- Any supported width. -/
  | any
  /-- One given width. -/
  | fixed (bits : Nat)
  deriving DecidableEq, Repr

/-- The static description of an operation. The lists describe three source positions, of which the
operation uses the first `arity`. -/
structure OpInfo where
  /-- The number of sources. -/
  arity : Nat
  /-- The width of the result where the operation fixes it; an operation without a result has the
  fixed width 0. -/
  fixedWidth : Option Nat
  /-- What is asked of the width of each source. -/
  sourceWidths : List SourceWidth
  /-- How the result is read. -/
  resultClass : TypeClass
  /-- How each source is read. -/
  sourceClasses : List TypeClass
  /-- Whether the two sources may be exchanged. -/
  commutative : Bool
  /-- Whether the operation has no effect but its result. -/
  isPure : Bool
  deriving DecidableEq, Repr

namespace OpInfo

/-- Whether the operation produces a value. -/
def hasResult (i : OpInfo) : Bool := i.fixedWidth != some 0

/-- A conversion from any width to a given one. -/
def conversion (source result : TypeClass) (bits : Nat) : OpInfo where
  arity := 1
  fixedWidth := some bits
  sourceWidths := [.any, .any, .any]
  resultClass := result
  sourceClasses := [source, source, source]
  commutative := false
  isPure := true

/-- An operation on one source of the width of its result. -/
def unary (c : TypeClass) : OpInfo where
  arity := 1
  fixedWidth := none
  sourceWidths := [.dest, .dest, .dest]
  resultClass := c
  sourceClasses := [c, c, c]
  commutative := false
  isPure := true

/-- An operation on two sources of the width of its result. -/
def binary (c : TypeClass) (commutative : Bool) : OpInfo where
  arity := 2
  fixedWidth := none
  sourceWidths := [.dest, .dest, .dest]
  resultClass := c
  sourceClasses := [c, c, c]
  commutative := commutative
  isPure := true

/-- A shift, whose amount is a 32-bit integer. -/
def shift (c : TypeClass) : OpInfo where
  arity := 2
  fixedWidth := none
  sourceWidths := [.dest, .fixed 32, .any]
  resultClass := c
  sourceClasses := [c, .uint, .uint]
  commutative := false
  isPure := true

/-- A comparison of two sources of one width. -/
def comparison (c : TypeClass) (commutative : Bool) : OpInfo where
  arity := 2
  fixedWidth := some 1
  sourceWidths := [.paired, .paired, .paired]
  resultClass := .bool
  sourceClasses := [c, c, c]
  commutative := commutative
  isPure := true

/-- The choice between two sources by a boolean. -/
def selection : OpInfo where
  arity := 3
  fixedWidth := none
  sourceWidths := [.fixed 1, .dest, .dest]
  resultClass := .uint
  sourceClasses := [.bool, .uint, .uint]
  commutative := false
  isPure := true

/-- The packing of two 32-bit floats into the halves of a word. -/
def packing : OpInfo where
  arity := 2
  fixedWidth := some 32
  sourceWidths := [.fixed 32, .fixed 32, .fixed 32]
  resultClass := .uint
  sourceClasses := [.float, .float, .float]
  commutative := false
  isPure := true

/-- The reading of one half of a word as a 32-bit float. -/
def unpacking : OpInfo where
  arity := 1
  fixedWidth := some 32
  sourceWidths := [.fixed 32, .fixed 32, .fixed 32]
  resultClass := .float
  sourceClasses := [.uint, .uint, .uint]
  commutative := false
  isPure := true

/-- An operation that consumes a value and produces none. -/
def sink : OpInfo where
  arity := 1
  fixedWidth := some 0
  sourceWidths := [.any, .any, .any]
  resultClass := .uint
  sourceClasses := [.uint, .uint, .uint]
  commutative := false
  isPure := false

end OpInfo

/-! ### Families and operations -/

/-- A **family** of conversions, which differ only in the width they produce. -/
inductive Family
  | i2i | u2u | f2f | f2u | f2i | u2f | i2f | b2b | b2i | b2f
  deriving DecidableEq, Repr

/-- An operation. -/
inductive Opcode
  | i2i8 | i2i16 | i2i32 | i2i64 | u2u8 | u2u16 | u2u32 | u2u64 | f2f16 | f2f32 | f2f64 | f2f16Rtz
  | f2u8 | f2u16 | f2u32 | f2u64 | f2i8 | f2i16 | f2i32 | f2i64 | u2f16 | u2f32 | u2f64 | i2f16
  | i2f32 | i2f64 | b2b1 | b2b32 | b2i8 | b2i16 | b2i32 | b2i64 | b2f16 | b2f32 | b2f64 | iadd
  | isub | imul | ineg | iabs | iand | ior | ixor | inot | ishl | ishr | ushr | idiv | udiv | irem
  | umod | imin | imax | umin | umax | fadd | fsub | fmul | fdiv | fneg | fabs | fmin | fmax | ieq
  | ine | ilt | ige | ult | uge | feq | fneu | flt | fge | bcsel | packHalf2x16Split
  | unpackHalf2x16SplitX | unpackHalf2x16SplitY | store
  deriving DecidableEq, Repr

namespace Family

/-- Every family, in order. -/
def all : List Family := [i2i, u2u, f2f, f2u, f2i, u2f, i2f, b2b, b2i, b2f]

/-- The position of a family in `all`. -/
def index (f : Family) : Nat := all.idxOf f

/-- The name of a family. -/
def name : Family → String
  | i2i => "i2i" | u2u => "u2u" | f2f => "f2f" | f2u => "f2u" | f2i => "f2i"
  | u2f => "u2f" | i2f => "i2f" | b2b => "b2b" | b2i => "b2i" | b2f => "b2f"

/-- The family of a name, if it is one. -/
def ofName? (name : String) : Option Family := all.find? (·.name == name)

/-- How a family reads its source. -/
def source : Family → TypeClass
  | i2i | i2f => .int
  | u2u | u2f => .uint
  | f2f | f2u | f2i => .float
  | b2b | b2i | b2f => .bool

/-- How the result of a family is read. -/
def result : Family → TypeClass
  | i2i | f2i | b2i => .int
  | u2u | f2u => .uint
  | f2f | u2f | i2f | b2f => .float
  | b2b => .bool

end Family

namespace Opcode

/-- Every operation, in order. -/
def all : List Opcode :=
  [i2i8, i2i16, i2i32, i2i64, u2u8, u2u16, u2u32, u2u64, f2f16, f2f32, f2f64, f2f16Rtz, f2u8,
    f2u16, f2u32, f2u64, f2i8, f2i16, f2i32, f2i64, u2f16, u2f32, u2f64, i2f16, i2f32, i2f64, b2b1,
    b2b32, b2i8, b2i16, b2i32, b2i64, b2f16, b2f32, b2f64, iadd, isub, imul, ineg, iabs, iand, ior,
    ixor, inot, ishl, ishr, ushr, idiv, udiv, irem, umod, imin, imax, umin, umax, fadd, fsub, fmul,
    fdiv, fneg, fabs, fmin, fmax, ieq, ine, ilt, ige, ult, uge, feq, fneu, flt, fge, bcsel,
    packHalf2x16Split, unpackHalf2x16SplitX, unpackHalf2x16SplitY, store]

/-- The position of an operation in `all`. -/
def index (op : Opcode) : Nat := op.ctorIdx

/-- The name of an operation in the text format. -/
def name : Opcode → String
  | i2i8 => "i2i8" | i2i16 => "i2i16" | i2i32 => "i2i32" | i2i64 => "i2i64" | u2u8 => "u2u8"
  | u2u16 => "u2u16" | u2u32 => "u2u32" | u2u64 => "u2u64" | f2f16 => "f2f16" | f2f32 => "f2f32"
  | f2f64 => "f2f64" | f2f16Rtz => "f2f16_rtz" | f2u8 => "f2u8" | f2u16 => "f2u16"
  | f2u32 => "f2u32" | f2u64 => "f2u64" | f2i8 => "f2i8" | f2i16 => "f2i16" | f2i32 => "f2i32"
  | f2i64 => "f2i64" | u2f16 => "u2f16" | u2f32 => "u2f32" | u2f64 => "u2f64" | i2f16 => "i2f16"
  | i2f32 => "i2f32" | i2f64 => "i2f64" | b2b1 => "b2b1" | b2b32 => "b2b32" | b2i8 => "b2i8"
  | b2i16 => "b2i16" | b2i32 => "b2i32" | b2i64 => "b2i64" | b2f16 => "b2f16" | b2f32 => "b2f32"
  | b2f64 => "b2f64" | iadd => "iadd" | isub => "isub" | imul => "imul" | ineg => "ineg"
  | iabs => "iabs" | iand => "iand" | ior => "ior" | ixor => "ixor" | inot => "inot"
  | ishl => "ishl" | ishr => "ishr" | ushr => "ushr" | idiv => "idiv" | udiv => "udiv"
  | irem => "irem" | umod => "umod" | imin => "imin" | imax => "imax" | umin => "umin"
  | umax => "umax" | fadd => "fadd" | fsub => "fsub" | fmul => "fmul" | fdiv => "fdiv"
  | fneg => "fneg" | fabs => "fabs" | fmin => "fmin" | fmax => "fmax" | ieq => "ieq" | ine => "ine"
  | ilt => "ilt" | ige => "ige" | ult => "ult" | uge => "uge" | feq => "feq" | fneu => "fneu"
  | flt => "flt" | fge => "fge" | bcsel => "bcsel" | packHalf2x16Split => "pack_half_2x16_split"
  | unpackHalf2x16SplitX => "unpack_half_2x16_split_x"
  | unpackHalf2x16SplitY => "unpack_half_2x16_split_y" | store => "store"

/-- The operation of a name, if it is one. -/
def ofName? (name : String) : Option Opcode := all.find? (·.name == name)

/-- The family of a conversion. The conversion that rounds toward zero stands alone. -/
def family? : Opcode → Option Family
  | i2i8 | i2i16 | i2i32 | i2i64 => some .i2i
  | u2u8 | u2u16 | u2u32 | u2u64 => some .u2u
  | f2f16 | f2f32 | f2f64 => some .f2f
  | f2u8 | f2u16 | f2u32 | f2u64 => some .f2u
  | f2i8 | f2i16 | f2i32 | f2i64 => some .f2i
  | u2f16 | u2f32 | u2f64 => some .u2f
  | i2f16 | i2f32 | i2f64 => some .i2f
  | b2b1 | b2b32 => some .b2b
  | b2i8 | b2i16 | b2i32 | b2i64 => some .b2i
  | b2f16 | b2f32 | b2f64 => some .b2f
  | _ => none

/-- The description of an operation. -/
def info : Opcode → OpInfo
  | i2i8 => .conversion .int .int 8
  | i2i16 => .conversion .int .int 16
  | i2i32 => .conversion .int .int 32
  | i2i64 => .conversion .int .int 64
  | u2u8 => .conversion .uint .uint 8
  | u2u16 => .conversion .uint .uint 16
  | u2u32 => .conversion .uint .uint 32
  | u2u64 => .conversion .uint .uint 64
  | f2f16 | f2f16Rtz => .conversion .float .float 16
  | f2f32 => .conversion .float .float 32
  | f2f64 => .conversion .float .float 64
  | f2u8 => .conversion .float .uint 8
  | f2u16 => .conversion .float .uint 16
  | f2u32 => .conversion .float .uint 32
  | f2u64 => .conversion .float .uint 64
  | f2i8 => .conversion .float .int 8
  | f2i16 => .conversion .float .int 16
  | f2i32 => .conversion .float .int 32
  | f2i64 => .conversion .float .int 64
  | u2f16 => .conversion .uint .float 16
  | u2f32 => .conversion .uint .float 32
  | u2f64 => .conversion .uint .float 64
  | i2f16 => .conversion .int .float 16
  | i2f32 => .conversion .int .float 32
  | i2f64 => .conversion .int .float 64
  | b2b1 => .conversion .bool .bool 1
  | b2b32 => .conversion .bool .bool 32
  | b2i8 => .conversion .bool .int 8
  | b2i16 => .conversion .bool .int 16
  | b2i32 => .conversion .bool .int 32
  | b2i64 => .conversion .bool .int 64
  | b2f16 => .conversion .bool .float 16
  | b2f32 => .conversion .bool .float 32
  | b2f64 => .conversion .bool .float 64
  | iadd | imul | imin | imax => .binary .int true
  | isub | idiv | irem => .binary .int false
  | ineg | iabs => .unary .int
  | iand | ior | ixor | umin | umax => .binary .uint true
  | inot => .unary .uint
  | ishl | ishr => .shift .int
  | ushr => .shift .uint
  | udiv | umod => .binary .uint false
  | fadd | fmul | fmin | fmax => .binary .float true
  | fsub | fdiv => .binary .float false
  | fneg | fabs => .unary .float
  | ieq | ine => .comparison .int true
  | ilt | ige => .comparison .int false
  | ult | uge => .comparison .uint false
  | feq | fneu => .comparison .float true
  | flt | fge => .comparison .float false
  | bcsel => .selection
  | packHalf2x16Split => .packing
  | unpackHalf2x16SplitX | unpackHalf2x16SplitY => .unpacking
  | store => .sink

/-- The number of sources of an operation. -/
def arity (op : Opcode) : Nat := op.info.arity

/-- Whether an operation has no effect but its result. -/
def isPure (op : Opcode) : Bool := op.info.isPure

/-- Whether an operation produces a value. -/
def hasResult (op : Opcode) : Bool := op.info.hasResult

end Opcode

/-- The member of a family that produces results of a width, if there is one. -/
def Family.withWidth? (f : Family) (bits : Nat) : Option Opcode :=
  Opcode.all.find? fun op => op.family? == some f && op.info.fixedWidth == some bits

end Peephole

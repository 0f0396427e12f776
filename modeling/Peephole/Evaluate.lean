import Peephole.Literal

/-!
# Evaluation of operations

The exact result of an operation on literals, bit for bit as the instruction would compute it.

* Integers wrap around at the width of the result; shift amounts count modulo that width; division
  and remainder by zero give zero.
* Float arithmetic is rounded to nearest at the width of the result. The minimum and the maximum
  hand on a NaN and put `-0` below `+0`.
* Conversions from float to integer truncate and saturate, and turn a NaN into zero.
* The narrowing to a half and the packing of halves round toward zero.

`evaluate` has no value for an operation without a result and for a float source or result at a
width without a floating-point format.
-/

namespace Peephole

namespace Evaluate

/-! ### Conversions -/

/-- A datum as the bit pattern of a width that has a format. -/
def toBits? (w : Nat) (d : Datum) : Option Word :=
  (FloatFormat.ofWidth? w).map fun f => BitVec.ofNat 64 (f.encode .nearestEven d)

/-- An integer as a float. At 32 bits it is rounded at once, otherwise by way of binary64. -/
def ofInteger? (w : Nat) (n : Int) : Option Word :=
  if w = 32 then toBits? w (.ofInt n) else toBits? w (Datum.ofInt n).round

/-- The half of a datum, rounded toward zero. -/
def toHalf (d : Datum) : Word := BitVec.ofNat 64 (binary16.encode .towardZero d)

/-- The float of 32 bits with the value of the half in the low bits of a word. -/
def ofHalf (b : Word) : Word :=
  BitVec.ofNat 64 (binary32.encode .nearestEven (binary16.decode (b.toNat % twoPow 16)))

/-- The width at which a conversion to integers saturates: widths that are no integer width saturate
at 64 bits. -/
def saturation (w : Nat) : Nat := if w = 8 ∨ w = 16 ∨ w = 32 then w else 64

/-- The result of a conversion to a width. -/
def convert (f : Family) (w : Nat) (a : Literal) : Option Word :=
  match f with
  | .i2i => some (BitVec.ofInt 64 a.toInt)
  | .u2u => some a.bits
  | .f2f => a.datum?.bind (toBits? w)
  | .f2u => a.datum?.map (·.toUnsigned (saturation w))
  | .f2i => a.datum?.map (·.toSigned (saturation w))
  | .u2f => ofInteger? w a.bits.toNat
  | .i2f => ofInteger? w a.toInt
  | .b2b => some (if a.toBool then BitVec.allOnes 64 else 0)
  | .b2i => some (if a.toBool then 1 else 0)
  | .b2f => toBits? w (.ofInt (if a.toBool then 1 else 0))

/-! ### Arithmetic -/

/-- The sign bit of a width. -/
def signBit (w : Nat) : Word := BitVec.twoPow 64 (w - 1)

/-- The distance that a shift at a width moves by. -/
def distance (w : Nat) (amount : Literal) : Nat :=
  (amount.bits.toNat % twoPow 32 &&& (w - 1)) % 64

/-- A truth value as a word. -/
def truth (b : Bool) : Word := if b then 1 else 0

/-- The result of an operation on one source. -/
def unary (op : Opcode) (w : Nat) (a : Literal) : Option Word :=
  match op with
  | .ineg => some (-a.bits)
  | .iabs => some (BitVec.ofInt 64 a.toInt.natAbs)
  | .inot => some (~~~a.bits)
  | .fneg => some (a.bits ^^^ signBit w)
  | .fabs => some (a.bits &&& ~~~signBit w)
  | .f2f16Rtz => a.datum?.map toHalf
  | .unpackHalf2x16SplitX => some (ofHalf a.bits)
  | .unpackHalf2x16SplitY => some (ofHalf (a.bits >>> 16))
  | _ => none

/-- Float arithmetic: the operation at binary64, then rounded to the width. -/
def arithmetic (f : Datum → Datum → Datum) (w : Nat) (a b : Literal) : Option Word := do
  toBits? w (f (← a.datum?) (← b.datum?))

/-- A comparison of floats. -/
def comparison (f : Datum → Datum → Bool) (a b : Literal) : Option Word := do
  some (truth (f (← a.datum?) (← b.datum?)))

/-- The smaller or the greater of two floats, as the bits of the one chosen. The first NaN is chosen
before any number, and zeros are ordered by their sign. -/
def extremum (greatest : Bool) (a b : Literal) : Option Word := do
  let x ← a.datum?
  let y ← b.datum?
  if x.isNaN then return a.bits
  if y.isNaN then return b.bits
  let below := x.lt y || (x.eq y && x.isNegative && !y.isNegative)
  return if below != greatest then a.bits else b.bits

/-- The result of an operation on two sources. -/
def binary (op : Opcode) (w : Nat) (a b : Literal) : Option Word :=
  match op with
  | .iadd => some (a.bits + b.bits)
  | .isub => some (a.bits - b.bits)
  | .imul => some (a.bits * b.bits)
  | .iand => some (a.bits &&& b.bits)
  | .ior => some (a.bits ||| b.bits)
  | .ixor => some (a.bits ^^^ b.bits)
  | .ishl => some (a.bits <<< distance w b)
  | .ishr => some (BitVec.ofInt 64 (a.toInt >>> distance w b))
  | .ushr => some (a.bits >>> distance w b)
  | .idiv => some (BitVec.ofInt 64 (a.toInt.tdiv b.toInt))
  | .irem => some (if b.toInt = 0 then 0 else BitVec.ofInt 64 (a.toInt.tmod b.toInt))
  | .udiv => some (if b.bits = 0 then 0 else a.bits / b.bits)
  | .umod => some (if b.bits = 0 then 0 else a.bits % b.bits)
  | .imin => some (BitVec.ofInt 64 (min a.toInt b.toInt))
  | .imax => some (BitVec.ofInt 64 (max a.toInt b.toInt))
  | .umin => some (if a.bits ≤ b.bits then a.bits else b.bits)
  | .umax => some (if a.bits ≤ b.bits then b.bits else a.bits)
  | .fadd => arithmetic Datum.add w a b
  | .fsub => arithmetic Datum.sub w a b
  | .fmul => arithmetic Datum.mul w a b
  | .fdiv => arithmetic Datum.div w a b
  | .fmin => extremum false a b
  | .fmax => extremum true a b
  | .ieq => some (truth (a.bits == b.bits))
  | .ine => some (truth (a.bits != b.bits))
  | .ilt => some (truth (a.toInt < b.toInt))
  | .ige => some (truth (b.toInt ≤ a.toInt))
  | .ult => some (truth (a.bits < b.bits))
  | .uge => some (truth (b.bits ≤ a.bits))
  | .feq => comparison Datum.eq a b
  | .fneu => comparison (fun x y => !x.eq y) a b
  | .flt => comparison Datum.lt a b
  | .fge => comparison Datum.ge a b
  | .packHalf2x16Split => do
    some (toHalf (← a.datum?) ||| toHalf (← b.datum?) <<< 16)
  | _ => none

/-- The result of an operation that is not a conversion of a family. -/
def operate (op : Opcode) (w : Nat) : List Literal → Option Word
  | [a] => unary op w a
  | [a, b] => binary op w a b
  | [c, a, b] => if c.toBool then some a.bits else some b.bits
  | _ => none

end Evaluate

/-! ### Evaluation -/

/-- Whether every float among the sources and the result has a width with a format. -/
def hasFormats (op : Opcode) (w : Nat) (sources : List Literal) : Bool :=
  (op.info.resultClass != .float || isFloatWidth w) &&
    (sources.zip op.info.sourceClasses).all fun (a, c) => c != .float || a.isFloatWidth

/-- The bits of the result of an operation at a width, or `none` where it has no value. -/
def evaluate (op : Opcode) (w : Nat) (sources : List Literal) : Except Fault (Option Word) :=
  if sources.length ≠ op.arity then .error (.sourceCount op)
  else if !op.hasResult || !hasFormats op w sources then .ok none
  else
    let result? :=
      match op.family?, sources with
      | some f, [a] => Evaluate.convert f w a
      | _, _ => Evaluate.operate op w sources
    .ok (result?.map (· &&& mask w))

end Peephole

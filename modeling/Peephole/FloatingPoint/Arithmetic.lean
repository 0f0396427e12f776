import Peephole.FloatingPoint.Format

/-!
# Floating-point arithmetic

Arithmetic on data, rounded once to binary64, and the conversions to integers. An operation with a
NaN among its operands returns the first of them, made quiet; an operation without a meaning, such
as the difference of two infinities of one sign, returns the default NaN.
-/

namespace Peephole

namespace Datum

/-- The NaN that an operation without a meaning returns. -/
def defaultNaN : Datum := nan true quietBit

/-- The signed number of units `±num / den`, rounded to the nearest number of binary64. -/
def ofRatio (negative : Bool) (num den : Nat) : Datum :=
  binary64.decode (binary64.signBit negative + binary64.encodeRatio .nearestEven num den)

/-- A datum rounded to the nearest number of binary64. -/
def round (d : Datum) : Datum := binary64.decode (binary64.encode .nearestEven d)

/-- The NaN that a pair of operands hands on, if one of them is a NaN. -/
def propagated? : Datum → Datum → Option Datum
  | nan negative payload, _ => some (nan negative (payload ||| quietBit))
  | _, nan negative payload => some (nan negative (payload ||| quietBit))
  | _, _ => none

/-- The opposite of a datum; a NaN stays as it is. -/
def neg : Datum → Datum
  | infinite negative => infinite !negative
  | finite negative magnitude => finite (!negative) magnitude
  | d => d

/-- The signed number of units of a finite datum. -/
def units (negative : Bool) (magnitude : Nat) : Int :=
  if negative then -(magnitude : Int) else magnitude

/-- The sum of two data. A sum of zero is negative only when both operands are. -/
def add (a b : Datum) : Datum :=
  (propagated? a b).getD <|
    match a, b with
    | infinite s, infinite t => if s = t then infinite s else defaultNaN
    | infinite s, _ => infinite s
    | _, infinite t => infinite t
    | finite s x, finite t y =>
      let sum := units s x + units t y
      if sum = 0 then finite (s && t) 0 else ofRatio (sum < 0) sum.natAbs 1
    | _, _ => defaultNaN

/-- The difference of two data. -/
def sub (a b : Datum) : Datum := add a b.neg

/-- The product of two data. -/
def mul (a b : Datum) : Datum :=
  (propagated? a b).getD <|
    match a, b with
    | infinite s, infinite t => infinite (s ^^ t)
    | infinite s, finite t y => if y = 0 then defaultNaN else infinite (s ^^ t)
    | finite s x, infinite t => if x = 0 then defaultNaN else infinite (s ^^ t)
    | finite s x, finite t y => ofRatio (s ^^ t) (x * y) (twoPow unitsLog)
    | _, _ => defaultNaN

/-- The quotient of two data. -/
def div (a b : Datum) : Datum :=
  (propagated? a b).getD <|
    match a, b with
    | infinite _, infinite _ => defaultNaN
    | infinite s, finite t _ => infinite (s ^^ t)
    | finite s _, infinite t => finite (s ^^ t) 0
    | finite s x, finite t y =>
      if y = 0 then if x = 0 then defaultNaN else infinite (s ^^ t)
      else ofRatio (s ^^ t) (x * twoPow unitsLog) y
    | _, _ => defaultNaN

/-! ### Order -/

/-- Whether two data are equal as numbers. Zeros of both signs are equal, a NaN equals nothing. -/
def eq : Datum → Datum → Bool
  | infinite s, infinite t => s == t
  | finite s x, finite t y => units s x == units t y
  | _, _ => false

/-- Whether one datum is below another. A NaN is below nothing, and nothing is below it. -/
def lt : Datum → Datum → Bool
  | infinite s, infinite t => s && !t
  | infinite s, finite _ _ => s
  | finite _ _, infinite t => !t
  | finite s x, finite t y => units s x < units t y
  | _, _ => false

/-- Whether one datum is at least another. -/
def ge (a b : Datum) : Bool := eq a b || lt b a

/-! ### Integers -/

/-- The integer nearest to a datum on the way to zero, clamped to the range from `low` to `high`;
zero for a NaN. -/
def clamp (low high : Int) : Datum → Int
  | nan .. => 0
  | infinite negative => if negative then low else high
  | finite negative magnitude =>
    max low (min high (units negative (magnitude / twoPow unitsLog)))

/-- The unsigned `w`-bit integer of a datum. -/
def toUnsigned (w : Nat) (d : Datum) : Word := BitVec.ofInt 64 (d.clamp 0 (twoPow w - 1))

/-- The signed `w`-bit integer of a datum, in two's complement. -/
def toSigned (w : Nat) (d : Datum) : Word :=
  BitVec.ofInt 64 (d.clamp (-twoPow (w - 1)) (twoPow (w - 1) - 1))

end Datum

end Peephole

import Peephole.Width

/-!
# Floating-point formats

The three binary interchange formats, and the numbers they stand for. A **datum** is what a bit
pattern of a format denotes: a number, an infinity or a NaN. The magnitude of a finite datum is a
natural number of *units*, one unit being `2 ^ (-1074)`, the smallest positive number of binary64.
Every number of the three formats is a whole number of units, so that sums and comparisons need no
rounding at all, and a rounding is a single division.

* `FloatFormat.decode` reads a bit pattern, `FloatFormat.encode` writes a datum.
* `FloatFormat.encodeRatio` is the one place where a magnitude is rounded.
-/

namespace Peephole

/-! ### Data -/

/-- The binary logarithm of the number of units in `1`. -/
def unitsLog : Nat := 1074

/-- What a floating-point bit pattern denotes. The payload of a NaN is its fraction field at
binary64, whose leading bit marks a quiet NaN. -/
inductive Datum
  | nan (negative : Bool) (payload : Nat)
  | infinite (negative : Bool)
  | finite (negative : Bool) (magnitude : Nat)
  deriving DecidableEq, Repr

/-- The bit of a payload that marks a quiet NaN. -/
def quietBit : Nat := twoPow 51

namespace Datum

/-- Whether a datum is a NaN. -/
def isNaN : Datum → Bool
  | nan .. => true
  | _ => false

/-- Whether a datum is a number. -/
def isFinite : Datum → Bool
  | finite .. => true
  | _ => false

/-- The sign of a datum, set for negative ones, zeros and NaNs included. -/
def isNegative : Datum → Bool
  | nan negative _ => negative
  | infinite negative => negative
  | finite negative _ => negative

/-- Whether a datum is a number without a fractional part. -/
def isIntegral : Datum → Bool
  | finite _ magnitude => magnitude % twoPow unitsLog == 0
  | _ => false

/-- An integer as a datum, exactly. -/
def ofInt (n : Int) : Datum := finite (n < 0) (n.natAbs * twoPow unitsLog)

end Datum

/-! ### Formats -/

/-- A binary interchange format: the precision counts the hidden bit. -/
structure FloatFormat where
  /-- Bits of the significand, the hidden one included. -/
  precision : Nat
  /-- Bits of the exponent field. -/
  exponentBits : Nat
  deriving DecidableEq, Repr

/-- The 16-bit format. -/
def binary16 : FloatFormat := ⟨11, 5⟩

/-- The 32-bit format. -/
def binary32 : FloatFormat := ⟨24, 8⟩

/-- The 64-bit format. -/
def binary64 : FloatFormat := ⟨53, 11⟩

/-- How a magnitude between two neighbours of a format is rounded. -/
inductive Rounding
  /-- To the nearer neighbour, a tie to the even one. -/
  | nearestEven
  /-- To the smaller neighbour. -/
  | towardZero
  deriving DecidableEq, Repr

/-- The integer next to `num / den` that a rounding selects. -/
def Rounding.quotient (r : Rounding) (num den : Nat) : Nat :=
  let q := num / den
  match r with
  | .towardZero => q
  | .nearestEven =>
    let twice := 2 * (num % den)
    if twice < den then q else if den < twice then q + 1 else q + q % 2

namespace FloatFormat

/-- The format of a width, if it has one. -/
def ofWidth? : Nat → Option FloatFormat
  | 16 => some binary16
  | 32 => some binary32
  | 64 => some binary64
  | _ => none

/-- The number of fraction bits. -/
def fractionBits (f : FloatFormat) : Nat := f.precision - 1

/-- The number of bits of a pattern. -/
def width (f : FloatFormat) : Nat := f.exponentBits + f.precision

/-- The largest exponent field, which infinities and NaNs carry. -/
def maxExponent (f : FloatFormat) : Nat := twoPow f.exponentBits - 1

/-- The binary logarithm of the number of units in the format's smallest positive number. -/
def scale (f : FloatFormat) : Nat :=
  unitsLog + 2 - (twoPow (f.exponentBits - 1) - 1) - f.precision

/-- The pattern of positive infinity. -/
def infinity (f : FloatFormat) : Nat := f.maxExponent * twoPow f.fractionBits

/-- The sign bit of a pattern. -/
def signBit (f : FloatFormat) (negative : Bool) : Nat :=
  if negative then twoPow (f.exponentBits + f.fractionBits) else 0

/-- The datum of a bit pattern. Widening makes a NaN quiet; at binary64 its payload is kept as it
is. -/
def decode (f : FloatFormat) (bits : Nat) : Datum :=
  let fraction := bits % twoPow f.fractionBits
  let exponent := bits / twoPow f.fractionBits % twoPow f.exponentBits
  let negative := bits.testBit (f.exponentBits + f.fractionBits)
  if exponent = f.maxExponent then
    if fraction = 0 then .infinite negative
    else if f = binary64 then .nan negative fraction
    else .nan negative (fraction * twoPow (52 - f.fractionBits) ||| quietBit)
  else if exponent = 0 then .finite negative (fraction * twoPow f.scale)
  else
    .finite negative ((twoPow f.fractionBits + fraction) * twoPow (exponent - 1) * twoPow f.scale)

/-- The pattern of a positive magnitude of `num / den` units, rounded once. The step between
neighbours doubles with every binade above the lowest, and the pattern of a magnitude is its number
of steps plus the patterns of the binades below. Rounding to nearest overflows to infinity,
rounding toward zero to the largest number. -/
def encodeRatio (f : FloatFormat) (r : Rounding) (num den : Nat) : Nat :=
  let least := den * twoPow f.scale
  let binade := (num / least).log2 + 1 - f.precision
  let pattern := binade * twoPow f.fractionBits + r.quotient num (least * twoPow binade)
  match r with
  | .nearestEven => min pattern f.infinity
  | .towardZero => min pattern (f.infinity - 1)

/-- The bit pattern of a datum, rounded once. A NaN keeps its sign and the leading bits of its
payload and becomes quiet; at binary64 it is kept as it is. -/
def encode (f : FloatFormat) (r : Rounding) : Datum → Nat
  | .nan negative payload =>
    let fraction :=
      if f = binary64 then payload
      else (payload ||| quietBit) / twoPow (52 - f.fractionBits)
    f.signBit negative + f.infinity + fraction
  | .infinite negative => f.signBit negative + f.infinity
  | .finite negative magnitude => f.signBit negative + f.encodeRatio r magnitude 1

end FloatFormat

end Peephole

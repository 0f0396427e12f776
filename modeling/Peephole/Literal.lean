import Peephole.FloatingPoint.Arithmetic
import Peephole.Fault

/-!
# Literals

A **literal** is a bit pattern together with its width. Every literal made by `Literal.of` is
**masked**: the bits above its width are clear.
-/

namespace Peephole

/-- A bit pattern and its width. -/
structure Literal where
  /-- The bits, in the low end of a word. -/
  bits : Word
  /-- The number of bits. -/
  width : Nat
  deriving DecidableEq, Repr

/-- The datum of a bit pattern at a width, which must have a floating-point format. -/
def decodeFloat (bits : Word) (w : Nat) : Except Fault Datum :=
  match FloatFormat.ofWidth? w with
  | some f => .ok (f.decode bits.toNat)
  | none => .error (.decodingWidth w)

/-- The bit pattern of a datum at a width, which must have a floating-point format; rounds to
nearest. -/
def encodeFloat (d : Datum) (w : Nat) : Except Fault Word :=
  match FloatFormat.ofWidth? w with
  | some f => .ok (BitVec.ofNat 64 (f.encode .nearestEven d))
  | none => .error (.encodingWidth w)

namespace Literal

/-- The literal of a width with the low bits of a word. -/
def of (bits : Word) (width : Nat) : Literal := ⟨bits &&& mask width, width⟩

/-- The bits as a two's complement integer. -/
def toInt (l : Literal) : Int := signed l.bits l.width

/-- The bits as a truth value. -/
def toBool (l : Literal) : Bool := l.bits != 0

/-- Whether the width has a floating-point format. -/
def isFloatWidth (l : Literal) : Bool := Peephole.isFloatWidth l.width

/-- The bits as a floating-point datum, at a width that has a format. -/
def datum? (l : Literal) : Option Datum :=
  (FloatFormat.ofWidth? l.width).map (·.decode l.bits.toNat)

end Literal

end Peephole

import Peephole.Literal

/-!
# Integers as bit vectors

The integer operations in terms of bit vectors that are exactly as wide as the values they stand
for. Sums, differences and products wrap around; shifts count modulo the width; the signed quotient
is truncated, and the remainder that goes with it takes the sign of the dividend; division by zero
and its remainder give zero. Conversions extend the sign of an integer, or zeros, or cut it off.

* `unary?`, `binary?`, `shift?`, `comparison?` and `conversion?` tell the function that an operation
  or a family stands for.
* `Computes` relates an operation and its sources to the result.
-/

namespace Peephole

/-- The literal that a bit vector is. -/
def Literal.ofBitVec {w : Nat} (x : BitVec w) : Literal := ⟨x.setWidth 64, w⟩

namespace Integer

/-- The operations on integers and their conversions into each other. -/
def operations : List Opcode :=
  [.iadd, .isub, .imul, .ineg, .iabs, .iand, .ior, .ixor, .inot, .ishl, .ishr, .ushr, .idiv, .udiv,
    .irem, .umod, .imin, .imax, .umin, .umax, .bcsel, .ieq, .ine, .ilt, .ige, .ult, .uge, .i2i8,
    .i2i16, .i2i32, .i2i64, .u2u8, .u2u16, .u2u32, .u2u64, .b2b1, .b2b32, .b2i8, .b2i16, .b2i32,
    .b2i64]

/-! ### Functions on bit vectors -/

section Functions

variable {n w : Nat}

/-- The function of an operation on one integer. -/
def unary? : Opcode → Option (BitVec w → BitVec w)
  | .ineg => some fun x => -x
  | .iabs => some fun x => x.abs
  | .inot => some fun x => ~~~x
  | _ => none

/-- The function of an operation on two integers of the width of the result. -/
def binary? : Opcode → Option (BitVec w → BitVec w → BitVec w)
  | .iadd => some fun x y => x + y
  | .isub => some fun x y => x - y
  | .imul => some fun x y => x * y
  | .iand => some fun x y => x &&& y
  | .ior => some fun x y => x ||| y
  | .ixor => some fun x y => x ^^^ y
  | .idiv => some fun x y => if y = 0 then 0 else x.sdiv y
  | .irem => some fun x y => if y = 0 then 0 else x.srem y
  | .udiv => some fun x y => if y = 0 then 0 else x.udiv y
  | .umod => some fun x y => if y = 0 then 0 else x.umod y
  | .imin => some fun x y => if x.sle y then x else y
  | .imax => some fun x y => if x.sle y then y else x
  | .umin => some fun x y => if x.ule y then x else y
  | .umax => some fun x y => if x.ule y then y else x
  | _ => none

/-- The function of a shift by a number of bits. -/
def shift? : Opcode → Option (BitVec w → Nat → BitVec w)
  | .ishl => some fun x k => x <<< k
  | .ishr => some fun x k => x.sshiftRight k
  | .ushr => some fun x k => x >>> k
  | _ => none

/-- The function of a comparison. -/
def comparison? : Opcode → Option (BitVec w → BitVec w → Bool)
  | .ieq => some fun x y => x == y
  | .ine => some fun x y => x != y
  | .ilt => some fun x y => x.slt y
  | .ige => some fun x y => y.sle x
  | .ult => some fun x y => x.ult y
  | .uge => some fun x y => y.ule x
  | _ => none

/-- The function of a family of conversions. A truth value is one bit, which says whether any bit of
the source is set. -/
def conversion? : Family → Option (BitVec n → BitVec w)
  | .i2i => some fun x => x.signExtend w
  | .u2u => some fun x => x.setWidth w
  | .b2b => some fun x => (BitVec.ofBool (x != 0)).signExtend w
  | .b2i => some fun x => (BitVec.ofBool (x != 0)).setWidth w
  | _ => none

end Functions

/-! ### Operations on literals -/

/-- What an integer operation **computes** at a width from literals of the widths that it asks
for. -/
inductive Computes : Opcode → (w : Nat) → List Literal → BitVec w → Prop
  | unary {op w p} (h : unary? op = some p) (x : BitVec w) :
      Computes op w [.ofBitVec x] (p x)
  | binary {op w p} (h : binary? op = some p) (x y : BitVec w) :
      Computes op w [.ofBitVec x, .ofBitVec y] (p x y)
  | shift {op w p} (h : shift? op = some p) (x : BitVec w) (amount : BitVec 32) :
      Computes op w [.ofBitVec x, .ofBitVec amount] (p x (amount.toNat % w))
  | comparison {op n p} (h : comparison? op = some p) (x y : BitVec n) :
      Computes op 1 [.ofBitVec x, .ofBitVec y] (BitVec.ofBool (p x y))
  | selection {w} (c : BitVec 1) (x y : BitVec w) :
      Computes .bcsel w [.ofBitVec c, .ofBitVec x, .ofBitVec y] (if c = 1 then x else y)
  | conversion {op f n w p} (member : op.family? = some f) (h : conversion? f = some p)
      (x : BitVec n) : Computes op w [.ofBitVec x] (p x)

end Integer

end Peephole

import Peephole.Width
import Peephole.Rule.Operation

/-!
# Slots

The nodes of patterns. A **slot** is a variable, which stands for any value that meets its
conditions; a constant; or an expression, an operation on other slots. Slots refer to each other,
and to predicates, by number; `Pattern` is what they stand for.
-/

namespace Peephole

/-! ### Width masks -/

/-- The widths that a variable accepts, one bit for each width class. -/
structure WidthMask where
  /-- The bits, lowest for the narrowest class. Bits beyond the classes accept nothing. -/
  bits : BitVec 8
  deriving DecidableEq, Repr

namespace WidthMask

/-- Every width. -/
def any : WidthMask := ⟨31⟩

/-- Just one width, and nothing for a width that is not supported. -/
def of (w : Nat) : WidthMask :=
  match WidthClass.ofBits? w with
  | some c => ⟨BitVec.twoPow 8 c.index⟩
  | none => ⟨0⟩

/-- Whether a mask has no bit at all. -/
def isEmpty (m : WidthMask) : Bool := m.bits == 0

/-- Whether a mask accepts a width. -/
def allows (m : WidthMask) (w : Nat) : Bool := m.bits &&& (of w).bits != 0

end WidthMask

/-! ### Slots -/

/-- A variable of a pattern. One number always stands for one value. -/
structure VariableSlot where
  /-- The number of the variable. -/
  index : Nat
  /-- The widths of values that it accepts. -/
  widths : WidthMask
  /-- Whether it accepts literals only. -/
  constantOnly : Bool
  /-- The type class of values that it accepts; values without a class are accepted as well. -/
  typeClass : Option TypeClass
  /-- The number of a predicate that values have to meet. -/
  predicate : Option Nat
  deriving DecidableEq, Repr

/-- How the bits of a constant are given. -/
inductive ConstantKind
  /-- As an integer. -/
  | int
  /-- As a number of binary64. -/
  | float
  /-- As a truth value, true for any bit set. -/
  | bool
  deriving DecidableEq, Repr

/-- A constant of a pattern. -/
structure ConstantSlot where
  /-- The declared width; without one, the width of whatever stands around the constant. -/
  width : Option Nat
  /-- How the bits are given. -/
  kind : ConstantKind
  /-- The bits. -/
  bits : Word
  deriving DecidableEq, Repr

/-- An expression of a pattern. -/
structure ExpressionSlot where
  /-- The operation, or family of operations. -/
  op : Operation
  /-- The declared width; without one, the width of whatever stands around the expression. -/
  width : Option Nat
  /-- The slots of the sources. -/
  args : List Nat
  /-- Whether the two sources match in either order. -/
  commutative : Bool
  /-- Whether instructions that are marked exact are left alone. -/
  inexact : Bool
  /-- Whether built instructions are marked exact. -/
  exact : Bool
  /-- The number of a predicate that instructions have to meet. -/
  predicate : Option Nat
  deriving DecidableEq, Repr

/-- A node of a pattern. -/
inductive Slot
  | var (v : VariableSlot)
  | const (c : ConstantSlot)
  | expr (e : ExpressionSlot)
  deriving DecidableEq, Repr

/-! ### Modifiers -/

/-- A change of a slot that its kind does not have. -/
inductive Slot.Misuse
  | notCommutative | notInexact | notExact | noPredicate | notConstantOnly | noTypeClass
  deriving DecidableEq, Repr

/-- The text of a misuse. -/
def Slot.Misuse.message : Slot.Misuse → String
  | notCommutative => "only expressions can be commutative"
  | notInexact => "only expressions can be inexact"
  | notExact => "only expressions can be exact"
  | noPredicate => "constants take no predicate"
  | notConstantOnly => "only variables can be constant-only"
  | noTypeClass => "only variables carry a type class"

namespace Slot

/-- Lets the sources of an expression match in either order. -/
def commutative : Slot → Except Misuse Slot
  | expr e => .ok (expr { e with commutative := true })
  | _ => .error .notCommutative

/-- Makes an expression leave exact instructions alone. -/
def inexact : Slot → Except Misuse Slot
  | expr e => .ok (expr { e with inexact := true })
  | _ => .error .notInexact

/-- Makes instructions built from an expression exact. -/
def exact : Slot → Except Misuse Slot
  | expr e => .ok (expr { e with exact := true })
  | _ => .error .notExact

/-- Puts a predicate on a variable or an expression. -/
def withPredicate (k : Nat) : Slot → Except Misuse Slot
  | var v => .ok (var { v with predicate := some k })
  | expr e => .ok (expr { e with predicate := some k })
  | const _ => .error .noPredicate

/-- Makes a variable accept literals only. -/
def constantOnly : Slot → Except Misuse Slot
  | var v => .ok (var { v with constantOnly := true })
  | _ => .error .notConstantOnly

/-- Restricts a variable to a type class. -/
def ofClass (c : TypeClass) : Slot → Except Misuse Slot
  | var v => .ok (var { v with typeClass := some c })
  | _ => .error .noTypeClass

end Slot

end Peephole

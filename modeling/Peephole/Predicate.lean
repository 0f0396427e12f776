import Peephole.Func.Basic

/-!
# Predicates

Conditions that a rule may put on the value that a variable stands for, or on the instruction that
an expression stands for. Conditions on literals read the literal at its own width.
-/

namespace Peephole

/-- A condition on a value of a function. -/
abbrev ValuePredicate := Func → ValueId → Bool

/-- A condition on an instruction of a function. -/
abbrev InstPredicate := Func → InstId → Bool

/-- Whether a natural number is a power of two. -/
def isPowerOfTwo (n : Nat) : Bool := n != 0 && twoPow n.log2 == n

/-! ### Conditions on values -/

namespace ValuePredicate

/-- A condition on literals, which no other value meets. -/
def onLiteral (p : Literal → Bool) : ValuePredicate := fun f v => (f.literal? v).any p

/-- Literals that are positive powers of two as signed integers. -/
def isPosPowerOfTwo : ValuePredicate :=
  onLiteral fun l => 0 < l.toInt && isPowerOfTwo l.toInt.natAbs

/-- Literals that are opposites of powers of two as signed integers. -/
def isNegPowerOfTwo : ValuePredicate :=
  onLiteral fun l => l.toInt < 0 && isPowerOfTwo l.toInt.natAbs

/-- Literals without a bit set. -/
def isZero : ValuePredicate := onLiteral fun l => l.bits == 0

/-- Literals with a bit set. -/
def isNotZero : ValuePredicate := onLiteral fun l => l.bits != 0

/-- Float literals without a fractional part. -/
def isIntegral : ValuePredicate := onLiteral fun l => l.datum?.any Datum.isIntegral

/-- Float literals that are numbers. -/
def isFinite : ValuePredicate := onLiteral fun l => l.datum?.any Datum.isFinite

/-- Values that are no literals. -/
def isNotConst : ValuePredicate := fun f v => !f.isLiteral v

/-- The conditions by name. -/
def named : List (String × ValuePredicate) :=
  [("is_pos_power_of_two", isPosPowerOfTwo), ("is_neg_power_of_two", isNegPowerOfTwo),
   ("is_zero", isZero), ("is_not_zero", isNotZero), ("is_integral", isIntegral),
   ("is_finite", isFinite), ("is_not_const", isNotConst)]

end ValuePredicate

/-! ### Conditions on instructions -/

namespace InstPredicate

/-- Instructions whose result has exactly one use. -/
def isUsedOnce : InstPredicate := fun f i =>
  (f.result? i).any fun v => (f.uses v).length == 1

/-- Instructions whose result has several uses. -/
def isUsedMoreThanOnce : InstPredicate := fun f i =>
  (f.result? i).any fun v => 1 < (f.uses v).length

/-- The conditions by name. -/
def named : List (String × InstPredicate) :=
  [("is_used_once", isUsedOnce), ("is_used_more_than_once", isUsedMoreThanOnce)]

end InstPredicate

end Peephole

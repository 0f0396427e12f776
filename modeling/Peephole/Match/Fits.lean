import Peephole.Match

/-!
# Fitting patterns

When a pattern fits a value, without regard to how a match is found.

A pattern is **placed** on a value when every expression sits on an instruction and every constant
on a literal, for some order of the sources of its commutative expressions. A placement says which
value every occurrence of a variable sits on. Bindings **fit** when they hold those values, and when
the first occurrence of every variable accepts its value.
-/

namespace Peephole

namespace Pattern

/-- An occurrence of a variable in a pattern, and the value that it sits on. -/
structure Occurrence where
  /-- The variable, as it stands there. -/
  slot : VariableSlot
  /-- The predicate on the value. -/
  guard : Option ValuePredicate
  /-- The value. -/
  value : ValueId

mutual

/-- Whether a pattern is placed on a value, with the occurrences of its variables from left to
right. Commutative expressions are counted from a given number in the order in which they stand, and
the ones whose number is swapped have their sources in the other order. -/
inductive Placed (f : Func) (swapped : Nat → Bool) :
    Nat → Pattern → ValueId → List Occurrence → Prop
  | var {n v guard x} : Placed f swapped n (.var v guard) x [⟨v, guard, x⟩]
  | const {n slot c x l} (literal : f.literal? x = some l) (equal : c.equals l) :
      Placed f swapped n (.const slot c) x []
  | expr {n slot e guard args x i d os} (definer : f.definer? x = some i)
      (inst : f.inst? i = some d) (accepted : e.accepts guard f i d)
      (sources : PlacedAll f swapped (if e.commutative then n + 1 else n) args
        (if e.commutative && swapped n then d.operands.reverse else d.operands) os) :
      Placed f swapped n (.expr slot e guard args) x os

/-- Whether patterns are placed on as many values. -/
inductive PlacedAll (f : Func) (swapped : Nat → Bool) :
    Nat → List Pattern → List ValueId → List Occurrence → Prop
  | nil {n} : PlacedAll f swapped n [] [] []
  | cons {n p ps x xs os os'} (first : Placed f swapped n p x os)
      (others : PlacedAll f swapped (n + p.commutativeCount) ps xs os') :
      PlacedAll f swapped n (p :: ps) (x :: xs) (os ++ os')

end

/-- Whether bindings fit a pattern on a value under an order of the sources, given the bindings from
before. -/
structure Fits (f : Func) (swapped : Nat → Bool) (p : Pattern) (x : ValueId)
    (given b : Bindings) (os : List Occurrence) : Prop where
  /-- The pattern is placed. -/
  placed : Placed f swapped 0 p x os
  /-- Given bindings are kept. -/
  kept : ∀ k v, given k = some v → b k = some v
  /-- Nothing else is bound but the variables of the pattern. -/
  bound : ∀ k, (b k).isSome ↔ (given k).isSome ∨ p.mentions k
  /-- One variable stands for one value. -/
  held : ∀ o ∈ os, b o.slot.index = some o.value
  /-- The first occurrence of a variable that was not bound before accepts its value. -/
  accepted : ∀ o, os.find? (·.slot.index == o.slot.index) = some o →
    given o.slot.index = none → o.slot.accepts o.guard f o.value

end Pattern

end Peephole

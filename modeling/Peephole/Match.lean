import Peephole.Func.Edit
import Peephole.Rule.Load

/-!
# Matching

A search pattern against the values of a function. A match binds every variable of the pattern to a
value; a variable that occurs several times is bound once, and its other occurrences have to meet
the same value.

Commutative expressions match their sources in either order. Which of them are swapped is decided in
advance by a number, the **swap mask**: expressions are counted in the order in which they are
visited, and the `k`-th one is swapped when bit `k` is set. `Pattern.search` tries one mask after
another, so that a mismatch deep in the pattern can be mended by swapping an expression visited long
before.
-/

namespace Peephole

/-! ### Bindings -/

/-- The values that variables are bound to. -/
def Bindings : Type := Nat → Option ValueId

namespace Bindings

/-- No variable is bound. -/
def empty : Bindings := fun _ => none

/-- Binds a variable to a value. -/
def set (b : Bindings) (index : Nat) (v : ValueId) : Bindings :=
  fun k => if k = index then some v else b k

/-- Binds a variable, which must be within the capacity. -/
def bind (b : Bindings) (index : Nat) (v : ValueId) : Except Fault Bindings :=
  if index < maxVariables then .ok (b.set index v) else .error .outOfBounds

/-- The bound variables within the capacity, in order. -/
def toList (b : Bindings) : List (Nat × ValueId) :=
  (List.range maxVariables).filterMap fun k => (b k).map (k, ·)

end Bindings

/-! ### One walk -/

/-- The state of a walk through a pattern: the number of commutative expressions visited so far, and
the bindings. -/
structure Walk where
  /-- The number of commutative expressions visited so far. -/
  visited : Nat
  /-- The bindings so far. -/
  bindings : Bindings

/-- Whether an unbound variable accepts a value. -/
def VariableSlot.accepts (v : VariableSlot) (guard : Option ValuePredicate) (f : Func)
    (x : ValueId) : Bool :=
  v.widths.allows (f.width x) &&
    (!v.constantOnly || f.isLiteral x) &&
    (match v.typeClass, f.typeClass? x with
      | some c, some found => found == c
      | _, _ => true) &&
    guard.all fun p => p f x

/-- Whether a constant equals a literal. -/
def ConstantSlot.equals (c : ConstantSlot) (l : Literal) : Bool :=
  c.width.all (· == l.width) &&
    match c.kind with
    | .int => l.bits == c.bits &&& mask l.width
    | .float =>
      match encodeFloat (binary64.decode c.bits.toNat) l.width with
      | .ok bits => bits == l.bits
      | .error _ => false
    | .bool => l.toBool == (c.bits != 0)

/-- Whether an expression accepts an instruction, its operands aside. -/
def ExpressionSlot.accepts (e : ExpressionSlot) (guard : Option InstPredicate) (f : Func)
    (i : InstId) (d : Inst) : Bool :=
  e.op.covers d.opcode &&
    e.width.all (· == d.width) &&
    !(e.inexact && d.exact) &&
    guard.all fun p => p f i

namespace Pattern

mutual

/-- Matches a pattern against a value under a swap mask. -/
def walk (f : Func) (swaps : Nat) : Pattern → ValueId → Walk → Option Walk
  | var v guard, x, w =>
    match w.bindings v.index with
    | some bound => if bound = x then some w else none
    | none =>
      if v.accepts guard f x then some { w with bindings := w.bindings.set v.index x } else none
  | const _ c, x, w => if (f.literal? x).any c.equals then some w else none
  | expr _ e guard args, x, w =>
    match (f.definer? x).bind fun i => (f.inst? i).map (i, ·) with
    | none => none
    | some (i, d) =>
      if !e.accepts guard f i d then none
      else if e.commutative then
        let sources := if swaps.testBit w.visited then d.operands.reverse else d.operands
        walkAll f swaps args sources { w with visited := w.visited + 1 }
      else walkAll f swaps args d.operands w

/-- Matches patterns against as many values, from left to right. -/
def walkAll (f : Func) (swaps : Nat) : List Pattern → List ValueId → Walk → Option Walk
  | [], [], w => some w
  | p :: ps, x :: xs, w => (walk f swaps p x w).bind fun w => walkAll f swaps ps xs w
  | _, _, _ => none

end

/-! ### The search for a swap mask -/

/-- The first of a number of consecutive masks for which there is a result. -/
def firstMask (result : Nat → Option α) : Nat → Nat → Option α
  | 0, _ => none
  | n + 1, mask =>
    match result mask with
    | some a => some a
    | none => firstMask result n (mask + 1)

/-- Matches a pattern with a number of commutative expressions against a value: the bindings of the
smallest swap mask under which it matches. -/
def search (f : Func) (p : Pattern) (commutative : Nat) (x : ValueId) (b : Bindings) :
    Option Bindings :=
  firstMask (fun swaps => (p.walk f swaps x ⟨0, b⟩).map (·.bindings)) (twoPow commutative) 0

/-- Whether a match looks at the value itself. A bound variable only compares references. -/
def inspects (b : Bindings) : Pattern → Bool
  | var v _ => (b v.index).isNone
  | _ => true

/-- Matches a pattern against a value, starting from given bindings. A value that is looked at must
exist. -/
def matchValue (f : Func) (p : Pattern) (x : ValueId) (b : Bindings) :
    Except Fault (Option Bindings) := do
  if p.inspects b then discard <| f.requireValue x
  return p.search f p.commutativeCount x b

end Pattern

/-- Matches the search pattern of a rule against the result of an instruction. -/
def Rule.matchInst (f : Func) (r : Rule) (i : InstId) : Option Bindings :=
  (f.result? i).bind fun x => r.search.search f r.commutative x .empty

/-- Matches the search pattern of a transform of a rule set against the result of an instruction,
both of which must exist. An instruction without a result matches nothing. -/
def RuleSet.matchTransform (rs : RuleSet) (f : Func) (transform : Nat) (i : InstId) :
    Except Fault (Option Bindings) := do
  let d ← f.requireInst i
  if d.result.isNone then return none
  let some r := rs.rules[transform]? | throw .outOfBounds
  return r.matchInst f i

end Peephole

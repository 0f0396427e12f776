import Peephole.Rule.Operation

/-!
# Errors of rule tables

The ways in which a rule table breaks the invariants that matching and building rely on.
-/

namespace Peephole

/-- What is wrong with a rule table. -/
inductive TableError.Cause
  /-- A source that does not come before the expression that uses it. -/
  | childOrder (slot child : Nat)
  /-- An expression with a wrong number of sources. -/
  | arity (slot : Nat) (op : Operation) (expected found : Nat)
  /-- A width that is not supported where it stands. -/
  | width (slot bits : Nat)
  /-- A width that the operation cannot produce. -/
  | noSuchWidth (slot : Nat) (op : Operation) (bits : Nat)
  /-- A variable with too large a number. -/
  | variableIndex (slot index : Nat)
  /-- A variable that accepts no width. -/
  | emptyWidthMask (slot : Nat)
  /-- A predicate that does not exist. -/
  | predicate (slot index : Nat)
  /-- A commutative expression without exactly two sources. -/
  | commutative (slot arity : Nat)
  /-- A rule with a slot that does not exist. -/
  | slotIndex (transform slot : Nat)
  /-- A rule that searches for something other than an expression with a result. -/
  | searchRoot (transform slot : Nat)
  /-- A rule with a condition that does not exist. -/
  | condition (transform condition : Nat)
  /-- A rule whose replacement uses a variable that its search does not bind. -/
  | unboundVariable (transform index : Nat)
  /-- A rule whose replacement has a slot without a width. -/
  | unknownWidth (transform slot : Nat)
  /-- A rule whose search has too many commutative expressions. -/
  | tooManyCommutative (transform count limit : Nat)
  /-- A first state with transforms. -/
  | nonEmptyStateZero
  /-- A run beyond the last transform. -/
  | runBounds (state stop length : Nat)
  /-- A key with two dispatch entries. -/
  | duplicateKey (key : Operation)
  /-- A state that does not exist. -/
  | stateIndex (key : Operation) (state : Nat)
  /-- A compact index that does not exist. -/
  | filterIndex (key : Operation) (index : Nat)
  /-- A dispatch entry without a filter and without exactly one state. -/
  | unfilteredTable (key : Operation) (length : Nat)
  /-- A rule that is tried under a key that is not its own. -/
  | misroutedTransform (key : Operation) (transform : Nat) (root : Operation)
  /-- A rule that is tried at a width that it never matches. -/
  | crossWidth (key : Operation) (transform expected bits : Nat)
  deriving DecidableEq, Repr

/-- The text of a cause. -/
def TableError.Cause.message : TableError.Cause → String
  | childOrder slot child => s!"slot {slot}: child {child} does not precede it"
  | arity slot op expected found =>
    s!"slot {slot}: `{op.name}` takes {expected} source(s), the pattern has {found}"
  | width slot bits => s!"slot {slot}: unsupported width {bits}"
  | noSuchWidth slot op bits => s!"slot {slot}: `{op.name}` has no {bits}-bit form"
  | variableIndex slot index =>
    s!"slot {slot}: variable index {index} exceeds the binding capacity"
  | emptyWidthMask slot => s!"slot {slot}: variable accepts no width"
  | predicate slot index => s!"slot {slot}: predicate {index} out of range"
  | commutative slot found => s!"slot {slot}: commutative flag on a {found}-source operation"
  | slotIndex t slot => s!"transform {t}: slot {slot} out of range"
  | searchRoot t slot =>
    s!"transform {t}: search root {slot} is not an expression with a result"
  | condition t k => s!"transform {t}: condition {k} out of range"
  | unboundVariable t index =>
    s!"transform {t}: replacement uses variable {index} the search never binds"
  | unknownWidth t slot => s!"transform {t}: replacement slot {slot} has no width to build at"
  | tooManyCommutative t count limit =>
    s!"transform {t}: {count} commutative nodes, at most {limit} supported"
  | nonEmptyStateZero => "state 0 must be the empty run"
  | runBounds state stop length => s!"run {state} ends at {stop}, past {length} transforms"
  | duplicateKey key => s!"dispatch key `{key.name}` appears twice"
  | stateIndex key state => s!"dispatch `{key.name}`: state {state} out of range"
  | filterIndex key index => s!"dispatch `{key.name}`: filter index {index} out of range"
  | unfilteredTable key length =>
    s!"dispatch `{key.name}`: an unfiltered table needs exactly one state, found {length}"
  | misroutedTransform key t root =>
    s!"dispatch `{key.name}`: transform {t} is rooted at `{root.name}`"
  | crossWidth key t expected bits =>
    s!"dispatch `{key.name}`: transform {t} matches {expected}-bit roots but is routed " ++
      s!"{bits}-bit instructions"

/-- An error of a rule table: the name of the table, and what is wrong with it. -/
structure TableError where
  /-- The name of the table. -/
  table : String
  /-- What is wrong. -/
  cause : TableError.Cause
  deriving DecidableEq, Repr

/-- The text of an error. -/
def TableError.message (e : TableError) : String := s!"rule table `{e.table}`: {e.cause.message}"

end Peephole

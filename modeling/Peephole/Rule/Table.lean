import Peephole.Predicate
import Peephole.Rule.Slot

/-!
# Rule tables

A **rule table** is the flat form of a list of rules `search => replace`, as a generator emits it.

* `slots` holds every node of every pattern; sources come before the expressions that use them.
* `transforms` holds the rules, grouped so that every dispatch state owns one run of them.
* `runs` holds the run of each state. State 0 is the empty run.
* `dispatch` leads from an operation and a width to a state: an optional filter takes the width
  class to a compact index, and a table takes the compact index to a state.

Nothing in a table is checked; `RuleSet.load` does that.
-/

namespace Peephole

/-- A rule: the slots of its two patterns, and the condition under which it is tried. -/
structure Transform where
  /-- The slot of the pattern that is searched for. -/
  search : Nat
  /-- The slot of the pattern that is built instead. -/
  replace : Nat
  /-- The number of a condition flag that has to be on; without one, the rule is always tried. -/
  condition : Option Nat
  deriving DecidableEq, Repr

/-- A run of consecutive transforms. -/
structure Run where
  /-- The number of the first transform. -/
  offset : Nat
  /-- How many transforms there are. -/
  length : Nat
  deriving DecidableEq, Repr

namespace Run

/-- The run of no transforms. -/
def empty : Run := ⟨0, 0⟩

/-- The number after the last transform of a run. -/
def stop (r : Run) : Nat := r.offset + r.length

/-- The numbers of the transforms of a run, in order. -/
def indices (r : Run) : List Nat := List.range' r.offset r.length

end Run

/-- The dispatch of one operation key. -/
structure Dispatch where
  /-- The key. -/
  key : Operation
  /-- The compact index of each width class; without a filter, it is 0 for every width. -/
  filter : Option (Vector Nat 5)
  /-- The state of each compact index. -/
  states : List Nat
  deriving DecidableEq, Repr

/-- A rule table. -/
structure RuleTable where
  /-- The name of the table. -/
  name : String
  /-- The nodes of all patterns. -/
  slots : Array Slot
  /-- The rules. -/
  transforms : Array Transform
  /-- The run of each dispatch state. -/
  runs : Array Run
  /-- The dispatch of each operation key that has rules. -/
  dispatch : List Dispatch
  /-- The names of the condition flags. -/
  conditions : List String
  /-- The predicates that variables refer to. -/
  valuePredicates : Array ValuePredicate
  /-- The predicates that expressions refer to. -/
  instPredicates : Array InstPredicate

end Peephole

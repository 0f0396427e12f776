import Peephole.Rule.Load

/-!
# Rules as terms

A rule written down is a pair of **terms**. `RuleTable.ofRules` lays a list of such rules out as a
rule table.

* Slots are numbered in the order in which the terms are read, sources before expressions, and equal
  slots share a number.
* Rules whose search patterns have one dispatch key and one width form a **state**. States stand in
  the order in which the list reaches them, and within a state the rules keep their order.
* Each dispatch entry has a filter, which leads the widths without a state to the empty run.
-/

namespace Peephole

/-! ### Terms -/

/-- A pattern as it is written. -/
inductive Term
  | var (v : VariableSlot)
  | const (c : ConstantSlot)
  | apply (op : Operation) (width : Nat) (commutative : Bool) (args : List Term)

namespace Term

/-- Any value of given widths, by the number of a variable. -/
def value (index : Nat) (widths : WidthMask) : Term := .var ⟨index, widths, false, none, none⟩

/-- An integer of a width. -/
def int (width : Nat) (bits : Word) : Term := .const ⟨some width, .int, bits⟩

/-- A whole number as a floating-point constant of a width. -/
def float (width : Nat) (n : Int) : Term :=
  .const ⟨some width, .float, BitVec.ofNat 64 (binary64.encode .nearestEven (.ofInt n))⟩

/-- An operation whose sources match in the order in which they are written. -/
def op (o : Opcode) (width : Nat) (args : List Term) : Term := .apply (.single o) width false args

/-- An operation whose sources match in either order. -/
def commuting (o : Opcode) (width : Nat) (args : List Term) : Term :=
  .apply (.single o) width true args

/-- The conversion of a family to a width. -/
def convert (f : Family) (width : Nat) (x : Term) : Term :=
  .apply ((f.withWidth? width).elim (.family f) .single) width false [x]

end Term

/-- A rule as it is written. -/
structure TermRule where
  /-- The pattern that is searched for. -/
  search : Term
  /-- The pattern that is built instead. -/
  replace : Term

/-! ### Slots -/

/-- The number of a slot among others, which are given last first and which it joins if it is new. A
slot is numbered by how many come before it. -/
def Slot.intern (slots : List Slot) (s : Slot) : Nat × List Slot :=
  match slots.dropWhile (· ≠ s) with
  | _ :: earlier => (earlier.length, slots)
  | [] => (slots.length, s :: slots)

namespace Term

mutual

/-- The number of the slot of a term, and the slots with those of the term. -/
def intern (slots : List Slot) : Term → Nat × List Slot
  | var v => (Slot.var v).intern slots
  | const c => (Slot.const c).intern slots
  | apply op width commutative args =>
    let (children, slots) := internAll slots args
    (Slot.expr ⟨op, some width, children, commutative, false, false, none⟩).intern slots

/-- The numbers of the slots of a list of terms, and the slots with those of the terms. -/
def internAll (slots : List Slot) : List Term → List Nat × List Slot
  | [] => ([], slots)
  | t :: ts =>
    let (k, slots) := intern slots t
    let (ks, slots) := internAll slots ts
    (k :: ks, slots)

end

/-- The dispatch key and the width of what a term matches; none but an expression has them. -/
def state? : Term → Option (Operation × Nat)
  | apply op width _ _ => some (op.dispatchKey, width)
  | _ => none

end Term

/-! ### Tables -/

namespace RuleTable

/-- The slots of a list of rules, and the transform of each rule with its state. -/
def internRules (slots : List Slot) :
    List TermRule → List (Option (Operation × Nat) × Transform) × List Slot
  | [] => ([], slots)
  | r :: rs =>
    let (search, slots) := r.search.intern slots
    let (replace, slots) := r.replace.intern slots
    let (rest, slots) := internRules slots rs
    ((r.search.state?, ⟨search, replace, none⟩) :: rest, slots)

/-- Runs of given lengths, one after another. -/
def consecutive (offset : Nat) : List Nat → List Run
  | [] => []
  | n :: ns => ⟨offset, n⟩ :: consecutive (offset + n) ns

/-- The dispatch entry of a key, given all states. The compact index of a width with a state is the
position of the width among those, counted from 1. -/
def dispatchOf (states : List (Option (Operation × Nat))) (key : Operation) : Dispatch :=
  let classes := WidthClass.all.filter fun c => states.contains (some (key, c.bits))
  { key := key
    filter := some ((Vector.ofFn fun k => WidthClass.all[k]).map fun c =>
      if classes.contains c then classes.idxOf c + 1 else 0)
    states := 0 :: classes.map fun c => states.idxOf (some (key, c.bits)) + 1 }

/-- The table of a list of rules. -/
def ofRules (name : String) (rules : List TermRule) : RuleTable :=
  let (transforms, slots) := internRules [] rules
  let states := (transforms.map (·.1)).eraseDups
  let groups := states.map fun s => (transforms.filter (·.1 == s)).map (·.2)
  let keys := (states.filterMap fun s => s.map (·.1)).eraseDups
  { name := name
    slots := slots.reverse.toArray
    transforms := groups.flatten.toArray
    runs := (.empty :: consecutive 0 (groups.map (·.length))).toArray
    dispatch := keys.map (dispatchOf states)
    conditions := []
    valuePredicates := #[]
    instPredicates := #[] }

end RuleTable

end Peephole

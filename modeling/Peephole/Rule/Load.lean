import Peephole.Rule.Error
import Peephole.Rule.Pattern
import Peephole.Text.Quoted

/-!
# Rule sets

A **rule set** is a rule table that has been checked, with its patterns resolved. `RuleSet.load`
checks, in this order, every slot, every transform, the runs, and every dispatch entry, and reports
the first thing that is wrong.
-/

namespace Peephole

/-- The number of variables that a pattern may have. -/
def maxVariables : Nat := 16

/-- The number of commutative expressions that a search pattern may have. -/
def maxCommutative : Nat := 8

/-- A rule with its patterns. -/
structure Rule where
  /-- The pattern that is searched for. -/
  search : Pattern
  /-- The pattern that is built instead. -/
  replace : Pattern
  /-- The number of the condition flag that has to be on, if there is one. -/
  condition : Option Nat
  /-- The number of commutative expressions in the search pattern. -/
  commutative : Nat

/-- A checked rule table. -/
structure RuleSet where
  /-- The table. -/
  table : RuleTable
  /-- The pattern of each slot. -/
  patterns : Array Pattern
  /-- The rule of each transform. -/
  rules : Array Rule

namespace RuleTable

/-- What a check yields: a result, or what is wrong. -/
abbrev Checked (α : Type) := Except TableError.Cause α

/-! ### Slots -/

/-- Checks a declared width. -/
def checkWidth (slot : Nat) : Option Nat → Checked Unit
  | some bits => if supported bits then .ok () else .error (.width slot bits)
  | none => .ok ()

/-- Checks that a predicate exists among a number of them. -/
def checkPredicate (slot count : Nat) : Option Nat → Checked Unit
  | some index => if index < count then .ok () else .error (.predicate slot index)
  | none => .ok ()

/-- Checks a slot. -/
def checkSlot (t : RuleTable) (slot : Nat) : Slot → Checked Unit
  | .var v => do
    unless v.index < maxVariables do throw (.variableIndex slot v.index)
    if v.widths.isEmpty then throw (.emptyWidthMask slot)
    checkPredicate slot t.valuePredicates.size v.predicate
  | .const c => do
    checkWidth slot c.width
    match c.kind, c.width with
    | .float, some bits => unless isFloatWidth bits do throw (.width slot bits)
    | _, _ => return ()
  | .expr e => do
    checkWidth slot e.width
    match e.width with
    | some bits => if (e.op.withWidth? bits).isNone then throw (.noSuchWidth slot e.op bits)
    | none => pure ()
    unless e.args.length = e.op.arity do
      throw (.arity slot e.op e.op.arity e.args.length)
    match e.args.find? (slot ≤ ·) with
    | some child => throw (.childOrder slot child)
    | none => pure ()
    if e.commutative && e.args.length != 2 then throw (.commutative slot e.args.length)
    checkPredicate slot t.instPredicates.size e.predicate

/-- Checks every slot. -/
def checkSlots (t : RuleTable) : Checked Unit :=
  t.slots.toList.zipIdx.forM fun (s, k) => t.checkSlot k s

/-! ### Transforms -/

/-- The lowest variable that a replacement uses and a search does not bind. -/
def unbound? (search replace : Pattern) : Option Nat :=
  (List.range maxVariables).find? fun k => replace.mentions k && !search.mentions k

/-- Checks a transform, and yields its rule. -/
def checkTransform (t : RuleTable) (patterns : Array Pattern) (k : Nat) (r : Transform) :
    Checked Rule := do
  let some search := patterns[r.search]? | throw (.slotIndex k r.search)
  let some replace := patterns[r.replace]? | throw (.slotIndex k r.replace)
  match search.root? with
  | some (op, _) => if op.fixedWidth = some 0 then throw (.searchRoot k r.search)
  | none => throw (.searchRoot k r.search)
  match r.condition with
  | some c => unless c < t.conditions.length do throw (.condition k c)
  | none => pure ()
  match unbound? search replace with
  | some index => throw (.unboundVariable k index)
  | none => pure ()
  match replace.unsized? true with
  | some slot => throw (.unknownWidth k slot)
  | none => pure ()
  let count := search.commutativeCount
  if maxCommutative < count then throw (.tooManyCommutative k count maxCommutative)
  return ⟨search, replace, r.condition, count⟩

/-- Checks every transform. -/
def checkTransforms (t : RuleTable) (patterns : Array Pattern) : Checked (List Rule) :=
  t.transforms.toList.zipIdx.mapM fun (r, k) => t.checkTransform patterns k r

/-! ### Dispatch -/

/-- Checks that the first run is empty, and that no run goes beyond the transforms. -/
def checkRuns (t : RuleTable) : Checked Unit := do
  unless t.runs[0]? = some .empty do throw .nonEmptyStateZero
  t.runs.toList.zipIdx.forM fun (r, k) =>
    if t.transforms.size < r.stop then throw (.runBounds k r.stop t.transforms.size) else .ok ()

/-- Checks that a rule is tried under its own key. -/
def checkRouted (rules : Array Rule) (key : Operation) (k : Nat) : Checked Unit :=
  match rules[k]?.bind (·.search.root?) with
  | some (root, _) =>
    if root.dispatchKey = key then .ok () else .error (.misroutedTransform key k root)
  | none => .ok ()

/-- Checks that a rule is not tried at a width that it never matches. -/
def checkWidthRouted (rules : Array Rule) (key : Operation) (c : WidthClass) (k : Nat) :
    Checked Unit :=
  match rules[k]?.bind (·.search.root?) with
  | some (_, some expected) =>
    if expected = c.bits then .ok () else .error (.crossWidth key k expected c.bits)
  | _ => .ok ()

/-- Checks the filter of a dispatch entry against the number of its states. -/
def checkFilter (d : Dispatch) : Checked Unit :=
  match d.filter with
  | none =>
    if d.states.length = 1 then .ok () else .error (.unfilteredTable d.key d.states.length)
  | some filter =>
    match filter.toList.find? (d.states.length ≤ ·) with
    | some index => .error (.filterIndex d.key index)
    | none => .ok ()

/-- The run of a state; a state that does not exist has none. -/
def run (t : RuleTable) (state : Nat) : Run := t.runs[state]?.getD .empty

/-- The run of a compact index of a dispatch entry. -/
def runAt (t : RuleTable) (d : Dispatch) (compact : Nat) : Run :=
  (d.states[compact]?).elim .empty t.run

/-- Checks a dispatch entry, given the keys of the entries before it. -/
def checkDispatch (t : RuleTable) (rules : Array Rule) (seen : List Operation) (d : Dispatch) :
    Checked Unit := do
  if seen.contains d.key then throw (.duplicateKey d.key)
  checkFilter d
  d.states.forM fun state => do
    unless state < t.runs.size do throw (.stateIndex d.key state)
    (t.run state).indices.forM (checkRouted rules d.key)
  match d.filter with
  | some filter =>
    WidthClass.all.forM fun c =>
      (t.runAt d (filter.get c.index)).indices.forM (checkWidthRouted rules d.key c)
  | none => pure ()

/-- Checks dispatch entries in order, given the keys of the entries before them. -/
def checkDispatches (t : RuleTable) (rules : Array Rule) (seen : List Operation) :
    List Dispatch → Checked Unit
  | [] => .ok ()
  | d :: ds => do
    t.checkDispatch rules seen d
    t.checkDispatches rules (d.key :: seen) ds

/-- Checks everything. -/
def check (t : RuleTable) : Checked RuleSet := do
  t.checkSlots
  let patterns := Pattern.ofTable t
  let rules := (← t.checkTransforms patterns).toArray
  t.checkRuns
  t.checkDispatches rules [] t.dispatch
  return ⟨t, patterns, rules⟩

end RuleTable

namespace RuleSet

/-- Checks a table, and resolves its patterns. -/
def load (t : RuleTable) : Except TableError RuleSet := t.check.mapError (⟨t.name, ·⟩)

/-- The name of a rule set. -/
def name (rs : RuleSet) : String := rs.table.name

/-- The node of a slot. -/
def slot (rs : RuleSet) (k : Nat) : Except Fault Slot :=
  rs.table.slots[k]?.elim (.error .outOfBounds) .ok

/-- The slots and the condition of a transform. -/
def transform (rs : RuleSet) (k : Nat) : Except Fault Transform :=
  rs.table.transforms[k]?.elim (.error .outOfBounds) .ok

/-- A summary of a rule set: its name, and the numbers of its slots and its transforms. -/
def summary (rs : RuleSet) : String :=
  "RuleSet \x7b name: " ++ quoted rs.name ++ ", values: " ++
    Numeral.decimal rs.table.slots.size ++ ", transforms: " ++
    Numeral.decimal rs.table.transforms.size ++ " \x7d"

/-- The pattern of a slot. -/
def pattern (rs : RuleSet) (slot : Nat) : Except Fault Pattern :=
  rs.patterns[slot]?.elim (.error .outOfBounds) .ok

/-- The number of a condition, by name. -/
def conditionIndex? (rs : RuleSet) (name : String) : Option Nat :=
  rs.table.conditions.findIdx? (· == name)

/-- The run of transforms to try for an instruction of an operation and a width; empty where the
dispatch has no state for it. -/
def candidates (rs : RuleSet) (op : Opcode) (width : Nat) : Run :=
  match rs.table.dispatch.find? (·.key = .ofOpcode op) with
  | none => .empty
  | some d =>
    match d.filter, WidthClass.ofBits? width with
    | none, _ => rs.table.runAt d 0
    | some filter, some c => rs.table.runAt d (filter.get c.index)
    | some _, none => .empty

end RuleSet

end Peephole

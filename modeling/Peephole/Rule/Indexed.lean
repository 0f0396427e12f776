import Peephole.Rule.Load

/-!
# Rule sets by number

The checks of `RuleSet.load`, carried out on the flat table. Slots, transforms, runs and states are
looked up by their numbers at the place where they are needed, the variables of a pattern are the
bits of a word, and commutative expressions are counted in a word. Nothing asks twice whether a
number is in range: a look-up that finds nothing **crashes**, and so do a branch that no table is
meant to reach and a shift beyond the word. What happens to a sum that leaves its word is a
parameter, `Counting`.

The dispatch entries are laid out by the positions of their keys, `RuleIndex`, so that the run of an
operation and a width is found in four look-ups.
-/

namespace Peephole

/-! ### Crashes -/

/-- What stops a computation that nothing guards. -/
inductive Crash
  /-- A number that nothing stands under. -/
  | outOfRange
  /-- A branch that the checks before it are meant to rule out. -/
  | unreachable
  /-- A shift by the width of the word, or more. -/
  | shiftOverflow
  /-- A sum that does not fit into its word. -/
  | sumOverflow
  deriving DecidableEq, Repr

/-- What ends the loading of a table early. -/
inductive Halt
  /-- Something is wrong with the table. -/
  | rejected (cause : TableError.Cause)
  /-- Loading crashes. -/
  | crashed (crash : Crash)
  deriving DecidableEq, Repr

/-- What a look-up has found. -/
def found (o : Option α) : Except Crash α := o.elim (.error .outOfRange) .ok

/-- Lets a computation crash the loading that it is a part of. -/
def Halt.guard (x : Except Crash α) : Except Halt α := x.mapError .crashed

/-- Lets a check reject the table. -/
def Halt.checked (x : RuleTable.Checked α) : Except Halt α := x.mapError .rejected

/-! ### Counting -/

/-- The number of bits of a count, and of a set of variables. -/
def countBits : Nat := 32

/-- What becomes of a sum that does not fit into its word. -/
inductive Counting
  /-- Words have no limit, and everything fits. -/
  | exact
  /-- It crashes. -/
  | trapping
  /-- Its low bits are kept. -/
  | wrapping
  deriving DecidableEq, Repr

/-- What a number comes to as a word. -/
def Counting.keep : Counting → Nat → Except Crash Nat
  | exact, n => .ok n
  | trapping, n => if n < twoPow countBits then .ok n else .error .sumOverflow
  | wrapping, n => .ok (n % twoPow countBits)

/-- The sum of two words. -/
def Counting.add (c : Counting) (m n : Nat) : Except Crash Nat := c.keep (m + n)

namespace RuleTable

/-! ### Analyses of slots -/

/-- What is known of every slot of a table, when what is known of a slot follows from what is known
of its sources. Every slot is visited once, after those before it. -/
def analyse (missing : β) (visit : (Nat → β) → Nat → Slot → β) (t : RuleTable) : Array β :=
  t.slots.foldl
    (fun earlier s => earlier.push (visit (fun k => earlier[k]?.getD missing) earlier.size s)) #[]

/-- Counts the commutative expressions of a slot, given the counts of its sources. -/
def countVisit (c : Counting) (below : Nat → Except Crash Nat) : Nat → Slot → Except Crash Nat
  | _, .expr e => do
    let sum ← e.args.foldlM (fun sum k => do c.add sum (← below k)) 0
    c.add (if e.commutative then 1 else 0) sum
  | _, _ => .ok 0

/-- The number of commutative expressions of every slot, counted once for each occurrence. -/
def counts (t : RuleTable) (c : Counting) : Array (Except Crash Nat) :=
  t.analyse (.error .outOfRange) (countVisit c)

/-- Collects the variables of a slot, given those of its sources. -/
def variableVisit (below : Nat → Except Crash (BitVec countBits)) :
    Nat → Slot → Except Crash (BitVec countBits)
  | _, .var v =>
    if v.index < countBits then .ok (BitVec.twoPow countBits v.index) else .error .shiftOverflow
  | _, .expr e => e.args.foldlM (fun seen k => do return seen ||| (← below k)) 0
  | _, .const _ => .ok 0

/-- The variables of every slot, one bit for each. -/
def variableSets (t : RuleTable) : Array (Except Crash (BitVec countBits)) :=
  t.analyse (.error .outOfRange) variableVisit

/-- Looks for a slot without a width among the sources of an expression; the flag tells whether a
paired source has come before. -/
def unsizedSources (below : Nat → Bool → Except Crash (Option Nat)) (paired : Bool) :
    List Nat → List SourceWidth → Except Crash (Option Nat)
  | k :: ks, w :: ws => do
    match ← below k (Pattern.isSized paired w) with
    | some slot => return some slot
    | none => unsizedSources below (paired || w == .paired) ks ws
  | _, _ => .ok none

/-- Looks for a slot without a width below a slot; the flag tells whether something around it gives
it one. -/
def unsizedVisit (below : Nat → Bool → Except Crash (Option Nat)) (slot : Nat) :
    Slot → Bool → Except Crash (Option Nat)
  | .var _, _ => .ok none
  | .const c, inherited => .ok (if c.width.isNone && !inherited then some slot else none)
  | .expr e, inherited =>
    if (e.width <|> e.op.fixedWidth).isNone && !inherited then .ok (some slot)
    else unsizedSources below false e.args e.op.sourceWidths

/-- The first slot without a width below every slot, as the flag tells. -/
def unsizedSlots (t : RuleTable) : Array (Bool → Except Crash (Option Nat)) :=
  t.analyse (fun _ => .error .outOfRange) unsizedVisit

/-- What is known of the slots of a table. -/
structure Survey where
  /-- The pattern of every slot. -/
  patterns : Array Pattern
  /-- The variables of every slot. -/
  variableSets : Array (Except Crash (BitVec countBits))
  /-- The first slot without a width below every slot. -/
  unsized : Array (Bool → Except Crash (Option Nat))
  /-- The number of commutative expressions of every slot. -/
  counts : Array (Except Crash Nat)

/-- Visits the slots of a table. -/
def survey (t : RuleTable) (c : Counting) : Survey :=
  ⟨Pattern.ofTable t, t.variableSets, t.unsizedSlots, t.counts c⟩

/-! ### Transforms -/

/-- The position of the lowest bit that is set. -/
def lowestBit? (w : BitVec countBits) : Option Nat := (List.range countBits).find? (w.getLsbD ·)

/-- Checks a transform, all but its count, and yields its patterns. -/
def resolveAt (t : RuleTable) (s : Survey) (k : Nat) (r : Transform) :
    Except Halt (Pattern × Pattern) := do
  unless r.search < t.slots.size do throw (.rejected (.slotIndex k r.search))
  unless r.replace < t.slots.size do throw (.rejected (.slotIndex k r.replace))
  match ← Halt.guard (found t.slots[r.search]?) with
  | .expr e => if e.op.fixedWidth = some 0 then throw (.rejected (.searchRoot k r.search))
  | _ => throw (.rejected (.searchRoot k r.search))
  match r.condition with
  | some n => unless n < t.conditions.length do throw (.rejected (.condition k n))
  | none => pure ()
  let bound ← Halt.guard ((found s.variableSets[r.search]?) >>= id)
  let used ← Halt.guard ((found s.variableSets[r.replace]?) >>= id)
  match lowestBit? (used &&& ~~~bound) with
  | some index => throw (.rejected (.unboundVariable k index))
  | none => pure ()
  match ← Halt.guard ((found s.unsized[r.replace]?) >>= (· true)) with
  | some slot => throw (.rejected (.unknownWidth k slot))
  | none => pure ()
  let search ← Halt.guard (found s.patterns[r.search]?)
  let replace ← Halt.guard (found s.patterns[r.replace]?)
  return (search, replace)

/-- Checks a transform, and yields its rule. -/
def checkTransformAt (t : RuleTable) (s : Survey) (k : Nat) (r : Transform) :
    Except Halt Rule := do
  let (search, replace) ← t.resolveAt s k r
  let count ← Halt.guard ((found s.counts[r.search]?) >>= id)
  if maxCommutative < count then
    throw (.rejected (.tooManyCommutative k count maxCommutative))
  return ⟨search, replace, r.condition, count⟩

/-! ### Dispatch -/

/-- The operation at the root of what a transform searches for, and the width of what it matches, as
far as it is known. -/
def rootAt (t : RuleTable) (k : Nat) : Except Crash (Operation × Option Nat) := do
  let r ← found t.transforms[k]?
  match ← found t.slots[r.search]? with
  | .expr e => return (e.op, e.width <|> e.op.fixedWidth)
  | _ => throw .unreachable

/-- Checks that a transform is tried under its own key. -/
def checkRoutedAt (t : RuleTable) (key : Operation) (k : Nat) : Except Halt Unit := do
  let (root, _) ← Halt.guard (t.rootAt k)
  unless root.dispatchKey = key do throw (.rejected (.misroutedTransform key k root))

/-- Checks that a transform is not tried at a width that it never matches. -/
def checkWidthRoutedAt (t : RuleTable) (key : Operation) (c : WidthClass) (k : Nat) :
    Except Halt Unit := do
  match ← Halt.guard (t.rootAt k) with
  | (_, some expected) =>
    unless expected = c.bits do throw (.rejected (.crossWidth key k expected c.bits))
  | (_, none) => pure ()

/-- Dispatch entries by the positions of their keys. -/
abbrev Entries : Type := Array (Option Dispatch)

/-- Puts a dispatch entry in its place. -/
def Entries.put (entries : Entries) (d : Dispatch) : Entries :=
  entries.setIfInBounds d.key.index (some d)

/-- A place for every key, and nothing in it. -/
def Entries.empty : Entries := Array.replicate Operation.keyCount none

/-- The dispatch entries of a table by the positions of their keys. -/
def entries (t : RuleTable) : Entries := t.dispatch.foldl .put .empty

/-- Checks that a state exists, and that its transforms are tried under their own key. -/
def checkStateAt (t : RuleTable) (key : Operation) (state : Nat) : Except Halt Unit :=
  match t.runs[state]? with
  | none => throw (.rejected (.stateIndex key state))
  | some run => run.indices.forM (t.checkRoutedAt key)

/-- Checks the transforms that a filter leads the values of a width class to. -/
def checkClassAt (t : RuleTable) (d : Dispatch) (filter : Vector Nat 5) (c : WidthClass) :
    Except Halt Unit := do
  let state ← Halt.guard (found d.states[filter.get c.index]?)
  let run ← Halt.guard (found t.runs[state]?)
  run.indices.forM (t.checkWidthRoutedAt d.key c)

/-- Checks a dispatch entry, and puts it in its place. -/
def checkDispatchAt (t : RuleTable) (entries : Entries) (d : Dispatch) : Except Halt Entries := do
  match ← Halt.guard (found entries[d.key.index]?) with
  | some _ => throw (.rejected (.duplicateKey d.key))
  | none => pure ()
  Halt.checked (checkFilter d)
  d.states.forM (t.checkStateAt d.key)
  match d.filter with
  | some filter => WidthClass.all.forM (t.checkClassAt d filter)
  | none => pure ()
  return entries.put d

end RuleTable

/-! ### Rule sets -/

/-- A rule set with its dispatch entries by the positions of their keys. -/
structure RuleIndex where
  /-- The rule set. -/
  rules : RuleSet
  /-- The dispatch entries. -/
  entries : RuleTable.Entries

/-- Lays out the dispatch entries of a rule set. -/
def RuleSet.index (rs : RuleSet) : RuleIndex := ⟨rs, rs.table.entries⟩

namespace RuleIndex

/-- Checks a table, resolves its patterns and lays out its dispatch entries. -/
def load (c : Counting) (t : RuleTable) : Except Halt RuleIndex := do
  Halt.checked t.checkSlots
  let s := t.survey c
  let rules ← t.transforms.toList.zipIdx.mapM fun (r, k) => t.checkTransformAt s k r
  Halt.checked t.checkRuns
  let entries ← t.dispatch.foldlM t.checkDispatchAt .empty
  return ⟨⟨t, s.patterns, rules.toArray⟩, entries⟩

/-- The number of commutative expressions of a slot, counted once for each occurrence. -/
def commutativeCount (x : RuleIndex) (c : Counting) (slot : Nat) : Except Crash Nat :=
  found (x.rules.table.counts c)[slot]? >>= id

/-- The run of transforms to try for an instruction of an operation and a width; empty where the
dispatch has no state for it. -/
def route (x : RuleIndex) (op : Opcode) (width : Nat) : Except Crash Run := do
  match ← found x.entries[(Operation.ofOpcode op).index]? with
  | none => return .empty
  | some d =>
    match d.filter, WidthClass.ofBits? width with
    | none, _ => runOf d 0
    | some filter, some c => runOf d (filter.get c.index)
    | some _, none => return .empty
where
  /-- The run of a compact index of a dispatch entry. -/
  runOf (d : Dispatch) (compact : Nat) : Except Crash Run := do
    let state ← found d.states[compact]?
    found x.rules.table.runs[state]?

end RuleIndex

end Peephole

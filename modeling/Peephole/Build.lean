import Peephole.Evaluate
import Peephole.Event
import Peephole.Match

/-!
# Building replacements

A replacement pattern made into instructions, immediately before the instruction that it replaces.
Sources are built before the expressions that use them.

* The **width** of a slot is its declared one, or the one that its operation fixes, or the one that
  the expression around it asks of that source; the whole replacement has the width of the
  instruction that it replaces.
* An expression whose sources are all literals is **folded**: it becomes the literal of its value.
* An expression that occurs again at the same width is built once.
-/

namespace Peephole

namespace Build

/-- Where a replacement is built, and from what. -/
structure Site where
  /-- The values of the variables. -/
  bindings : Bindings
  /-- The instruction that is replaced. -/
  cursor : InstId
  /-- Whether that instruction is exact; what replaces it is exact as well. -/
  exact : Bool

/-- The state of building. -/
structure State where
  /-- The function so far. -/
  func : Func
  /-- The expressions built so far: slot, width and value. -/
  built : List (Nat × Nat × ValueId)
  /-- The events so far. -/
  events : List Event

/-- The bits of a constant at a width. A truth value sets all of them or none. -/
def encodeConstant (c : ConstantSlot) (width : Nat) : Except Fault Word :=
  match c.kind with
  | .int => .ok c.bits
  | .float => encodeFloat (binary64.decode c.bits.toNat) width
  | .bool => .ok (if c.bits != 0 then BitVec.allOnes 64 else 0)

/-- The value of an expression built before. -/
def State.built? (s : State) (slot width : Nat) : Option ValueId :=
  (s.built.find? fun (k, w, _) => k == slot && w == width).map fun (_, _, x) => x

/-- The literals that values stand for, up to the first value that is none. Values that are looked
at must exist. -/
def literals? (f : Func) : List ValueId → Except Fault (Option (List Literal))
  | [] => .ok (some [])
  | v :: vs => do
    discard <| f.requireValue v
    match f.literal? v with
    | some l => return (← literals? f vs).map (l :: ·)
    | none => return none

/-- The bits of an operation on values that are all literals, if it can be folded. -/
def folded? (f : Func) (op : Opcode) (width : Nat) (operands : List ValueId) :
    Except Fault (Option Word) := do
  if !op.isPure then return none
  match ← literals? f operands with
  | some sources => evaluate op width sources
  | none => return none

/-- Adds the value of an operation on values that are built: a literal if it can be folded, or else
the result of a new instruction before the cursor. -/
def State.emit (s : State) (site : Site) (op : Opcode) (width : Nat) (exact : Bool)
    (operands : List ValueId) : Except Fault (ValueId × State) := do
  match ← folded? s.func op width operands with
  | some bits =>
    let (x, f) ← s.func.literal width bits
    return (x, { s with func := f, events := s.events ++ [.folded op bits.toNat width] })
  | none =>
    let (i, f) ← s.func.createInst op width operands
    let f ← f.setExact i (exact || site.exact)
    let f ← f.insertBefore site.cursor i
    let some x := f.result? i | throw .noResult
    return (x, { s with func := f })

/-- The width that an operation asks of a source, given its own width and that of the paired
source before, if there is one. -/
def sourceWidth (width : Nat) (paired : Option Nat) : SourceWidth → Option Nat
  | .dest => some width
  | .fixed bits => some bits
  | .paired => paired
  | .any => none

/-- The width of the paired sources of an expression, given the one of the source before: that of
the first of them. A paired source must exist. -/
def pairedWidth (f : Func) (paired : Option Nat) (v : ValueId) : Except Fault (Option Nat) := do
  let d ← f.requireValue v
  return paired <|> some d.width

mutual

/-- Builds the value of a pattern, at an expected width where nothing else gives one. -/
def value (site : Site) : Pattern → Option Nat → State → Except Fault (ValueId × State)
  | .var v _, _, s =>
    match site.bindings v.index with
    | some x => .ok (x, s)
    | none => .error (.unbound v.index)
  | .const slot c, expected, s =>
    match c.width <|> expected with
    | none => .error (.constantWidth slot)
    | some width => do
      let bits ← encodeConstant c width
      let (x, f) ← s.func.literal width bits
      return (x, { s with func := f })
  | .expr slot e _ args, expected, s =>
    match e.width <|> e.op.fixedWidth <|> expected with
    | none => .error (.expressionWidth e.op slot)
    | some width =>
      match s.built? slot width with
      | some x => .ok (x, s)
      | none =>
        match e.op.withWidth? width with
        | none => .error (.noForm e.op width)
        | some op => do
          let (operands, s) ← values site width args op.info.sourceWidths none s
          let (x, s) ← s.emit site op width e.exact operands
          return (x, { s with built := s.built ++ [(slot, width, x)] })

/-- Builds the sources of an operation of a width, given the width of the paired source before. -/
def values (site : Site) (width : Nat) : List Pattern → List SourceWidth → Option Nat → State →
    Except Fault (List ValueId × State)
  | p :: ps, w :: ws, paired, s => do
    let (x, s) ← value site p (sourceWidth width paired w) s
    let paired ← if w = .paired then pairedWidth s.func paired x else pure paired
    let (xs, s) ← values site width ps ws paired s
    return (x :: xs, s)
  | _, _, _, s => .ok ([], s)

end

end Build

/-- Builds a pattern in place of the result of an instruction, which must exist. Yields the value,
the function and what was reported. -/
def Pattern.build (p : Pattern) (f : Func) (b : Bindings) (cursor : InstId) :
    Except Fault (ValueId × Func × List Event) := do
  let d ← f.requireInst cursor
  let (x, s) ← Build.value ⟨b, cursor, d.exact⟩ p (some d.width) ⟨f, [], []⟩
  return (x, s.func, s.events)

end Peephole

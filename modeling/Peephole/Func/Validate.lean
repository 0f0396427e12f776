import Peephole.Func.Basic

/-!
# Validation

The conditions under which a function makes sense, as a list of the places where it does not.

* **Definition before use**: an operand is a literal, a parameter, or the result of an attached
  instruction that comes earlier in the layout.
* **Widths**: an operand has the width that its operation asks for, and floats have a width with a
  floating-point format.
* **Use-chains**: the chains list exactly the operands of the attached instructions.
-/

namespace Peephole

/-- A place at which a function is not valid. -/
inductive Violation
  /-- An operand whose definition does not come earlier. -/
  | useBeforeDef (inst : InstId) (op : Opcode) (operand : Nat) (value : ValueId)
  /-- An operand that the use-chain of its value does not list. -/
  | missingUse (inst : InstId) (operand : Nat) (value : ValueId)
  /-- An entry of a use-chain that is no operand of an attached instruction. -/
  | staleUse (inst : InstId) (operand : Nat) (value : ValueId)
  /-- An operand of a wrong width. -/
  | widthMismatch (inst : InstId) (op : Opcode) (operand expected found : Nat)
  /-- A float operand at a width without a format. -/
  | floatOperand (inst : InstId) (op : Opcode) (operand bits : Nat)
  /-- A float result at a width without a format. -/
  | floatResult (inst : InstId) (op : Opcode) (bits : Nat)
  deriving DecidableEq, Repr

/-- The text of a violation. -/
def Violation.message : Violation → String
  | useBeforeDef i op k v =>
    s!"operand #{k} of {i.name} ({op.name}) uses {v.name} before its definition"
  | missingUse i k v =>
    s!"operand #{k} of {i.name} uses {v.name} but no use-chain entry exists"
  | staleUse i k v =>
    s!"use-chain of {v.name} lists operand #{k} of {i.name}, which is not a live use"
  | widthMismatch i op k expected found =>
    s!"operand #{k} of {i.name} ({op.name}) is {found} bits, expected {expected}"
  | floatOperand i op k bits =>
    s!"operand #{k} of {i.name} ({op.name}) is {bits} bits, which has no float format"
  | floatResult i op bits =>
    s!"result of {i.name} ({op.name}) is {bits} bits, which has no float format"

namespace Func

/-! ### Definitions and widths -/

/-- Whether an operand may mention a value, given the parameters and results defined so far. -/
def isVisible (f : Func) (defined : List ValueId) (v : ValueId) : Bool :=
  f.isLiteral v || defined.contains v

/-- The width that an operand must have: that of the instruction, a fixed one, or that of the first
paired operand. -/
def requiredWidth (d : Inst) (paired : Nat) : SourceWidth → Option Nat
  | .dest => some d.width
  | .fixed bits => some bits
  | .paired => some paired
  | .any => none

/-- The width of the first operand whose position is paired, if there is one. -/
def pairedWidth (f : Func) (d : Inst) : Nat :=
  ((d.operands.zip d.opcode.info.sourceWidths).find? (·.2 = .paired)).elim 0 fun (v, _) => f.width v

/-- The violations of one operand of an instruction. -/
def operandViolations (f : Func) (defined : List ValueId) (i : InstId) (d : Inst) (k : Nat)
    (v : ValueId) : List Violation :=
  let found := f.width v
  let undefined :=
    if f.isVisible defined v then [] else [.useBeforeDef i d.opcode k v]
  let unformatted :=
    if d.opcode.info.sourceClasses[k]? = some .float ∧ !isFloatWidth found
    then [.floatOperand i d.opcode k found] else []
  let mismatched :=
    match d.opcode.info.sourceWidths[k]?.bind (requiredWidth d (f.pairedWidth d)) with
    | some expected =>
      if found = expected then [] else [.widthMismatch i d.opcode k expected found]
    | none => []
  undefined ++ unformatted ++ mismatched

/-- The violations of one instruction, its result first. -/
def instViolations (f : Func) (defined : List ValueId) (i : InstId) (d : Inst) : List Violation :=
  let unformatted :=
    if d.result.isSome ∧ d.opcode.info.resultClass = .float ∧ !isFloatWidth d.width
    then [.floatResult i d.opcode d.width] else []
  unformatted ++ (d.operands.mapIdx (f.operandViolations defined i d)).flatten

/-- The violations of definitions and widths of a list of instructions, with the parameters and
results defined before them. -/
def definitionViolations (f : Func) (defined : List ValueId) : List InstId → List Violation
  | [] => []
  | i :: is =>
    match f.inst? i with
    | some d =>
      f.instViolations defined i d ++ f.definitionViolations (d.result.toList ++ defined) is
    | none => f.definitionViolations defined is

/-! ### Use-chains -/

/-- Whether an attached instruction has a value at an operand position. -/
def isLiveUse (f : Func) (v : ValueId) (u : Use) : Bool :=
  f.layout.contains u.user && (f.operands u.user)[u.operand]? == some v

/-- The operand positions of attached instructions that mention a value, in order of creation. -/
def liveUses (f : Func) (v : ValueId) : List Use :=
  let attached := f.layout
  (f.instIds.filter attached.contains).flatMap fun i =>
    (f.operands i).zipIdx.filterMap fun (w, k) => if w = v then some ⟨i, k⟩ else none

/-- The live uses that the chains do not list. -/
def missingUses (f : Func) : List Violation :=
  f.valueIds.flatMap fun v =>
    ((f.liveUses v).filter fun u => !(f.uses v).contains u).map fun u =>
      .missingUse u.user u.operand v

/-- The entries of the chains that are no live uses. -/
def staleUses (f : Func) : List Violation :=
  f.valueIds.flatMap fun v =>
    ((f.uses v).filter fun u => !f.isLiveUse v u).map fun u => .staleUse u.user u.operand v

/-! ### The report -/

/-- Every violation of a function: definitions and widths in layout order, then missing uses, then
stale ones. -/
def violations (f : Func) : List Violation :=
  f.definitionViolations f.params f.layout ++ f.missingUses ++ f.staleUses

/-- Whether a function is **valid**. -/
def isValid (f : Func) : Bool := f.violations.isEmpty

/-- The text of a validation. -/
def validationReport (f : Func) : String :=
  let found := f.violations
  if found.isEmpty then "validation passed"
  else
    found.foldl (fun text v => text ++ s!"  - {v.message}\n") s!"{found.length} error(s) found:\n"

end Func

end Peephole

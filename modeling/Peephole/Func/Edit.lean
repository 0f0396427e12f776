import Peephole.Func.Basic

/-!
# Editing functions

The operations that build and change a function. They keep use-chains, block lists and the blocks
that instructions name in step with each other, and refuse with a `Fault` what would break the
function.

Most operations look before they change anything, and yield an `Except Fault`. Those that move
instructions in and out of blocks record the block of an instruction first and turn to the block
then, so that a block that does not exist stops them half-way. They yield an `Edited`, which tells
what has been done by then.

Operands and replacements are taken by number. They may be values that do not exist yet.
-/

namespace Peephole

/-! ### Edits that can stop half-way -/

/-- What an edit comes to: the function that it leaves, and its result or the fault that stopped
it. -/
structure Edited (α : Type) where
  /-- The function that the edit leaves. -/
  func : Func
  /-- The result, or what stopped the edit. -/
  result : Except Fault α

namespace Edited

/-- An edit that is stopped. -/
def stop (f : Func) (e : Fault) : Edited α := ⟨f, .error e⟩

/-- The same edit with another result. -/
def map (g : α → β) (e : Edited α) : Edited β := ⟨e.func, e.result.map g⟩

/-- The result and the function of an edit that nothing has stopped. -/
def toExcept (e : Edited α) : Except Fault (α × Func) := e.result.map (·, e.func)

/-- An edit comes to a result exactly if nothing has stopped it. -/
theorem toExcept_eq_ok {e : Edited α} {a : α} {f : Func} :
    e.toExcept = .ok (a, f) ↔ e = ⟨f, .ok a⟩ := by
  obtain ⟨g, r⟩ := e
  cases r with
  | ok b => simp [toExcept, Except.map, and_comm]
  | error x => simp [toExcept, Except.map]

end Edited

namespace Func

/-! ### Raw updates -/

/-- Changes one instruction. -/
def modifyInst (f : Func) (i : InstId) (g : Inst → Inst) : Func :=
  { f with insts := f.insts.modify i.index g }

/-- Changes the list of one block. -/
def modifyBlock (f : Func) (b : BlockId) (g : List InstId → List InstId) : Func :=
  { f with blocks := f.blocks.modify b.index g }

/-- Changes one use-chain. -/
def modifyChain (f : Func) (v : ValueId) (g : List Use → List Use) : Func :=
  { f with chains := f.chains.modify v.index g }

/-- Makes room for a number of use-chains. -/
def reserve (f : Func) (n : Nat) : Func :=
  { f with chains := f.chains ++ Array.replicate (n - f.chains.size) [] }

/-- Adds a value. Its use-chain may have entries already. -/
def pushValue (f : Func) (origin : Origin) (width : Nat) : ValueId × Func :=
  let g := f.reserve (f.values.size + 1)
  (⟨f.values.size⟩, { g with values := f.values.push ⟨origin, width⟩ })

/-- Adds an entry at the end of a use-chain. -/
def addUse (f : Func) (v : ValueId) (u : Use) : Func :=
  (f.reserve (v.index + 1)).modifyChain v (· ++ [u])

/-- Drops an entry from a use-chain. -/
def dropUse (f : Func) (v : ValueId) (u : Use) : Func := f.modifyChain v (·.filter (· ≠ u))

/-- The operand positions of an instruction, each with the value that stands there. -/
def operandUses (f : Func) (i : InstId) : List (ValueId × Use) :=
  (f.operands i).mapIdx fun k v => (v, ⟨i, k⟩)

/-! ### Existence -/

/-- Refuses a value that does not exist. -/
def requireValue (f : Func) (v : ValueId) : Except Fault Value :=
  (f.value? v).elim (.error .outOfBounds) .ok

/-- Refuses an instruction that does not exist. -/
def requireInst (f : Func) (i : InstId) : Except Fault Inst :=
  (f.inst? i).elim (.error .outOfBounds) .ok

/-- Refuses a function that is not closed. -/
def requireClosed (f : Func) : Except Fault Unit :=
  if f.isClosed then .ok () else .error .outOfBounds

/-! ### Values -/

/-- Adds a parameter after the others. -/
def addParam (f : Func) (width : Nat) (typeClass : Option TypeClass) :
    Except Fault (ValueId × Func) :=
  if supported width then
    let (v, g) := f.pushValue (.parameter f.params.length typeClass) width
    .ok (v, { g with params := g.params ++ [v] })
  else .error (.parameterWidth width)

/-- The literal of a width with the low bits of a word, created on first request. -/
def literal (f : Func) (width : Nat) (bits : Word) : Except Fault (ValueId × Func) :=
  if supported width then
    let bits := bits &&& mask width
    match f.values.findIdx? fun d => d.origin = .literal bits ∧ d.width = width with
    | some k => .ok (⟨k⟩, f)
    | none => .ok (f.pushValue (.literal bits) width)
  else .error (.literalWidth width)

/-! ### Instructions and blocks -/

/-- Adds an empty block at the end of the layout. -/
def createBlock (f : Func) : BlockId × Func :=
  (⟨f.blocks.size⟩, { f with blocks := f.blocks.push [] })

/-- The faults of an instruction of some width on a number of operands. -/
def checkInst (op : Opcode) (width count : Nat) : Except Fault Unit :=
  if count ≠ op.arity then .error (.operandCount op count)
  else
    match op.info.fixedWidth with
    | some fixed => if width = fixed then .ok () else .error (.fixedWidth op fixed)
    | none => if supported width then .ok () else .error (.chosenWidth op width)

/-- Creates a **detached** instruction, one that belongs to no block, together with its result. Its
operands are entered into the use-chains. -/
def createInst (f : Func) (op : Opcode) (width : Nat) (operands : List ValueId) :
    Except Fault (InstId × Func) := do
  checkInst op width operands.length
  let i : InstId := ⟨f.insts.size⟩
  let used : Func := { f with insts := f.insts.push ⟨op, width, false, operands, none, none⟩ }
  let used := (used.operandUses i).foldl (fun g (v, u) => g.addUse v u) used
  if op.hasResult then
    let (v, g) := used.pushValue (.result i) width
    return (i, g.modifyInst i fun d => { d with result := some v })
  else
    return (i, used)

/-- Sets whether an instruction is exact. -/
def setExact (f : Func) (i : InstId) (exact : Bool) : Except Fault Func := do
  discard <| f.requireInst i
  return f.modifyInst i fun d => { d with exact := exact }

/-- Appends a detached instruction to a block. -/
def pushInst (f : Func) (b : BlockId) (i : InstId) : Edited Unit :=
  match f.inst? i with
  | none => .stop f .outOfBounds
  | some d =>
    if d.block.isSome then .stop f (.appendAttached i)
    else
      let g := f.modifyInst i fun d => { d with block := some b }
      if b.index < f.blocks.size then ⟨g.modifyBlock b (· ++ [i]), .ok ()⟩
      else .stop g .outOfBounds

/-- Creates an instruction at the end of a block. -/
def append (f : Func) (b : BlockId) (op : Opcode) (width : Nat) (operands : List ValueId) :
    Edited InstId :=
  match f.createInst op width operands with
  | .ok (i, g) => (g.pushInst b i).map fun _ => i
  | .error e => .stop f e

/-- Inserts an entry of a list before another one. -/
def insertBeforeIn (before i : InstId) (is : List InstId) : List InstId :=
  is.takeWhile (· ≠ before) ++ i :: is.dropWhile (· ≠ before)

/-- Inserts a detached instruction into the block of another one, immediately before it. -/
def insertBefore (f : Func) (before i : InstId) : Except Fault Func := do
  let d ← f.requireInst i
  if d.block.isSome then throw (.insertAttached i)
  let e ← f.requireInst before
  match e.block with
  | none => throw .insertBeforeDetached
  | some b =>
    unless b.index < f.blocks.size do throw .outOfBounds
    unless (f.blockInsts b).contains before do throw .insertBeforeAbsent
    return (f.modifyInst i fun d => { d with block := some b }).modifyBlock b
      (insertBeforeIn before i)

/-- Takes an instruction out of its block, if it is in one. -/
def detach (f : Func) (i : InstId) : Func :=
  match (f.inst? i).bind (·.block) with
  | some b => (f.modifyInst i fun d => { d with block := none }).modifyBlock b (·.filter (· ≠ i))
  | none => f

/-- Takes an instruction, which must exist, out of its block, if it is in one. -/
def detachInst (f : Func) (i : InstId) : Edited Unit :=
  if (f.inst? i).isSome && f.hasBlock i then ⟨f.detach i, .ok ()⟩
  else .stop (f.detach i) .outOfBounds

/-- Takes the operands of an instruction out of the use-chains. -/
def release (f : Func) (i : InstId) : Func :=
  (f.operandUses i).foldl (fun g (v, u) => g.dropUse v u) f

/-- Removes a detached instruction whose result is unused: its operands no longer count as used. -/
def removeInst (f : Func) (i : InstId) : Except Fault Func := do
  let d ← f.requireInst i
  if d.block.isSome then throw (.removeAttached i)
  match d.result with
  | some v => unless (f.uses v).isEmpty do throw (.removeUsed v (f.uses v).length)
  | none => pure ()
  return f.release i

/-! ### Replacement -/

/-- Puts a value at an operand position. -/
def setOperand (f : Func) (u : Use) (v : ValueId) : Func :=
  f.modifyInst u.user fun d => { d with operands := d.operands.set u.operand v }

/-- Replaces a value by another one wherever it is used. The use-chain of the old value moves to
the end of the chain of the new one. -/
def replaceAllUses (f : Func) (old new : ValueId) : Func :=
  if old = new then f
  else
    let chain := f.uses old
    let g := f.modifyChain old fun _ => []
    chain.foldl (fun g u => (g.setOperand u new).addUse new u) g

end Func

end Peephole

import Peephole.Func.Reachable

/-!
# Arenas

A function as it is kept: beside its entities, an **arena** has two tables that only repeat what
the entities say. The **order** lists the blocks as they are laid out, and the **interning table**
leads a width and bits to the literal that has them. A literal is looked up there, and nowhere else,
before a new one is made; blocks and literals are entered when they are made, and never taken out.

`Arena.Leads` relates arenas to those that edits of existing entities lead to, and
`Arena.Consistent` says that all tables of an arena agree.
-/

namespace Peephole

/-- A function with the tables that repeat parts of it. -/
structure Arena where
  /-- The function. -/
  func : Func
  /-- The blocks, in layout order. -/
  order : List BlockId
  /-- The literals by their widths and bits. -/
  interned : List ((Nat × Word) × ValueId)
  deriving DecidableEq, Repr

namespace Arena

/-- The arena of a function of a name without parameters, values and blocks. -/
def empty (name : String) : Arena := ⟨.empty name, [], []⟩

/-- The arena of a function, with tables that are read off its entities. -/
def ofFunc (f : Func) : Arena where
  func := f
  order := f.blockIds
  interned := f.valueIds.filterMap fun v =>
    match f.value? v with
    | some ⟨.literal bits, width⟩ => some ((width, bits), v)
    | _ => none

/-- The attached instructions, in layout order. -/
def insts (a : Arena) : List InstId := a.order.flatMap a.func.blockInsts

/-! ### Edits -/

/-- Adds an empty block at the end of the layout. -/
def createBlock (a : Arena) : BlockId × Arena :=
  let (b, g) := a.func.createBlock
  (b, { a with func := g, order := a.order ++ [b] })

/-- The literal of a width with the low bits of a word, created on first request. -/
def literal (a : Arena) (width : Nat) (bits : Word) : Except Fault (ValueId × Arena) :=
  if supported width then
    let bits := bits &&& mask width
    match a.interned.lookup (width, bits) with
    | some v => .ok (v, a)
    | none =>
      let (v, g) := a.func.pushValue (.literal bits) width
      .ok (v, { a with func := g, interned := ((width, bits), v) :: a.interned })
  else .error (.literalWidth width)

/-- One edit of an arena that mentions existing entities only and that nothing stops. All edits but
two leave the tables beside the function alone. -/
inductive Edit : Arena → Arena → Prop
  | literal {a b width bits v} (h : a.literal width bits = .ok (v, b)) : Edit a b
  | createBlock {a b k} (h : a.createBlock = (k, b)) : Edit a b
  | addParam {a g width typeClass v} (h : a.func.addParam width typeClass = .ok (v, g)) :
      Edit a { a with func := g }
  | createInst {a g op width operands i} (known : ∀ v ∈ operands, (a.func.value? v).isSome)
      (h : a.func.createInst op width operands = .ok (i, g)) : Edit a { a with func := g }
  | append {a g b op width operands i} (known : ∀ v ∈ operands, (a.func.value? v).isSome)
      (h : a.func.append b op width operands = ⟨g, .ok i⟩) : Edit a { a with func := g }
  | setExact {a g i exact} (h : a.func.setExact i exact = .ok g) : Edit a { a with func := g }
  | pushInst {a g b i} (h : a.func.pushInst b i = ⟨g, .ok ()⟩) : Edit a { a with func := g }
  | insertBefore {a g before i} (h : a.func.insertBefore before i = .ok g) :
      Edit a { a with func := g }
  | detachInst {a g i} (h : a.func.detachInst i = ⟨g, .ok ()⟩) : Edit a { a with func := g }
  | removeInst {a g i} (h : a.func.removeInst i = .ok g) : Edit a { a with func := g }
  | eraseDead {a g i n} (h : a.func.eraseDead i = ⟨g, .ok n⟩) : Edit a { a with func := g }
  | replaceAllUses {a old new} (knownOld : (a.func.value? old).isSome)
      (knownNew : (a.func.value? new).isSome) :
      Edit a { a with func := a.func.replaceAllUses old new }

/-- Whether edits lead from one arena to another. -/
inductive Leads : Arena → Arena → Prop
  | refl (a) : Leads a a
  | edit {a b c} (h : Leads a b) (e : Edit b c) : Leads a c

/-! ### Consistency -/

/-- An arena is **consistent** when its tables agree with each other. -/
structure Consistent (a : Arena) : Prop where
  /-- An instruction names the block that lists it. -/
  parent {i b} : (a.func.inst? i).bind (·.block) = some b ↔ i ∈ a.func.blockInsts b
  /-- A block lists an instruction once. -/
  once {i b} : i ∈ a.func.blockInsts b → (a.func.blockInsts b).count i = 1
  /-- No two blocks list the same instruction. -/
  apart {i b c} : i ∈ a.func.blockInsts b → i ∈ a.func.blockInsts c → b = c
  /-- The layout has every block once, and nothing else. -/
  laid (b) : a.order.count b = if b.index < a.func.blocks.size then 1 else 0
  /-- A value is defined by the instruction that results in it. -/
  definer {v i} : a.func.definer? v = some i ↔ a.func.result? i = some v
  /-- The result of an instruction has its width. -/
  width {i d v} : a.func.inst? i = some d → d.result = some v →
    (a.func.value? v).map (·.width) = some d.width
  /-- The parameters are listed in order. -/
  parameter {k v} : a.func.params[k]? = some v ↔
    ∃ c w, a.func.value? v = some ⟨.parameter k c, w⟩
  /-- Literals have a width that is supported, and no bits above it. -/
  masked {v bits w} : a.func.value? v = some ⟨.literal bits, w⟩ →
    supported w ∧ bits &&& mask w = bits
  /-- There is one literal for a width and its bits. -/
  single {v x bits w} : a.func.value? v = some ⟨.literal bits, w⟩ →
    a.func.value? x = some ⟨.literal bits, w⟩ → v = x
  /-- The interning table has the literals, and nothing else. -/
  interned {v bits w} : a.interned.lookup (w, bits) = some v ↔
    a.func.value? v = some ⟨.literal bits, w⟩

end Arena

end Peephole

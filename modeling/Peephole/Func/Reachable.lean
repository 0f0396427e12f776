import Peephole.Func.Dead

/-!
# Reachable functions

The functions that edits of existing entities lead to, beginning with an empty one. An instruction
is **removed** once it has been taken out for good, by `removeInst` or by `eraseDead`: its operands
no longer count as used, though its record stays. `Called` is the same of calls that may mention
values which do not exist, and `TidilyCalled` of those that attach no removed instruction again.

`Dies` tells which instructions go when one is erased, `without` what is left when some have gone.
-/

namespace Peephole

namespace Func

/-- The attached instructions of a function that another one has detached, in order of creation. -/
def detachedIn (f g : Func) : List InstId :=
  f.instIds.filter fun i => f.isAttached i && !g.isAttached i

/-- One edit of a function that mentions existing values only and that nothing stops, with the
instructions that it removes. -/
inductive Edit : Func → List InstId → Func → Prop
  | addParam {f g width typeClass v} (h : f.addParam width typeClass = .ok (v, g)) : Edit f [] g
  | literal {f g width bits v} (h : f.literal width bits = .ok (v, g)) : Edit f [] g
  | createBlock {f g b} (h : f.createBlock = (b, g)) : Edit f [] g
  | createInst {f g op width operands i} (known : ∀ v ∈ operands, (f.value? v).isSome)
      (h : f.createInst op width operands = .ok (i, g)) : Edit f [] g
  | append {f g b op width operands i} (known : ∀ v ∈ operands, (f.value? v).isSome)
      (h : f.append b op width operands = ⟨g, .ok i⟩) : Edit f [] g
  | setExact {f g i exact} (h : f.setExact i exact = .ok g) : Edit f [] g
  | pushInst {f g b i} (h : f.pushInst b i = ⟨g, .ok ()⟩) : Edit f [] g
  | insertBefore {f g before i} (h : f.insertBefore before i = .ok g) : Edit f [] g
  | detachInst {f g i} (h : f.detachInst i = ⟨g, .ok ()⟩) : Edit f [] g
  | removeInst {f g i} (h : f.removeInst i = .ok g) : Edit f [i] g
  | eraseDead {f g i n} (h : f.eraseDead i = ⟨g, .ok n⟩) : Edit f (f.detachedIn g) g
  | replaceAllUses {f old new} (knownOld : (f.value? old).isSome)
      (knownNew : (f.value? new).isSome) : Edit f [] (f.replaceAllUses old new)

/-- The functions that edits lead to, with the instructions removed on the way. -/
inductive Reachable : Func → List InstId → Prop
  | empty (name : String) : Reachable (.empty name) []
  | edit {f g gone now} (h : Reachable f gone) (e : Edit f now g) : Reachable g (now ++ gone)

/-- One call of an edit that nothing stops, with the instructions that it removes. Operands and
replacements may be values that do not exist, or do not exist yet. -/
inductive Call : Func → List InstId → Func → Prop
  | edit {f g now} (e : Edit f now g) : Call f now g
  | createInst {f g op width operands i} (h : f.createInst op width operands = .ok (i, g)) :
      Call f [] g
  | append {f g b op width operands i} (h : f.append b op width operands = ⟨g, .ok i⟩) : Call f [] g
  | replaceAllUses {f} (old new : ValueId) : Call f [] (f.replaceAllUses old new)

/-- The functions that calls lead to, with the instructions removed on the way. -/
inductive Called : Func → List InstId → Prop
  | empty (name : String) : Called (.empty name) []
  | call {f g gone now} (h : Called f gone) (e : Call f now g) : Called g (now ++ gone)

/-- The functions that calls lead to when no removed instruction is attached again, with the
instructions removed on the way. -/
inductive TidilyCalled : Func → List InstId → Prop
  | empty (name : String) : TidilyCalled (.empty name) []
  | call {f g gone now} (h : TidilyCalled f gone) (e : Call f now g)
      (away : ∀ i ∈ gone, ¬ g.isAttached i) : TidilyCalled g (now ++ gone)

/-! ### What dies with an instruction -/

/-- The instructions that **die** with a given one: that one, if it is attached and dead, and every
attached instruction without an effect whose result is used, and used by dying instructions only. -/
inductive Dies (f : Func) (i : InstId) : InstId → Prop
  | self (attached : f.isAttached i) (dead : f.isDead i) : Dies f i i
  | operand {j d v} (attached : f.isAttached j) (inst : f.inst? j = some d)
      (effectless : d.opcode.isPure) (result : d.result = some v) (used : f.uses v ≠ [])
      (users : ∀ u ∈ f.uses v, Dies f i u.user) : Dies f i j

/-- A function without some of its instructions: they name no block and stand in none, and their
operands no longer count as used. All else is as before. -/
def without (f : Func) (is : List InstId) : Func where
  name := f.name
  params := f.params
  values := f.values
  chains := f.chains.map (·.filter (·.user ∉ is))
  insts := f.insts.mapIdx fun k d => if ⟨k⟩ ∈ is then { d with block := none } else d
  blocks := f.blocks.map (·.filter (· ∉ is))

/-- The erasure of a **worklist**, which may take its entries in any order: what it erases, one
after another, and the function that it leaves. An entry is passed over unless it is attached and
dead when its turn comes. -/
inductive Drains : Func → List InstId → List InstId → Func → Prop
  | done {f} : Drains f [] [] f
  | skip {f work i rest is g} (next : work.Perm (i :: rest))
      (stays : ¬ (f.isAttached i ∧ f.isDead i)) (later : Drains f rest is g) : Drains f work is g
  | erase {f work i rest is g} (next : work.Perm (i :: rest)) (attached : f.isAttached i)
      (dead : f.isDead i)
      (later : Drains ((f.detach i).release i)
        (((f.detach i).release i).deadOperands (f.operands i) ++ rest) is g) :
      Drains f work (i :: is) g

end Func

end Peephole

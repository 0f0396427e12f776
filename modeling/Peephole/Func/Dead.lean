import Peephole.Func.Edit

/-!
# Dead code

Erasing a dead instruction releases its operands, which may leave the instructions that define them
dead in turn. `Func.eraseDead` erases the whole chain. Every erasure detaches an instruction, so the
number of attached instructions bounds the work.
-/

namespace Peephole

namespace Func

/-- The number of instructions that belong to a block. -/
def attachedCount (f : Func) : Nat := f.insts.toList.countP (·.block.isSome)

/-! ### Termination -/

private theorem countP_modify_lt {l : List Inst} {k : Nat} {g : Inst → Inst} {d : Inst}
    (hk : l[k]? = some d) (hd : d.block.isSome) (hg : ∀ e, (g e).block = none) :
    (l.modify k g).countP (·.block.isSome) < l.countP (·.block.isSome) := by
  induction l generalizing k with
  | nil => simp at hk
  | cons e l ih =>
    cases k with
    | zero =>
      obtain rfl : e = d := by simpa using hk
      simp [hd, hg]
    | succ k =>
      have := ih (k := k) (by simpa using hk)
      simp only [List.modify_succ_cons, List.countP_cons]
      omega

@[simp] theorem insts_modifyBlock (f : Func) (b : BlockId) (g : List InstId → List InstId) :
    (f.modifyBlock b g).insts = f.insts := rfl

@[simp] theorem insts_modifyChain (f : Func) (v : ValueId) (g : List Use → List Use) :
    (f.modifyChain v g).insts = f.insts := rfl

@[simp] theorem insts_dropUse (f : Func) (v : ValueId) (u : Use) :
    (f.dropUse v u).insts = f.insts := rfl

/-- Releasing operands leaves the instructions as they are. -/
@[simp] theorem insts_release (f : Func) (i : InstId) : (f.release i).insts = f.insts := by
  unfold release
  generalize f.operandUses i = us
  induction us generalizing f with
  | nil => rfl
  | cons u us ih => rw [List.foldl_cons, ih, insts_dropUse]

/-- Detaching an attached instruction leaves one attached instruction fewer. -/
theorem attachedCount_detach_lt {f : Func} {i : InstId} (h : f.isAttached i) :
    (f.detach i).attachedCount < f.attachedCount := by
  unfold isAttached at h
  cases hd : f.inst? i with
  | none => simp [hd] at h
  | some d =>
    simp only [hd, Option.any_some] at h
    obtain ⟨b, hb⟩ := Option.isSome_iff_exists.mp h
    have hk : f.insts.toList[i.index]? = some d := by simpa [inst?] using hd
    simpa [detach, hd, hb, attachedCount, modifyInst] using
      countP_modify_lt (g := fun d => { d with block := none }) hk h fun _ => rfl

/-! ### Erasure -/

/-- The instructions that define operands of a given instruction and are dead, last operand
first. -/
def deadOperands (f : Func) (operands : List ValueId) : List InstId :=
  (operands.filterMap fun v => (f.definer? v).filter f.isDead).reverse

/-- Erases the attached dead instructions of a stack, and those that die with them. Yields how many
were erased. A block or an operand that does not exist stops it on the way. -/
def eraseAll (f : Func) (stack : List InstId) : Edited Nat :=
  match stack with
  | [] => ⟨f, .ok 0⟩
  | i :: rest =>
    if h : f.isAttached i ∧ f.isDead i then
      let g := (f.detach i).release i
      have : g.attachedCount < f.attachedCount := by
        simpa [g, attachedCount] using attachedCount_detach_lt h.1
      if !f.hasBlock i then .stop (f.detach i) .outOfBounds
      else if !f.hasOperands i then .stop g .outOfBounds
      else (g.eraseAll (g.deadOperands (f.operands i) ++ rest)).map (· + 1)
    else f.eraseAll rest
termination_by (f.attachedCount, stack.length)

/-- Erases an instruction, which must exist, if it is attached and dead, and then whatever dies with
it. Yields how many instructions were erased. -/
def eraseDead (f : Func) (i : InstId) : Edited Nat :=
  if (f.inst? i).isSome then f.eraseAll [i] else .stop f .outOfBounds

end Func

end Peephole

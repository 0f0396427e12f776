import Peephole.Text.Print
import Peephole.Proofs.Text.Layout

/-!
# What printing writes

The text of a function is the spelling of a written function, `Func.toList_print`: the values that
printing numbers have their numbers as names, and literals are integers.
-/

namespace Peephole

namespace Print

/-! ### The written function -/

/-- The written form of an operand, given the values printed so far. -/
def writtenOperand (f : Func) (printed : List ValueId) (v : ValueId) : Written.Operand :=
  match f.literal? v with
  | some l => .integer l.bits.toNat l.width
  | none => .value ((printed.idxOf? v).elim "?" Numeral.decimal)

/-- The written form of an instruction, given the values printed before it. -/
def writtenInst (f : Func) (printed : List ValueId) (d : Inst) : Written.Inst where
  remaining := 0
  result := d.result.map fun _ => (Numeral.decimal printed.length, d.width)
  opcode := d.opcode.name
  exact := d.exact
  operands := d.operands.map (writtenOperand f (printed ++ d.result.toList))

/-- The written form of instructions, and the values printed after them. -/
def writtenInsts (f : Func) (printed : List ValueId) :
    List InstId → List Written.Inst × List ValueId
  | [] => ([], printed)
  | i :: is =>
    match f.inst? i with
    | some d =>
      let (written, printed') := writtenInsts f (printed ++ d.result.toList) is
      (writtenInst f printed d :: written, printed')
    | none => writtenInsts f printed is

/-- The written form of blocks, given the values printed before them. -/
def writtenBlocks (f : Func) (printed : List ValueId) :
    List (List InstId) → List (List Written.Inst)
  | [] => []
  | b :: bs =>
    let (written, printed) := writtenInsts f printed b
    written :: writtenBlocks f printed bs

/-- The written form of a parameter. -/
def writtenParam (f : Func) (k : Nat) (v : ValueId) : Written.Param where
  name := Numeral.decimal k
  typeClass := f.typeClass? v
  width := f.width v

end Print

/-- The written form of a function. -/
def Func.written (f : Func) : Written.Func where
  remaining := 0
  name := f.name
  params := f.params.mapIdx (Print.writtenParam f)
  blocks := Print.writtenBlocks f f.params f.blocks.toList

/-! ### Its spelling -/

namespace Print

open Written (spellBlocks)

variable (f : Func) (printed : List ValueId)

theorem toList_operand (v : ValueId) :
    (operand f printed v).toList = (writtenOperand f printed v).spell := by
  unfold operand writtenOperand valueName
  cases f.literal? v with
  | some l => simp [Written.Operand.spell, Numeral.decimal]
  | none => cases printed.idxOf? v <;> simp [Written.Operand.spell]

theorem toList_inst (d : Inst) :
    (inst f printed d).toList = ' ' :: ' ' :: (writtenInst f printed d).spell := by
  have hoperands : (d.operands.map (operand f (printed ++ d.result.toList))).map String.toList =
      (d.operands.map (writtenOperand f (printed ++ d.result.toList))).map
        Written.Operand.spell := by
    simp [toList_operand]
  have hmark : (if d.exact then "!" else "").toList =
      if (writtenInst f printed d).exact then ['!'] else [] := by
    cases hd : d.exact <;> simp [writtenInst, hd]
  have hresult : (if d.result.isSome then "%" ++ Numeral.decimal printed.length ++ ": " ++
      Numeral.decimal d.width ++ " = " else "").toList =
      Written.spellResult (writtenInst f printed d).result := by
    cases hr : d.result <;> simp [writtenInst, hr, Written.spellResult, Numeral.decimal]
  simp only [inst, String.toList_append, String.toList_intercalate, hresult, hmark, hoperands,
    Written.Inst.spell]
  simp only [List.append_assoc]
  rfl

theorem toList_insts (is : List InstId) :
    (insts f printed is).1.toList =
        (writtenInsts f printed is).1.flatMap (fun i => ' ' :: ' ' :: i.spell) ∧
      (insts f printed is).2 = (writtenInsts f printed is).2 := by
  induction is generalizing printed with
  | nil => exact ⟨rfl, rfl⟩
  | cons i is ih =>
    rw [insts, writtenInsts]
    cases f.inst? i with
    | none => exact ih printed
    | some d =>
      obtain ⟨htext, hprinted⟩ := ih (printed ++ d.result.toList)
      refine ⟨?_, hprinted⟩
      simp [toList_inst, htext]

theorem toList_blocks (labelled : Bool) (k : Nat) (bs : List (List InstId)) :
    (blocks f labelled k printed bs).toList =
      spellBlocks labelled k (writtenBlocks f printed bs) := by
  induction bs generalizing printed k with
  | nil => rfl
  | cons b bs ih =>
    obtain ⟨htext, hprinted⟩ := toList_insts f printed b
    rw [blocks, writtenBlocks, spellBlocks]
    cases labelled <;> simp [htext, hprinted, ih, Numeral.decimal]

theorem toList_param (k : Nat) (v : ValueId) :
    (param f k v).toList = (writtenParam f k v).spell := by
  unfold param
  cases hc : f.typeClass? v <;> simp [writtenParam, Written.Param.spell, hc, Numeral.decimal]

theorem length_writtenBlocks (bs : List (List InstId)) :
    (writtenBlocks f printed bs).length = bs.length := by
  induction bs generalizing printed with
  | nil => rfl
  | cons b bs ih => exact congrArg (· + 1) (ih _)

end Print

/-- The text of a function spells its written form. -/
theorem Func.toList_print (f : Func) : f.print.toList = f.written.spell ++ ['\n'] := by
  have hparams : (f.params.mapIdx (Print.param f)).map String.toList =
      f.written.params.map Written.Param.spell := by
    simp [Func.written, List.mapIdx_eq_zipIdx_map, Print.toList_param]
  have hblocks : f.blocks.size = f.written.blocks.length := by
    rw [Func.written, Print.length_writtenBlocks, Array.length_toList]
  simp only [Func.print, String.toList_append, String.toList_intercalate, hparams, hblocks,
    Print.toList_blocks, Written.Func.spell]
  simp [Func.written]

end Peephole

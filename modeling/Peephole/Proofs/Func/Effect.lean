import Peephole.Func.Reachable
import Peephole.Proofs.Func.Lookup
import Peephole.Proofs.Outcome

/-!
# The effects of edits

One lemma for each edit: what it looked at before it changed anything, and what the function looks
like afterwards, as equations between look-ups. Nothing below opens an edit again.
-/

namespace Peephole

namespace Func

variable {f g : Func}

/-! ### Values -/

/-- The effect of adding a value of some origin and width. -/
structure AddsValue (f : Func) (o : Origin) (w : Nat) (v : ValueId) (g : Func) : Prop where
  fresh : v = ⟨f.values.size⟩
  value? : ∀ x, g.value? x = if x = v then some ⟨o, w⟩ else f.value? x
  insts : g.insts = f.insts
  blocks : g.blocks = f.blocks
  name : g.name = f.name
  uses : ∀ x, g.uses x = f.uses x

theorem addsValue_pushValue (f : Func) (o : Origin) (w : Nat) :
    f.AddsValue o w (f.pushValue o w).1 (f.pushValue o w).2 where
  fresh := rfl
  value? x := by
    obtain ⟨x⟩ := x
    rw [value?_pushValue]
    simp [pushValue]
  insts := rfl
  blocks := rfl
  name := rfl
  uses := uses_pushValue f o w

/-- The value after the last one does not exist. -/
theorem AddsValue.absent {o : Origin} {w : Nat} {v : ValueId} (h : f.AddsValue o w v g) :
    f.value? v = none := by
  simp [Func.value?, h.fresh]

/-- A new parameter comes after the others. -/
theorem addParam_eq_ok {w : Nat} {c : Option TypeClass} {v : ValueId}
    (h : f.addParam w c = .ok (v, g)) :
    supported w ∧ f.AddsValue (.parameter f.params.length c) w v g ∧
      g.params = f.params ++ [v] := by
  unfold addParam at h
  split at h
  · next hw =>
    have e := addsValue_pushValue f (.parameter f.params.length c) w
    injection h with h
    injection h with hv hg
    subst hv hg
    exact ⟨hw, ⟨e.fresh, e.value?, e.insts, e.blocks, e.name, e.uses⟩, rfl⟩
  · cases h

/-- The search for a literal finds one with the bits and the width. -/
theorem value?_of_findIdx? {bits : Word} {w k : Nat}
    (h : f.values.findIdx? (fun d => d.origin = .literal bits ∧ d.width = w) = some k) :
    f.value? ⟨k⟩ = some ⟨.literal bits, w⟩ := by
  obtain ⟨hlt, hk, -⟩ := Array.findIdx?_eq_some_iff_getElem.mp h
  obtain ⟨ho, hd⟩ := of_decide_eq_true hk
  rw [value?, Array.getElem?_eq_getElem hlt, ← ho, ← hd]

/-- The search for a literal finds nothing if there is none. -/
theorem value?_ne_of_findIdx? {bits : Word} {w : Nat}
    (h : f.values.findIdx? (fun d => d.origin = .literal bits ∧ d.width = w) = none) (x : ValueId) :
    f.value? x ≠ some ⟨.literal bits, w⟩ := by
  intro hx
  have := Array.findIdx?_eq_none_iff.mp h _ (Array.mem_of_getElem? hx)
  simp at this

/-- A literal is an old value with its bits and its width, or a new one if there is none. -/
theorem literal_eq_ok {w : Nat} {bits : Word} {v : ValueId}
    (h : f.literal w bits = .ok (v, g)) :
    supported w ∧
      (g = f ∧ f.value? v = some ⟨.literal (bits &&& mask w), w⟩ ∨
        (∀ x, f.value? x ≠ some ⟨.literal (bits &&& mask w), w⟩) ∧
          f.AddsValue (.literal (bits &&& mask w)) w v g ∧ g.params = f.params) := by
  unfold literal at h
  split at h
  · next hw =>
    refine ⟨hw, ?_⟩
    dsimp only at h
    split at h
    · next k hk =>
      injection h with h
      injection h with hv hg
      subst hv hg
      exact .inl ⟨rfl, value?_of_findIdx? hk⟩
    · next hk =>
      injection h with h
      refine .inr ⟨value?_ne_of_findIdx? hk, ?_, ?_⟩
      · have e := addsValue_pushValue f (.literal (bits &&& mask w)) w
        rwa [h] at e
      · rw [← congrArg (fun p => p.2.params) h]
        rfl
  · cases h

theorem literal_ok (f : Func) {w : Nat} (bits : Word) (hw : supported w) :
    ∃ r, f.literal w bits = .ok r := by
  unfold Func.literal
  rw [if_pos hw]
  dsimp only
  split
  · exact ⟨_, rfl⟩
  · exact ⟨_, rfl⟩

/-! ### Instructions and blocks -/

/-- The effect of creating a detached instruction. -/
structure Creates (f : Func) (op : Opcode) (w : Nat) (operands : List ValueId) (i : InstId)
    (g : Func) : Prop where
  fresh : i = ⟨f.insts.size⟩
  checked : checkInst op w operands.length = .ok ()
  inst? : ∀ j, g.inst? j =
    if j = i then
      some ⟨op, w, false, operands, if op.hasResult then some ⟨f.values.size⟩ else none, none⟩
    else f.inst? j
  value? : ∀ v, g.value? v =
    if op.hasResult ∧ v = ⟨f.values.size⟩ then some ⟨.result i, w⟩ else f.value? v
  params : g.params = f.params
  blocks : g.blocks = f.blocks
  name : g.name = f.name
  count : ∀ v u, (g.uses v).count u =
    (f.uses v).count u + if u.user = i ∧ operands[u.operand]? = some v then 1 else 0

/-- The instruction after the last one does not exist. -/
theorem Creates.absent {op : Opcode} {w : Nat} {operands : List ValueId} {i : InstId}
    (h : f.Creates op w operands i g) : f.inst? i = none := by
  simp [Func.inst?, h.fresh]

/-- The value after the last one does not exist. -/
theorem value?_size (f : Func) : f.value? ⟨f.values.size⟩ = none := by
  simp [value?]

/-- A function with the record of a new instruction, whose operands are entered. -/
def enterInst (f : Func) (op : Opcode) (w : Nat) (operands : List ValueId) : Func :=
  let pushed : Func := { f with insts := f.insts.push ⟨op, w, false, operands, none, none⟩ }
  (pushed.operandUses ⟨f.insts.size⟩).foldl (fun g (v, u) => g.addUse v u) pushed

/-- A function in which an instruction is given a new value as its result. -/
def giveResult (f : Func) (i : InstId) (w : Nat) : Func :=
  (f.pushValue (.result i) w).2.modifyInst i fun d => { d with result := some ⟨f.values.size⟩ }

theorem createInst_eq (f : Func) (op : Opcode) (w : Nat) (operands : List ValueId) :
    f.createInst op w operands = (checkInst op w operands.length).bind fun _ =>
      .ok (⟨f.insts.size⟩,
        if op.hasResult then (f.enterInst op w operands).giveResult ⟨f.insts.size⟩ w
        else f.enterInst op w operands) := by
  unfold createInst
  cases checkInst op w operands.length with
  | error e => rfl
  | ok u =>
    change (if op.hasResult then _ else _) = _
    split <;> rfl

section Enter

variable (f) (op : Opcode) (w : Nat) (operands : List ValueId)

theorem sameButChains_enterInst :
    SameButChains { f with insts := f.insts.push ⟨op, w, false, operands, none, none⟩ }
      (f.enterInst op w operands) :=
  sameButChains_foldl_addUse _ _

theorem inst?_enterInst (j : InstId) :
    (f.enterInst op w operands).inst? j =
      if j = ⟨f.insts.size⟩ then some ⟨op, w, false, operands, none, none⟩ else f.inst? j := by
  obtain ⟨j⟩ := j
  rw [(sameButChains_enterInst f op w operands).inst?]
  simp [inst?, Array.getElem?_push]

theorem count_uses_enterInst (v : ValueId) (u : Use) :
    ((f.enterInst op w operands).uses v).count u =
      (f.uses v).count u +
        if u.user = ⟨f.insts.size⟩ ∧ operands[u.operand]? = some v then 1 else 0 := by
  rw [enterInst, count_uses_foldl_addUse, count_operandUses]
  simp only [Func.operands, inst?, Array.getElem?_push_size, Option.elim_some]
  rfl

end Enter

theorem inst?_giveResult (f : Func) (i : InstId) (w : Nat) (j : InstId) :
    (f.giveResult i w).inst? j =
      if j = i then (f.inst? j).map fun d => { d with result := some ⟨f.values.size⟩ }
      else f.inst? j := by
  rw [giveResult, inst?_modifyInst]
  simp only [eq_comm]
  rfl

theorem value?_giveResult (f : Func) (i : InstId) (w : Nat) (v : ValueId) :
    (f.giveResult i w).value? v =
      if v = ⟨f.values.size⟩ then some ⟨.result i, w⟩ else f.value? v :=
  (addsValue_pushValue f (.result i) w).value? v

@[simp] theorem uses_giveResult (f : Func) (i : InstId) (w : Nat) (v : ValueId) :
    (f.giveResult i w).uses v = f.uses v :=
  uses_pushValue f (.result i) w v

/-- Giving a result changes no name, no parameters and no blocks. -/
theorem frame_giveResult (f : Func) (i : InstId) (w : Nat) :
    (f.giveResult i w).name = f.name ∧ (f.giveResult i w).params = f.params ∧
      (f.giveResult i w).blocks = f.blocks :=
  ⟨rfl, rfl, rfl⟩

theorem createInst_eq_ok {op : Opcode} {w : Nat} {operands : List ValueId} {i : InstId}
    (h : f.createInst op w operands = .ok (i, g)) : f.Creates op w operands i g := by
  rw [createInst_eq] at h
  cases hc : checkInst op w operands.length with
  | error e =>
    rw [hc] at h
    cases h
  | ok u =>
    rw [hc] at h
    injection h with h
    injection h with hi hg
    subst hi hg
    have same := sameButChains_enterInst f op w operands
    have hsize : (f.enterInst op w operands).values.size = f.values.size := by
      rw [same.values]
    by_cases hr : op.hasResult
    · obtain ⟨hname, hparams, hblocks⟩ :=
        frame_giveResult (f.enterInst op w operands) ⟨f.insts.size⟩ w
      rw [if_pos hr]
      constructor
      case fresh => rfl
      case checked => exact hc
      case inst? =>
        intro j
        rw [inst?_giveResult, inst?_enterInst, hsize]
        by_cases hj : j = ⟨f.insts.size⟩ <;> simp [hj, hr]
      case value? =>
        intro v
        rw [value?_giveResult, same.value?, hsize]
        simp only [hr, true_and]
        rfl
      case params => rw [hparams, same.params]
      case blocks => rw [hblocks, same.blocks]
      case name => rw [hname, same.name]
      case count =>
        intro v u
        rw [uses_giveResult, count_uses_enterInst]
    · rw [if_neg hr]
      constructor
      case fresh => rfl
      case checked => exact hc
      case inst? =>
        intro j
        simp only [hr]
        exact inst?_enterInst f op w operands j
      case value? =>
        intro v
        simp only [hr]
        exact same.value? v
      case params => exact same.params
      case blocks => exact same.blocks
      case name => exact same.name
      case count => exact count_uses_enterInst f op w operands

/-- Setting whether an instruction is exact changes nothing else. -/
theorem setExact_eq_ok {i : InstId} {exact : Bool} (h : f.setExact i exact = .ok g) :
    (f.inst? i).isSome ∧ g = f.modifyInst i fun d => { d with exact := exact } := by
  unfold setExact requireInst at h
  cases hd : f.inst? i with
  | none =>
    rw [hd] at h
    cases h
  | some d =>
    rw [hd] at h
    injection h with h
    exact ⟨rfl, h.symm⟩

/-! ### Moving instructions in and out of blocks -/

/-- Only the list that a block has matters to a change of it. -/
theorem modifyBlock_congr {b : BlockId} {p q : List InstId → List InstId}
    (h : p (f.blockInsts b) = q (f.blockInsts b)) : f.modifyBlock b p = f.modifyBlock b q := by
  have harray : f.blocks.modify b.index p = f.blocks.modify b.index q := by
    refine Array.ext_getElem? fun k => ?_
    rw [Array.getElem?_modify, Array.getElem?_modify]
    split
    · next hk =>
      subst hk
      cases hb : f.blocks[b.index]? with
      | none => rfl
      | some is =>
        simp only [blockInsts, hb, Option.getD_some] at h
        simp [h]
    · rfl
  simp only [modifyBlock, harray]

/-- The effect of putting a detached instruction into a block, between two parts of its list. -/
structure Attaches (f : Func) (i : InstId) (b : BlockId) (before after : List InstId)
    (g : Func) : Prop where
  detached : ∃ d, f.inst? i = some d ∧ d.block = none
  listed : f.blockInsts b = before ++ after
  exists_block : b.index < f.blocks.size
  eq : g = (f.modifyInst i fun d => { d with block := some b }).modifyBlock b
    fun _ => before ++ i :: after

theorem pushInst_eq_ok {b : BlockId} {i : InstId} (h : f.pushInst b i = ⟨g, .ok ()⟩) :
    f.Attaches i b (f.blockInsts b) [] g := by
  unfold pushInst at h
  split at h
  · cases h
  · next d hd =>
    split at h
    · cases h
    · next hb =>
      dsimp only at h
      split at h
      · next hlt =>
        injection h with h
        refine ⟨⟨d, hd, by simpa using hb⟩, by simp, hlt, ?_⟩
        rw [← h]
        exact modifyBlock_congr rfl
      · cases h

/-- When an instruction can be inserted before another one, and what becomes of the function. -/
theorem insertBefore_eq_ok_iff {before i : InstId} :
    f.insertBefore before i = .ok g ↔ ∃ d e b, f.inst? i = some d ∧ d.block = none ∧
      f.inst? before = some e ∧ e.block = some b ∧ b.index < f.blocks.size ∧
      before ∈ f.blockInsts b ∧
      g = (f.modifyInst i fun d => { d with block := some b }).modifyBlock b
        (insertBeforeIn before i) := by
  unfold insertBefore requireInst
  cases hd : f.inst? i with
  | none => simp
  | some d =>
    cases hdb : d.block with
    | some c => simp [hdb]
    | none =>
      cases he : f.inst? before with
      | none => simp [hdb]
      | some e =>
        cases heb : e.block with
        | none => simp [hdb, heb]
        | some b =>
          by_cases hb : b.index < f.blocks.size
          · by_cases hmem : before ∈ f.blockInsts b
            · simp [hdb, heb, hb, hmem]
              exact eq_comm
            · simp [hdb, heb, hb, hmem]
          · simp [hdb, heb, hb]

/-- A list splits at an entry, right before which the new entry goes. -/
theorem insertBeforeIn_split {before i : InstId} {is : List InstId} (h : before ∈ is) :
    ∃ front back, is = front ++ before :: back ∧
      insertBeforeIn before i is = front ++ i :: before :: back := by
  induction is with
  | nil => cases h
  | cons j is ih =>
    by_cases hj : j = before
    · subst hj
      exact ⟨[], is, rfl, by simp [insertBeforeIn]⟩
    · obtain ⟨front, back, rfl, hin⟩ := ih ((List.mem_cons.mp h).resolve_left (Ne.symm hj))
      refine ⟨j :: front, back, rfl, ?_⟩
      simpa [insertBeforeIn, hj] using hin

/-- An instruction is inserted right before the other one. -/
theorem insertBefore_eq_ok {before i : InstId} (h : f.insertBefore before i = .ok g) :
    ∃ e b front back, f.inst? before = some e ∧ e.block = some b ∧
      f.Attaches i b front (before :: back) g := by
  obtain ⟨d, e, b, hd, hdb, he, heb, hb, hmem, rfl⟩ := insertBefore_eq_ok_iff.mp h
  obtain ⟨front, back, hlist, hin⟩ := insertBeforeIn_split (i := i) hmem
  exact ⟨e, b, front, back, he, heb, ⟨d, hd, hdb⟩, hlist, hb, modifyBlock_congr hin⟩

namespace Attaches

variable {i : InstId} {b : BlockId} {before after : List InstId}
  (h : f.Attaches i b before after g)
include h

theorem inst? (j : InstId) :
    g.inst? j =
      if j = i then (f.inst? j).map fun d => { d with block := some b } else f.inst? j := by
  rw [h.eq, inst?_modifyBlock, inst?_modifyInst]
  simp only [eq_comm]

theorem value? (v : ValueId) : g.value? v = f.value? v := by
  rw [h.eq]
  rfl

theorem uses (v : ValueId) : g.uses v = f.uses v := by
  rw [h.eq]
  rfl

theorem params : g.params = f.params := by
  rw [h.eq]
  rfl

theorem name : g.name = f.name := by
  rw [h.eq]
  rfl

theorem blocks_size : g.blocks.size = f.blocks.size := by
  rw [h.eq]
  simp [modifyBlock, modifyInst]

theorem blockInsts (c : BlockId) :
    g.blockInsts c = if c = b then before ++ i :: after else f.blockInsts c := by
  rw [h.eq, blockInsts_modifyBlock]
  by_cases hcb : c = b
  · subst hcb
    simp [modifyInst, h.exists_block]
  · simp [hcb, Ne.symm hcb]

end Attaches

/-! ### Detaching -/

theorem inst?_detach (f : Func) (i j : InstId) :
    (f.detach i).inst? j =
      if j = i then (f.inst? j).map fun d => { d with block := none } else f.inst? j := by
  unfold detach
  split
  · rw [inst?_modifyBlock, inst?_modifyInst]
    simp only [eq_comm]
  · next hb =>
    by_cases hj : j = i
    · subst hj
      cases hd : f.inst? j with
      | none => simp
      | some d =>
        obtain ⟨op, w, exact, operands, result, block⟩ := d
        cases block with
        | none => simp
        | some b => simp [hd] at hb
    · simp [hj]

@[simp] theorem value?_detach (f : Func) (i : InstId) (v : ValueId) :
    (f.detach i).value? v = f.value? v := by
  unfold detach
  split <;> rfl

@[simp] theorem uses_detach (f : Func) (i : InstId) (v : ValueId) :
    (f.detach i).uses v = f.uses v := by
  unfold detach
  split <;> rfl

@[simp] theorem params_detach (f : Func) (i : InstId) : (f.detach i).params = f.params := by
  unfold detach
  split <;> rfl

@[simp] theorem name_detach (f : Func) (i : InstId) : (f.detach i).name = f.name := by
  unfold detach
  split <;> rfl

@[simp] theorem size_blocks_detach (f : Func) (i : InstId) :
    (f.detach i).blocks.size = f.blocks.size := by
  unfold detach
  split <;> simp [modifyBlock, modifyInst]

/-- An instruction leaves the list of its block. -/
theorem blockInsts_detach (f : Func) (i : InstId) (b : BlockId) :
    (f.detach i).blockInsts b =
      if (f.inst? i).bind (·.block) = some b then (f.blockInsts b).filter (· ≠ i)
      else f.blockInsts b := by
  unfold detach
  split
  · next c hc =>
    rw [blockInsts_modifyBlock, hc]
    by_cases hcb : c = b
    · subst hcb
      by_cases hlt : c.index < f.blocks.size
      · simp only [modifyInst, hlt, and_self, if_true]
        rfl
      · simp [modifyInst, Func.blockInsts, hlt]
    · simp [hcb]
  · next hc => simp [hc]

theorem operands_detach (f : Func) (i j : InstId) :
    (f.detach i).operands j = f.operands j := by
  simp only [operands, inst?_detach]
  split
  · cases f.inst? j <;> rfl
  · rfl

theorem detachInst_eq_ok {i : InstId} (h : f.detachInst i = ⟨g, .ok ()⟩) : g = f.detach i := by
  unfold detachInst at h
  split at h
  · injection h with h
    exact h.symm
  · cases h

/-! ### Removing -/

theorem removeInst_eq_ok {i : InstId} (h : f.removeInst i = .ok g) :
    ∃ d, f.inst? i = some d ∧ d.block = none ∧ g = f.release i := by
  unfold removeInst requireInst at h
  cases hd : f.inst? i with
  | none => simp [hd] at h
  | some d =>
    cases hb : d.block with
    | some b => simp [hd, hb] at h
    | none =>
      refine ⟨d, rfl, hb, ?_⟩
      cases hr : d.result with
      | none =>
        simp [hd, hb, hr] at h
        exact h.symm
      | some v =>
        by_cases hu : f.uses v = []
        · simp [hd, hb, hr, hu] at h
          exact h.symm
        · simp [hd, hb, hr, hu] at h

/-! ### Replacing -/

/-- An instruction with a value put at the positions of it that a chain lists. -/
def redirect (chain : List Use) (new : ValueId) (i : InstId) (d : Inst) : Inst :=
  { d with operands := d.operands.mapIdx fun k v => if ⟨i, k⟩ ∈ chain then new else v }

theorem inst?_setOperand (f : Func) (u : Use) (v : ValueId) (i : InstId) :
    (f.setOperand u v).inst? i =
      if u.user = i then
        (f.inst? i).map fun d => { d with operands := d.operands.set u.operand v }
      else f.inst? i :=
  inst?_modifyInst f u.user i _

/-- The walk over a chain puts the new value at the positions that the chain lists. -/
theorem inst?_foldl_setOperand (chain : List Use) (new : ValueId) (f : Func) (i : InstId) :
    (chain.foldl (fun g u => (g.setOperand u new).addUse new u) f).inst? i =
      (f.inst? i).map (redirect chain new i) := by
  induction chain generalizing f with
  | nil =>
    have hid (d : Inst) : redirect [] new i d = d := by simp [redirect, List.mapIdx_eq_zipIdx_map]
    cases hd : f.inst? i <;> simp [hd, hid]
  | cons u chain ih =>
    rw [List.foldl_cons, ih, (sameButChains_addUse _ new u).inst?, inst?_setOperand]
    obtain ⟨j, n⟩ := u
    cases hd : f.inst? i with
    | none => simp
    | some d =>
      by_cases hj : j = i
      · subst hj
        simp only [if_true, Option.map_some, redirect, Option.some.injEq, Inst.mk.injEq, true_and,
          and_true]
        -- a position of this instruction is set now, or by the rest of the chain, or not at all
        refine List.ext_getElem? fun k => ?_
        rw [List.getElem?_mapIdx, List.getElem?_mapIdx, List.getElem?_set]
        by_cases hk : n = k
        · subst hk
          by_cases hn : n < d.operands.length <;> simp [hn]
        · simp [hk, Ne.symm hk]
      · simp [hj, Ne.symm hj, redirect]

/-- The walk over a chain adds the chain to that of the new value. -/
theorem uses_foldl_setOperand (chain : List Use) (new : ValueId) (f : Func) (v : ValueId) :
    (chain.foldl (fun g u => (g.setOperand u new).addUse new u) f).uses v =
      if new = v then f.uses v ++ chain else f.uses v := by
  induction chain generalizing f with
  | nil => simp
  | cons u chain ih =>
    rw [List.foldl_cons, ih, uses_addUse]
    by_cases hv : new = v
    · simp [hv, setOperand]
    · simp [hv, setOperand]

/-- The walk over a chain changes operands and chains only. -/
theorem frame_foldl_setOperand (chain : List Use) (new : ValueId) (f : Func) :
    let g := chain.foldl (fun g u => (g.setOperand u new).addUse new u) f
    g.name = f.name ∧ g.params = f.params ∧ g.values = f.values ∧ g.blocks = f.blocks := by
  induction chain generalizing f with
  | nil => exact ⟨rfl, rfl, rfl, rfl⟩
  | cons u chain ih => exact ih ((f.setOperand u new).addUse new u)

section Replace

variable (f) {old new : ValueId}

theorem inst?_replaceAllUses (hne : old ≠ new) (i : InstId) :
    (f.replaceAllUses old new).inst? i = (f.inst? i).map (redirect (f.uses old) new i) := by
  rw [replaceAllUses, if_neg hne]
  exact inst?_foldl_setOperand (f.uses old) new (f.modifyChain old fun _ => []) i

/-- The chain of the old value moves to the end of that of the new one. -/
theorem uses_replaceAllUses (hne : old ≠ new) (v : ValueId) :
    (f.replaceAllUses old new).uses v =
      if v = old then [] else if v = new then f.uses new ++ f.uses old else f.uses v := by
  rw [replaceAllUses, if_neg hne, uses_foldl_setOperand, uses_modifyChain]
  by_cases hold : v = old
  · subst hold
    by_cases hlt : v.index < f.chains.size
    · simp [Ne.symm hne, hlt]
    · simp [Ne.symm hne, uses, hlt]
  · by_cases hnew : v = new
    · subst hnew
      simp [hold, Ne.symm hold]
    · simp [hold, Ne.symm hold, hnew, Ne.symm hnew]

theorem frame_replaceAllUses (old new : ValueId) :
    let g := f.replaceAllUses old new
    g.name = f.name ∧ g.params = f.params ∧ g.values = f.values ∧ g.blocks = f.blocks := by
  unfold replaceAllUses
  split
  · exact ⟨rfl, rfl, rfl, rfl⟩
  · exact frame_foldl_setOperand (f.uses old) new (f.modifyChain old fun _ => [])

theorem value?_replaceAllUses (old new v : ValueId) :
    (f.replaceAllUses old new).value? v = f.value? v := by
  simp only [value?, (frame_replaceAllUses f old new).2.2.1]

theorem layout_replaceAllUses (old new : ValueId) :
    (f.replaceAllUses old new).layout = f.layout := by
  simp only [layout, (frame_replaceAllUses f old new).2.2.2]

theorem blockInsts_replaceAllUses (old new : ValueId) (b : BlockId) :
    (f.replaceAllUses old new).blockInsts b = f.blockInsts b := by
  simp only [blockInsts, (frame_replaceAllUses f old new).2.2.2]

end Replace

/-! ### Erasing -/

/-- The erasure of attached dead instructions, one after another. Every one is attached and dead
when its turn comes. -/
inductive Erases : Func → List InstId → Func → Prop
  | nil {e} : Erases e [] e
  | cons {e i is e'} (attached : e.isAttached i) (dead : e.isDead i)
      (rest : Erases ((e.detach i).release i) is e') : Erases e (i :: is) e'

/-- The edit behind a result that has been changed. -/
theorem Edited.map_eq_ok {α β : Type} {e : Edited α} {p : α → β} {b : β}
    (h : e.map p = ⟨g, .ok b⟩) : ∃ a, e = ⟨g, .ok a⟩ ∧ p a = b := by
  obtain ⟨f, r⟩ := e
  cases r with
  | error x => simp [Edited.map, Except.map] at h
  | ok a =>
    simp only [Edited.map, Except.map, Edited.mk.injEq, Except.ok.injEq] at h
    exact ⟨a, by rw [h.1], h.2⟩

/-- What is dead has no effect but a result that nothing uses. -/
theorem isDead_iff {i : InstId} :
    f.isDead i ↔ ∃ d v, f.inst? i = some d ∧ d.opcode.isPure ∧ d.result = some v ∧
      f.uses v = [] := by
  simp only [isDead, Option.any_eq_true, Bool.and_eq_true, List.isEmpty_iff]
  constructor
  · rintro ⟨d, hd, hpure, v, hv, huses⟩
    exact ⟨d, v, hd, hpure, hv, huses⟩
  · rintro ⟨d, v, hd, hpure, hv, huses⟩
    exact ⟨d, hd, hpure, v, hv, huses⟩

/-- An induction along an erasure. What is on the stack is passed over unless it is attached and
dead. Otherwise it is erased, and the definers of its operands that are dead then come on top. -/
theorem eraseAll_induction {motive : Func → List InstId → Nat → Prop}
    (nil : motive g [] 0)
    (skip : ∀ {f i rest n}, ¬ (f.isAttached i ∧ f.isDead i) → motive f rest n →
      motive f (i :: rest) n)
    (erase : ∀ {f i rest n}, f.isAttached i → f.isDead i →
      motive ((f.detach i).release i)
        (((f.detach i).release i).deadOperands (f.operands i) ++ rest) n →
      motive f (i :: rest) (n + 1))
    {stack : List InstId} {n : Nat} (h : f.eraseAll stack = ⟨g, .ok n⟩) : motive f stack n := by
  induction f, stack using eraseAll.induct generalizing n with
  | case1 f =>
    rw [eraseAll] at h
    injection h with hg hn
    injection hn with hn
    subst hg hn
    exact nil
  | case2 f i rest hi =>
    rw [eraseAll, dif_pos hi] at h
    dsimp only at h
    rw [if_pos ‹_›] at h
    cases h
  | case3 f i rest hi =>
    rw [eraseAll, dif_pos hi] at h
    dsimp only at h
    rw [if_neg ‹_›, if_pos ‹_›] at h
    cases h
  -- only here an instruction is erased; the others are passed over, or stop the erasure
  | case4 f i rest hi e hlt hb ho =>
    rename_i ih
    rw [eraseAll, dif_pos hi] at h
    dsimp only at h
    rw [if_neg hb, if_neg ho] at h
    obtain ⟨m, hm, rfl⟩ := Edited.map_eq_ok h
    exact erase hi.1 hi.2 (ih hm)
  | case5 f i rest hi ih =>
    rw [eraseAll, dif_neg hi] at h
    exact skip hi (ih h)

/-- Erasing a stack erases as many instructions, one after another, as it tells. -/
theorem eraseAll_eq_ok {stack : List InstId} {n : Nat} (h : f.eraseAll stack = ⟨g, .ok n⟩) :
    ∃ is, is.length = n ∧ Erases f is g := by
  refine eraseAll_induction (motive := fun f _ n => ∃ is, is.length = n ∧ Erases f is g)
    ?_ ?_ ?_ h
  · exact ⟨[], rfl, .nil⟩
  · exact fun _ ih => ih
  · rintro f i rest n ha hd ⟨is, rfl, herase⟩
    exact ⟨i :: is, rfl, .cons ha hd herase⟩

/-- Erasing a dead instruction erases a number of instructions, one after another. -/
theorem eraseDead_eq_ok {i : InstId} {n : Nat} (h : f.eraseDead i = ⟨g, .ok n⟩) :
    ∃ is, is.length = n ∧ Erases f is g := by
  unfold eraseDead at h
  split at h
  · exact eraseAll_eq_ok h
  · cases h

/-- An instruction is appended by creating it and putting it at the end of the block. -/
theorem append_eq_ok {b : BlockId} {op : Opcode} {w : Nat} {operands : List ValueId} {i : InstId}
    (h : f.append b op w operands = ⟨g, .ok i⟩) :
    ∃ e, f.createInst op w operands = .ok (i, e) ∧ e.pushInst b i = ⟨g, .ok ()⟩ := by
  unfold append at h
  split at h
  · next j e he =>
    obtain ⟨_, hpush, rfl⟩ := Edited.map_eq_ok h
    exact ⟨e, he, hpush⟩
  · cases h

/-- An instruction whose operands and width are in order can be appended to a block that exists, and
be marked. -/
theorem append_ok {b : BlockId} {op : Opcode} {w : Nat} {operands : List ValueId}
    (hcheck : checkInst op w operands.length = .ok ()) (hb : b.index < f.blocks.size)
    (exact : Bool) :
    ∃ e i g, f.append b op w operands = ⟨e, .ok i⟩ ∧ e.setExact i exact = .ok g := by
  let i : InstId := ⟨f.insts.size⟩
  obtain ⟨c, hcreate⟩ : ∃ c, f.createInst op w operands = .ok (i, c) := by
    rw [createInst_eq, hcheck]
    exact ⟨_, rfl⟩
  have creates := createInst_eq_ok hcreate
  have hi := (creates.inst? i).trans (if_pos rfl)
  have hlt : b.index < c.blocks.size := by rwa [creates.blocks]
  let e := (c.modifyInst i fun d => { d with block := some b }).modifyBlock b (· ++ [i])
  have happend : f.append b op w operands = ⟨e, .ok i⟩ := by
    rw [append, hcreate]
    dsimp only
    rw [pushInst, hi]
    simp [hlt, e, Edited.map, Except.map]
  have hexact : e.setExact i exact = .ok (e.modifyInst i fun d => { d with exact := exact }) := by
    rw [setExact, requireInst, inst?_modifyBlock, inst?_modifyInst, if_pos rfl, hi]
    rfl
  exact ⟨e, i, _, happend, hexact⟩

end Func

end Peephole

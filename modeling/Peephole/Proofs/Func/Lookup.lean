import Peephole.Func.Dead
import Mathlib.Data.List.Nodup

/-!
# Looking up after an edit

What each raw update of a function changes, and what it leaves alone. An edit is a few raw updates
in a row, so that these equations say where a value, an instruction, a block or a use-chain of the
edited function comes from.

* `operandUses` is counted, not listed: a position occurs once, and with the value that stands
there. * `redirected` is what replacing a value does to one instruction.
-/

namespace Peephole

namespace Func

variable {f : Func}

/-! ### Raw updates -/

section Raw

variable (f)

theorem inst?_modifyInst (i j : InstId) (g : Inst → Inst) :
    (f.modifyInst i g).inst? j = if i = j then (f.inst? j).map g else f.inst? j := by
  obtain ⟨i⟩ := i
  obtain ⟨j⟩ := j
  simp [modifyInst, inst?, Array.getElem?_modify]

@[simp] theorem value?_modifyInst (i : InstId) (g : Inst → Inst) (v : ValueId) :
    (f.modifyInst i g).value? v = f.value? v := rfl

@[simp] theorem uses_modifyInst (i : InstId) (g : Inst → Inst) (v : ValueId) :
    (f.modifyInst i g).uses v = f.uses v := rfl

@[simp] theorem blockInsts_modifyInst (i : InstId) (g : Inst → Inst) (b : BlockId) :
    (f.modifyInst i g).blockInsts b = f.blockInsts b := rfl

@[simp] theorem layout_modifyInst (i : InstId) (g : Inst → Inst) :
    (f.modifyInst i g).layout = f.layout := rfl

@[simp] theorem params_modifyInst (i : InstId) (g : Inst → Inst) :
    (f.modifyInst i g).params = f.params := rfl

@[simp] theorem inst?_modifyBlock (b : BlockId) (g : List InstId → List InstId) (i : InstId) :
    (f.modifyBlock b g).inst? i = f.inst? i := rfl

@[simp] theorem value?_modifyBlock (b : BlockId) (g : List InstId → List InstId) (v : ValueId) :
    (f.modifyBlock b g).value? v = f.value? v := rfl

@[simp] theorem uses_modifyBlock (b : BlockId) (g : List InstId → List InstId) (v : ValueId) :
    (f.modifyBlock b g).uses v = f.uses v := rfl

@[simp] theorem params_modifyBlock (b : BlockId) (g : List InstId → List InstId) :
    (f.modifyBlock b g).params = f.params := rfl

/-- Only the block itself changes, if it exists. -/
theorem blockInsts_modifyBlock (b c : BlockId) (g : List InstId → List InstId) :
    (f.modifyBlock b g).blockInsts c =
      if b = c ∧ b.index < f.blocks.size then g (f.blockInsts c) else f.blockInsts c := by
  obtain ⟨b⟩ := b
  obtain ⟨c⟩ := c
  by_cases hbc : b = c
  · subst hbc
    by_cases hb : b < f.blocks.size
    · simp [modifyBlock, blockInsts, Array.getElem_modify, hb]
    · simp [modifyBlock, blockInsts, hb]
  · simp [modifyBlock, blockInsts, Array.getElem?_modify, hbc]

@[simp] theorem inst?_modifyChain (v : ValueId) (g : List Use → List Use) (i : InstId) :
    (f.modifyChain v g).inst? i = f.inst? i := rfl

@[simp] theorem value?_modifyChain (v : ValueId) (g : List Use → List Use) (w : ValueId) :
    (f.modifyChain v g).value? w = f.value? w := rfl

/-- Only the chain itself changes, if there is room for it. -/
theorem uses_modifyChain (v w : ValueId) (g : List Use → List Use) :
    (f.modifyChain v g).uses w =
      if v = w ∧ v.index < f.chains.size then g (f.uses w) else f.uses w := by
  obtain ⟨v⟩ := v
  obtain ⟨w⟩ := w
  by_cases hvw : v = w
  · subst hvw
    by_cases hv : v < f.chains.size
    · simp [modifyChain, uses, Array.getElem_modify, hv]
    · simp [modifyChain, uses, hv]
  · simp [modifyChain, uses, Array.getElem?_modify, hvw]

@[simp] theorem inst?_reserve (n : Nat) (i : InstId) : (f.reserve n).inst? i = f.inst? i := rfl

@[simp] theorem value?_reserve (n : Nat) (v : ValueId) : (f.reserve n).value? v = f.value? v := rfl

/-- Room for a chain is an empty chain. -/
@[simp] theorem uses_reserve (n : Nat) (v : ValueId) : (f.reserve n).uses v = f.uses v := by
  obtain ⟨v⟩ := v
  simp only [uses, reserve, Array.getElem?_append, Array.getElem?_replicate]
  by_cases hv : v < f.chains.size
  · simp [hv]
  · by_cases hn : v - f.chains.size < n - f.chains.size <;> simp [hv, hn]

@[simp] theorem uses_pushValue (o : Origin) (w : Nat) (v : ValueId) :
    (f.pushValue o w).2.uses v = f.uses v :=
  uses_reserve f (f.values.size + 1) v

/-- A value is added after the others. -/
theorem value?_pushValue (o : Origin) (w : Nat) (v : ValueId) :
    (f.pushValue o w).2.value? v =
      if v.index = f.values.size then some ⟨o, w⟩ else f.value? v := by
  simp [pushValue, value?, reserve, Array.getElem?_push]

/-- An entry goes to the end of its chain. -/
theorem uses_addUse (v w : ValueId) (u : Use) :
    (f.addUse v u).uses w = if v = w then f.uses w ++ [u] else f.uses w := by
  have room : v.index < (f.reserve (v.index + 1)).chains.size := by
    simp [reserve]
    omega
  rw [addUse, uses_modifyChain, uses_reserve]
  simp [room]

/-- A chain without room is empty, so that dropping from it changes nothing. -/
theorem uses_dropUse (v w : ValueId) (u : Use) :
    (f.dropUse v u).uses w = if v = w then (f.uses w).filter (· ≠ u) else f.uses w := by
  rw [dropUse, uses_modifyChain]
  by_cases hvw : v = w
  · subst hvw
    by_cases hv : v.index < f.chains.size
    · simp [hv]
    · simp [uses, hv]
  · simp [hvw]

end Raw

/-! ### Counting entries -/

section Counting

variable (f)

theorem count_uses_addUse (v w : ValueId) (u x : Use) :
    ((f.addUse v u).uses w).count x = (f.uses w).count x + [(v, u)].count (w, x) := by
  rw [uses_addUse]
  by_cases hvw : v = w
  · by_cases hux : u = x <;> simp [hvw, hux]
  · simp [hvw]

/-- Entries added one after another are added to the counts. -/
theorem count_uses_foldl_addUse (us : List (ValueId × Use)) (w : ValueId) (x : Use) :
    ((us.foldl (fun g (v, u) => g.addUse v u) f).uses w).count x =
      (f.uses w).count x + us.count (w, x) := by
  induction us generalizing f with
  | nil => simp
  | cons a us ih =>
    obtain ⟨v, u⟩ := a
    rw [List.foldl_cons, ih, count_uses_addUse]
    simp only [List.count_cons, List.count_nil]
    omega

/-- Entries dropped one after another are dropped for good. -/
theorem count_uses_foldl_dropUse (us : List (ValueId × Use)) (w : ValueId) (x : Use) :
    ((us.foldl (fun g (v, u) => g.dropUse v u) f).uses w).count x =
      if (w, x) ∈ us then 0 else (f.uses w).count x := by
  induction us generalizing f with
  | nil => simp
  | cons a us ih =>
    obtain ⟨v, u⟩ := a
    rw [List.foldl_cons, ih, uses_dropUse]
    by_cases hmem : (w, x) ∈ us
    · simp [hmem]
    · by_cases hvw : v = w
      · by_cases hux : u = x
        · subst hvw hux
          simp [hmem, List.count_eq_zero]
        · have hxu : x ≠ u := fun h => hux h.symm
          simp [hmem, hvw, hxu, List.count_filter]
      · have hwv : w ≠ v := fun h => hvw h.symm
        simp [hmem, hvw, hwv]

/-- A position of an instruction occurs with the value that stands there. -/
theorem mem_operandUses {i : InstId} {v : ValueId} {u : Use} :
    (v, u) ∈ f.operandUses i ↔ u.user = i ∧ (f.operands i)[u.operand]? = some v := by
  obtain ⟨j, k⟩ := u
  simp only [operandUses, List.mem_mapIdx, Prod.mk.injEq, Use.mk.injEq]
  constructor
  · rintro ⟨n, hn, rfl, rfl, rfl⟩
    exact ⟨rfl, List.getElem?_eq_getElem hn⟩
  · rintro ⟨rfl, hk⟩
    obtain ⟨hn, rfl⟩ := List.getElem?_eq_some_iff.mp hk
    exact ⟨k, hn, rfl, rfl, rfl⟩

theorem nodup_operandUses (i : InstId) : (f.operandUses i).Nodup := by
  refine List.nodup_iff_injective_getElem.mpr fun ⟨m, hm⟩ ⟨n, hn⟩ h => ?_
  simp only [operandUses, List.getElem_mapIdx, Prod.mk.injEq, Use.mk.injEq, true_and] at h
  exact Fin.ext h.2

theorem count_operandUses (i : InstId) (v : ValueId) (u : Use) :
    (f.operandUses i).count (v, u) =
      if u.user = i ∧ (f.operands i)[u.operand]? = some v then 1 else 0 := by
  rw [(nodup_operandUses f i).count]
  simp [mem_operandUses]

end Counting

/-! ### Chains alone -/

section Chains

/-- Two functions **agree but for chains** when they have the same name, parameters, values,
instructions and blocks. -/
structure SameButChains (f g : Func) : Prop where
  name : g.name = f.name
  params : g.params = f.params
  values : g.values = f.values
  insts : g.insts = f.insts
  blocks : g.blocks = f.blocks

theorem SameButChains.refl (f : Func) : SameButChains f f := ⟨rfl, rfl, rfl, rfl, rfl⟩

theorem SameButChains.trans {f g h : Func} (hfg : SameButChains f g) (hgh : SameButChains g h) :
    SameButChains f h :=
  ⟨hgh.name.trans hfg.name, hgh.params.trans hfg.params, hgh.values.trans hfg.values,
    hgh.insts.trans hfg.insts, hgh.blocks.trans hfg.blocks⟩

theorem sameButChains_addUse (f : Func) (v : ValueId) (u : Use) :
    SameButChains f (f.addUse v u) := ⟨rfl, rfl, rfl, rfl, rfl⟩

theorem sameButChains_dropUse (f : Func) (v : ValueId) (u : Use) :
    SameButChains f (f.dropUse v u) := ⟨rfl, rfl, rfl, rfl, rfl⟩

theorem sameButChains_foldl_addUse (us : List (ValueId × Use)) (f : Func) :
    SameButChains f (us.foldl (fun g (v, u) => g.addUse v u) f) := by
  induction us generalizing f with
  | nil => exact .refl f
  | cons u us ih => exact (sameButChains_addUse f u.1 u.2).trans (ih _)

theorem sameButChains_foldl_dropUse (us : List (ValueId × Use)) (f : Func) :
    SameButChains f (us.foldl (fun g (v, u) => g.dropUse v u) f) := by
  induction us generalizing f with
  | nil => exact .refl f
  | cons u us ih => exact (sameButChains_dropUse f u.1 u.2).trans (ih _)

theorem sameButChains_release (f : Func) (i : InstId) : SameButChains f (f.release i) :=
  sameButChains_foldl_dropUse _ f

/-- Releasing an instruction drops every entry of it and no other one. -/
theorem count_uses_release (f : Func) (i : InstId) (v : ValueId) (u : Use) :
    ((f.release i).uses v).count u =
      if u.user = i ∧ (f.operands i)[u.operand]? = some v then 0 else (f.uses v).count u := by
  rw [release, count_uses_foldl_dropUse]
  simp only [mem_operandUses]

variable {f g : Func} (h : SameButChains f g)
include h

theorem SameButChains.inst? (i : InstId) : g.inst? i = f.inst? i := by
  simp only [Func.inst?, h.insts]

theorem SameButChains.value? (v : ValueId) : g.value? v = f.value? v := by
  simp only [Func.value?, h.values]

theorem SameButChains.layout : g.layout = f.layout := by
  simp only [Func.layout, h.blocks]

theorem SameButChains.operands (i : InstId) : g.operands i = f.operands i := by
  simp only [Func.operands, h.inst?]

end Chains

end Func

end Peephole

import Peephole.Proofs.Func.Dying
import Peephole.Proofs.Func.Simplify

/-!
# Replacing a value everywhere

`replaceAllUses` looks at no instruction but those that the use-chain of the old value lists. It
does what a scan of the whole function would do, `Called.replaceAllUses_eq_renamed`: the chain has
every position at which the value stands, in instructions that are detached as well, and the
positions of removed instructions are in no chain.

The walk makes room for the chain of the new value. An existing value has its chain already,
`Called.hasChains`, so that no room is made that a scan would not make.
-/

namespace Peephole

namespace Func

variable {f g : Func} {gone : List InstId}

/-! ### The chains of existing values -/

/-- Every value has a use-chain. -/
def HasChains (f : Func) : Prop := f.values.size ≤ f.chains.size

theorem size_chains_addUse (f : Func) (v : ValueId) (u : Use) :
    (f.addUse v u).chains.size = max f.chains.size (v.index + 1) := by
  simp only [addUse, modifyChain, reserve, Array.size_modify, Array.size_append,
    Array.size_replicate]
  omega

/-- The walk over a chain makes room for the new value at most. -/
theorem size_chains_replaceAllUses (f : Func) (old new : ValueId) :
    f.chains.size ≤ (f.replaceAllUses old new).chains.size ∧
      (f.replaceAllUses old new).chains.size ≤ max f.chains.size (new.index + 1) := by
  unfold replaceAllUses
  split
  · exact ⟨Nat.le_refl _, Nat.le_max_left ..⟩
  · have hmodify : (f.modifyChain old fun _ => []).chains.size = f.chains.size :=
      Array.size_modify ..
    dsimp only
    rw [← hmodify]
    generalize f.uses old = chain
    generalize f.modifyChain old (fun _ => []) = g
    induction chain generalizing g with
    | nil => exact ⟨Nat.le_refl _, Nat.le_max_left ..⟩
    | cons u chain ih =>
      obtain ⟨hlow, hhigh⟩ := ih ((g.setOperand u new).addUse new u)
      have hstep : ((g.setOperand u new).addUse new u).chains.size =
          max g.chains.size (new.index + 1) := size_chains_addUse _ new u
      rw [hstep] at hlow hhigh
      rw [List.foldl_cons]
      omega

namespace HasChains

theorem empty (name : String) : (Func.empty name).HasChains := Nat.le_refl 0

/-- Chains are never given up. -/
theorem of_le (hf : f.HasChains) (hv : g.values.size = f.values.size)
    (hc : f.chains.size ≤ g.chains.size) : g.HasChains := by
  unfold HasChains at *
  omega

/-- A new value comes with its chain. -/
theorem pushValue (f : Func) (o : Origin) (w : Nat) : (f.pushValue o w).2.HasChains := by
  simp only [HasChains, Func.pushValue, reserve, Array.size_push, Array.size_append,
    Array.size_replicate]
  omega

theorem literal {w : Nat} {bits : Word} {v : ValueId} (hf : f.HasChains)
    (h : f.literal w bits = .ok (v, g)) : g.HasChains := by
  unfold Func.literal at h
  split at h
  · dsimp only at h
    split at h
    · cases h
      exact hf
    · obtain rfl := congrArg Prod.snd (Except.ok.inj h)
      exact .pushValue ..
  · cases h

theorem foldl_addUse (us : List (ValueId × Use)) (hf : f.HasChains) :
    (us.foldl (fun g (v, u) => g.addUse v u) f).HasChains := by
  induction us generalizing f with
  | nil => exact hf
  | cons a us ih =>
    refine ih (hf.of_le rfl ?_)
    rw [size_chains_addUse]
    exact Nat.le_max_left ..

theorem createInst {op : Opcode} {w : Nat} {operands : List ValueId} {i : InstId}
    (hf : f.HasChains) (h : f.createInst op w operands = .ok (i, g)) : g.HasChains := by
  rw [createInst_eq] at h
  obtain ⟨_, -, h⟩ := bind_eq_ok.mp h
  injection h with h
  injection h with _ hg
  have hentered : (f.enterInst op w operands).HasChains := by
    have hpushed :
        HasChains { f with insts := f.insts.push ⟨op, w, false, operands, none, none⟩ } := hf
    exact hpushed.foldl_addUse _
  rw [← hg]
  by_cases hr : op.hasResult
  · rw [if_pos hr]
    exact pushValue (f.enterInst op w operands) (.result _) w
  · rwa [if_neg hr]

theorem attaches {i : InstId} {b : BlockId} {before after : List InstId} (hf : f.HasChains)
    (e : f.Attaches i b before after g) : g.HasChains := by
  rw [e.eq]
  exact hf

theorem append {b : BlockId} {op : Opcode} {w : Nat} {operands : List ValueId} {i : InstId}
    (hf : f.HasChains) (h : f.append b op w operands = ⟨g, .ok i⟩) : g.HasChains := by
  obtain ⟨_, hcreate, hpush⟩ := append_eq_ok h
  exact (hf.createInst hcreate).attaches (pushInst_eq_ok hpush)

theorem detach (hf : f.HasChains) (i : InstId) : (f.detach i).HasChains := by
  unfold Func.detach
  split
  · exact hf
  · exact hf

theorem release (hf : f.HasChains) (i : InstId) : (f.release i).HasChains :=
  hf.of_le (by rw [(sameButChains_release f i).values])
    (Nat.le_of_eq (size_chains_release f i).symm)

theorem erases {is : List InstId} (hf : f.HasChains) (e : Erases f is g) : g.HasChains := by
  induction e with
  | nil => exact hf
  | cons _ _ _ ih => exact ih ((hf.detach _).release _)

theorem replaceAllUses (hf : f.HasChains) (old new : ValueId) :
    (f.replaceAllUses old new).HasChains := by
  obtain ⟨-, -, hvalues, -⟩ := frame_replaceAllUses f old new
  exact hf.of_le (by rw [hvalues]) (size_chains_replaceAllUses f old new).1

/-- No edit leaves a value without its chain. -/
theorem edit {now : List InstId} (hf : f.HasChains) (e : Edit f now g) : g.HasChains := by
  cases e with
  | addParam h =>
    unfold Func.addParam at h
    split at h
    · obtain rfl := congrArg Prod.snd (Except.ok.inj h)
      exact .pushValue ..
    · cases h
  | literal h => exact hf.literal h
  | createBlock h =>
    injection h with _ hg
    rw [← hg]
    exact hf
  | createInst _ h => exact hf.createInst h
  | append _ h => exact hf.append h
  | setExact h =>
    obtain ⟨-, rfl⟩ := setExact_eq_ok h
    exact hf
  | pushInst h => exact hf.attaches (pushInst_eq_ok h)
  | insertBefore h =>
    obtain ⟨_, _, _, _, -, -, e⟩ := insertBefore_eq_ok h
    exact hf.attaches e
  | detachInst h => exact detachInst_eq_ok h ▸ hf.detach _
  | removeInst h =>
    obtain ⟨_, -, -, rfl⟩ := removeInst_eq_ok h
    exact hf.release _
  | eraseDead h =>
    obtain ⟨_, -, herase⟩ := eraseDead_eq_ok h
    exact hf.erases herase
  | replaceAllUses _ _ => exact hf.replaceAllUses _ _

theorem call {now : List InstId} (hf : f.HasChains) (e : Call f now g) : g.HasChains := by
  cases e with
  | edit e => exact hf.edit e
  | createInst h => exact hf.createInst h
  | append h => exact hf.append h
  | replaceAllUses old new => exact hf.replaceAllUses old new

end HasChains

/-- What edits of existing entities lead to, calls lead to. -/
theorem Reachable.called (h : Reachable f gone) : Called f gone := by
  induction h with
  | empty name => exact .empty name
  | edit _ e ih => exact ih.call (.edit e)

theorem Called.hasChains (h : Called f gone) : f.HasChains := by
  induction h with
  | empty name => exact .empty name
  | call _ e ih => exact ih.call e

/-- The chain of an existing value has its place. -/
theorem HasChains.lt_size (hf : f.HasChains) {v : ValueId} (hv : (f.value? v).isSome) :
    v.index < f.chains.size := by
  have hlt : v.index < f.values.size := by simpa [value?] using hv
  exact Nat.lt_of_lt_of_le hlt hf

/-- No room is made when the new value exists. -/
theorem HasChains.size_replaceAllUses (hf : f.HasChains) (old : ValueId) {new : ValueId}
    (hnew : (f.value? new).isSome) : (f.replaceAllUses old new).chains.size = f.chains.size := by
  have hroom := hf.lt_size hnew
  obtain ⟨hlow, hhigh⟩ := size_chains_replaceAllUses f old new
  omega

/-! ### A scan of the whole function -/

/-- A function with a value put in the place of another one by a scan of all its instructions, the
removed ones aside. The chain of the old value goes to the end of that of the new one. -/
def renamed (f : Func) (gone : List InstId) (old new : ValueId) : Func :=
  { f with
    insts := f.insts.mapIdx fun k d =>
      if ⟨k⟩ ∈ gone then d else { d with operands := d.operands.map (rename old new) }
    chains := f.chains.mapIdx fun k chain =>
      if k = old.index then [] else if k = new.index then chain ++ f.uses old else chain }

theorem inst?_renamed (f : Func) (gone : List InstId) (old new : ValueId) (i : InstId) :
    (f.renamed gone old new).inst? i = (f.inst? i).map fun d =>
      if i ∈ gone then d else { d with operands := d.operands.map (rename old new) } := by
  simp [renamed, inst?, Array.getElem?_mapIdx]

theorem uses_renamed {old new : ValueId} (hf : f.HasChains) (hnew : (f.value? new).isSome)
    (v : ValueId) : (f.renamed gone old new).uses v =
      if v = old then [] else if v = new then f.uses new ++ f.uses old else f.uses v := by
  have hroom := hf.lt_size hnew
  obtain ⟨v⟩ := v
  obtain ⟨old⟩ := old
  obtain ⟨new⟩ := new
  simp only [renamed, uses, Array.getElem?_mapIdx, ValueId.mk.injEq]
  by_cases hold : v = old
  · cases f.chains[v]? <;> simp [hold]
  · by_cases hv : v = new
    · subst hv
      simp [hold, hroom]
    · cases f.chains[v]? <;> simp [hold, hv]

/-- The chain of a value lists the positions at which a scan finds it. -/
theorem Mirrored.redirect_eq (h : f.Mirrored gone) {i : InstId} {d : Inst}
    (hd : f.inst? i = some d) (old new : ValueId) : redirect (f.uses old) new i d =
      if i ∈ gone then d else { d with operands := d.operands.map (rename old new) } := by
  have hmem {k : Nat} {v : ValueId} (hk : d.operands[k]? = some v) :
      ⟨i, k⟩ ∈ f.uses old ↔ v = old ∧ i ∉ gone := by
    rw [h.mem_uses, operands, hd]
    simp [hk]
  have hoperands : (d.operands.mapIdx fun k v => if ⟨i, k⟩ ∈ f.uses old then new else v) =
      if i ∈ gone then d.operands else d.operands.map (rename old new) := by
    refine List.ext_getElem? fun k => ?_
    rw [List.getElem?_mapIdx]
    cases hk : d.operands[k]? with
    | none => by_cases hi : i ∈ gone <;> simp [hi, hk]
    | some v => by_cases hi : i ∈ gone <;> simp [hi, hk, hmem hk, rename]
  rw [redirect, hoperands]
  split <;> rfl

/-- To replace a value by walking its use-chain is to rename it in the whole function: wherever the
old value stands in an instruction that has not been removed, attached or not, the new one does
afterwards, and nothing else has changed. The old value has no uses then, and its chain has gone to
the end of that of the new value. -/
theorem Called.replaceAllUses_eq_renamed (h : Called f gone) {old new : ValueId}
    (hnew : (f.value? new).isSome) (hne : old ≠ new) :
    f.replaceAllUses old new = f.renamed gone old new ∧
      (f.replaceAllUses old new).uses old = [] ∧
      (f.replaceAllUses old new).uses new = f.uses new ++ f.uses old := by
  have huses := uses_replaceAllUses f hne
  obtain ⟨hname, hparams, hvalues, hblocks⟩ := frame_replaceAllUses f old new
  refine ⟨eq_of_lookups hname hparams hvalues ?_ (fun v => ?_) (fun i => ?_) ?_ fun b => ?_, ?_, ?_⟩
  · rw [h.hasChains.size_replaceAllUses old hnew]
    simp [renamed]
  · rw [huses, uses_renamed h.hasChains hnew]
  · rw [inst?_replaceAllUses f hne, inst?_renamed]
    cases hd : f.inst? i with
    | none => rfl
    | some d => exact congrArg some (h.mirrored.redirect_eq hd old new)
  · rw [hblocks]
    rfl
  · exact blockInsts_replaceAllUses f old new b
  · rw [huses, if_pos rfl]
  · rw [huses, if_neg (Ne.symm hne), if_pos rfl]

theorem Called.replaceAllUses_removedSum : Called removedSum [⟨0⟩] ∧
    (removedSum.replaceAllUses ⟨0⟩ ⟨2⟩).operands ⟨0⟩ = [⟨0⟩, ⟨0⟩] ∧
    (removedSum.replaceAllUses ⟨0⟩ ⟨2⟩).operands ⟨1⟩ = [⟨2⟩] ∧
    (removedSum.replaceAllUses ⟨0⟩ ⟨2⟩).operands ⟨2⟩ = [⟨2⟩] ∧
    (removedSum.replaceAllUses ⟨0⟩ ⟨2⟩).uses ⟨2⟩ = [⟨⟨1⟩, 0⟩, ⟨⟨2⟩, 0⟩] := by
  have hcalled := reachable_removedSum.called
  have hexists : (removedSum.value? ⟨2⟩).isSome := rfl
  have hne : (⟨0⟩ : ValueId) ≠ ⟨2⟩ := by decide
  obtain ⟨heq, -, hnew⟩ := hcalled.replaceAllUses_eq_renamed hexists hne
  refine ⟨hcalled, ?_, ?_, ?_, hnew⟩
  · rw [heq]
    decide
  · rw [heq]
    decide
  · rw [heq]
    decide

end Func

end Peephole

import Peephole.Proofs.Func.Effect

/-!
# Blocks in order

A function is **orderly** when every block lists, once, the instructions that name it, when its
parameters exist, and when values and instructions agree about what defines what. Calls keep
functions orderly whatever values they mention, `Called.orderly`: an operand need not exist.
-/

namespace Peephole

namespace Func

/-- A function is **orderly** when its blocks and the instructions agree, values and instructions
agree, and parameters exist. -/
structure Orderly (f : Func) : Prop where
  /-- A block lists the instructions that name it. -/
  listed {i b} : i ∈ f.blockInsts b ↔ (f.inst? i).bind (·.block) = some b
  /-- A block lists an instruction once. -/
  distinct (b) : (f.blockInsts b).Nodup
  /-- Parameters exist. -/
  param {v} : v ∈ f.params → (f.value? v).isSome
  /-- The definer of a value is the instruction with it as its result. -/
  definer {v i} : f.definer? v = some i ↔ f.result? i = some v

variable {f g : Func}

theorem isSome_of_definer? {v : ValueId} {i : InstId} (h : f.definer? v = some i) :
    (f.value? v).isSome := by
  unfold definer? at h
  cases hv : f.value? v with
  | none => simp [hv] at h
  | some d => rfl

/-- Results exist. -/
theorem Orderly.result (hf : f.Orderly) {i : InstId} {v : ValueId} (h : f.result? i = some v) :
    (f.value? v).isSome :=
  isSome_of_definer? (hf.definer.mpr h)

/-- The block that an instruction names exists. -/
theorem Orderly.hasBlock (hf : f.Orderly) (i : InstId) : f.hasBlock i := by
  simp only [Func.hasBlock, Option.all_eq_true, decide_eq_true_eq]
  intro d hd b hb
  have hi : i ∈ f.blockInsts b := hf.listed.mpr (by rw [hd]; exact hb)
  by_contra hlt
  simp [blockInsts, hlt] at hi

/-! ### What edits leave as it is -/

section AddsValue

variable {o : Origin} {w : Nat} {v : ValueId} (h : f.AddsValue o w v g)
include h

theorem AddsValue.inst? (i : InstId) : g.inst? i = f.inst? i := by
  simp only [Func.inst?, h.insts]

theorem AddsValue.blockInsts (b : BlockId) : g.blockInsts b = f.blockInsts b := by
  simp only [Func.blockInsts, h.blocks]

/-- Old values stay as they are. -/
theorem AddsValue.kept {x : ValueId} {d : Value} (hx : f.value? x = some d) :
    g.value? x = some d := by
  rw [h.value?, if_neg, hx]
  rintro rfl
  rw [h.absent] at hx
  cases hx

end AddsValue

section Creates

variable {op : Opcode} {w : Nat} {operands : List ValueId} {i : InstId}
  (e : f.Creates op w operands i g)
include e

/-- Old instructions stay as they are. -/
theorem Creates.kept {j : InstId} {d : Inst} (hj : f.inst? j = some d) : g.inst? j = some d := by
  rw [e.inst?, if_neg, hj]
  rintro rfl
  rw [e.absent] at hj
  cases hj

/-- Old values stay as they are. -/
theorem Creates.keptValue {x : ValueId} {d : Value} (hx : f.value? x = some d) :
    g.value? x = some d := by
  rw [e.value?, if_neg, hx]
  rintro ⟨-, rfl⟩
  rw [value?_size] at hx
  cases hx

theorem Creates.blockInsts (b : BlockId) : g.blockInsts b = f.blockInsts b := by
  simp only [Func.blockInsts, e.blocks]

theorem Creates.layout : g.layout = f.layout := by
  simp only [Func.layout, e.blocks]

end Creates

/-- A new block lists nothing. -/
theorem blockInsts_createBlock {b : BlockId} (h : f.createBlock = (b, g)) (c : BlockId) :
    g.blockInsts c = f.blockInsts c := by
  unfold createBlock at h
  injection h with hb hg
  subst hb hg
  simp only [blockInsts, Array.getElem?_push]
  split
  · next hc => simp [hc]
  · rfl

/-! ### Edits keep functions orderly -/

namespace Orderly

theorem empty (name : String) : (Func.empty name).Orderly := by
  constructor <;> simp [Func.empty, inst?, value?, blockInsts, result?, definer?]

/-- A change that keeps values, parameters and results, and that moves instructions between blocks
together with the lists of the blocks. -/
theorem of_kept (hf : f.Orderly) (hvalue : ∀ v, g.value? v = f.value? v)
    (hparams : g.params = f.params) (hresult : ∀ i, g.result? i = f.result? i)
    (hlisted : ∀ i b, i ∈ g.blockInsts b ↔ (g.inst? i).bind (·.block) = some b)
    (hdistinct : ∀ b, (g.blockInsts b).Nodup) : g.Orderly where
  listed := hlisted _ _
  distinct := hdistinct
  param {v} hv := by
    rw [hvalue]
    exact hf.param (hparams ▸ hv)
  definer {v i} := by
    rw [definer?, hvalue, hresult]
    exact hf.definer

theorem addsValue {o : Origin} {w : Nat} {v : ValueId} (hf : f.Orderly)
    (e : f.AddsValue o w v g) (ho : ∀ i, o ≠ .result i)
    (hp : ∀ x ∈ g.params, x ∈ f.params ∨ x = v) : g.Orderly := by
  constructor
  case listed =>
    intro i b
    rw [e.inst?, e.blockInsts]
    exact hf.listed
  case distinct =>
    intro b
    rw [e.blockInsts]
    exact hf.distinct b
  case param =>
    intro x hx
    obtain hx | rfl := hp x hx
    · obtain ⟨d, hd⟩ := Option.isSome_iff_exists.mp (hf.param hx)
      rw [e.kept hd]
      rfl
    · rw [e.value?, if_pos rfl]
      rfl
  case definer =>
    intro x i
    have hresult : g.result? i = f.result? i := by rw [result?, result?, e.inst?]
    rw [hresult]
    by_cases hxv : x = v
    · -- nothing has the new value as its result
      subst hxv
      have hnone : g.definer? x = none := by
        rw [definer?, e.value?, if_pos rfl]
        cases o with
        | result j => exact (ho j rfl).elim
        | parameter | literal => rfl
      rw [hnone]
      refine ⟨nofun, fun hr => ?_⟩
      have hx := hf.result hr
      rw [e.absent] at hx
      cases hx
    · rw [definer?, e.value?, if_neg hxv]
      exact hf.definer

theorem addParam {w : Nat} {c : Option TypeClass} {v : ValueId} (hf : f.Orderly)
    (h : f.addParam w c = .ok (v, g)) : g.Orderly := by
  obtain ⟨-, e, hp⟩ := addParam_eq_ok h
  exact hf.addsValue e nofun fun x hx => by simpa [hp] using hx

theorem literal {w : Nat} {bits : Word} {v : ValueId} (hf : f.Orderly)
    (h : f.literal w bits = .ok (v, g)) : g.Orderly := by
  obtain ⟨-, ⟨rfl, -⟩ | ⟨-, e, hp⟩⟩ := literal_eq_ok h
  · exact hf
  · exact hf.addsValue e nofun fun x hx => .inl (hp ▸ hx)

theorem createBlock {b : BlockId} (hf : f.Orderly) (h : f.createBlock = (b, g)) : g.Orderly := by
  have hblock := blockInsts_createBlock h
  unfold Func.createBlock at h
  injection h with hb hg
  subst hb hg
  refine hf.of_kept (fun _ => rfl) rfl (fun _ => rfl) (fun i c => ?_) fun c => ?_
  · rw [hblock]
    exact hf.listed
  · rw [hblock]
    exact hf.distinct c

theorem creates {op : Opcode} {w : Nat} {operands : List ValueId} {i : InstId} (hf : f.Orderly)
    (e : f.Creates op w operands i g) : g.Orderly := by
  constructor
  case listed =>
    intro j b
    rw [e.blockInsts, e.inst?]
    split
    · next hji =>
      rw [hf.listed, hji, e.absent]
      simp
    · exact hf.listed
  case distinct =>
    intro b
    rw [e.blockInsts]
    exact hf.distinct b
  case param =>
    intro x hx
    rw [e.params] at hx
    obtain ⟨d, hd⟩ := Option.isSome_iff_exists.mp (hf.param hx)
    rw [e.keptValue hd]
    rfl
  case definer =>
    intro x j
    rw [definer?, e.value?, result?, e.inst?]
    by_cases hx : op.hasResult ∧ x = ⟨f.values.size⟩
    · -- the new value is the result of the new instruction only
      obtain ⟨hr, rfl⟩ := hx
      by_cases hji : j = i
      · simp [hr, hji]
      · rw [if_pos ⟨hr, rfl⟩, if_neg hji]
        refine ⟨fun h => absurd (Option.some.inj h).symm hji, fun h => ?_⟩
        have hexists := hf.result h
        rw [value?_size] at hexists
        cases hexists
    · rw [if_neg hx]
      refine hf.definer.trans ?_
      by_cases hji : j = i
      · subst hji
        have hold : f.result? j = none := by rw [result?, e.absent]; rfl
        rw [hold, if_pos rfl]
        by_cases hr : op.hasResult
        · have hne : (⟨f.values.size⟩ : ValueId) ≠ x := fun h => hx ⟨hr, h.symm⟩
          simp [hr, hne]
        · simp [hr]
      · rw [if_neg hji]
        rfl

/-- Blocks and the instructions that name them still agree when neither has changed. -/
theorem listed_of_kept {p : InstId → Inst → Inst} (hf : f.Orderly)
    (hinst : ∀ i, g.inst? i = (f.inst? i).map (p i)) (hp : ∀ i d, (p i d).block = d.block)
    (hblock : ∀ b, g.blockInsts b = f.blockInsts b) (i : InstId) (b : BlockId) :
    i ∈ g.blockInsts b ↔ (g.inst? i).bind (·.block) = some b := by
  rw [hblock, hinst, hf.listed]
  cases f.inst? i with
  | none => rfl
  | some d => simp only [Option.map_some, Option.bind_some, hp i d]

theorem setExact {i : InstId} {exact : Bool} (hf : f.Orderly) (h : f.setExact i exact = .ok g) :
    g.Orderly := by
  obtain ⟨-, rfl⟩ := setExact_eq_ok h
  have hinst (j : InstId) : (f.modifyInst i fun d => { d with exact := exact }).inst? j =
      (f.inst? j).map fun d => if i = j then { d with exact := exact } else d := by
    rw [inst?_modifyInst]
    by_cases hij : i = j <;> simp [hij]
  refine hf.of_kept (fun _ => rfl) rfl (fun j => ?_)
    (hf.listed_of_kept hinst (fun j d => by split <;> rfl) fun _ => rfl) hf.distinct
  rw [result?, result?, hinst]
  cases f.inst? j with
  | none => rfl
  | some d => by_cases hij : i = j <;> simp [hij]

theorem replaceAllUses (hf : f.Orderly) (old new : ValueId) :
    (f.replaceAllUses old new).Orderly := by
  by_cases hne : old = new
  · rwa [Func.replaceAllUses, if_pos hne]
  · have hinst := inst?_replaceAllUses f hne
    have hblock := blockInsts_replaceAllUses f old new
    refine hf.of_kept (fun v => value?_replaceAllUses f old new v)
      (frame_replaceAllUses f old new).2.1 (fun i => ?_)
      (hf.listed_of_kept hinst (fun _ _ => rfl) hblock) fun b => ?_
    · rw [result?, result?, hinst]
      cases f.inst? i <;> rfl
    · rw [hblock]
      exact hf.distinct b

theorem attaches {i : InstId} {b : BlockId} {before after : List InstId} (hf : f.Orderly)
    (e : f.Attaches i b before after g) : g.Orderly := by
  obtain ⟨d, hd, hdb⟩ := e.detached
  have hout (c : BlockId) : i ∉ f.blockInsts c := by
    rw [hf.listed, hd]
    simp [hdb]
  -- the block lists the instruction once, as it did not list it before
  have hnodup := hf.distinct b
  have hib := hout b
  rw [e.listed] at hnodup hib
  refine hf.of_kept e.value? e.params (fun j => ?_) (fun j c => ?_) fun c => ?_
  · rw [result?, result?, e.inst?]
    split
    · cases f.inst? j <;> rfl
    · rfl
  · rw [e.blockInsts, e.inst?]
    by_cases hji : j = i
    · subst hji
      by_cases hcb : c = b
      · simp [hcb, hd]
      · simp [hcb, hd, hout c, Ne.symm hcb]
    · by_cases hcb : c = b
      · subst hcb
        rw [if_pos rfl, if_neg hji, ← hf.listed, e.listed]
        simp [hji]
      · rw [if_neg hcb, if_neg hji]
        exact hf.listed
  · rw [e.blockInsts]
    split
    · exact List.nodup_middle.mpr (List.nodup_cons.mpr ⟨hib, hnodup⟩)
    · exact hf.distinct c

theorem detach (hf : f.Orderly) (i : InstId) : (f.detach i).Orderly := by
  refine hf.of_kept (value?_detach f i) (params_detach f i) (fun j => ?_) (fun j b => ?_) fun b => ?_
  · rw [result?, result?, inst?_detach]
    split
    · cases f.inst? j <;> rfl
    · rfl
  · rw [blockInsts_detach, inst?_detach]
    by_cases hji : j = i
    · subst hji
      split
      · cases f.inst? j <;> simp
      · next hb =>
        rw [hf.listed]
        cases hd : f.inst? j <;> simp_all
    · rw [if_neg hji]
      split
      · rw [← hf.listed]
        simp [hji]
      · exact hf.listed
  · rw [blockInsts_detach]
    split
    · exact (hf.distinct b).filter _
    · exact hf.distinct b

theorem release (hf : f.Orderly) (i : InstId) : (f.release i).Orderly := by
  have same := sameButChains_release f i
  have hblock (b : BlockId) : (f.release i).blockInsts b = f.blockInsts b := by
    simp only [blockInsts, same.blocks]
  refine hf.of_kept same.value? same.params (fun j => ?_) (fun j b => ?_) fun b => ?_
  · rw [result?, result?, same.inst?]
  · rw [hblock, same.inst?]
    exact hf.listed
  · rw [hblock]
    exact hf.distinct b

theorem erases {is : List InstId} (hf : f.Orderly) (h : Erases f is g) : g.Orderly := by
  induction h with
  | nil => exact hf
  | cons attached dead rest ih => exact ih ((hf.detach _).release _)

theorem append {b : BlockId} {op : Opcode} {w : Nat} {operands : List ValueId} {i : InstId}
    (hf : f.Orderly) (h : f.append b op w operands = ⟨g, .ok i⟩) : g.Orderly := by
  obtain ⟨_, hcreate, hpush⟩ := append_eq_ok h
  exact (hf.creates (createInst_eq_ok hcreate)).attaches (pushInst_eq_ok hpush)

theorem edit {now : List InstId} (hf : f.Orderly) (e : Edit f now g) : g.Orderly := by
  cases e with
  | addParam h => exact hf.addParam h
  | literal h => exact hf.literal h
  | createBlock h => exact hf.createBlock h
  | createInst _ h => exact hf.creates (createInst_eq_ok h)
  | append _ h => exact hf.append h
  | setExact h => exact hf.setExact h
  | pushInst h => exact hf.attaches (pushInst_eq_ok h)
  | insertBefore h =>
    obtain ⟨_, _, _, _, -, -, e⟩ := insertBefore_eq_ok h
    exact hf.attaches e
  | detachInst h => exact detachInst_eq_ok h ▸ hf.detach _
  | removeInst h =>
    obtain ⟨_, -, -, rfl⟩ := removeInst_eq_ok h
    exact hf.release _
  | eraseDead h =>
    obtain ⟨_, -, herase⟩ := eraseDead_eq_ok h
    exact hf.erases herase
  | replaceAllUses _ _ => exact hf.replaceAllUses _ _

/-- Calls keep functions orderly, whatever values they mention. -/
theorem call {now : List InstId} (hf : f.Orderly) (e : Call f now g) : g.Orderly := by
  cases e with
  | edit e => exact hf.edit e
  | createInst h => exact hf.creates (createInst_eq_ok h)
  | append h => exact hf.append h
  | replaceAllUses old new => exact hf.replaceAllUses old new

end Orderly

/-- The functions that calls lead to are orderly. -/
theorem Called.orderly {gone : List InstId} (h : Called f gone) : f.Orderly := by
  induction h with
  | empty name => exact .empty name
  | call _ e ih => exact ih.call e

end Func

end Peephole

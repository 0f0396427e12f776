import Peephole.Proofs.Func.Orderly
import Peephole.Proofs.Opcode

/-!
# Coherent functions

The tables of a function say the same thing several times: an instruction names its block and the
block lists it, an instruction names its result and the result names its origin, parameters are
listed and marked. A function is **coherent** when they agree. Every function that edits lead to is
coherent, `Reachable.coherent`.
-/

namespace Peephole

namespace Func

/-- A function is **coherent** when its tables agree with each other. -/
structure Coherent (f : Func) : Prop where
  /-- Operands exist. -/
  known {i d v} : f.inst? i = some d → v ∈ d.operands → (f.value? v).isSome
  /-- Instructions have the operands and the width that their operation asks for. -/
  checked {i d} : f.inst? i = some d → checkInst d.opcode d.width d.operands.length = .ok ()
  /-- Instructions have a result when their operation produces one. -/
  produces {i d} : f.inst? i = some d → d.result.isSome = d.opcode.hasResult
  /-- The result of an instruction originates from it, and has its width. -/
  produced {i d v} : f.inst? i = some d → d.result = some v →
    f.value? v = some ⟨.result i, d.width⟩
  /-- A value that originates from an instruction is the result of it. -/
  producer {v i w} : f.value? v = some ⟨.result i, w⟩ → ∃ d, f.inst? i = some d ∧ d.result = some v
  /-- The parameters are listed in order. -/
  parameter {k v} : f.params[k]? = some v ↔ ∃ c w, f.value? v = some ⟨.parameter k c, w⟩
  /-- Values have supported widths. -/
  supported {v d} : f.value? v = some d → supported d.width
  /-- Literals have no bits above their width. -/
  masked {v b w} : f.value? v = some ⟨.literal b, w⟩ → b &&& mask w = b
  /-- There is one literal for a width and its bits. -/
  interned {v x b w} : f.value? v = some ⟨.literal b, w⟩ → f.value? x = some ⟨.literal b, w⟩ → v = x
  /-- A block lists the instructions that name it. -/
  listed {i b} : i ∈ f.blockInsts b ↔ (f.inst? i).bind (·.block) = some b
  /-- A block lists an instruction once. -/
  distinct (b) : (f.blockInsts b).Nodup

variable {f g : Func}

/-- The definer of a value is the instruction with it as its result. -/
theorem Coherent.definer?_eq_some (hf : f.Coherent) {v : ValueId} {i : InstId} :
    f.definer? v = some i ↔ f.result? i = some v := by
  constructor
  · intro h
    unfold definer? at h
    split at h
    · next j hj =>
      cases h
      obtain ⟨⟨o, w⟩, hv, ho⟩ := Option.map_eq_some_iff.mp hj
      dsimp only at ho
      subst ho
      obtain ⟨d, hd, hr⟩ := hf.producer hv
      rw [result?, hd]
      exact hr
    · cases h
  · intro h
    obtain ⟨d, hd, hr⟩ := Option.bind_eq_some_iff.mp h
    rw [definer?, hf.produced hd hr]
    rfl

theorem Coherent.orderly (hf : f.Coherent) : f.Orderly where
  listed := hf.listed
  distinct := hf.distinct
  param {v} hv := by
    obtain ⟨k, hk⟩ := List.mem_iff_getElem?.mp hv
    obtain ⟨c, w, hv⟩ := hf.parameter.mp hk
    rw [hv]
    rfl
  definer := hf.definer?_eq_some

/-! ### Edits keep functions coherent -/

/-- Nothing is coherent. -/
theorem coherent_empty (name : String) : (empty name).Coherent := by
  constructor <;> simp [empty, inst?, value?, blockInsts]

/-- Use-chains do not matter. -/
theorem SameButChains.coherent (h : SameButChains f g) (hf : f.Coherent) : g.Coherent := by
  obtain ⟨name, params, values, chains, insts, blocks⟩ := f
  obtain ⟨name', params', values', chains', insts', blocks'⟩ := g
  obtain ⟨hn, hp, hv, hi, hb⟩ := h
  dsimp only at hn hp hv hi hb
  subst hn hp hv hi hb
  exact ⟨hf.known, hf.checked, hf.produces, hf.produced, hf.producer, hf.parameter, hf.supported,
    hf.masked, hf.interned, hf.listed, hf.distinct⟩

/-- A new parameter is listed after the others. -/
theorem AddsValue.parameter_iff {w : Nat} {c : Option TypeClass} {v : ValueId} (hf : f.Coherent)
    (e : f.AddsValue (.parameter f.params.length c) w v g) (hp : g.params = f.params ++ [v])
    {k : Nat} {x : ValueId} :
    g.params[k]? = some x ↔ ∃ c n, g.value? x = some ⟨.parameter k c, n⟩ := by
  rw [hp, e.value?]
  -- the new value stands at the end of the list, and nowhere else in it
  by_cases hxv : x = v
  · subst hxv
    rw [if_pos rfl]
    constructor
    · intro hk
      by_cases hlt : k < f.params.length
      · rw [List.getElem?_append_left hlt] at hk
        obtain ⟨c, n, hx⟩ := hf.parameter.mp hk
        rw [e.absent] at hx
        cases hx
      · obtain ⟨hle, -⟩ := List.getElem?_eq_some_iff.mp hk
        have hk : k = f.params.length := by
          simp only [List.length_append, List.length_singleton] at hle
          omega
        exact ⟨c, w, by rw [hk]⟩
    · rintro ⟨c', n, hx⟩
      cases hx
      simp
  · rw [if_neg hxv, ← hf.parameter]
    by_cases hlt : k < f.params.length
    · rw [List.getElem?_append_left hlt]
    · rw [List.getElem?_append_right (Nat.le_of_not_lt hlt),
        List.getElem?_eq_none (Nat.le_of_not_lt hlt)]
      cases k - f.params.length with
      | zero => simp [Ne.symm hxv]
      | succ n => simp

/-- A new value that no instruction produces, with its width and its bits in order, fits in with
the others. -/
theorem Coherent.addsValue {o : Origin} {w : Nat} {v : ValueId} (hf : f.Coherent)
    (e : f.AddsValue o w v g) (hw : Peephole.supported w) (ho : ∀ i, o ≠ .result i)
    (hp : ∀ {k x}, g.params[k]? = some x ↔ ∃ c n, g.value? x = some ⟨.parameter k c, n⟩)
    (hl : ∀ b, o = .literal b → b &&& mask w = b ∧ ∀ x, f.value? x ≠ some ⟨.literal b, w⟩) :
    g.Coherent where
  known := by
    intro i d x hi hx
    rw [e.inst?] at hi
    obtain ⟨y, hy⟩ := Option.isSome_iff_exists.mp (hf.known hi hx)
    rw [e.kept hy]
    rfl
  checked hi := hf.checked (by rwa [e.inst?] at hi)
  produces hi := hf.produces (by rwa [e.inst?] at hi)
  produced := by
    intro i d x hi hx
    rw [e.inst?] at hi
    exact e.kept (hf.produced hi hx)
  producer := by
    intro x i n hx
    rw [e.value?] at hx
    split at hx
    · cases hx
      exact (ho i rfl).elim
    · simpa only [e.inst?] using hf.producer hx
  parameter := hp
  supported := by
    intro x d hx
    rw [e.value?] at hx
    split at hx
    · cases hx
      exact hw
    · exact hf.supported hx
  masked := by
    intro x b n hx
    rw [e.value?] at hx
    split at hx
    · cases hx
      exact (hl b rfl).1
    · exact hf.masked hx
  interned := by
    intro x y b n hx hy
    rw [e.value?] at hx hy
    split at hx <;> split at hy
    · next hxv hyv => exact hxv.trans hyv.symm
    · cases hx
      exact ((hl b rfl).2 y hy).elim
    · cases hy
      exact ((hl b rfl).2 x hx).elim
    · exact hf.interned hx hy
  listed := by
    intro i b
    rw [e.inst?, e.blockInsts]
    exact hf.listed
  distinct b := by
    rw [e.blockInsts]
    exact hf.distinct b

theorem Coherent.addParam {w : Nat} {c : Option TypeClass} {v : ValueId} (hf : f.Coherent)
    (h : f.addParam w c = .ok (v, g)) : g.Coherent := by
  obtain ⟨hw, e, hp⟩ := addParam_eq_ok h
  refine hf.addsValue e hw (fun i => by simp) (e.parameter_iff hf hp) fun b hb => ?_
  cases hb

theorem Coherent.literal {w : Nat} {bits : Word} {v : ValueId} (hf : f.Coherent)
    (h : f.literal w bits = .ok (v, g)) : g.Coherent := by
  obtain ⟨hw, ⟨rfl, -⟩ | ⟨hnew, e, hp⟩⟩ := literal_eq_ok h
  · exact hf
  · refine hf.addsValue e hw (fun i => by simp) ?_ fun b hb => ?_
    · intro k x
      rw [hp, e.value?]
      split
      · next hxv =>
        subst hxv
        rw [hf.parameter, e.absent]
        simp
      · exact hf.parameter
    · cases hb
      exact ⟨by rw [BitVec.and_assoc, BitVec.and_self], hnew⟩

theorem Coherent.createBlock {b : BlockId} (hf : f.Coherent) (h : f.createBlock = (b, g)) :
    g.Coherent := by
  have ho := hf.orderly.createBlock h
  unfold Func.createBlock at h
  injection h with hb hg
  subst hb hg
  exact ⟨hf.known, hf.checked, hf.produces, hf.produced, hf.producer, hf.parameter, hf.supported,
    hf.masked, hf.interned, ho.listed, ho.distinct⟩

theorem Coherent.creates {op : Opcode} {w : Nat} {operands : List ValueId} {i : InstId}
    (hf : f.Coherent) (hknown : ∀ v ∈ operands, (f.value? v).isSome)
    (e : f.Creates op w operands i g) : g.Coherent where
  known := by
    intro j d x hj hx
    have hold : (f.value? x).isSome := by
      rw [e.inst?] at hj
      split at hj
      · cases hj
        exact hknown x hx
      · exact hf.known hj hx
    obtain ⟨y, hy⟩ := Option.isSome_iff_exists.mp hold
    rw [e.keptValue hy]
    rfl
  checked := by
    intro j d hj
    rw [e.inst?] at hj
    split at hj
    · cases hj
      exact e.checked
    · exact hf.checked hj
  produces := by
    intro j d hj
    rw [e.inst?] at hj
    split at hj
    · cases hj
      by_cases hr : op.hasResult <;> simp [hr]
    · exact hf.produces hj
  produced := by
    intro j d x hj hx
    rw [e.inst?] at hj
    split at hj
    · next hji =>
      cases hj
      by_cases hr : op.hasResult
      · simp only [hr, if_true, Option.some.injEq] at hx
        rw [e.value?, if_pos ⟨hr, hx.symm⟩, hji]
      · simp [hr] at hx
    · exact e.keptValue (hf.produced hj hx)
  producer := by
    intro x j n hx
    rw [e.value?] at hx
    split at hx
    -- the new value is the result of the new instruction
    · next hr =>
      cases hx
      refine ⟨_, (e.inst? i).trans (if_pos rfl), ?_⟩
      simp [hr.1, hr.2]
    · obtain ⟨d, hd, hdx⟩ := hf.producer hx
      exact ⟨d, e.kept hd, hdx⟩
  parameter := by
    intro k x
    rw [e.params, e.value?]
    split
    · next hr =>
      rw [hf.parameter, hr.2, value?_size]
      simp
    · exact hf.parameter
  supported := by
    intro x d hx
    rw [e.value?] at hx
    split at hx
    · next hr =>
      cases hx
      exact supported_of_checkInst e.checked hr.1
    · exact hf.supported hx
  masked := by
    intro x b n hx
    rw [e.value?] at hx
    split at hx
    · cases hx
    · exact hf.masked hx
  interned := by
    intro x y b n hx hy
    rw [e.value?] at hx hy
    split at hx
    · cases hx
    · split at hy
      · cases hy
      · exact hf.interned hx hy
  listed := (hf.orderly.creates e).listed
  distinct := (hf.orderly.creates e).distinct

/-- A change of instructions that keeps their operations, widths and results, puts existing values
at their operands, and moves them between blocks together with the lists of the blocks. -/
theorem Coherent.modifies {p : InstId → Inst → Inst} (hf : f.Coherent)
    (hinst : ∀ i, g.inst? i = (f.inst? i).map (p i)) (hvalue : ∀ v, g.value? v = f.value? v)
    (hparams : g.params = f.params)
    (hkept : ∀ i d, (p i d).opcode = d.opcode ∧ (p i d).width = d.width ∧
      (p i d).result = d.result ∧ (p i d).operands.length = d.operands.length)
    (hknown : ∀ i d, f.inst? i = some d → ∀ v ∈ (p i d).operands, (f.value? v).isSome)
    (hlisted : ∀ i b, i ∈ g.blockInsts b ↔ (g.inst? i).bind (·.block) = some b)
    (hdistinct : ∀ b, (g.blockInsts b).Nodup) : g.Coherent where
  known := by
    intro i d v hi hv
    rw [hinst] at hi
    obtain ⟨e, he, rfl⟩ := Option.map_eq_some_iff.mp hi
    rw [hvalue]
    exact hknown i e he v hv
  checked := by
    intro i d hi
    rw [hinst] at hi
    obtain ⟨e, he, rfl⟩ := Option.map_eq_some_iff.mp hi
    obtain ⟨hop, hw, -, hlen⟩ := hkept i e
    rw [hop, hw, hlen]
    exact hf.checked he
  produces := by
    intro i d hi
    rw [hinst] at hi
    obtain ⟨e, he, rfl⟩ := Option.map_eq_some_iff.mp hi
    obtain ⟨hop, -, hr, -⟩ := hkept i e
    rw [hop, hr]
    exact hf.produces he
  produced := by
    intro i d v hi hv
    rw [hinst] at hi
    obtain ⟨e, he, rfl⟩ := Option.map_eq_some_iff.mp hi
    obtain ⟨-, hw, hr, -⟩ := hkept i e
    rw [hvalue, hw]
    exact hf.produced he (hr ▸ hv)
  producer := by
    intro v i w hv
    rw [hvalue] at hv
    obtain ⟨d, hd, hr⟩ := hf.producer hv
    exact ⟨p i d, by rw [hinst, hd]; rfl, by rw [(hkept i d).2.2.1, hr]⟩
  parameter := by
    intro k v
    rw [hparams, hvalue]
    exact hf.parameter
  supported := by
    intro v d hv
    exact hf.supported (by rwa [hvalue] at hv)
  masked := by
    intro v b w hv
    exact hf.masked (by rwa [hvalue] at hv)
  interned := by
    intro v x b w hv hx
    rw [hvalue] at hv hx
    exact hf.interned hv hx
  listed := hlisted _ _
  distinct := hdistinct

theorem Coherent.setExact {i : InstId} {exact : Bool} (hf : f.Coherent)
    (h : f.setExact i exact = .ok g) : g.Coherent := by
  obtain ⟨-, rfl⟩ := setExact_eq_ok h
  let p (j : InstId) (d : Inst) : Inst := if i = j then { d with exact := exact } else d
  -- the change as a map over all instructions
  have hinst (j : InstId) :
      (f.modifyInst i fun d => { d with exact := exact }).inst? j = (f.inst? j).map (p j) := by
    rw [inst?_modifyInst]
    by_cases hij : i = j <;> simp [p, hij]
  have hp (j : InstId) (d : Inst) : (p j d).opcode = d.opcode ∧ (p j d).width = d.width ∧
      (p j d).result = d.result ∧ (p j d).operands = d.operands ∧ (p j d).block = d.block := by
    by_cases hij : i = j <;> simp [p, hij]
  refine hf.modifies hinst (fun _ => rfl) rfl (fun j d => ?_) (fun j d hd v hv => ?_)
    (hf.orderly.listed_of_kept hinst (fun j d => (hp j d).2.2.2.2) fun _ => rfl) hf.distinct
  · obtain ⟨hop, hw, hr, ho, -⟩ := hp j d
    exact ⟨hop, hw, hr, by rw [ho]⟩
  · rw [(hp j d).2.2.2.1] at hv
    exact hf.known hd hv

theorem Coherent.replaceAllUses {old new : ValueId} (hf : f.Coherent)
    (hnew : (f.value? new).isSome) : (f.replaceAllUses old new).Coherent := by
  by_cases hne : old = new
  · rwa [Func.replaceAllUses, if_pos hne]
  · have hinst := inst?_replaceAllUses f hne
    have hblock := blockInsts_replaceAllUses f old new
    refine hf.modifies hinst (value?_replaceAllUses f old new)
      (frame_replaceAllUses f old new).2.1 (fun i d => ⟨rfl, rfl, rfl, by simp [redirect]⟩)
      (fun i d hd v hv => ?_) (hf.orderly.listed_of_kept hinst (fun _ _ => rfl) hblock) fun b => ?_
    · obtain ⟨k, hk, rfl⟩ := List.mem_mapIdx.mp hv
      split
      · exact hnew
      · exact hf.known hd (List.getElem_mem hk)
    · rw [hblock]
      exact hf.distinct b

/-- The block of an instruction is the only thing that moving it changes. -/
private theorem map_block {i j : InstId} {b : Option BlockId} {o : Option Inst} :
    (if j = i then o.map fun d => { d with block := b } else o) =
      o.map fun d => if j = i then { d with block := b } else d := by
  split <;> simp

theorem Coherent.attaches {i : InstId} {b : BlockId} {before after : List InstId}
    (hf : f.Coherent) (e : f.Attaches i b before after g) : g.Coherent := by
  have ho := hf.orderly.attaches e
  refine hf.modifies (fun j => (e.inst? j).trans map_block) e.value? e.params
    (fun j d => ?_) (fun j d hd v hv => ?_) (fun _ _ => ho.listed) ho.distinct
  · split <;> exact ⟨rfl, rfl, rfl, rfl⟩
  · split at hv <;> exact hf.known hd hv

theorem Coherent.detach (hf : f.Coherent) (i : InstId) : (f.detach i).Coherent := by
  have ho := hf.orderly.detach i
  refine hf.modifies (fun j => (inst?_detach f i j).trans map_block) (value?_detach f i)
    (params_detach f i) (fun j d => ?_) (fun j d hd v hv => ?_) (fun _ _ => ho.listed) ho.distinct
  · split <;> exact ⟨rfl, rfl, rfl, rfl⟩
  · split at hv <;> exact hf.known hd hv

theorem Coherent.release (hf : f.Coherent) (i : InstId) : (f.release i).Coherent :=
  (sameButChains_release f i).coherent hf

theorem Coherent.erases {is : List InstId} (hf : f.Coherent) (h : Erases f is g) :
    g.Coherent := by
  induction h with
  | nil => exact hf
  | cons attached dead rest ih => exact ih ((hf.detach _).release _)

theorem Coherent.pushInst {b : BlockId} {i : InstId} (hf : f.Coherent)
    (h : f.pushInst b i = ⟨g, .ok ()⟩) : g.Coherent :=
  hf.attaches (pushInst_eq_ok h)

theorem Coherent.createInst {op : Opcode} {w : Nat} {operands : List ValueId} {i : InstId}
    (hf : f.Coherent) (hknown : ∀ v ∈ operands, (f.value? v).isSome)
    (h : f.createInst op w operands = .ok (i, g)) : g.Coherent :=
  hf.creates hknown (createInst_eq_ok h)

theorem Coherent.insertBefore {before i : InstId} (hf : f.Coherent)
    (h : f.insertBefore before i = .ok g) : g.Coherent := by
  obtain ⟨_, _, _, _, -, -, e⟩ := insertBefore_eq_ok h
  exact hf.attaches e

theorem Coherent.detachInst {i : InstId} (hf : f.Coherent) (h : f.detachInst i = ⟨g, .ok ()⟩) :
    g.Coherent :=
  detachInst_eq_ok h ▸ hf.detach i

/-! ### Reachable functions -/

/-- Every edit keeps a function coherent. -/
theorem Coherent.edit {now : List InstId} (hf : f.Coherent) (e : Edit f now g) : g.Coherent := by
  cases e with
  | addParam h => exact hf.addParam h
  | literal h => exact hf.literal h
  | createBlock h => exact hf.createBlock h
  | createInst known h => exact hf.createInst known h
  | append known h =>
    obtain ⟨_, hcreate, hpush⟩ := append_eq_ok h
    exact (hf.createInst known hcreate).pushInst hpush
  | setExact h => exact hf.setExact h
  | pushInst h => exact hf.pushInst h
  | insertBefore h => exact hf.insertBefore h
  | detachInst h => exact hf.detachInst h
  | removeInst h =>
    obtain ⟨_, -, -, rfl⟩ := removeInst_eq_ok h
    exact hf.release _
  | eraseDead h =>
    obtain ⟨_, -, herase⟩ := eraseDead_eq_ok h
    exact hf.erases herase
  | replaceAllUses _ knownNew => exact hf.replaceAllUses knownNew

/-- The functions that edits lead to are coherent. -/
theorem Reachable.coherent {gone : List InstId} (h : Reachable f gone) : f.Coherent := by
  induction h with
  | empty name => exact coherent_empty name
  | edit _ e ih => exact ih.edit e

namespace Reachable

theorem addParam {gone : List InstId} (h : Reachable f gone) (w : Nat) (c : Option TypeClass)
    {v : ValueId} (e : f.addParam w c = .ok (v, g)) : Reachable g gone :=
  h.edit (.addParam e)

theorem append {gone : List InstId} (h : Reachable f gone) (b : BlockId) (op : Opcode) (w : Nat)
    (operands : List ValueId) {i : InstId} (known : ∀ v ∈ operands, (f.value? v).isSome)
    (e : f.append b op w operands = ⟨g, .ok i⟩) : Reachable g gone :=
  h.edit (.append known e)

end Reachable

end Func

end Peephole

import Peephole.Proofs.Func.Validate

/-!
# Settled functions

A function is **settled** when every instruction is either attached or gone, definitions come
before uses, and tables and chains are in order. A reachable function is settled exactly if it has
no structural violation, `Settled.isStructural` and `Reachable.settled`.

Rewriting keeps functions settled: adding a literal, emitting an instruction before another one,
putting an earlier value in the place of a result, and erasing what is dead. Literals and emitted
instructions only **extend** a function, and leave what was there in its order.
-/

namespace Peephole

namespace Func

/-- A function is **settled** when its instructions are attached or gone, and definitions come
before uses. -/
structure Settled (f : Func) (gone : List InstId) : Prop where
  coherent : f.Coherent
  mirrored : f.Mirrored gone
  tidy : ∀ i, (f.inst? i).isSome → (f.isAttached i ↔ i ∉ gone)
  defined : f.Defined

variable {f g h : Func} {gone : List InstId}

/-! ### Settled functions and the validator -/

/-- Instructions have as many operands as their operation takes. -/
theorem Coherent.length_operands (hf : f.Coherent) {i : InstId} {d : Inst}
    (hd : f.inst? i = some d) : d.operands.length = d.opcode.arity :=
  length_of_checkInst (hf.checked hd)

theorem Coherent.operands_ne_nil (hf : f.Coherent) {i : InstId} {d : Inst}
    (hd : f.inst? i = some d) : d.operands ≠ [] := by
  have hpos := d.opcode.arity_pos
  rw [← hf.length_operands hd] at hpos
  exact List.ne_nil_of_length_pos hpos

/-- Chains that list the mentions and mirror the operands tell the attached from the gone. -/
theorem Coherent.tidy_iff (hf : f.Coherent) (hm : f.Mirrored gone) :
    f.Tracked ↔ ∀ i, (f.inst? i).isSome → (f.isAttached i ↔ i ∉ gone) := by
  constructor
  · intro ht i hi
    obtain ⟨d, hd⟩ := Option.isSome_iff_exists.mp hi
    obtain ⟨v, vs, hv⟩ := List.exists_cons_of_ne_nil (hf.operands_ne_nil hd)
    have hop : (f.operands i)[0]? = some v := by simp [operands, hd, hv]
    have h := (ht v ⟨i, 0⟩).symm.trans (hm.count v ⟨i, 0⟩)
    simp only [Mentions, hop, and_true, true_and, hf.mem_layout] at h
    by_cases ha : f.isAttached i <;> by_cases hg : i ∈ gone <;> simp [ha, hg] at h ⊢
  · intro ht v u
    have hiff : f.Mentions v u ↔ (f.operands u.user)[u.operand]? = some v ∧ u.user ∉ gone := by
      rw [Mentions, hf.mem_layout, and_comm]
      refine and_congr_right fun hop => ht u.user ?_
      cases hd : f.inst? u.user with
      | none => simp [operands, hd] at hop
      | some d => rfl
    rw [hm.count]
    simp only [hiff]

/-- A reachable function without structural violations is settled. -/
theorem Reachable.settled (hf : Reachable f gone) (hs : f.isStructural) : f.Settled gone := by
  obtain ⟨hd, ht⟩ := (hf.coherent.isStructural_iff hf.mirrored).mp hs
  exact ⟨hf.coherent, hf.mirrored, (hf.coherent.tidy_iff hf.mirrored).mp ht, hd⟩

theorem Reachable.settled_of_isValid (hf : Reachable f gone) (hv : f.isValid) :
    f.Settled gone := by
  have hv := (hf.coherent.isValid_iff hf.mirrored).mp hv
  exact hf.settled ((hf.coherent.isStructural_iff hf.mirrored).mpr ⟨hv.defined, hv.tracked⟩)

/-- Instructions with a result have no other effect. -/
theorem Coherent.isPure_of_result (hf : f.Coherent) {i : InstId} {d : Inst} {v : ValueId}
    (hd : f.inst? i = some d) (hv : d.result = some v) : d.opcode.isPure := by
  refine Opcode.isPure_of_hasResult ?_
  rw [← hf.produces hd, hv]
  rfl

namespace Settled

theorem tracked (hf : f.Settled gone) : f.Tracked :=
  (hf.coherent.tidy_iff hf.mirrored).mpr hf.tidy

/-- Settled functions have no structural violation. -/
theorem isStructural (hf : f.Settled gone) : f.isStructural :=
  (hf.coherent.isStructural_iff hf.mirrored).mpr ⟨hf.defined, hf.tracked⟩

/-- A settled function is valid when widths fit. -/
theorem isValid (hf : f.Settled gone) (hs : f.Sized) (hw : f.Formatted) : f.isValid :=
  (hf.coherent.isValid_iff hf.mirrored).mpr ⟨hf.defined, hf.tracked, hs, hw⟩

theorem mem_layout_iff_notMem (hf : f.Settled gone) {i : InstId} (hi : (f.inst? i).isSome) :
    i ∈ f.layout ↔ i ∉ gone := by
  rw [hf.coherent.mem_layout, hf.tidy i hi]

/-- A value is used exactly if it is an operand of an attached instruction. -/
theorem uses_ne_nil_iff (hf : f.Settled gone) {v : ValueId} :
    f.uses v ≠ [] ↔ ∃ i ∈ f.layout, v ∈ f.operands i := by
  constructor
  · intro h
    obtain ⟨u, hu⟩ := List.exists_mem_of_ne_nil _ h
    obtain ⟨hmem, hgone⟩ := hf.mirrored.mem_uses.mp hu
    have hv : v ∈ f.operands u.user := List.mem_of_getElem? hmem
    refine ⟨u.user, (hf.mem_layout_iff_notMem ?_).mpr hgone, hv⟩
    rw [← Option.ne_none_iff_isSome]
    intro hnone
    rw [operands, hnone] at hv
    cases hv
  · rintro ⟨i, hi, hv⟩ hnil
    obtain ⟨k, hk⟩ := List.mem_iff_getElem?.mp hv
    have hgone := (hf.mem_layout_iff_notMem (hf.coherent.exists_of_mem_layout hi)).mp hi
    have hu : (⟨i, k⟩ : Use) ∈ f.uses v := hf.mirrored.mem_uses.mpr ⟨hk, hgone⟩
    rw [hnil] at hu
    cases hu

end Settled

/-! ### Literals -/

theorem known_of_literal? {x : ValueId} {l : Literal} (h : f.literal? x = some l) :
    (f.value? x).isSome := by
  unfold literal? at h
  split at h
  · next hx => rw [hx]; rfl
  · cases h

theorem width_of_literal? {x : ValueId} {l : Literal} (h : f.literal? x = some l) :
    f.width x = l.width := by
  unfold literal? at h
  split at h
  · next hx =>
    cases h
    rw [width, hx]
    rfl
  · cases h

/-- Literals have no definer. -/
theorem definer?_of_literal? {x : ValueId} {l : Literal} (h : f.literal? x = some l) :
    f.definer? x = none := by
  unfold literal? at h
  split at h
  · next hx => rw [definer?, hx]; rfl
  · cases h

/-- What is available exists. -/
theorem Coherent.known_of_available (hf : f.Coherent) {i : InstId} {v : ValueId}
    (h : f.Available i v) : (f.value? v).isSome := by
  obtain h | h | ⟨j, hj, -⟩ := h
  · obtain ⟨l, hl⟩ := Option.isSome_iff_exists.mp h
    exact known_of_literal? hl
  · obtain ⟨k, hk⟩ := List.mem_iff_getElem?.mp h
    obtain ⟨_, _, hv⟩ := hf.parameter.mp hk
    rw [hv]
    rfl
  · obtain ⟨d, hd, hv⟩ := Option.bind_eq_some_iff.mp hj
    rw [hf.produced hd hv]
    rfl

/-! ### Extensions -/

/-- A function **extends** another one when it has more literals and more instructions with results,
and everything else in the same order. -/
structure Extends (f g : Func) : Prop where
  name : g.name = f.name
  params : g.params = f.params
  size : g.blocks.size = f.blocks.size
  value? : ∀ {v d}, f.value? v = some d → g.value? v = some d
  inst? : ∀ {i d}, f.inst? i = some d → g.inst? i = some d
  layout : f.layout = g.layout.filter fun i => (f.inst? i).isSome
  fresh : ∀ i ∈ g.layout, f.inst? i = none → (g.result? i).isSome

theorem Coherent.extends_refl (hf : f.Coherent) : f.Extends f where
  name := rfl
  params := rfl
  size := rfl
  value? hv := hv
  inst? hi := hi
  layout := (List.filter_eq_self.mpr fun _ hi => hf.exists_of_mem_layout hi).symm
  fresh i hi hnone := by
    have := hf.exists_of_mem_layout hi
    simp [hnone] at this

namespace Extends

theorem exists_inst (e : f.Extends g) {i : InstId} (hi : (f.inst? i).isSome) :
    (g.inst? i).isSome := by
  obtain ⟨d, hd⟩ := Option.isSome_iff_exists.mp hi
  rw [e.inst? hd]
  rfl

theorem exists_value (e : f.Extends g) {v : ValueId} (hv : (f.value? v).isSome) :
    (g.value? v).isSome := by
  obtain ⟨d, hd⟩ := Option.isSome_iff_exists.mp hv
  rw [e.value? hd]
  rfl

theorem result? (e : f.Extends g) {i : InstId} {v : ValueId} (h : f.result? i = some v) :
    g.result? i = some v := by
  obtain ⟨d, hd, hv⟩ := Option.bind_eq_some_iff.mp h
  rw [Func.result?, e.inst? hd]
  exact hv

theorem literal? (e : f.Extends g) {v : ValueId} {l : Literal} (h : f.literal? v = some l) :
    g.literal? v = some l := by
  unfold Func.literal? at h ⊢
  split at h
  · next hv => rw [e.value? hv]; exact h
  · cases h

theorem map_literal? (e : f.Extends g) {vs : List ValueId} {ls : List Literal}
    (h : vs.map f.literal? = ls.map some) : vs.map g.literal? = ls.map some := by
  rw [← h]
  refine List.map_congr_left fun v hv => ?_
  obtain ⟨l, -, hl⟩ := List.mem_map.mp (h ▸ List.mem_map_of_mem hv)
  rw [← hl, e.literal? hl.symm]

theorem width (e : f.Extends g) {v : ValueId} (hv : (f.value? v).isSome) :
    g.width v = f.width v := by
  obtain ⟨d, hd⟩ := Option.isSome_iff_exists.mp hv
  rw [Func.width, Func.width, e.value? hd, hd]

theorem sublist (e : f.Extends g) : f.layout.Sublist g.layout := by
  rw [e.layout]
  exact List.filter_sublist

/-- What is available stays available. -/
theorem available (e : f.Extends g) {i : InstId} {v : ValueId} (h : f.Available i v) :
    g.Available i v := by
  obtain h | h | ⟨j, hj, hji⟩ := h
  · obtain ⟨l, hl⟩ := Option.isSome_iff_exists.mp h
    exact .inl (by rw [isLiteral, e.literal? hl]; rfl)
  · exact .inr (.inl (e.params ▸ h))
  · exact .inr (.inr ⟨j, e.result? hj, hji.mono e.sublist⟩)

theorem trans (e : f.Extends g) (e' : g.Extends h) : f.Extends h where
  name := e'.name.trans e.name
  params := e'.params.trans e.params
  size := e'.size.trans e.size
  value? hv := e'.value? (e.value? hv)
  inst? hi := e'.inst? (e.inst? hi)
  layout := by
    rw [e.layout, e'.layout, List.filter_filter]
    refine List.filter_congr fun i _ => ?_
    cases hi : (f.inst? i).isSome with
    | false => simp
    | true => simp [e.exists_inst hi]
  fresh i hi hnone := by
    cases hg : g.inst? i with
    | none => exact e'.fresh i hi hg
    | some d =>
      have hig : i ∈ g.layout := by
        rw [e'.layout, List.mem_filter]
        exact ⟨hi, by simp [hg]⟩
      obtain ⟨v, hv⟩ := Option.isSome_iff_exists.mp (e.fresh i hig hnone)
      rw [e'.result? hv]
      rfl

end Extends

/-! ### Adding literals -/

theorem AddsValue.extends {o : Origin} {w : Nat} {v : ValueId} (hf : f.Coherent)
    (e : f.AddsValue o w v g) (hp : g.params = f.params) : f.Extends g where
  name := e.name
  params := hp
  size := by rw [e.blocks]
  value? hv := e.kept hv
  inst? {i d} hi := by rwa [e.inst?]
  layout := by
    rw [layout, layout, e.blocks]
    exact hf.extends_refl.layout
  fresh i hi := by
    rw [layout, e.blocks] at hi
    rw [result?, e.inst?]
    exact hf.extends_refl.fresh i hi

theorem Settled.defined_of_extends (hf : f.Defined) (e : f.Extends g) (hl : g.layout = f.layout)
    (ho : ∀ i, g.operands i = f.operands i) : g.Defined := by
  intro i hi v hv
  rw [hl] at hi
  rw [ho] at hv
  exact e.available (hf i hi v hv)

/-- The effect of asking for a literal. -/
theorem Settled.literal {w : Nat} {bits : Word} {v : ValueId} (hf : f.Settled gone)
    (h : f.literal w bits = .ok (v, g)) :
    g.Settled gone ∧ f.Extends g ∧ g.layout = f.layout ∧ g.insts = f.insts ∧
      g.literal? v = some (.of bits w) := by
  have hcoh := hf.coherent.literal h
  have hlit {e : Func} (hv : e.value? v = some ⟨.literal (bits &&& mask w), w⟩) :
      e.literal? v = some (.of bits w) := by
    rw [literal?, hv]
    simp [Literal.of, BitVec.and_assoc]
  have hmir := hf.mirrored.literal h
  obtain ⟨-, ⟨rfl, hv⟩ | ⟨-, e, hp⟩⟩ := literal_eq_ok h
  · exact ⟨hf, hf.coherent.extends_refl, rfl, rfl, hlit hv⟩
  · have hext := e.extends hf.coherent hp
    have hl : g.layout = f.layout := by rw [layout, layout, e.blocks]
    refine ⟨⟨hcoh, hmir, fun i hi => ?_, ?_⟩, hext, hl, e.insts, hlit ?_⟩
    · rw [e.inst?] at hi
      rw [isAttached, e.inst?]
      exact hf.tidy i hi
    · exact Settled.defined_of_extends hf.defined hext hl e.operands
    · rw [e.value?, if_pos rfl]

/-! ### Emitting instructions -/

/-- The effect of creating an instruction right before another one. -/
structure Emits (f : Func) (c : InstId) (op : Opcode) (w : Nat) (exact : Bool)
    (operands : List ValueId) (i : InstId) (g : Func) : Prop where
  absent : f.inst? i = none
  checked : checkInst op w operands.length = .ok ()
  inst? : ∃ b, ∀ j, g.inst? j =
    if j = i then
      some ⟨op, w, exact, operands, if op.hasResult then some ⟨f.values.size⟩ else none, some b⟩
    else f.inst? j
  value? : ∀ v, g.value? v =
    if op.hasResult ∧ v = ⟨f.values.size⟩ then some ⟨.result i, w⟩ else f.value? v
  params : g.params = f.params
  name : g.name = f.name
  size : g.blocks.size = f.blocks.size
  layout : ∃ front back, f.layout = front ++ c :: back ∧ g.layout = front ++ i :: c :: back

/-- An instruction is emitted by creating it, marking it and inserting it. -/
theorem emits_of_eq_ok {e e' : Func} {c i : InstId} {op : Opcode} {w : Nat} {exact : Bool}
    {operands : List ValueId} (hcreate : f.createInst op w operands = .ok (i, e))
    (hexact : e.setExact i exact = .ok e') (hinsert : e'.insertBefore c i = .ok g) :
    f.Emits c op w exact operands i g := by
  have hc := createInst_eq_ok hcreate
  obtain ⟨-, rfl⟩ := setExact_eq_ok hexact
  obtain ⟨_, b, front, back, -, -, ha⟩ := insertBefore_eq_ok hinsert
  obtain ⟨front', back', hl, hg⟩ := ha.layout
  refine ⟨hc.absent, hc.checked, ⟨b, fun j => ?_⟩, fun v => ?_, ?_, ?_, ?_, ?_⟩
  · rw [ha.inst?, inst?_modifyInst, hc.inst?]
    by_cases hj : j = i
    · simp [hj]
    · simp [hj, Ne.symm hj]
  · rw [ha.value?, value?_modifyInst, hc.value?]
  · rw [ha.params, params_modifyInst, hc.params]
  · exact ha.name.trans hc.name
  · rw [ha.blocks_size]
    exact congrArg Array.size hc.blocks
  · rw [layout_modifyInst, hc.layout] at hl
    exact ⟨front' ++ front, back ++ back', by simpa using hl, by simpa using hg⟩

/-- Emitting an instruction is a few edits. -/
theorem Reachable.emit {e e' : Func} {c i : InstId} {op : Opcode} {w : Nat} {exact : Bool}
    {operands : List ValueId} (hf : Reachable f gone)
    (hknown : ∀ v ∈ operands, (f.value? v).isSome)
    (hcreate : f.createInst op w operands = .ok (i, e)) (hexact : e.setExact i exact = .ok e')
    (hinsert : e'.insertBefore c i = .ok g) : Reachable g gone :=
  ((hf.edit (.createInst hknown hcreate)).edit (.setExact hexact)).edit (.insertBefore hinsert)

section Emits

variable {c i : InstId} {op : Opcode} {w : Nat} {exact : Bool} {vs : List ValueId}
  (e : f.Emits c op w exact vs i g)
include e

theorem Emits.inst?_self :
    ∃ b, g.inst? i = some ⟨op, w, exact, vs,
      if op.hasResult then some ⟨f.values.size⟩ else none, some b⟩ := by
  obtain ⟨b, hi⟩ := e.inst?
  exact ⟨b, (hi i).trans (if_pos rfl)⟩

theorem Emits.inst?_of_ne {j : InstId} (hj : j ≠ i) : g.inst? j = f.inst? j := by
  obtain ⟨b, hi⟩ := e.inst?
  exact (hi j).trans (if_neg hj)

theorem Emits.operands (j : InstId) :
    g.operands j = if j = i then vs else f.operands j := by
  obtain ⟨b, hi⟩ := e.inst?
  simp only [Func.operands, hi]
  split <;> rfl

/-- Everything else in the layout has been there before. -/
theorem Emits.mem_layout {j : InstId} (hj : j ∈ g.layout) (hji : j ≠ i) : j ∈ f.layout := by
  obtain ⟨front, back, hl, hg⟩ := e.layout
  rw [hg] at hj
  rw [hl]
  simpa [hji] using hj

/-- An emitted instruction defines no value that existed before. -/
theorem Emits.ne_of_result {v : ValueId} {j : InstId} (hv : (f.value? v).isSome)
    (hj : g.result? j = some v) : j ≠ i := by
  rintro rfl
  obtain ⟨b, hi⟩ := e.inst?_self
  rw [result?, hi, Option.bind_some] at hj
  dsimp only at hj
  split at hj
  · cases hj
    simp [value?_size] at hv
  · cases hj

/-- An emitted instruction comes right before the other one. -/
theorem Emits.precedes : g.Precedes i c := by
  obtain ⟨front, back, -, hg⟩ := e.layout
  exact ⟨front, [], back, by simpa using hg⟩

/-- An emitted instruction with a result extends the function. -/
theorem Emits.extends (hf : f.Coherent) (hr : op.hasResult) : f.Extends g where
  name := e.name
  params := e.params
  size := e.size
  value? {v d} hv := by
    rw [e.value?, if_neg, hv]
    rintro ⟨-, rfl⟩
    rw [value?_size] at hv
    cases hv
  inst? {j d} hj := by
    rw [e.inst?_of_ne, hj]
    rintro rfl
    rw [e.absent] at hj
    cases hj
  layout := by
    obtain ⟨front, back, hl, hg⟩ := e.layout
    have hkeep : (front ++ c :: back).filter (fun j => (f.inst? j).isSome) = front ++ c :: back :=
      List.filter_eq_self.mpr fun j hj => hf.exists_of_mem_layout (hl ▸ hj)
    rw [hl, hg, List.filter_append, List.filter_cons_of_neg (by simp [e.absent]),
      ← List.filter_append, hkeep]
  fresh j hj hnone := by
    obtain ⟨b, hi⟩ := e.inst?_self
    by_cases hji : j = i
    · rw [hji, result?, hi, Option.bind_some]
      simp [hr]
    · have := hf.exists_of_mem_layout (e.mem_layout hj hji)
      simp [hnone] at this

end Emits

/-- An instruction that is emitted on available operands keeps the function settled. -/
theorem Settled.emit {e e' : Func} {c i : InstId} {op : Opcode} {w : Nat} {exact : Bool}
    {operands : List ValueId} (hf : f.Settled gone)
    (hknown : ∀ v ∈ operands, (f.value? v).isSome) (hav : ∀ v ∈ operands, f.Available c v)
    (hr : op.hasResult) (hcreate : f.createInst op w operands = .ok (i, e))
    (hexact : e.setExact i exact = .ok e') (hinsert : e'.insertBefore c i = .ok g) :
    g.Settled gone := by
  have em := emits_of_eq_ok hcreate hexact hinsert
  have hext := em.extends hf.coherent hr
  have hmir : g.Mirrored gone := by
    obtain ⟨_, _, _, _, -, -, ha⟩ := insertBefore_eq_ok hinsert
    exact ((hf.mirrored.creates (createInst_eq_ok hcreate)).setExact hexact).attaches ha
  have hcoh := ((hf.coherent.createInst hknown hcreate).setExact hexact).insertBefore hinsert
  obtain ⟨front, back, hl, hg⟩ := em.layout
  refine ⟨hcoh, hmir, fun j hj => ?_, fun j hj v hv => ?_⟩
  · by_cases hji : j = i
    · obtain ⟨b, hi⟩ := em.inst?_self
      have hgone : i ∉ gone := fun hi => by simpa [em.absent] using hf.mirrored.exist i hi
      simp [hji, isAttached, hi, hgone]
    · rw [em.inst?_of_ne hji] at hj
      rw [isAttached, em.inst?_of_ne hji]
      exact hf.tidy j hj
  · by_cases hji : j = i
    · subst hji
      rw [em.operands, if_pos rfl] at hv
      obtain h | h | ⟨k, hk, hkc⟩ := hext.available (hav v hv)
      · exact .inl h
      · exact .inr (.inl h)
      · refine .inr (.inr ⟨k, hk, (hcoh.precedes_iff hg).mpr ?_⟩)
        -- the operand is defined before the other instruction, and not by the emitted one
        have hg' : g.layout = (front ++ [j]) ++ c :: back := by simpa using hg
        obtain hkf | hkj := List.mem_append.mp ((hcoh.precedes_iff hg').mp hkc)
        · exact hkf
        · exact (em.ne_of_result (hknown v hv) hk (List.mem_singleton.mp hkj)).elim
    · rw [em.operands, if_neg hji] at hv
      exact hext.available (hf.defined j (em.mem_layout hj hji) v hv)

end Func

end Peephole

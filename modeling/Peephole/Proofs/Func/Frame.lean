import Peephole.Proofs.Func.Replace

/-!
# What edits leave alone

A function **spares** another one when it keeps what the other one has: its name, its parameters and
its blocks, the values, and of every instruction all but the operands. An instruction stays in its
block and in its place among the others there, unless it has no effect and is detached; and whatever
is attached in addition has a result.

Extensions spare a function, `Extends.spares`, and so do the replacement of the uses of a value,
`spares_replaceAllUses`, and the erasure of instructions without effect, `Erases.spares`. Functions
that spare a function have the same stores in the same order in every block,
`Spares.filter_isStore`.
-/

namespace Peephole

namespace Func

variable {f g h : Func} {gone : List InstId}

/-- Whether an instruction is a store. -/
def isStore (f : Func) (i : InstId) : Bool := (f.inst? i).any (·.opcode == .store)

theorem isStore_iff {i : InstId} :
    f.isStore i ↔ ∃ d, f.inst? i = some d ∧ d.opcode = .store := by
  rw [isStore, Option.any_eq_true]
  simp only [beq_iff_eq]

/-- Whether a function spares another one, and what it has more than that has results. -/
structure Spares (f g : Func) : Prop where
  name : g.name = f.name
  params : g.params = f.params
  size : g.blocks.size = f.blocks.size
  value? : ∀ {v d}, f.value? v = some d → g.value? v = some d
  inst? : ∀ {i d}, f.inst? i = some d → ∃ e, g.inst? i = some e ∧ e.opcode = d.opcode ∧
    e.width = d.width ∧ e.exact = d.exact ∧ e.result = d.result ∧
    (e.block = d.block ∨ e.block = none ∧ d.opcode.isPure)
  layout : g.layout.filter (fun i => (f.inst? i).isSome) = f.layout.filter (g.isAttached ·)
  fresh : ∀ i ∈ g.layout, f.inst? i = none → (g.result? i).isSome

namespace Spares

theorem refl (hf : f.Coherent) : f.Spares f where
  name := rfl
  params := rfl
  size := rfl
  value? hv := hv
  inst? hd := ⟨_, hd, rfl, rfl, rfl, rfl, .inl rfl⟩
  layout := by
    rw [List.filter_eq_self.mpr fun i hi => hf.exists_of_mem_layout hi,
      List.filter_eq_self.mpr fun i hi => hf.mem_layout.mp hi]
  fresh i hi hnone := by
    have := hf.exists_of_mem_layout hi
    simp [hnone] at this

theorem exists_inst (e : f.Spares g) {i : InstId} (hi : (f.inst? i).isSome) :
    (g.inst? i).isSome := by
  obtain ⟨d, hd⟩ := Option.isSome_iff_exists.mp hi
  obtain ⟨d', hd', -⟩ := e.inst? hd
  rw [hd']
  rfl

/-- What is attached and was there before has been attached. -/
theorem isAttached (e : f.Spares g) {i : InstId} (hi : (f.inst? i).isSome)
    (ha : g.isAttached i) : f.isAttached i := by
  obtain ⟨d, hd⟩ := Option.isSome_iff_exists.mp hi
  obtain ⟨d', hd', -, -, -, -, hblock⟩ := e.inst? hd
  obtain ⟨d'', b, hd'', hb⟩ := isAttached_iff.mp ha
  obtain rfl := Option.some.inj (hd'.symm.trans hd'')
  refine isAttached_iff.mpr ⟨d, b, hd, ?_⟩
  obtain hsame | ⟨hnone, -⟩ := hblock
  · rw [← hsame, hb]
  · rw [hnone] at hb
    cases hb

theorem trans (hf : f.Coherent) (e : f.Spares g) (e' : g.Spares h) : f.Spares h where
  name := e'.name.trans e.name
  params := e'.params.trans e.params
  size := e'.size.trans e.size
  value? hv := e'.value? (e.value? hv)
  inst? {i d} hd := by
    obtain ⟨d', hd', hop, hw, hexact, hres, hblock⟩ := e.inst? hd
    obtain ⟨d'', hd'', hop', hw', hexact', hres', hblock'⟩ := e'.inst? hd'
    refine ⟨d'', hd'', hop'.trans hop, hw'.trans hw, hexact'.trans hexact, hres'.trans hres, ?_⟩
    obtain hsame' | ⟨hnone', hpure'⟩ := hblock'
    · rw [hsame']
      exact hblock
    · exact .inr ⟨hnone', hop ▸ hpure'⟩
  layout := by
    have hknown (i : InstId) (hi : (f.inst? i).isSome) := e.exists_inst hi
    calc h.layout.filter (fun i => (f.inst? i).isSome)
        = (h.layout.filter fun i => (g.inst? i).isSome).filter fun i => (f.inst? i).isSome := by
          rw [List.filter_filter]
          refine List.filter_congr fun i _ => ?_
          rw [Bool.eq_iff_iff, Bool.and_eq_true]
          exact ⟨fun hi => ⟨hi, hknown i hi⟩, fun hi => hi.1⟩
      _ = (g.layout.filter fun i => (f.inst? i).isSome).filter (h.isAttached ·) := by
          rw [e'.layout, List.filter_filter, List.filter_filter]
          refine List.filter_congr fun i _ => Bool.and_comm _ _
      _ = f.layout.filter (h.isAttached ·) := by
          rw [e.layout, List.filter_filter]
          refine List.filter_congr fun i hi => ?_
          rw [Bool.and_eq_left_iff_imp]
          exact e'.isAttached (e.exists_inst (hf.exists_of_mem_layout hi))
  fresh i hi hnone := by
    cases hg : g.inst? i with
    | none => exact e'.fresh i hi hg
    | some d =>
      -- what the second function has more than the first one keeps its result
      obtain ⟨d', hd', -, -, -, hres, -⟩ := e'.inst? hg
      have hmem : i ∈ g.layout.filter (h.isAttached ·) := by
        rw [← e'.layout, List.mem_filter]
        exact ⟨hi, by rw [hg]; rfl⟩
      have hfresh := e.fresh i (List.mem_filter.mp hmem).1 hnone
      rw [result?, hg, Option.bind_some] at hfresh
      rw [result?, hd', Option.bind_some, hres]
      exact hfresh

/-! ### Blocks -/

/-- What stays attached is in the block that it has been in. -/
theorem block_eq (e : f.Spares g) {i : InstId} {d : Inst} (hd : f.inst? i = some d)
    (ha : g.isAttached i) : (g.inst? i).bind (·.block) = d.block := by
  obtain ⟨d', hd', -, -, -, -, hsame | ⟨hnone, -⟩⟩ := e.inst? hd
  · rw [hd', Option.bind_some, hsame]
  · obtain ⟨d'', b, hd'', hb⟩ := isAttached_iff.mp ha
    obtain rfl := Option.some.inj (hd'.symm.trans hd'')
    rw [hnone] at hb
    cases hb

/-- What is listed in a block has been there before. -/
theorem mem_blockInsts (e : f.Spares g) (hf : f.Coherent) (hg : g.Coherent) {i : InstId}
    {b b' : BlockId} (hi : i ∈ f.blockInsts b) (hi' : i ∈ g.blockInsts b') : b' = b := by
  obtain ⟨d, hd, hb⟩ := Option.bind_eq_some_iff.mp (hf.listed.mp hi)
  have hb' := hg.listed.mp hi'
  rw [e.block_eq hd (hg.mem_layout.mp (mem_layout_iff.mpr ⟨b', hi'⟩)), hb] at hb'
  exact (Option.some.inj hb').symm

/-- What stays attached keeps its order in its block. -/
theorem filter_blockInsts (e : f.Spares g) (hf : f.Coherent) (hg : g.Coherent) (b : BlockId) :
    (g.blockInsts b).filter (f.isAttached ·) = (f.blockInsts b).filter (g.isAttached ·) := by
  have hknown (i : InstId) (hi : i ∈ g.layout) : f.isAttached i = (f.inst? i).isSome := by
    rw [Bool.eq_iff_iff]
    exact ⟨fun ha => hf.exists_of_mem_layout (hf.mem_layout.mpr ha),
      fun hsome => e.isAttached hsome (hg.mem_layout.mp hi)⟩
  have hsame (i : InstId) (hi : i ∈ f.layout) (ha : g.isAttached i) :
      (g.inst? i).bind (·.block) = (f.inst? i).bind (·.block) := by
    obtain ⟨d, hd⟩ := Option.isSome_iff_exists.mp (hf.exists_of_mem_layout hi)
    rw [e.block_eq hd ha, hd, Option.bind_some]
  rw [hf.blockInsts_eq_filter, hg.blockInsts_eq_filter]
  calc (g.layout.filter fun i => (g.inst? i).bind (·.block) == some b).filter (f.isAttached ·)
      = (g.layout.filter fun i => (f.inst? i).isSome).filter
          fun i => (g.inst? i).bind (·.block) == some b := by
        rw [List.filter_filter, List.filter_filter]
        refine List.filter_congr fun i hi => ?_
        rw [hknown i hi, Bool.and_comm]
    _ = (f.layout.filter fun i => (f.inst? i).bind (·.block) == some b).filter
          (g.isAttached ·) := by
        rw [e.layout, List.filter_filter, List.filter_filter]
        refine List.filter_congr fun i hi => ?_
        by_cases ha : g.isAttached i
        · rw [hsame i hi ha, Bool.and_comm]
        · simp [ha]

/-- Stores are neither detached nor added. -/
theorem filter_isStore (e : f.Spares g) (hf : f.Coherent) (hg : g.Coherent) (b : BlockId) :
    (g.blockInsts b).filter (g.isStore ·) = (f.blockInsts b).filter (f.isStore ·) := by
  have hsame (i : InstId) (ha : f.isAttached i) : g.isStore i = f.isStore i := by
    obtain ⟨d, -, hd, -⟩ := isAttached_iff.mp ha
    obtain ⟨d', hd', hop, -⟩ := e.inst? hd
    rw [isStore, isStore, hd, hd', Option.any_some, Option.any_some, hop]
  -- a store has no result, so that it is there from before
  have hold (i : InstId) (hi : i ∈ g.blockInsts b) (hs : g.isStore i) : f.isAttached i := by
    have hi' : i ∈ g.layout := mem_layout_iff.mpr ⟨b, hi⟩
    obtain ⟨d, hd, hop⟩ := isStore_iff.mp hs
    refine e.isAttached (Option.isSome_iff_ne_none.mpr fun hnone => ?_) (hg.mem_layout.mp hi')
    have hresult := e.fresh i hi' hnone
    rw [result?, hd, Option.bind_some, hg.produces hd, hop] at hresult
    cases hresult
  -- and it has an effect, so that it is not detached
  have hkept (i : InstId) (hi : i ∈ f.blockInsts b) (hs : f.isStore i) : g.isAttached i := by
    obtain ⟨d, hd, hop⟩ := isStore_iff.mp hs
    obtain ⟨d', hd', -, -, -, -, hblock | ⟨-, hpure⟩⟩ := e.inst? hd
    · obtain ⟨d'', hd'', hb⟩ := Option.bind_eq_some_iff.mp (hf.listed.mp hi)
      obtain rfl := Option.some.inj (hd.symm.trans hd'')
      exact isAttached_iff.mpr ⟨d', b, hd', hblock.trans hb⟩
    · rw [hop] at hpure
      cases hpure
  calc (g.blockInsts b).filter (g.isStore ·)
      = ((g.blockInsts b).filter (f.isAttached ·)).filter (f.isStore ·) := by
        rw [List.filter_filter]
        refine List.filter_congr fun i hi => ?_
        rw [Bool.eq_iff_iff, Bool.and_eq_true]
        constructor
        · intro hs
          have ha := hold i hi hs
          exact ⟨hsame i ha ▸ hs, ha⟩
        · rintro ⟨hs, ha⟩
          rwa [hsame i ha]
    _ = (f.blockInsts b).filter (f.isStore ·) := by
        rw [e.filter_blockInsts hf hg, List.filter_filter]
        refine List.filter_congr fun i hi => ?_
        rw [Bool.and_eq_left_iff_imp]
        exact hkept i hi

end Spares

/-! ### What spares a function -/

theorem Extends.spares (e : f.Extends g) (hf : f.Coherent) : f.Spares g where
  name := e.name
  params := e.params
  size := e.size
  value? hv := e.value? hv
  inst? hd := ⟨_, e.inst? hd, rfl, rfl, rfl, rfl, .inl rfl⟩
  layout := by
    rw [← e.layout]
    refine (List.filter_eq_self.mpr fun i hi => ?_).symm
    obtain ⟨d, b, hd, hb⟩ := isAttached_iff.mp (hf.mem_layout.mp hi)
    exact isAttached_iff.mpr ⟨d, b, e.inst? hd, hb⟩
  fresh := e.fresh

theorem spares_replaceAllUses (hf : f.Coherent) (old new : ValueId) :
    f.Spares (f.replaceAllUses old new) where
  name := (frame_replaceAllUses f old new).1
  params := (frame_replaceAllUses f old new).2.1
  size := by rw [(frame_replaceAllUses f old new).2.2.2]
  value? hv := by rwa [value?_replaceAllUses]
  inst? {i d} hd := by
    by_cases hne : old = new
    · exact ⟨d, by rwa [replaceAllUses, if_pos hne], rfl, rfl, rfl, rfl, .inl rfl⟩
    · refine ⟨redirect (f.uses old) new i d, ?_, rfl, rfl, rfl, rfl, .inl rfl⟩
      rw [inst?_replaceAllUses f hne, hd, Option.map_some]
  layout := by
    rw [layout_replaceAllUses, List.filter_eq_self.mpr fun i hi => hf.exists_of_mem_layout hi]
    refine (List.filter_eq_self.mpr fun i hi => ?_).symm
    rw [isAttached_replaceAllUses]
    exact hf.mem_layout.mp hi
  fresh i hi hnone := by
    rw [layout_replaceAllUses] at hi
    have := hf.exists_of_mem_layout hi
    simp [hnone] at this

theorem Erases.spares {is : List InstId} (e : Erases f is g) (hf : f.Coherent) : f.Spares g where
  name := e.name
  params := e.params
  size := e.size
  value? hv := by rwa [e.value?]
  inst? {i d} hd := by
    rw [e.inst?, hd, Option.map_some]
    refine ⟨_, rfl, ?_⟩
    split
    · next hi =>
      obtain ⟨v, hv⟩ := Option.isSome_iff_exists.mp (e.result_isSome hi)
      rw [Func.result?, hd, Option.bind_some] at hv
      exact ⟨rfl, rfl, rfl, rfl, .inr ⟨rfl, hf.isPure_of_result hd hv⟩⟩
    · exact ⟨rfl, rfl, rfl, rfl, .inl rfl⟩
  layout := by
    rw [hf.layout_erases e, List.filter_filter]
    refine List.filter_congr fun i hi => ?_
    have ha := hf.mem_layout.mp hi
    rw [hf.exists_of_mem_layout hi, Bool.true_and, Bool.eq_iff_iff, decide_eq_true_iff,
      e.isAttached_iff]
    exact (and_iff_right ha).symm
  fresh i hi hnone := by
    rw [hf.layout_erases e] at hi
    have := hf.exists_of_mem_layout (List.mem_filter.mp hi).1
    simp [hnone] at this

end Func

end Peephole

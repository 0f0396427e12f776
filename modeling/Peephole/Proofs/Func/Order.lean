import Peephole.Func.Valid
import Peephole.Proofs.Func.Chains

/-!
# The order of a layout

The layout of an orderly function lists its attached instructions once, `Orderly.mem_layout` and
`Orderly.nodup_layout`, so that coming before is a strict order on them. Edits change the layout in
two ways: an instruction is put somewhere into it, or it is taken out. What comes before what stays
the same otherwise, and what has been available stays available.
-/

namespace Peephole

namespace Func

variable {f g : Func} {gone : List InstId}

/-! ### The layout of an orderly function -/

theorem mem_layout_iff {i : InstId} : i ∈ f.layout ↔ ∃ b, i ∈ f.blockInsts b := by
  simp only [layout, List.mem_flatten, Array.mem_toList_iff]
  constructor
  · rintro ⟨is, his, hi⟩
    obtain ⟨k, hk⟩ := Array.mem_iff_getElem?.mp his
    exact ⟨⟨k⟩, by simpa [blockInsts, hk] using hi⟩
  · rintro ⟨b, hi⟩
    cases hb : f.blocks[b.index]? with
    | none => simp [blockInsts, hb] at hi
    | some is => exact ⟨is, Array.mem_of_getElem? hb, by simpa [blockInsts, hb] using hi⟩

/-- The layout lists the instructions that name a block. -/
theorem Orderly.mem_layout (hf : f.Orderly) {i : InstId} : i ∈ f.layout ↔ f.isAttached i := by
  rw [mem_layout_iff, isAttached_iff]
  constructor
  · rintro ⟨b, hi⟩
    obtain ⟨d, hd, hb⟩ := Option.bind_eq_some_iff.mp (hf.listed.mp hi)
    exact ⟨d, b, hd, hb⟩
  · rintro ⟨d, b, hd, hb⟩
    exact ⟨b, hf.listed.mpr (by rw [hd]; exact hb)⟩

theorem Coherent.mem_layout (hf : f.Coherent) {i : InstId} : i ∈ f.layout ↔ f.isAttached i :=
  hf.orderly.mem_layout

/-- What is laid out exists. -/
theorem Coherent.exists_of_mem_layout (hf : f.Coherent) {i : InstId} (hi : i ∈ f.layout) :
    (f.inst? i).isSome := by
  obtain ⟨d, -, hd, -⟩ := isAttached_iff.mp (hf.mem_layout.mp hi)
  rw [hd]
  rfl

/-- The layout of a function at one of its blocks. -/
theorem layout_eq_append (f : Func) {k : Nat} (hk : k < f.blocks.size) :
    f.layout = (f.blocks.toList.take k).flatten ++
      (f.blockInsts ⟨k⟩ ++ (f.blocks.toList.drop (k + 1)).flatten) := by
  have hk' : k < f.blocks.toList.length := by simpa using hk
  have hlist : f.blockInsts ⟨k⟩ = f.blocks.toList[k] := by simp [blockInsts, hk]
  rw [layout, hlist, ← List.flatten_cons, List.getElem_cons_drop hk', ← List.flatten_append,
    List.take_append_drop]

theorem exists_of_mem_take {k : Nat} {j : InstId} (h : j ∈ (f.blocks.toList.take k).flatten) :
    ∃ b : BlockId, b.index < k ∧ j ∈ f.blockInsts b := by
  obtain ⟨is, his, hj⟩ := List.mem_flatten.mp h
  obtain ⟨m, hm, rfl⟩ := List.mem_take_iff_getElem.mp his
  simp only [Array.length_toList, Nat.lt_min] at hm
  exact ⟨⟨m⟩, hm.1, by simpa [blockInsts, hm.2] using hj⟩

theorem exists_of_mem_drop {k : Nat} {j : InstId} (h : j ∈ (f.blocks.toList.drop k).flatten) :
    ∃ b : BlockId, k ≤ b.index ∧ j ∈ f.blockInsts b := by
  obtain ⟨is, his, hj⟩ := List.mem_flatten.mp h
  obtain ⟨m, hm, rfl⟩ := List.mem_drop_iff_getElem.mp his
  simp only [Array.length_toList] at hm
  exact ⟨⟨k + m⟩, Nat.le_add_right k m, by simpa [blockInsts, Nat.add_comm k m ▸ hm] using hj⟩

/-- The instructions of a block are those of the layout that name it. -/
theorem Coherent.blockInsts_eq_filter (hf : f.Coherent) (b : BlockId) :
    f.blockInsts b = f.layout.filter fun i => (f.inst? i).bind (·.block) == some b := by
  have hnone (is : List InstId) (h : ∀ i ∈ is, ∃ c : BlockId, c ≠ b ∧ i ∈ f.blockInsts c) :
      is.filter (fun i => (f.inst? i).bind (·.block) == some b) = [] := by
    refine List.filter_eq_nil_iff.mpr fun i hi => ?_
    obtain ⟨c, hc, hic⟩ := h i hi
    rw [hf.listed.mp hic]
    simpa using hc
  by_cases hb : b.index < f.blocks.size
  · have hself : (f.blockInsts b).filter (fun i => (f.inst? i).bind (·.block) == some b) =
        f.blockInsts b :=
      List.filter_eq_self.mpr fun i hi => by rw [hf.listed.mp hi, beq_self_eq_true]
    rw [f.layout_eq_append hb, List.filter_append, List.filter_append, hself, hnone, hnone,
      List.nil_append, List.append_nil]
    · intro i hi
      obtain ⟨c, hc, hic⟩ := exists_of_mem_drop hi
      exact ⟨c, by rintro rfl; omega, hic⟩
    · intro i hi
      obtain ⟨c, hc, hic⟩ := exists_of_mem_take hi
      exact ⟨c, by rintro rfl; omega, hic⟩
  · have hempty : f.blockInsts b = [] := by simp [blockInsts, hb]
    rw [hempty, eq_comm]
    refine List.filter_eq_nil_iff.mpr fun i _ hi => ?_
    have hmem := hf.listed.mpr (beq_iff_eq.mp hi)
    rw [hempty] at hmem
    cases hmem

theorem Orderly.nodup_layout (hf : f.Orderly) : f.layout.Nodup := by
  rw [layout, List.nodup_flatten]
  constructor
  · intro is his
    obtain ⟨k, hk⟩ := Array.mem_iff_getElem?.mp (Array.mem_toList_iff.mp his)
    simpa [blockInsts, hk] using hf.distinct ⟨k⟩
  · refine List.pairwise_iff_getElem.mpr fun m n hm hn hmn i him hin => ?_
    have hlist (k : Nat) (hk : k < f.blocks.toList.length) :
        f.blockInsts ⟨k⟩ = f.blocks.toList[k] := by
      simp only [Array.length_toList] at hk
      simp [blockInsts, hk]
    have hbm := hf.listed.mp (hlist m hm ▸ him)
    have hbn := hf.listed.mp (hlist n hn ▸ hin)
    rw [hbm] at hbn
    cases hbn
    omega

theorem Coherent.nodup_layout (hf : f.Coherent) : f.layout.Nodup :=
  hf.orderly.nodup_layout

/-- A block that exists is a part of the layout, and changing its list changes that part. -/
theorem layout_modifyBlock (f : Func) {b : BlockId} (hb : b.index < f.blocks.size) :
    ∃ front back, f.layout = front ++ f.blockInsts b ++ back ∧
      ∀ p, (f.modifyBlock b p).layout = front ++ p (f.blockInsts b) ++ back := by
  have hb' : b.index < f.blocks.toList.length := by simpa using hb
  have hlist : f.blockInsts b = f.blocks.toList[b.index] := by simp [blockInsts, hb]
  refine ⟨(f.blocks.toList.take b.index).flatten, (f.blocks.toList.drop (b.index + 1)).flatten,
    ?_, fun p => ?_⟩
  · rw [layout, hlist, List.append_assoc, ← List.flatten_cons, List.getElem_cons_drop hb',
      ← List.flatten_append, List.take_append_drop]
  · rw [layout, hlist, List.append_assoc, ← List.flatten_cons, ← List.flatten_append]
    simp [modifyBlock, List.modify_eq_take_cons_drop hb']

/-- An attached instruction stands somewhere in the layout. -/
theorem Attaches.layout {i : InstId} {b : BlockId} {before after : List InstId}
    (e : f.Attaches i b before after g) :
    ∃ front back, f.layout = front ++ before ++ (after ++ back) ∧
      g.layout = front ++ before ++ i :: (after ++ back) := by
  obtain ⟨front, back, hf, hg⟩ :=
    (f.modifyInst i fun d => { d with block := some b }).layout_modifyBlock e.exists_block
  rw [layout_modifyInst, blockInsts_modifyInst, e.listed] at hf
  refine ⟨front, back, by simpa using hf, ?_⟩
  rw [e.eq, hg]
  simp

/-- Detaching takes an instruction out of the layout. -/
theorem Coherent.layout_detach (hf : f.Coherent) (i : InstId) :
    (f.detach i).layout = f.layout.filter (· ≠ i) := by
  by_cases hi : i ∈ f.layout
  · obtain ⟨b, hib⟩ := mem_layout_iff.mp hi
    have hb := hf.listed.mp hib
    have hlt : b.index < f.blocks.size := by
      by_contra hlt
      simp [blockInsts, hlt] at hib
    obtain ⟨front, back, hfl, hgl⟩ :=
      (f.modifyInst i fun d => { d with block := none }).layout_modifyBlock hlt
    rw [layout_modifyInst, blockInsts_modifyInst] at hfl
    have hnodup := hf.nodup_layout
    rw [hfl, List.append_assoc, List.nodup_append'] at hnodup
    obtain ⟨-, hrest, hfront⟩ := hnodup
    -- no other block lists the instruction
    have hout : ∀ j ∈ front, j ≠ i := by
      rintro j hj rfl
      exact hfront hj (List.mem_append_left _ hib)
    have hout' : ∀ j ∈ back, j ≠ i := by
      rintro j hj rfl
      exact (List.nodup_append'.mp hrest).2.2 hib hj
    have hdetach : f.detach i =
        (f.modifyInst i fun d => { d with block := none }).modifyBlock b (·.filter (· ≠ i)) := by
      simp only [Func.detach, hb]
    have hkeep (is : List InstId) (h : ∀ j ∈ is, j ≠ i) : is.filter (· ≠ i) = is :=
      List.filter_eq_self.mpr fun j hj => decide_eq_true (h j hj)
    rw [hdetach, hgl, hfl, List.filter_append, List.filter_append, hkeep front hout,
      hkeep back hout']
    rfl
  · have hdetach : f.detach i = f := by
      unfold Func.detach
      split
      · next b hb => exact (hi (mem_layout_iff.mpr ⟨b, hf.listed.mpr hb⟩)).elim
      · rfl
    rw [hdetach]
    refine (List.filter_eq_self.mpr fun j hj => decide_eq_true ?_).symm
    rintro rfl
    exact hi hj

/-- An erasure takes what it erases out of the layout. -/
theorem Coherent.layout_erases {is : List InstId} (hf : f.Coherent) (e : Erases f is g) :
    g.layout = f.layout.filter (· ∉ is) := by
  induction e with
  | nil => simp
  | cons attached dead rest ih =>
    rw [ih ((hf.detach _).release _), (sameButChains_release _ _).layout, hf.layout_detach,
      List.filter_filter]
    congr 1
    funext j
    simp [Bool.and_comm]

/-! ### Coming before -/

theorem precedes_iff_sublist {i j : InstId} : f.Precedes i j ↔ [i, j].Sublist f.layout := by
  rw [Precedes, List.cons_sublist_iff]
  constructor
  · rintro ⟨before, between, after, h⟩
    exact ⟨before ++ i :: between, j :: after, by simp [h], by simp, by simp⟩
  · rintro ⟨front, back, h, hi, hj⟩
    obtain ⟨before, between, rfl⟩ := List.append_of_mem hi
    obtain ⟨between', after, rfl⟩ := List.append_of_mem (List.singleton_sublist.mp hj)
    exact ⟨before, between ++ between', after, by simp [h]⟩

/-- What comes before something comes before it in a layout with more instructions. -/
theorem Precedes.mono {i j : InstId} (h : f.Precedes i j) (hl : f.layout.Sublist g.layout) :
    g.Precedes i j :=
  precedes_iff_sublist.mpr ((precedes_iff_sublist.mp h).trans hl)

theorem Precedes.mem_left {i j : InstId} (h : f.Precedes i j) : i ∈ f.layout :=
  (precedes_iff_sublist.mp h).subset List.mem_cons_self

/-- Nothing else comes before an instruction than what stands to the left of it. -/
theorem Orderly.precedes_iff (hf : f.Orderly) {i j : InstId} {front back : List InstId}
    (h : f.layout = front ++ j :: back) : f.Precedes i j ↔ i ∈ front := by
  constructor
  · rintro ⟨before, between, after, h'⟩
    have hnodup := hf.nodup_layout
    have heq : front ++ j :: back = (before ++ i :: between) ++ j :: after := by
      rw [← h, h']
    rw [h] at hnodup
    have hj := (List.nodup_cons.mp (List.nodup_middle.mp hnodup)).1
    rw [List.mem_append, not_or] at hj
    -- the instruction stands in the layout once, so that both are the same way to split it
    obtain ⟨rfl, -⟩ := (List.append_cons_inj_of_notMem hj.1 hj.2).mp heq
    simp
  · intro hi
    obtain ⟨before, between, rfl⟩ := List.append_of_mem hi
    exact ⟨before, between, back, by simp [h]⟩

theorem Coherent.precedes_iff (hf : f.Coherent) {i j : InstId} {front back : List InstId}
    (h : f.layout = front ++ j :: back) : f.Precedes i j ↔ i ∈ front :=
  hf.orderly.precedes_iff h

/-- What is before what is before something is before it. -/
theorem Coherent.precedes_trans (hf : f.Coherent) {i j k : InstId} (hij : f.Precedes i j)
    (hjk : f.Precedes j k) : f.Precedes i k := by
  obtain ⟨before, between, after, h⟩ := hjk
  have hj : f.layout = before ++ j :: (between ++ k :: after) := by simpa using h
  exact (hf.precedes_iff h).mpr (List.mem_append_left _ ((hf.precedes_iff hj).mp hij))

theorem Coherent.not_precedes_self (hf : f.Coherent) (i : InstId) : ¬ f.Precedes i i := by
  rintro ⟨before, between, after, h⟩
  have hnodup := hf.nodup_layout
  rw [h, List.append_assoc] at hnodup
  simpa using (List.nodup_append'.mp hnodup).2.1

/-! ### Availability -/

/-- An instruction is the only one with its result. -/
theorem Coherent.result_inj (hf : f.Coherent) {i j : InstId} {v : ValueId}
    (hi : f.result? i = some v) (hj : f.result? j = some v) : i = j := by
  obtain ⟨d, hd, hdv⟩ := Option.bind_eq_some_iff.mp hi
  obtain ⟨e, he, hev⟩ := Option.bind_eq_some_iff.mp hj
  have := (hf.produced hd hdv).symm.trans (hf.produced he hev)
  simp only [Option.some.injEq, Value.mk.injEq, Origin.result.injEq] at this
  exact this.1

/-- What an instruction may use, a later one may use as well. -/
theorem Coherent.available_of_precedes (hf : f.Coherent) {i j : InstId} {v : ValueId}
    (h : f.Available i v) (hij : f.Precedes i j) : f.Available j v := by
  obtain h | h | ⟨k, hk, hki⟩ := h
  · exact .inl h
  · exact .inr (.inl h)
  · exact .inr (.inr ⟨k, hk, hf.precedes_trans hki hij⟩)

/-- The definer of an available value comes earlier. -/
theorem Coherent.definer_precedes (hf : f.Coherent) {i j : InstId} {v : ValueId}
    (h : f.Available i v) (hj : f.definer? v = some j) : f.Precedes j i := by
  obtain h | h | ⟨k, hk, hki⟩ := h
  · exfalso
    unfold isLiteral literal? at h
    unfold definer? at hj
    cases hv : f.value? v with
    | none => simp [hv] at hj
    | some d =>
      obtain ⟨o, w⟩ := d
      cases o <;> simp [hv] at h hj
  · exfalso
    obtain ⟨k, hk⟩ := List.mem_iff_getElem?.mp h
    obtain ⟨c, w, hv⟩ := hf.parameter.mp hk
    simp [definer?, hv] at hj
  · rwa [hf.result_inj (hf.definer?_eq_some.mp hj) hk]

/-- The result of an instruction is not available to it. -/
theorem Coherent.ne_of_available (hf : f.Coherent) {i : InstId} {v result : ValueId}
    (hres : f.result? i = some result) (hv : f.Available i v) : v ≠ result := by
  rintro rfl
  exact hf.not_precedes_self i (hf.definer_precedes hv (hf.definer?_eq_some.mpr hres))

end Func

end Peephole

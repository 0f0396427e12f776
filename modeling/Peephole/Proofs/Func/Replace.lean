import Peephole.Proofs.Func.Settled

/-!
# Replacing and erasing

What a rewrite does once its replacement stands before the instruction that is replaced: all uses of
the result move to another value, and what is dead after that is erased. Both keep functions
settled, and both always come to a result.
-/

namespace Peephole

namespace Func

variable {f g : Func} {gone : List InstId}

/-! ### Replacing -/

section Replace

variable {old new : ValueId}

theorem result?_replaceAllUses (f : Func) (old new : ValueId) (i : InstId) :
    (f.replaceAllUses old new).result? i = f.result? i := by
  by_cases hne : old = new
  · rw [replaceAllUses, if_pos hne]
  · rw [result?, result?, inst?_replaceAllUses f hne]
    cases f.inst? i <;> rfl

theorem isAttached_replaceAllUses (f : Func) (old new : ValueId) (i : InstId) :
    (f.replaceAllUses old new).isAttached i = f.isAttached i := by
  by_cases hne : old = new
  · rw [replaceAllUses, if_pos hne]
  · rw [isAttached, isAttached, inst?_replaceAllUses f hne]
    cases f.inst? i <;> rfl

/-- Availability does not depend on operands. -/
theorem available_replaceAllUses (f : Func) (old new : ValueId) {i : InstId} {v : ValueId} :
    (f.replaceAllUses old new).Available i v ↔ f.Available i v := by
  simp only [Available, isLiteral, literal?, value?_replaceAllUses, result?_replaceAllUses,
    Precedes, layout_replaceAllUses, (frame_replaceAllUses f old new).2.1]

/-- Every mention of the old value by an attached instruction is replaced, and no other one. -/
theorem Settled.operands_replaceAllUses (hf : f.Settled gone) {i : InstId} (hi : i ∈ f.layout) :
    (f.replaceAllUses old new).operands i =
      (f.operands i).map fun v => if v = old then new else v := by
  by_cases hne : old = new
  · rw [replaceAllUses, if_pos hne]
    refine (List.map_id'' (fun v => ?_) _).symm
    split
    · next hv => rw [hv, hne]
    · rfl
  · refine List.ext_getElem? fun k => ?_
    rw [getElem?_operands_replaceAllUses hne, List.getElem?_map]
    have hgone := (hf.mem_layout_iff_notMem (hf.coherent.exists_of_mem_layout hi)).mp hi
    cases hk : (f.operands i)[k]? with
    | none => rfl
    | some v =>
      have hmem : ⟨i, k⟩ ∈ f.uses old ↔ v = old := by
        rw [hf.mirrored.mem_uses]
        simp [hk, hgone]
      simp only [Option.map_some, hmem]

/-- A value that comes before an instruction may take the place of its result. -/
theorem Settled.replaceAllUses (hf : f.Settled gone) {i : InstId} (hr : f.result? i = some old)
    (hknown : (f.value? new).isSome) (hnew : f.Available i new) :
    (f.replaceAllUses old new).Settled gone where
  coherent := hf.coherent.replaceAllUses hknown
  mirrored := hf.mirrored.replaceAllUses
  tidy j hj := by
    rw [isAttached_replaceAllUses]
    refine hf.tidy j ?_
    by_cases hne : old = new
    · rwa [Func.replaceAllUses, if_pos hne] at hj
    · rwa [inst?_replaceAllUses f hne, Option.isSome_map] at hj
  defined := by
    intro j hj v hv
    rw [layout_replaceAllUses] at hj
    rw [hf.operands_replaceAllUses hj] at hv
    obtain ⟨x, hx, rfl⟩ := List.mem_map.mp hv
    rw [available_replaceAllUses]
    split
    · next hxold =>
      -- a user of the old value comes after the instruction, and hence after the new value
      have hij := hf.coherent.definer_precedes (hxold ▸ hf.defined j hj x hx)
        (hf.coherent.definer?_eq_some.mpr hr)
      exact hf.coherent.available_of_precedes hnew hij
    · exact hf.defined j hj x hx

end Replace

/-! ### Erasing -/

/-- An erasure changes the blocks of what it erases, and nothing else of any instruction. -/
theorem Erases.inst? {is : List InstId} (e : Erases f is g) (j : InstId) :
    g.inst? j = (f.inst? j).map fun d => if j ∈ is then { d with block := none } else d := by
  induction e with
  | nil => simp
  | @cons e i is e' attached dead rest ih =>
    rw [ih, (sameButChains_release _ _).inst?, inst?_detach]
    by_cases hji : j = i
    · subst hji
      rw [if_pos rfl, Option.map_map]
      congr 1
      funext d
      by_cases his : j ∈ is <;> simp [his]
    · simp [hji]

theorem Erases.value? {is : List InstId} (e : Erases f is g) (v : ValueId) :
    g.value? v = f.value? v := by
  induction e with
  | nil => rfl
  | cons attached dead rest ih => rw [ih, (sameButChains_release _ _).value?, value?_detach]

theorem Erases.params {is : List InstId} (e : Erases f is g) : g.params = f.params := by
  induction e with
  | nil => rfl
  | cons attached dead rest ih => rw [ih, (sameButChains_release _ _).params, params_detach]

theorem Erases.name {is : List InstId} (e : Erases f is g) : g.name = f.name := by
  induction e with
  | nil => rfl
  | cons attached dead rest ih => rw [ih, (sameButChains_release _ _).name, name_detach]

theorem Erases.result? {is : List InstId} (e : Erases f is g) (j : InstId) :
    g.result? j = f.result? j := by
  rw [Func.result?, Func.result?, e.inst?]
  cases f.inst? j with
  | none => rfl
  | some d => by_cases hj : j ∈ is <;> simp [hj]

theorem Erases.operands {is : List InstId} (e : Erases f is g) (j : InstId) :
    g.operands j = f.operands j := by
  rw [Func.operands, Func.operands, e.inst?]
  cases f.inst? j with
  | none => rfl
  | some d => by_cases hj : j ∈ is <;> simp [hj]

/-- What is erased has a result, and no effect but that. -/
theorem Erases.result_isSome {is : List InstId} (e : Erases f is g) {j : InstId} (hj : j ∈ is) :
    (f.result? j).isSome := by
  induction e with
  | nil => cases hj
  | @cons e i is e' attached dead rest ih =>
    obtain rfl | hj := List.mem_cons.mp hj
    · obtain ⟨d, v, hd, -, hv, -⟩ := isDead_iff.mp dead
      rw [Func.result?, hd, Option.bind_some, hv]
      rfl
    · have hstep : Erases e [i] ((e.detach i).release i) := .cons attached dead .nil
      rw [← hstep.result?]
      exact ih hj

theorem Erases.size {is : List InstId} (e : Erases f is g) : g.blocks.size = f.blocks.size := by
  induction e with
  | nil => rfl
  | cons attached dead rest ih =>
    rw [ih, (sameButChains_release _ _).blocks, size_blocks_detach]

/-- A dead instruction does not survive its erasure. -/
theorem not_isAttached_of_eraseDead {i : InstId} {n : Nat} (ha : f.isAttached i) (hd : f.isDead i)
    (h : f.eraseDead i = ⟨g, .ok n⟩) : ¬ g.isAttached i := by
  unfold eraseDead at h
  split at h
  · rw [eraseAll, dif_pos ⟨ha, hd⟩] at h
    dsimp only at h
    split at h
    · cases h
    · split at h
      · cases h
      · obtain ⟨m, hm, -⟩ := Edited.map_eq_ok h
        obtain ⟨is, -, herase⟩ := eraseAll_eq_ok hm
        rw [herase.isAttached_iff, (sameButChains_release _ _).isAttached, isAttached_detach]
        exact fun h => h.1.2 rfl
  · cases h

/-- A single dead instruction may be erased: nothing mentions its result. -/
theorem Settled.eraseOne (hf : f.Settled gone) {i : InstId} (ha : f.isAttached i)
    (hd : f.isDead i) : ((f.detach i).release i).Settled (i :: gone) := by
  have hstep : Erases f [i] ((f.detach i).release i) := .cons ha hd .nil
  have hi := hf.coherent.exists_of_mem_layout (hf.coherent.mem_layout.mpr ha)
  refine ⟨(hf.coherent.detach i).release i, ?_, fun j hj => ?_, fun j hj v hv => ?_⟩
  · refine (hf.mirrored.detach i).release ?_
    rw [inst?_detach, if_pos rfl, Option.isSome_map]
    exact hi
  · rw [hstep.isAttached_iff, List.mem_singleton, List.mem_cons, not_or, and_comm]
    refine and_congr_right fun _ => hf.tidy j ?_
    rwa [hstep.inst?, Option.isSome_map] at hj
  · rw [hf.coherent.layout_erases hstep, List.mem_filter] at hj
    rw [hstep.operands] at hv
    have hlit : ((f.detach i).release i).isLiteral v = f.isLiteral v := by
      simp only [isLiteral, literal?, hstep.value?]
    obtain h | h | ⟨k, hk, hkj⟩ := hf.defined j hj.1 v hv
    · exact .inl (hlit.trans h)
    · exact .inr (.inl (by rwa [hstep.params]))
    · refine .inr (.inr ⟨k, by rwa [hstep.result?], ?_⟩)
      rw [precedes_iff_sublist, hf.coherent.layout_erases hstep]
      have hki : k ≠ i := by
        rintro rfl
        -- a mention of the result would keep the instruction alive
        obtain ⟨d, w, hd, -, hw, huse⟩ := isDead_iff.mp hd
        obtain rfl : w = v := by
          rw [result?, hd, Option.bind_some, hw] at hk
          exact Option.some.inj hk
        exact hf.uses_ne_nil_iff.mpr ⟨j, hj.1, hv⟩ huse
      have hji : j ≠ i := by simpa using hj.2
      simpa [hki, hji] using (precedes_iff_sublist.mp hkj).filter (· ∉ [i])

theorem Settled.erases {is : List InstId} (hf : f.Settled gone) (e : Erases f is g) :
    g.Settled (is ++ gone) := by
  induction e generalizing gone with
  | nil => exact hf
  | @cons e i is e' attached dead rest ih =>
    have := ih (hf.eraseOne attached dead)
    have hcongr (j : InstId) : j ∈ i :: is ++ gone ↔ j ∈ is ++ i :: gone := by
      rw [List.cons_append, List.mem_cons, List.mem_append, List.mem_append, List.mem_cons,
        or_left_comm]
    exact ⟨this.coherent, this.mirrored.congr hcongr,
      fun j hj => (this.tidy j hj).trans (not_congr (hcongr j).symm), this.defined⟩

/-- In a coherent function, nothing stops an erasure. -/
theorem Coherent.eraseAll_ok (hf : f.Coherent) (stack : List InstId) :
    ∃ n g, f.eraseAll stack = ⟨g, .ok n⟩ := by
  have hoperands {e : Func} (he : e.Coherent) (i : InstId) : e.hasOperands i = true := by
    simp only [hasOperands, List.all_eq_true]
    intro v hv
    obtain ⟨k, hk⟩ := List.mem_iff_getElem?.mp hv
    exact he.known_of_operand hk
  induction f, stack using eraseAll.induct with
  | case1 f => exact ⟨0, f, by rw [eraseAll]⟩
  | case2 f i rest hi =>
    rename_i hb
    simp [hf.orderly.hasBlock i] at hb
  | case3 f i rest hi =>
    rename_i ho
    simp [hoperands hf i] at ho
  | case4 f i rest hi e hlt hb ho =>
    rename_i ih
    obtain ⟨n, g, h⟩ := ih ((hf.detach i).release i)
    refine ⟨n + 1, g, ?_⟩
    rw [eraseAll, dif_pos hi]
    dsimp only
    rw [if_neg hb, if_neg ho, h]
    rfl
  | case5 f i rest hi ih =>
    obtain ⟨n, g, h⟩ := ih hf
    exact ⟨n, g, by rw [eraseAll, dif_neg hi, h]⟩

theorem Coherent.eraseDead_ok (hf : f.Coherent) {i : InstId} (hi : (f.inst? i).isSome) :
    ∃ n g, f.eraseDead i = ⟨g, .ok n⟩ := by
  rw [eraseDead, if_pos hi]
  exact hf.eraseAll_ok [i]

end Func

end Peephole

import Peephole.Proofs.Func.Replace

/-!
# Dead code that lingers

An instruction **lingers** when it is attached though it is dead. Erasing an instruction may leave
others dead, but only those that define one of its operands, and these are put on the stack of the
erasure. So nothing lingers after an erasure that has not lingered before, and what has been on the
stack does not: `lingers_of_eraseDead`.

Moving the uses of a value to another one leaves nothing but the definer of the former dead,
`lingers_of_replaceAllUses`.
-/

namespace Peephole

namespace Func

/-- Whether an instruction lingers. -/
def lingers (f : Func) (i : InstId) : Bool := f.isAttached i && f.isDead i

variable {f g : Func} {gone : List InstId}

theorem lingers_iff {i : InstId} : f.lingers i ↔ f.isAttached i ∧ f.isDead i := by
  rw [lingers, Bool.and_eq_true]

/-- What lingers has a result that is no operand of an attached instruction. -/
theorem Settled.lingers_iff (hf : f.Settled gone) {i : InstId} :
    f.lingers i ↔ ∃ v, i ∈ f.layout ∧ f.result? i = some v ∧
      ∀ j ∈ f.layout, v ∉ f.operands j := by
  have huses (v : ValueId) : f.uses v = [] ↔ ∀ j ∈ f.layout, v ∉ f.operands j := by
    rw [← not_iff_not]
    simpa using hf.uses_ne_nil_iff
  rw [Func.lingers_iff, ← hf.coherent.mem_layout, isDead_iff]
  constructor
  · rintro ⟨hi, d, v, hd, -, hv, hnil⟩
    exact ⟨v, hi, by rw [result?, hd, Option.bind_some, hv], (huses v).mp hnil⟩
  · rintro ⟨v, hi, hres, hnone⟩
    obtain ⟨d, hd, hv⟩ := Option.bind_eq_some_iff.mp hres
    exact ⟨hi, d, v, hd, hf.coherent.isPure_of_result hd hv, hv, (huses v).mpr hnone⟩

/-! ### Erasing -/

/-- The erasure of one instruction leaves others dead only among the definers of its operands. -/
theorem Settled.lingers_of_eraseOne (hf : f.Settled gone) {i j : InstId} (ha : f.isAttached i)
    (hd : f.isDead i) (hj : ((f.detach i).release i).lingers j)
    (hout : j ∉ ((f.detach i).release i).deadOperands (f.operands i)) : f.lingers j ∧ j ≠ i := by
  have hstep : Erases f [i] ((f.detach i).release i) := .cons ha hd .nil
  have hset := hf.eraseOne ha hd
  have hdead := (Func.lingers_iff.mp hj).2
  obtain ⟨v, hmem, hv, hnone⟩ := hset.lingers_iff.mp hj
  rw [hf.coherent.layout_erases hstep, List.mem_filter] at hmem
  rw [hstep.result?] at hv
  refine ⟨hf.lingers_iff.mpr ⟨v, hmem.1, hv, fun k hk hvk => ?_⟩, by simpa using hmem.2⟩
  -- a use by another instruction would still be there; a use by this one puts the definer on top
  by_cases hki : k = i
  · refine hout (List.mem_reverse.mpr (List.mem_filterMap.mpr ⟨v, hki ▸ hvk, ?_⟩))
    rw [Option.filter_eq_some_iff]
    exact ⟨hset.coherent.definer?_eq_some.mpr (by rwa [hstep.result?]), hdead⟩
  · refine hnone k ?_ (by rwa [hstep.operands])
    rw [hf.coherent.layout_erases hstep, List.mem_filter]
    exact ⟨hk, by simpa using hki⟩

/-- The erasure of a stack leaves nothing on it, and nothing else that has not lingered before. -/
theorem Settled.lingers_of_eraseAll {stack : List InstId} {n : Nat} {j : InstId}
    (hf : f.Settled gone) (h : f.eraseAll stack = ⟨g, .ok n⟩) (hj : g.lingers j) :
    f.lingers j ∧ j ∉ stack := by
  refine eraseAll_induction
    (motive := fun f stack _ => ∀ {gone}, f.Settled gone → f.lingers j ∧ j ∉ stack) ?_ ?_ ?_ h hf
  · exact fun _ => ⟨hj, List.not_mem_nil⟩
  · intro f i rest n hi ih gone hf
    obtain ⟨hlingers, hout⟩ := ih hf
    refine ⟨hlingers, List.not_mem_cons_of_ne_of_not_mem ?_ hout⟩
    rintro rfl
    exact hi (Func.lingers_iff.mp hlingers)
  · intro f i rest n ha hd ih gone hf
    obtain ⟨hlingers, hout⟩ := ih (hf.eraseOne ha hd)
    rw [List.mem_append, not_or] at hout
    obtain ⟨hold, hji⟩ := hf.lingers_of_eraseOne ha hd hlingers hout.1
    exact ⟨hold, List.not_mem_cons_of_ne_of_not_mem hji hout.2⟩

/-- Nothing lingers after an erasure but what has lingered before, and not what it starts from. -/
theorem Settled.lingers_of_eraseDead {i j : InstId} {n : Nat} (hf : f.Settled gone)
    (h : f.eraseDead i = ⟨g, .ok n⟩) (hj : g.lingers j) : f.lingers j ∧ j ≠ i := by
  unfold eraseDead at h
  split at h
  · obtain ⟨hlingers, hout⟩ := hf.lingers_of_eraseAll h hj
    exact ⟨hlingers, by simpa using hout⟩
  · cases h

/-! ### Replacing -/

/-- The instruction whose result is replaced is dead. -/
theorem Coherent.isDead_replaceAllUses (hf : f.Coherent) {old new : ValueId} {i : InstId}
    (hne : old ≠ new) (hres : f.result? i = some old) : (f.replaceAllUses old new).isDead i := by
  obtain ⟨d, hd, hv⟩ := Option.bind_eq_some_iff.mp hres
  have hpure : d.opcode.isPure := hf.isPure_of_result hd hv
  refine isDead_iff.mpr ⟨redirect (f.uses old) new i d, old, ?_, hpure, hv, ?_⟩
  · rw [inst?_replaceAllUses f hne, hd, Option.map_some]
  · rw [uses_replaceAllUses f hne, if_pos rfl]

/-- When uses move, nothing is left dead but what defines the value that they move away from. -/
theorem lingers_of_replaceAllUses {old new : ValueId} {j : InstId} (hne : old ≠ new)
    (hj : (f.replaceAllUses old new).lingers j) (hold : f.result? j ≠ some old) :
    f.lingers j := by
  obtain ⟨ha, hdead⟩ := Func.lingers_iff.mp hj
  obtain ⟨d, v, hd, hpure, hv, huses⟩ := isDead_iff.mp hdead
  rw [inst?_replaceAllUses f hne] at hd
  obtain ⟨d', hd', rfl⟩ := Option.map_eq_some_iff.mp hd
  rw [isAttached_replaceAllUses] at ha
  refine Func.lingers_iff.mpr ⟨ha, isDead_iff.mpr ⟨d', v, hd', hpure, hv, ?_⟩⟩
  have hvold : v ≠ old := by
    rintro rfl
    exact hold (by rw [result?, hd', Option.bind_some]; exact hv)
  rw [uses_replaceAllUses f hne, if_neg hvold] at huses
  split at huses
  · next hnew =>
    rw [hnew]
    exact (List.append_eq_nil_iff.mp huses).1
  · exact huses

end Func

end Peephole

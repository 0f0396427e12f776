import Peephole.Proofs.Func.Coherent

/-!
# Use-chains

The use-chains of a function **mirror** the operands of all instructions but the removed ones: every
operand position has one entry, in the chain of the value that stands there, and there is no other
entry. Every function that edits lead to has such chains, `Reachable.mirrored`, whether its
instructions are attached or not.

`detachedIn` tells which instructions the erasure of dead code removes: those that it erases one
after another, `mem_detachedIn`.
-/

namespace Peephole

namespace Func

/-- The use-chains **mirror** the operands of the instructions that are not gone. -/
structure Mirrored (f : Func) (gone : List InstId) : Prop where
  exist : ∀ i ∈ gone, (f.inst? i).isSome
  count : ∀ v u, (f.uses v).count u =
    if (f.operands u.user)[u.operand]? = some v ∧ u.user ∉ gone then 1 else 0

variable {f g : Func} {gone : List InstId}

/-- A chain lists the positions at which its value stands. -/
theorem Mirrored.mem_uses (h : f.Mirrored gone) {v : ValueId} {u : Use} :
    u ∈ f.uses v ↔ (f.operands u.user)[u.operand]? = some v ∧ u.user ∉ gone := by
  rw [← List.count_pos_iff, h.count]
  split
  · next hu => simp [hu]
  · next hu => simp [hu]

/-! ### Edits keep chains and operands in step -/

theorem mirrored_empty (name : String) : (empty name).Mirrored [] := by
  constructor <;> simp [empty, inst?, uses, operands]

/-- It does not matter in which order instructions have gone. -/
theorem Mirrored.congr {gone' : List InstId} (h : f.Mirrored gone)
    (hgone : ∀ i, i ∈ gone' ↔ i ∈ gone) : f.Mirrored gone' where
  exist i hi := h.exist i ((hgone i).mp hi)
  count v u := by
    rw [h.count]
    simp only [hgone]

/-- Chains and operands are all that matters. -/
theorem Mirrored.of_kept (h : f.Mirrored gone)
    (hinst : ∀ i, (f.inst? i).isSome → (g.inst? i).isSome)
    (huses : ∀ v, g.uses v = f.uses v) (hoperands : ∀ i, g.operands i = f.operands i) :
    g.Mirrored gone where
  exist i hi := hinst i (h.exist i hi)
  count v u := by
    rw [huses, hoperands]
    exact h.count v u

theorem AddsValue.operands {o : Origin} {w : Nat} {v : ValueId} (e : f.AddsValue o w v g)
    (i : InstId) : g.operands i = f.operands i := by
  simp only [Func.operands, e.inst?]

theorem Mirrored.addsValue {o : Origin} {w : Nat} {v : ValueId} (h : f.Mirrored gone)
    (e : f.AddsValue o w v g) : g.Mirrored gone :=
  h.of_kept (fun i hi => by rwa [e.inst?]) e.uses e.operands

theorem Mirrored.literal {w : Nat} {bits : Word} {v : ValueId} (h : f.Mirrored gone)
    (e : f.literal w bits = .ok (v, g)) : g.Mirrored gone := by
  obtain ⟨-, ⟨rfl, -⟩ | ⟨-, e, -⟩⟩ := literal_eq_ok e
  · exact h
  · exact h.addsValue e

theorem operands_modifyInst_of_kept (f : Func) (i : InstId) {p : Inst → Inst}
    (hp : ∀ d, (p d).operands = d.operands) (j : InstId) :
    (f.modifyInst i p).operands j = f.operands j := by
  simp only [operands, inst?_modifyInst]
  split
  · cases f.inst? j with
    | none => rfl
    | some d => exact hp d
  · rfl

theorem Mirrored.setExact {i : InstId} {exact : Bool} (h : f.Mirrored gone)
    (e : f.setExact i exact = .ok g) : g.Mirrored gone := by
  obtain ⟨-, rfl⟩ := setExact_eq_ok e
  refine h.of_kept (fun j hj => ?_) (fun _ => rfl)
    (operands_modifyInst_of_kept f i fun _ => rfl)
  rw [inst?_modifyInst]
  split
  · rwa [Option.isSome_map]
  · exact hj

theorem Creates.operands {op : Opcode} {w : Nat} {operands : List ValueId} {i : InstId}
    (e : f.Creates op w operands i g) (j : InstId) :
    g.operands j = if j = i then operands else f.operands j := by
  simp only [Func.operands, e.inst?]
  split <;> rfl

theorem Mirrored.creates {op : Opcode} {w : Nat} {operands : List ValueId} {i : InstId}
    (h : f.Mirrored gone) (e : f.Creates op w operands i g) : g.Mirrored gone where
  exist j hj := by
    obtain ⟨d, hd⟩ := Option.isSome_iff_exists.mp (h.exist j hj)
    rw [e.kept hd]
    rfl
  count v u := by
    have habsent : f.operands i = [] := by simp [Func.operands, e.absent]
    have hi : i ∉ gone := fun hi => by simpa [e.absent] using h.exist i hi
    rw [e.count, h.count, e.operands]
    by_cases hu : u.user = i
    · simp [hu, habsent, hi]
    · simp [hu]

theorem Attaches.operands {i : InstId} {b : BlockId} {before after : List InstId}
    (e : f.Attaches i b before after g) (j : InstId) : g.operands j = f.operands j := by
  simp only [Func.operands, e.inst?]
  split
  · cases f.inst? j <;> rfl
  · rfl

theorem Mirrored.attaches {i : InstId} {b : BlockId} {before after : List InstId}
    (h : f.Mirrored gone) (e : f.Attaches i b before after g) : g.Mirrored gone := by
  refine h.of_kept (fun j hj => ?_) e.uses e.operands
  rw [e.inst?]
  split
  · rwa [Option.isSome_map]
  · exact hj

theorem Mirrored.detach (h : f.Mirrored gone) (i : InstId) : (f.detach i).Mirrored gone := by
  refine h.of_kept (fun j hj => ?_) (uses_detach f i) (operands_detach f i)
  rw [inst?_detach]
  split
  · rwa [Option.isSome_map]
  · exact hj

/-- An instruction whose operands are released is gone. -/
theorem Mirrored.release {i : InstId} (h : f.Mirrored gone) (hi : (f.inst? i).isSome) :
    (f.release i).Mirrored (i :: gone) where
  exist j hj := by
    rw [(sameButChains_release f i).inst?]
    obtain rfl | hj := List.mem_cons.mp hj
    · exact hi
    · exact h.exist j hj
  count v u := by
    rw [count_uses_release, (sameButChains_release f i).operands, h.count]
    by_cases hu : u.user = i
    · simp +contextual [hu]
    · simp [hu]

/-- Where a value has been replaced: at the positions that the chain of it lists. -/
theorem getElem?_operands_replaceAllUses {old new : ValueId} (hne : old ≠ new) (i : InstId)
    (k : Nat) : ((f.replaceAllUses old new).operands i)[k]? =
      ((f.operands i)[k]?).map fun v => if ⟨i, k⟩ ∈ f.uses old then new else v := by
  simp only [operands, inst?_replaceAllUses f hne]
  cases f.inst? i with
  | none => rfl
  | some d => simp [redirect]

theorem Mirrored.replaceAllUses {old new : ValueId} (h : f.Mirrored gone) :
    (f.replaceAllUses old new).Mirrored gone := by
  by_cases hne : old = new
  · rwa [Func.replaceAllUses, if_pos hne]
  · refine ⟨fun i hi => ?_, fun v u => ?_⟩
    · rw [inst?_replaceAllUses f hne, Option.isSome_map]
      exact h.exist i hi
    · rw [uses_replaceAllUses f hne, getElem?_operands_replaceAllUses hne]
      have hmem : u ∈ f.uses old ↔ _ := h.mem_uses
      obtain ⟨i, k⟩ := u
      dsimp only at hmem ⊢
      -- a position is redirected exactly if the old value stands there and the user is not gone
      by_cases hu : ⟨i, k⟩ ∈ f.uses old
      · obtain ⟨hk, hi⟩ := hmem.mp hu
        rw [hk, Option.map_some, if_pos hu]
        split
        · next hv => simp [hv, Ne.symm hne]
        · split
          · next hv => simp [hv, h.count, hk, hi, hne]
          · next hold hnew =>
            simp [h.count, hk, Ne.symm hold, Ne.symm hnew]
      · have hkept : ((f.operands i)[k]?).map (fun v => if ⟨i, k⟩ ∈ f.uses old then new else v) =
            (f.operands i)[k]? := by
          simp [hu]
        rw [hkept]
        split
        · next hv => simpa [hv] using fun hk hi => hu (hmem.mpr ⟨hk, hi⟩)
        · split
          · next hv =>
            rw [List.count_append, List.count_eq_zero.mpr hu, h.count, hv]
            rfl
          · exact h.count v ⟨i, k⟩

/-! ### Erasing -/

theorem isAttached_iff {i : InstId} :
    f.isAttached i ↔ ∃ d b, f.inst? i = some d ∧ d.block = some b := by
  simp only [isAttached, Option.any_eq_true, Option.isSome_iff_exists]
  constructor
  · rintro ⟨d, hd, b, hb⟩
    exact ⟨d, b, hd, hb⟩
  · rintro ⟨d, b, hd, hb⟩
    exact ⟨d, hd, b, hb⟩

theorem isAttached_detach (f : Func) (i j : InstId) :
    (f.detach i).isAttached j ↔ f.isAttached j ∧ j ≠ i := by
  simp only [isAttached, inst?_detach]
  by_cases hji : j = i
  · subst hji
    cases f.inst? j <;> simp
  · simp [hji]

theorem SameButChains.isAttached (h : SameButChains f g) (i : InstId) :
    g.isAttached i = f.isAttached i := by
  simp only [Func.isAttached, h.inst?]

/-- What remains attached after an erasure. -/
theorem Erases.isAttached_iff {is : List InstId} (h : Erases f is g) (j : InstId) :
    g.isAttached j ↔ f.isAttached j ∧ j ∉ is := by
  induction h with
  | nil => simp
  | cons attached dead rest ih =>
    rw [ih, (sameButChains_release _ _).isAttached, isAttached_detach, List.mem_cons, not_or,
      and_assoc]

/-- What is erased has been attached. -/
theorem Erases.attached {is : List InstId} (h : Erases f is g) {j : InstId} (hj : j ∈ is) :
    f.isAttached j := by
  induction h with
  | nil => cases hj
  | cons attached dead rest ih =>
    obtain rfl | hj := List.mem_cons.mp hj
    · exact attached
    · have := ih hj
      rw [(sameButChains_release _ _).isAttached, isAttached_detach] at this
      exact this.1

/-- An erasure detaches what it erases, and nothing else. -/
theorem mem_detachedIn {is : List InstId} (h : Erases f is g) (i : InstId) :
    i ∈ f.detachedIn g ↔ i ∈ is := by
  have hknown : f.isAttached i → i ∈ f.instIds := by
    intro hi
    obtain ⟨d, -, hd, -⟩ := Func.isAttached_iff.mp hi
    obtain ⟨hlt, -⟩ := Array.getElem?_eq_some_iff.mp hd
    exact List.mem_map.mpr ⟨i.index, List.mem_range.mpr hlt, rfl⟩
  rw [detachedIn, List.mem_filter, Bool.and_eq_true, Bool.not_eq_true', ← Bool.not_eq_true,
    h.isAttached_iff]
  constructor
  · rintro ⟨-, hi, hout⟩
    by_contra his
    exact hout ⟨hi, his⟩
  · intro his
    have hi := h.attached his
    exact ⟨hknown hi, hi, fun hout => hout.2 his⟩

theorem Mirrored.erases {is : List InstId} (h : f.Mirrored gone) (e : Erases f is g) :
    g.Mirrored (is ++ gone) := by
  induction e generalizing gone with
  | nil => exact h
  | @cons e i is e' attached dead rest ih =>
    obtain ⟨d, _, hd, -⟩ := isAttached_iff.mp attached
    have hi : ((e.detach i).inst? i).isSome := by
      rw [inst?_detach, if_pos rfl, hd]
      rfl
    refine (ih ((h.detach i).release hi)).congr fun j => ?_
    simp only [List.mem_append, List.mem_cons]
    tauto

/-! ### Reachable functions -/

/-- Every edit keeps chains and operands in step, once what it removes has gone as well. -/
theorem Mirrored.edit {now : List InstId} (h : f.Mirrored gone) (e : Edit f now g) :
    g.Mirrored (now ++ gone) := by
  cases e with
  | addParam h' => exact h.addsValue (addParam_eq_ok h').2.1
  | literal h' => exact h.literal h'
  | createBlock h' =>
    unfold Func.createBlock at h'
    injection h' with _ hg
    exact h.of_kept (fun i hi => by rwa [← hg]) (fun v => by rw [← hg]; rfl)
      fun i => by rw [← hg]; rfl
  | createInst _ h' => exact h.creates (createInst_eq_ok h')
  | append _ h' =>
    obtain ⟨_, hcreate, hpush⟩ := append_eq_ok h'
    exact (h.creates (createInst_eq_ok hcreate)).attaches (pushInst_eq_ok hpush)
  | setExact h' => exact h.setExact h'
  | pushInst h' => exact h.attaches (pushInst_eq_ok h')
  | insertBefore h' =>
    obtain ⟨_, _, _, _, -, -, e⟩ := insertBefore_eq_ok h'
    exact h.attaches e
  | detachInst h' => exact detachInst_eq_ok h' ▸ h.detach _
  | removeInst h' =>
    obtain ⟨d, hd, -, rfl⟩ := removeInst_eq_ok h'
    exact h.release (by rw [hd]; rfl)
  | eraseDead h' =>
    obtain ⟨is, -, herase⟩ := eraseDead_eq_ok h'
    exact (h.erases herase).congr fun i => by
      rw [List.mem_append, List.mem_append, mem_detachedIn herase]
  | replaceAllUses _ _ => exact h.replaceAllUses

/-- It does not matter whether the values that a call mentions exist. -/
theorem Mirrored.call {now : List InstId} (h : f.Mirrored gone) (e : Call f now g) :
    g.Mirrored (now ++ gone) := by
  cases e with
  | edit e => exact h.edit e
  | createInst h' => exact h.creates (createInst_eq_ok h')
  | append h' =>
    obtain ⟨_, hcreate, hpush⟩ := append_eq_ok h'
    exact (h.creates (createInst_eq_ok hcreate)).attaches (pushInst_eq_ok hpush)
  | replaceAllUses old new => exact h.replaceAllUses

theorem Called.mirrored (h : Called f gone) : f.Mirrored gone := by
  induction h with
  | empty name => exact mirrored_empty name
  | call _ e ih => exact ih.call e

/-- The chains of the functions that edits lead to mirror the operands of what is not removed. -/
theorem Reachable.mirrored (h : Reachable f gone) : f.Mirrored gone := by
  induction h with
  | empty name => exact mirrored_empty name
  | edit _ e ih => exact ih.edit e

/-- In the functions that edits lead to, the use-chain of a value lists an operand position once if
the value stands there and the instruction has not been removed, and not at all otherwise. -/
theorem Reachable.count_uses_eq (h : Reachable f gone) (v : ValueId) (i : InstId) (k : Nat) :
    (f.uses v).count ⟨i, k⟩ = if (f.operands i)[k]? = some v ∧ i ∉ gone then 1 else 0 :=
  h.mirrored.count v ⟨i, k⟩

/-- A function that stores its parameter. The sum of the parameter with itself has been removed,
which has left its operands in place; the complement of the parameter is out of its block only. -/
def removedSum : Func where
  name := "f"
  params := [⟨0⟩]
  values := #[⟨.parameter 0 none, 32⟩, ⟨.result ⟨0⟩, 32⟩, ⟨.result ⟨1⟩, 32⟩]
  chains := #[[⟨⟨1⟩, 0⟩, ⟨⟨2⟩, 0⟩], [], []]
  insts := #[⟨.iadd, 32, false, [⟨0⟩, ⟨0⟩], some ⟨1⟩, none⟩,
    ⟨.inot, 32, false, [⟨0⟩], some ⟨2⟩, none⟩, ⟨.store, 0, false, [⟨0⟩], none, some ⟨0⟩⟩]
  blocks := #[[⟨2⟩]]

theorem reachable_removedSum : Reachable removedSum [⟨0⟩] := by
  have hparam := ((Reachable.empty "f").edit (.createBlock rfl)).addParam 32 none rfl
  have hsum := hparam.append ⟨0⟩ .iadd 32 [⟨0⟩, ⟨0⟩] (by decide) rfl
  have hout : Reachable ⟨"f", [⟨0⟩], #[⟨.parameter 0 none, 32⟩, ⟨.result ⟨0⟩, 32⟩],
      #[[⟨⟨0⟩, 0⟩, ⟨⟨0⟩, 1⟩], []], #[⟨.iadd, 32, false, [⟨0⟩, ⟨0⟩], some ⟨1⟩, none⟩], #[[]]⟩ [] :=
    hsum.edit (.detachInst (i := ⟨0⟩) rfl)
  have hremoved : Reachable ⟨"f", [⟨0⟩], #[⟨.parameter 0 none, 32⟩, ⟨.result ⟨0⟩, 32⟩],
      #[[], []], #[⟨.iadd, 32, false, [⟨0⟩, ⟨0⟩], some ⟨1⟩, none⟩], #[[]]⟩ [⟨0⟩] :=
    hout.edit (.removeInst (i := ⟨0⟩) rfl)
  have hnot := hremoved.append ⟨0⟩ .inot 32 [⟨0⟩] (by decide) rfl
  have hapart : Reachable ⟨"f", [⟨0⟩],
      #[⟨.parameter 0 none, 32⟩, ⟨.result ⟨0⟩, 32⟩, ⟨.result ⟨1⟩, 32⟩], #[[⟨⟨1⟩, 0⟩], [], []],
      #[⟨.iadd, 32, false, [⟨0⟩, ⟨0⟩], some ⟨1⟩, none⟩,
        ⟨.inot, 32, false, [⟨0⟩], some ⟨2⟩, none⟩], #[[]]⟩ [⟨0⟩] :=
    hnot.edit (.detachInst (i := ⟨1⟩) rfl)
  exact hapart.append ⟨0⟩ .store 0 [⟨0⟩] (by decide) rfl

theorem Reachable.count_uses_removedSum : Reachable removedSum [⟨0⟩] ∧
    (removedSum.operands ⟨0⟩)[1]? = some ⟨0⟩ ∧ (removedSum.uses ⟨0⟩).count ⟨⟨0⟩, 1⟩ = 0 ∧
    (removedSum.operands ⟨1⟩)[0]? = some ⟨0⟩ ∧ (removedSum.uses ⟨0⟩).count ⟨⟨1⟩, 0⟩ = 1 :=
  ⟨reachable_removedSum, rfl, reachable_removedSum.count_uses_eq ⟨0⟩ ⟨0⟩ 1, rfl,
    reachable_removedSum.count_uses_eq ⟨0⟩ ⟨1⟩ 0⟩

end Func

end Peephole

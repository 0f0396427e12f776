import Peephole.Func.Edit
import Peephole.Rule.Operation

/-!
# Facts about the catalogue

What holds of every operation, by going through the catalogue once.
-/

namespace Peephole

namespace Opcode

/-- The catalogue is complete. -/
theorem mem_all (op : Opcode) : op ∈ all := by
  cases op <;> decide

private theorem fixedWidth_all :
    ∀ op ∈ all, op.hasResult = true → op.info.fixedWidth.all supported = true := by
  decide

/-- Every operation has a source. -/
theorem arity_pos (op : Opcode) : 0 < op.arity := by
  cases op <;> decide

/-- Results of a fixed width have a supported one. -/
theorem supported_of_fixedWidth {op : Opcode} {w : Nat} (hr : op.hasResult)
    (hw : op.info.fixedWidth = some w) : supported w := by
  have h := fixedWidth_all op (mem_all op) hr
  rwa [hw] at h

/-- The description of an operation has a place for each of its sources. -/
theorem arity_le_sourceWidths (op : Opcode) : op.arity ≤ op.info.sourceWidths.length := by
  cases op <;> decide

private theorem fixed_all :
    ∀ op ∈ all, ∀ sw ∈ op.info.sourceWidths,
      (match sw with | .fixed bits => supported bits | _ => true) = true := by
  decide

/-- Sources of a fixed width have a supported one. -/
theorem supported_of_fixed {op : Opcode} {bits : Nat}
    (h : .fixed bits ∈ op.info.sourceWidths) : supported bits :=
  fixed_all op (mem_all op) _ h

/-- Operations with a result have no other effect. -/
theorem isPure_of_hasResult {op : Opcode} (h : op.hasResult) : op.isPure := by
  cases op <;> first | rfl | cases h

/-- Every operation but the store has a result. -/
theorem hasResult_of_ne_store {op : Opcode} (h : op ≠ .store) : op.hasResult := by
  cases op <;> first | rfl | exact absurd rfl h

private theorem dest_all :
    ∀ op ∈ all, SourceWidth.dest ∈ op.info.sourceWidths → op.hasResult = true := by
  decide

/-- Only operations with a result ask for the width of the result. -/
theorem hasResult_of_dest {op : Opcode} (h : .dest ∈ op.info.sourceWidths) : op.hasResult :=
  dest_all op (mem_all op) h

private theorem family_all :
    ∀ op ∈ all, op.family?.isSome = true →
      op.arity = 1 ∧ op.info.sourceWidths = [.any, .any, .any] ∧ op.hasResult = true := by
  decide

/-- Instructions have the width that their operation fixes. -/
theorem fixedWidth_of_checkInst {op : Opcode} {w n fixed : Nat}
    (hc : Func.checkInst op w n = .ok ()) (hf : op.info.fixedWidth = some fixed) : fixed = w := by
  unfold Func.checkInst at hc
  split at hc
  · cases hc
  · simp only [hf] at hc
    split at hc
    · next hw => exact hw.symm
    · cases hc

end Opcode

/-! ### Forms of operations -/

namespace Operation

/-- The form of an operation at a width takes what the operation takes, and produces the width. -/
theorem form {o : Operation} {w : Nat} {op : Opcode} (h : o.withWidth? w = some op) :
    op.arity = o.arity ∧ op.info.sourceWidths = o.sourceWidths ∧ o.covers op ∧
      ∀ fixed, op.info.fixedWidth = some fixed → fixed = w := by
  cases o with
  | single op' =>
    simp only [withWidth?] at h
    split at h
    · next fixed hfixed =>
      split at h
      · next hw =>
        cases h
        exact ⟨rfl, rfl, by simp [covers], fun _ hf => by rw [hfixed] at hf; cases hf; exact hw⟩
      · cases h
    · next hfixed =>
      cases h
      exact ⟨rfl, rfl, by simp [covers], fun _ hf => by rw [hfixed] at hf; cases hf⟩
  | family f =>
    simp only [withWidth?, Family.withWidth?] at h
    have hform := List.find?_some h
    simp only [Bool.and_eq_true, beq_iff_eq] at hform
    obtain ⟨harity, hwidths, -⟩ := Opcode.family_all op (Opcode.mem_all op) (by rw [hform.1]; rfl)
    refine ⟨harity, hwidths, by simp [covers, hform.1], fun fixed hf => ?_⟩
    rw [hform.2] at hf
    cases hf
    rfl

/-- The forms of a family produce values. -/
theorem hasResult_of_family {f : Family} {w : Nat} {op : Opcode}
    (h : (family f).withWidth? w = some op) : op.hasResult := by
  have hform := List.find?_some h
  simp only [Bool.and_eq_true, beq_iff_eq] at hform
  exact (Opcode.family_all op (Opcode.mem_all op) (by rw [hform.1]; rfl)).2.2

/-- A single operation has no form but itself. -/
theorem eq_of_single {op op' : Opcode} {w : Nat} (h : (single op).withWidth? w = some op') :
    op' = op := by
  simp only [withWidth?] at h
  split at h
  · split at h
    · exact (Option.some.inj h).symm
    · cases h
  · exact (Option.some.inj h).symm

/-- The width that an operation fixes is the one that its forms fix. -/
theorem fixedWidth_of_form {o : Operation} {w n : Nat} {op : Opcode}
    (h : o.withWidth? w = some op) (hn : o.fixedWidth = some n) : op.info.fixedWidth = some n := by
  cases o with
  | single op' =>
    simp only [fixedWidth] at hn
    simp only [withWidth?, hn] at h
    split at h
    · cases h
      exact hn
    · cases h
  | family f => cases hn

/-- A conversion is the member of its family with the width that it fixes. -/
theorem withWidth?_of_family? {f : Family} {op : Opcode} (h : op.family? = some f) :
    ∃ w, op.info.fixedWidth = some w ∧ f.withWidth? w = some op := by
  cases op <;> cases h <;> exact ⟨_, rfl, rfl⟩

/-- The operation of an instruction is the form, at the width of the instruction, of every operation
of a rule that covers it. -/
theorem withWidth?_of_covers {o : Operation} {op : Opcode} {w n : Nat} (h : o.covers op)
    (hc : Func.checkInst op w n = .ok ()) : o.withWidth? w = some op := by
  have hfixed (fixed : Nat) (hf : op.info.fixedWidth = some fixed) : fixed = w :=
    Opcode.fixedWidth_of_checkInst hc hf
  cases o with
  | single op' =>
    obtain rfl : op' = op := by simpa [covers] using h
    simp only [withWidth?]
    split
    · next fixed hf => rw [if_pos (hfixed fixed hf)]
    · rfl
  | family f =>
    have h : op.family? = some f := by simpa [covers] using h
    obtain ⟨fixed, hf, hform⟩ := withWidth?_of_family? h
    rw [withWidth?, ← hfixed fixed hf, hform]

end Operation

/-- An instruction has the number of operands and the width that its operation asks for. -/
theorem checkInst_eq_ok {op : Opcode} {w n : Nat} (hn : n = op.arity)
    (hfixed : ∀ fixed, op.info.fixedWidth = some fixed → fixed = w)
    (hchosen : op.info.fixedWidth = none → supported w) : Func.checkInst op w n = .ok () := by
  unfold Func.checkInst
  rw [if_neg (by simpa using hn)]
  split
  · next fixed hf => rw [if_pos (hfixed fixed hf).symm]
  · next hf => rw [if_pos (hchosen hf)]

/-- Instructions have the number of operands that their operation takes. -/
theorem length_of_checkInst {op : Opcode} {w n : Nat} (h : Func.checkInst op w n = .ok ()) :
    n = op.arity := by
  unfold Func.checkInst at h
  split at h
  · cases h
  · next hn => exact Decidable.not_not.mp hn

/-- Instructions whose widths have been checked have a supported width if they have a result. -/
theorem supported_of_checkInst {op : Opcode} {w n : Nat} (h : Func.checkInst op w n = .ok ())
    (hr : op.hasResult) : supported w := by
  unfold Func.checkInst at h
  split at h
  · cases h
  · split at h
    · next fixed hfixed =>
      split at h
      · next hw =>
        rw [hw]
        exact Opcode.supported_of_fixedWidth hr hfixed
      · cases h
    · split at h
      · next hw => exact hw
      · cases h

end Peephole

import Peephole.Proofs.Build.Forms
import Peephole.Proofs.Text.RoundTrip

/-!
# Resolution asks for no edit that is refused

Resolution checks names, numbers of operands and widths, and edits the function only after that. A
state of it is **sound** when edits have built the function and names stand for values that exist.
Every step keeps its state sound, and a step that fails does so for a **plain** cause: it is
something that is wrong with the text, and never the fault of an edit.
-/

namespace Peephole

/-- Whether a cause is **plain**: it is not the fault of an edit. -/
def ParseError.Cause.IsPlain : Cause → Prop
  | .refused _ => False
  | _ => True

namespace Parse

open ParseError Func

variable {s t : State} {b : BlockId}

/-- A state of resolution is **sound** when edits have built the function, and names stand for
values that exist. -/
structure State.Sound (s : State) : Prop where
  reachable : s.func.Reachable []
  known : ∀ name v, s.names.lookup name = some v → (s.func.value? v).isSome

theorem State.sound_empty (name : String) : State.Sound ⟨.empty name, []⟩ :=
  ⟨.empty name, fun _ _ h => by cases h⟩

/-- A state stays sound under an edit that keeps the values. -/
theorem State.Sound.grows {g : Func} (h : s.Sound) (hg : g.Reachable [])
    (hgrows : s.func.Grows g) : State.Sound { s with func := g } where
  reachable := hg
  known name v hv := by
    obtain ⟨d, hd⟩ := Option.isSome_iff_exists.mp (h.known name v hv)
    rw [hgrows.value? v d hd, Option.isSome_some]

/-! ### Names and widths -/

/-- A value that exists can be given a name, unless the name has been given before. -/
theorem meets_define (h : s.Sound) (name : String) {v : ValueId} (hv : (s.func.value? v).isSome) :
    Meets (s.define name v) (fun t => t.Sound ∧ t.func = s.func) Cause.IsPlain := by
  rw [State.define]
  split
  · exact trivial
  · refine ⟨⟨h.reachable, fun other x hx => ?_⟩, rfl⟩
    rw [List.lookup_cons] at hx
    split at hx
    · cases hx
      exact hv
    · exact h.known other x hx

theorem meets_checkWidth (w : Nat) (c : Option TypeClass) :
    Meets (checkWidth w c) (fun _ => supported w ∧ (c = some .float → isFloatWidth w))
      Cause.IsPlain := by
  rw [checkWidth]
  by_cases hc : c = some .float
  · rw [if_pos hc]
    split
    · next hw => exact ⟨supported_of_isFloatWidth hw, fun _ => hw⟩
    · exact trivial
  · rw [if_neg hc]
    split
    · next hw => exact ⟨hw, fun h => absurd h hc⟩
    · exact trivial

/-- A width that has been chosen for an instruction, if it suits the operation. -/
def chosenWidth (op : Opcode) (w : Nat) : Resolved Nat := do
  match op.info.fixedWidth with
  | some fixed => if fixed ≠ w then throw (.resultWidth op fixed w)
  | none => unless supported w do throw (.unsupportedWidth w)
  return w

theorem meets_chosenWidth (op : Opcode) (w : Nat) :
    Meets (chosenWidth op w) (fun w => checkInst op w op.arity = .ok ()) Cause.IsPlain := by
  unfold chosenWidth
  cases hinfo : op.info.fixedWidth with
  | some fixed =>
    by_cases hw : fixed = w
    · simp only [hw, ne_eq, not_true, if_false]
      exact checkInst_eq_ok rfl (fun _ h => by rw [hinfo] at h; cases h; exact hw)
        (fun h => by rw [hinfo] at h; cases h)
    · simp only [ne_eq, hw, not_false_eq_true, if_true]
      exact trivial
  | none =>
    by_cases hw : supported w
    · simp only [hw, if_true]
      exact checkInst_eq_ok rfl (fun _ h => by rw [hinfo] at h; cases h) (fun _ => hw)
    · simp only [hw]
      exact trivial

/-- The width of an instruction is what edits require of an operation on as many operands as it
takes. -/
theorem meets_instWidth (op : Opcode) (result : Option (String × Nat)) :
    Meets (instWidth op result) (fun w => checkInst op w op.arity = .ok ()) Cause.IsPlain := by
  unfold instWidth
  cases result with
  | none =>
    cases op.hasResult with
    | true => exact trivial
    | false => exact meets_chosenWidth op 0
  | some x =>
    cases op.hasResult with
    | true => exact meets_chosenWidth op x.2
    | false => exact trivial

/-! ### Operands -/

/-- A literal of a supported width is there afterwards. -/
theorem meets_literal (h : s.Sound) {w : Nat} (hw : supported w) (bits : Word) :
    Meets (do
      let (v, f) ← edit (s.func.literal w bits)
      return (v, ({ s with func := f } : State)))
      (fun r => (r.2.func.value? r.1).isSome ∧ s.Interns r.2 ∧ r.2.Sound) Cause.IsPlain := by
  obtain ⟨⟨v, g⟩, hliteral⟩ := literal_ok s.func bits hw
  obtain ⟨hgrows, hv, hparams, hblocks⟩ := literal_grows hliteral
  rw [edit_eq_ok.mpr hliteral]
  exact ⟨by rw [hv, Option.isSome_some], ⟨rfl, hgrows, hparams, hblocks⟩,
    h.grows (h.reachable.edit (.literal hliteral)) hgrows⟩

theorem meets_operand (h : s.Sound) (o : Written.Operand) :
    Meets (operand s o) (fun r => (r.2.func.value? r.1).isSome ∧ s.Interns r.2 ∧ r.2.Sound)
      Cause.IsPlain := by
  cases o with
  | value name =>
    rw [operand]
    split
    · next v hv => exact ⟨h.known name v hv, ⟨rfl, .refl _, rfl, rfl⟩, h⟩
    · exact trivial
  | integer n w =>
    refine (meets_checkWidth w none).bind fun _ hw => ?_
    dsimp only
    split
    · exact meets_literal h hw.1 _
    · exact trivial
  | float datum w =>
    refine (meets_checkWidth w (some .float)).bind fun _ hw => ?_
    obtain ⟨bits, hbits⟩ := encodeFloat_ok (d := datum) (hw.2 rfl)
    rw [hbits]
    exact meets_literal h hw.1 bits

theorem meets_operands (h : s.Sound) (os : List Written.Operand) :
    Meets (operands s os) (fun r => r.1.length = os.length ∧
      (∀ v ∈ r.1, (r.2.func.value? v).isSome) ∧ s.Interns r.2 ∧ r.2.Sound) Cause.IsPlain := by
  induction os generalizing s with
  | nil => exact ⟨rfl, by simp, ⟨rfl, .refl _, rfl, rfl⟩, h⟩
  | cons o os ih =>
    refine (meets_operand h o).bind fun r hr => ?_
    obtain ⟨hv, hfirst, ht⟩ := hr
    refine (ih ht).bind fun rs hrs => ?_
    obtain ⟨hlength, hvs, hrest, hu⟩ := hrs
    obtain ⟨d, hd⟩ := Option.isSome_iff_exists.mp hv
    refine ⟨congrArg (· + 1) hlength, List.forall_mem_cons.mpr ⟨?_, hvs⟩, hfirst.trans hrest, hu⟩
    rw [hrest.grows.value? r.1 d hd, Option.isSome_some]

/-! ### Instructions and parameters -/

/-- An instruction goes to the end of a block that exists. -/
theorem meets_inst (h : s.Sound) (hb : b.index < s.func.blocks.size) (i : Written.Inst) :
    Meets (inst s b i) (fun t => t.Sound ∧ t.func.blocks.size = s.func.blocks.size)
      Cause.IsPlain := by
  rw [inst]
  split
  · next op hop =>
    split
    · exact trivial
    · next harity =>
      refine (meets_instWidth op i.result).bind fun w hw => ?_
      refine (meets_operands h i.operands).bind fun r hr => ?_
      obtain ⟨vs, u⟩ := r
      obtain ⟨hlength, hvs, hinterns, hu⟩ := hr
      have hcount : vs.length = op.arity := hlength.trans (by simpa using harity)
      have hblock : b.index < u.func.blocks.size := by rwa [hinterns.blocks]
      obtain ⟨e, k, g, happend, hexact⟩ := append_ok (by rwa [hcount]) hblock i.exact
      have appends := append_setExact happend hexact
      have hg : g.Reachable [] :=
        (hu.reachable.append b op w vs hvs happend).edit (.setExact hexact)
      have hsound : State.Sound { u with func := g } := hu.grows hg appends.grows
      have hsize : g.blocks.size = s.func.blocks.size := by
        rw [appends.blocks, Array.size_modify, hinterns.blocks]
      dsimp only
      rw [edit_eq_ok.mpr (Edited.toExcept_eq_ok.mpr happend), ok_bind, edit_eq_ok.mpr hexact,
        ok_bind]
      dsimp only
      split
      · next name width v hname hresult =>
        have hv : (g.value? v).isSome := by
          obtain ⟨d, hd, hres⟩ := Option.bind_eq_some_iff.mp hresult
          rw [hg.coherent.produced hd hres, Option.isSome_some]
        refine (meets_define hsound name hv).mono (fun t ht => ?_) fun _ hcause => hcause
        exact ⟨ht.1, ht.2 ▸ hsize⟩
      · exact ⟨hsound, hsize⟩
  · exact trivial

theorem meets_param (h : s.Sound) (p : Written.Param) :
    Meets (param s p) State.Sound Cause.IsPlain := by
  refine (meets_checkWidth p.width p.typeClass).bind fun _ hw => ?_
  obtain ⟨v, g, hadd⟩ : ∃ v g, s.func.addParam p.width p.typeClass = .ok (v, g) :=
    ⟨_, _, if_pos hw.1⟩
  obtain ⟨-, adds, -⟩ := addParam_eq_ok hadd
  have hg : g.Reachable [] := h.reachable.addParam _ _ hadd
  rw [edit_eq_ok.mpr hadd]
  have hv : (g.value? v).isSome := by rw [adds.value?, if_pos rfl, Option.isSome_some]
  exact (meets_define (h.grows hg adds.grows) p.name hv).mono (fun _ ht => ht.1)
    fun _ hcause => hcause

end Parse

end Peephole

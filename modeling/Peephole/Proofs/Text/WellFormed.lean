import Peephole.Proofs.Func.Settled
import Peephole.Proofs.Text.Located

/-!
# What parsing guarantees

A text is parsed to functions that are **well formed**, `parseProgram_wellFormed`: whatever the
validator may find in them, it is no more than a width that does not fit. Resolution creates an
instruction at the end of the last block, when every value that a name can stand for is a literal, a
parameter or the result of an instruction that is laid out already. So definitions come before uses,
however blocks and values are named.
-/

namespace Peephole

namespace Func

/-- A function is **well formed** when its instructions are attached, and nothing but widths can be
wrong with it. -/
structure WellFormed (f : Func) : Prop where
  /-- The function can be validated. -/
  closed : f.requireClosed = .ok ()
  /-- Violations concern widths. -/
  structural : ∀ v ∈ f.violations, v.isStructural = false
  /-- Instructions belong to blocks. -/
  attached : ∀ i, (f.inst? i).isSome → f.isAttached i
  /-- Instructions have as many operands as their operation takes. -/
  arity : ∀ i d, f.inst? i = some d → d.operands.length = d.opcode.arity
  /-- Instructions have the width that their operation fixes, or else a supported one. -/
  width : ∀ i d, f.inst? i = some d →
    match d.opcode.info.fixedWidth with
    | some fixed => d.width = fixed
    | none => supported d.width
  /-- Literals, parameters and results have supported widths. -/
  value : ∀ v d, f.value? v = some d → supported d.width

/-- A function is **complete** when its instructions are attached, and definitions come before
uses. -/
structure Complete (f : Func) : Prop where
  attached : ∀ i, (f.inst? i).isSome → f.isAttached i
  defined : f.Defined

variable {f g : Func}

theorem complete_empty (name : String) : (empty name).Complete where
  attached i hi := by simp [empty, inst?] at hi
  defined i hi := by simp [empty, layout] at hi

/-- A complete function that edits have built is settled. -/
theorem Complete.settled (h : f.Complete) (hf : f.Reachable []) : f.Settled [] where
  coherent := hf.coherent
  mirrored := hf.mirrored
  tidy i hi := by simp [h.attached i hi]
  defined := h.defined

theorem Settled.wellFormed (h : f.Settled []) : f.WellFormed where
  closed := by
    rw [requireClosed, if_pos (h.coherent.orderly.isClosed_of_defined h.defined)]
  structural := by
    simpa [Func.isStructural] using h.isStructural
  attached i hi := (h.tidy i hi).mpr List.not_mem_nil
  arity i d hd := h.coherent.length_operands hd
  width i d hd := by
    have hc := h.coherent.checked hd
    split
    · next fixed hfixed => exact (Opcode.fixedWidth_of_checkInst hc hfixed).symm
    · next hfixed =>
      refine supported_of_checkInst hc ?_
      simp [Opcode.hasResult, OpInfo.hasResult, hfixed]
  value v d hd := h.coherent.supported hd

/-! ### Edits that keep functions complete -/

/-- Literals stay literals. -/
theorem Grows.isLiteral (hg : f.Grows g) {v : ValueId} (h : f.isLiteral v) : g.isLiteral v := by
  unfold Func.isLiteral literal? at h ⊢
  split at h
  · next hv => rw [hg.value? v _ hv]; rfl
  · cases h

theorem Grows.result? (hg : f.Grows g) {i : InstId} {v : ValueId} (h : f.result? i = some v) :
    g.result? i = some v := by
  obtain ⟨d, hd, hr⟩ := Option.bind_eq_some_iff.mp h
  rw [Func.result?, hg.inst? i d hd]
  exact hr

/-- What is available stays available. -/
theorem Grows.available (hg : f.Grows g) (hparams : f.params ⊆ g.params)
    (hlayout : f.layout.Sublist g.layout) {i : InstId} {v : ValueId} (h : f.Available i v) :
    g.Available i v := by
  obtain hliteral | hparam | ⟨j, hj, hji⟩ := h
  · exact .inl (hg.isLiteral hliteral)
  · exact .inr (.inl (hparams hparam))
  · exact .inr (.inr ⟨j, hg.result? hj, hji.mono hlayout⟩)

/-- A function stays complete when values are added and its instructions stay. -/
theorem Complete.of_grows (h : f.Complete) (hg : f.Grows g) (hparams : f.params ⊆ g.params)
    (hinsts : g.insts = f.insts) (hlayout : g.layout = f.layout) : g.Complete where
  attached i hi := by
    simp only [isAttached, inst?, hinsts] at hi ⊢
    exact h.attached i hi
  defined i hi v hv := by
    have hop : g.operands i = f.operands i := by simp only [operands, inst?, hinsts]
    rw [hlayout] at hi
    rw [hop] at hv
    exact hg.available hparams (hlayout ▸ .refl _) (h.defined i hi v hv)

theorem Complete.addsValue {o : Origin} {w : Nat} {v : ValueId} (h : f.Complete)
    (e : f.AddsValue o w v g) (hparams : f.params ⊆ g.params) : g.Complete :=
  h.of_grows e.grows hparams e.insts (by simp only [layout, e.blocks])

theorem Complete.literal {w : Nat} {bits : Word} {v : ValueId} (h : f.Complete)
    (hliteral : f.literal w bits = .ok (v, g)) : g.Complete := by
  obtain ⟨-, ⟨rfl, -⟩ | ⟨-, e, hparams⟩⟩ := literal_eq_ok hliteral
  · exact h
  · exact h.addsValue e (hparams ▸ .refl _)

theorem Complete.addParam {w : Nat} {c : Option TypeClass} {v : ValueId} (h : f.Complete)
    (hadd : f.addParam w c = .ok (v, g)) : g.Complete := by
  obtain ⟨-, e, hparams⟩ := addParam_eq_ok hadd
  exact h.addsValue e (hparams ▸ List.subset_append_left ..)

theorem Complete.createBlock (h : f.Complete) : f.createBlock.2.Complete := by
  refine h.of_grows ⟨rfl, fun _ _ hv => hv, fun _ _ hi => hi⟩ (.refl _) rfl ?_
  simp [layout, Func.createBlock]

/-- What exists in a complete function is a literal, a parameter, or the result of an instruction
that is laid out. -/
theorem Complete.defines (h : f.Complete) (hf : f.Coherent) {v : ValueId}
    (hv : (f.value? v).isSome) :
    f.isLiteral v ∨ v ∈ f.params ∨ ∃ j ∈ f.layout, f.result? j = some v := by
  obtain ⟨⟨o, w⟩, hd⟩ := Option.isSome_iff_exists.mp hv
  cases o with
  | literal bits => exact .inl (by simp [isLiteral, literal?, hd])
  | parameter k c => exact .inr (.inl (List.mem_of_getElem? (hf.parameter.mpr ⟨c, w, hd⟩)))
  | result j =>
    obtain ⟨d, hj, hr⟩ := hf.producer hd
    have hattached := h.attached j (by rw [hj]; rfl)
    exact .inr (.inr ⟨j, hf.mem_layout.mpr hattached, by rw [result?, hj]; exact hr⟩)

/-- What is put at the end of the last block comes last. -/
theorem layout_modify_last {b : BlockId} {i : InstId} (hb : b.index + 1 = f.blocks.size)
    (h : g.blocks = f.blocks.modify b.index (· ++ [i])) : g.layout = f.layout ++ [i] := by
  have hlt : b.index < f.blocks.toList.length := by simp [← hb]
  have hend : f.blocks.toList.drop (b.index + 1) = [] := List.drop_eq_nil_of_le (by simp [hb])
  have hsplit := List.take_append_drop b.index f.blocks.toList
  rw [List.drop_eq_getElem_cons hlt, hend] at hsplit
  rw [layout, layout, h, Array.toList_modify, List.modify_eq_take_cons_drop hlt, hend]
  conv_rhs => rw [← hsplit]
  simp

/-- An instruction at the end of the last block may mention whatever exists. -/
theorem Complete.append (h : f.Complete) (hf : f.Coherent) {b : BlockId} {op : Opcode} {w : Nat}
    {exact : Bool} {vs : List ValueId} {k : InstId} {e : Func}
    (happend : f.append b op w vs = ⟨e, .ok k⟩) (hexact : e.setExact k exact = .ok g)
    (hb : b.index + 1 = f.blocks.size) (hvs : ∀ v ∈ vs, (f.value? v).isSome) : g.Complete := by
  have appends := append_setExact happend hexact
  have hlayout : g.layout = f.layout ++ [k] := layout_modify_last hb appends.blocks
  have hsublist : f.layout.Sublist g.layout := hlayout ▸ List.sublist_append_left ..
  have habsent : f.inst? k = none := by
    obtain ⟨_, hcreate, -⟩ := append_eq_ok happend
    exact (createInst_eq_ok hcreate).absent
  have hold (j : InstId) (hj : j ≠ k) : g.inst? j = f.inst? j := inst?_of_append happend hexact hj
  constructor
  case attached =>
    intro i hi
    by_cases hik : i = k
    · rw [isAttached, hik, appends.inst?]
      rfl
    · rw [hold i hik] at hi
      rw [isAttached, hold i hik]
      exact h.attached i hi
  case defined =>
    intro i hi v hv
    rw [hlayout] at hi
    rcases List.mem_append.mp hi with hif | hik
    · have hik : i ≠ k := by
        rintro rfl
        have hexists := hf.exists_of_mem_layout hif
        rw [habsent] at hexists
        cases hexists
      have hop : g.operands i = f.operands i := by simp only [operands, hold i hik]
      rw [hop] at hv
      exact appends.grows.available (appends.params ▸ .refl _) hsublist (h.defined i hif v hv)
    · obtain rfl := List.mem_singleton.mp hik
      have hop : g.operands i = vs := by rw [operands, appends.inst?]; rfl
      rw [hop] at hv
      obtain hliteral | hparam | ⟨j, hj, hr⟩ := h.defines hf (hvs v hv)
      · exact .inl (appends.grows.isLiteral hliteral)
      · exact .inr (.inl (by rwa [appends.params]))
      · obtain ⟨before, between, hl⟩ := List.append_of_mem hj
        exact .inr (.inr ⟨j, appends.grows.result? hr, before, between, [], by simp [hlayout, hl]⟩)

end Func

namespace Parse

open Func
open Written (orEmpty)

/-! ### Resolution -/

variable {s t : State} {b : BlockId}

/-- Naming a value leaves the function as it is. -/
theorem func_of_nameResult {written : Option (String × Nat)} {result : Option ValueId}
    (h : s.nameResult written result = .ok t) : t.func = s.func := by
  unfold State.nameResult at h
  split at h
  · rw [(define_eq_ok.mp h).2]
  · cases h
    rfl

theorem param_complete {p : Written.Param} (h : param s p = .ok t) (hc : s.func.Complete) :
    t.func.Complete := by
  simp only [param, bind_eq_ok] at h
  obtain ⟨_, -, ⟨v, g⟩, hadd, hdefine⟩ := h
  rw [(define_eq_ok.mp hdefine).2]
  exact hc.addParam (edit_eq_ok.mp hadd)

theorem operands_complete {os : List Written.Operand} {vs : List ValueId}
    (h : operands s os = .ok (vs, t)) (hc : s.func.Complete) : t.func.Complete := by
  induction os generalizing s vs with
  | nil =>
    cases h
    exact hc
  | cons o os ih =>
    simp only [operands, bind_eq_ok] at h
    obtain ⟨⟨v, u⟩, hv, ⟨ws, u'⟩, hws, h⟩ := h
    cases h
    refine ih hws ?_
    obtain ⟨rfl, -⟩ | ⟨w, bits, g, hliteral, rfl⟩ := operand_eq_ok hv
    · exact hc
    · exact hc.literal hliteral

/-- An instruction at the end of the last block keeps the function complete. -/
theorem inst_complete {i : Written.Inst} (h : inst s b i = .ok t) (hs : s.Sound)
    (hb : b.index + 1 = s.func.blocks.size) (hc : s.func.Complete) : t.func.Complete := by
  obtain ⟨op, w, vs, u, k, e, g, -, -, -, hvs, happend, hexact, hname⟩ := inst_eq_ok.mp h
  obtain ⟨-, hknown, hinterns, hu⟩ := (meets_operands hs i.operands).of_ok hvs
  rw [func_of_nameResult hname]
  exact (operands_complete hvs hc).append hu.reachable.coherent happend hexact
    (by rwa [hinterns.blocks]) hknown

theorem insts_complete {is : List Written.Inst} (h : is.foldlM (inst · b ·) s = .ok t)
    (hs : s.Sound) (hb : b.index + 1 = s.func.blocks.size) (hc : s.func.Complete) :
    t.Sound ∧ t.func.Complete := by
  induction is generalizing s with
  | nil =>
    cases h
    exact ⟨hs, hc⟩
  | cons i is ih =>
    rw [List.foldlM_cons, bind_eq_ok] at h
    obtain ⟨u, hu, h⟩ := h
    obtain ⟨hsound, hsize⟩ := (meets_inst hs (by omega) i).of_ok hu
    exact ih h hsound (hsize ▸ hb) (inst_complete hu hs hb hc)

/-- A block is resolved while it is the last one. -/
theorem body_complete {is : List Written.Inst} (h : body s is = .ok t) (hs : s.Sound)
    (hc : s.func.Complete) : t.Sound ∧ t.func.Complete := by
  have hopened : State.Sound { s with func := s.func.createBlock.2 } :=
    hs.grows (hs.reachable.edit (.createBlock rfl)) ⟨rfl, fun _ _ hv => hv, fun _ _ hi => hi⟩
  exact insts_complete h hopened (by simp [Func.createBlock]) hc.createBlock

theorem bodies_complete {bs : List (List Written.Inst)} (h : bs.foldlM body s = .ok t)
    (hs : s.Sound) (hc : s.func.Complete) : t.func.Complete := by
  induction bs generalizing s with
  | nil =>
    cases h
    exact hc
  | cons is bs ih =>
    rw [List.foldlM_cons, bind_eq_ok] at h
    obtain ⟨u, hu, h⟩ := h
    obtain ⟨hsound, hcomplete⟩ := body_complete hu hs hc
    exact ih h hsound hcomplete

theorem params_complete {ps : List Written.Param} (h : ps.foldlM param s = .ok t) (hs : s.Sound)
    (hc : s.func.Complete) : t.Sound ∧ t.func.Complete := by
  induction ps generalizing s with
  | nil =>
    cases h
    exact ⟨hs, hc⟩
  | cons p ps ih =>
    rw [List.foldlM_cons, bind_eq_ok] at h
    obtain ⟨u, hu, h⟩ := h
    exact ih h ((meets_param hs p).of_ok hu) (param_complete hu hc)

/-- A function is well formed when it has been resolved. -/
theorem func_wellFormed {total : Nat} {w : Written.Func} {f : Func} (h : func total w = .ok f) :
    f.WellFormed := by
  have hf : f.Reachable [] := (meets_func total w).of_ok h
  obtain ⟨s, t, hparams, hblocks, rfl⟩ := func_eq_ok.mp h
  obtain ⟨hs, hc⟩ := params_complete hparams (State.sound_empty w.name) (complete_empty w.name)
  exact ((bodies_complete hblocks hs hc).settled hf).wellFormed

end Parse

/-- Whatever is parsed is **well formed**: only widths can be wrong with it. -/
theorem parseProgram_wellFormed {name text : String} {p : Program}
    (h : parseProgram name text = .ok p) : ∀ f ∈ p.functions, f.WellFormed := by
  rw [parseProgram, bind_eq_ok] at h
  obtain ⟨fs, hfs, h⟩ := h
  cases h
  exact Parse.forall_of_functions (fun _ hf => Parse.func_wellFormed hf) hfs

/-- A text whose values are named by numbers that are not theirs, in blocks that are not in the order
of their labels. The sum is of values of two widths. -/
def mixedText : String :=
  "fn @mixed(%1: 32, %0: 16) \x7b\n^bb1:\n  %2: 32 = iadd %1, %0\n" ++
    "^bb0:\n  %x: 32 = ishl %2, 3:32\n  store %x\n\x7d\n"

theorem parseProgram_wellFormed_mixedText : ∃ p f, parseProgram "mixed" mixedText = .ok p ∧
    p.functions = [f] ∧ f.violations = [.widthMismatch ⟨0⟩ .iadd 1 32 16] ∧ f.WellFormed := by
  have hviolations : (parseProgram "mixed" mixedText).map (·.functions.map Func.violations) =
      .ok [[.widthMismatch ⟨0⟩ .iadd 1 32 16]] := by
    decide +kernel
  cases hp : parseProgram "mixed" mixedText with
  | error e =>
    rw [hp] at hviolations
    cases hviolations
  | ok p =>
    rw [hp] at hviolations
    obtain ⟨f, hf, hv⟩ := List.map_eq_singleton_iff.mp (Except.ok.inj hviolations)
    exact ⟨p, f, rfl, hf, hv, parseProgram_wellFormed hp f (by simp [hf])⟩

end Peephole

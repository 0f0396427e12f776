import Peephole.Proofs.Func.Settled
import Peephole.Proofs.Func.Valuation
import Peephole.Proofs.Text.Copy
import Peephole.Proofs.Text.RoundTrip

/-!
# Reading back what edits have built

The text of a valid function is read back to a copy of it, although the function may never have had
a text: every operand is a literal or has been printed before, and what resolution checks, edits and
validation have checked. One thing is left to chance. Edits and validation accept a parameter that
is declared a float at a width without a format, and resolution does not, `parseFunc_print`.
-/

namespace Peephole

namespace Parse

open Print Func

/-! ### What can be printed -/

/-- Whether an operand is a literal, or one of the values printed so far. -/
def Printable (f : Func) (printed : List ValueId) (v : ValueId) : Prop :=
  (f.literal? v).isSome ∨ f.literal? v = none ∧ v ∈ printed

/-- Whether the operands of instructions can be printed, with the values printed before the
instructions and after them. -/
inductive Prints (f : Func) : List ValueId → List InstId → List ValueId → Prop
  | nil {printed} : Prints f printed [] printed
  | cons {printed i d is printed'} (inst : f.inst? i = some d)
      (operands : ∀ v ∈ d.operands, Printable f printed v)
      (others : Prints f (printed ++ d.result.toList) is printed') :
      Prints f printed (i :: is) printed'

variable {f g : Func} {gone : List InstId} {printed printed' : List ValueId} {is js : List InstId}

theorem Prints.split (h : Prints f printed (is ++ js) printed') :
    ∃ middle, Prints f printed is middle ∧ Prints f middle js printed' := by
  induction is generalizing printed with
  | nil => exact ⟨printed, .nil, h⟩
  | cons i is ih =>
    cases h with
    | cons inst operands others =>
      obtain ⟨middle, hfirst, hrest⟩ := ih others
      exact ⟨middle, .cons inst operands hfirst, hrest⟩

/-- The instructions of a settled function can be printed in the order of the layout. -/
theorem prints_layout (hf : f.Settled gone) : ∃ printed, Prints f f.params f.layout printed := by
  -- along the layout, the parameters and the results so far have been printed
  suffices h : ∀ back front, f.layout = front ++ back →
      ∃ printed, Prints f (f.params ++ front.filterMap f.result?) back printed by
    simpa using h f.layout [] rfl
  intro back
  induction back with
  | nil => exact fun front _ => ⟨_, .nil⟩
  | cons i back ih =>
    intro front hl
    have hi : i ∈ f.layout := by simp [hl]
    obtain ⟨d, hd⟩ := Option.isSome_iff_exists.mp (hf.coherent.exists_of_mem_layout hi)
    have hres : f.result? i = d.result := by rw [result?, hd, Option.bind_some]
    obtain ⟨printed, h⟩ := ih (front ++ [i]) (by simp [hl])
    have hprinted : f.params ++ (front ++ [i]).filterMap f.result? =
        f.params ++ front.filterMap f.result? ++ d.result.toList := by
      cases hr : d.result <;> simp [hres, hr]
    rw [hprinted] at h
    refine ⟨printed, .cons hd (fun v hv => ?_) h⟩
    have hv : v ∈ f.operands i := by simpa [Func.operands, hd] using hv
    obtain hlit | hparam | ⟨j, hj, hji⟩ := hf.defined i hi v hv
    · exact .inl hlit
    · obtain ⟨k, hk⟩ := List.mem_iff_getElem?.mp hparam
      exact .inr ⟨hf.coherent.literal?_of_param hk, List.mem_append_left _ hparam⟩
    · have hfront := (hf.coherent.precedes_iff hl).mp hji
      exact .inr ⟨hf.coherent.literal?_of_result hj,
        List.mem_append_right _ (List.mem_filterMap.mpr ⟨j, hfront, hj⟩)⟩

/-- The bits and the width of a literal of a coherent function. -/
theorem masked_of_literal? (hf : f.Coherent) {v : ValueId} {l : Literal}
    (h : f.literal? v = some l) : supported l.width ∧ l.bits &&& mask l.width = l.bits := by
  unfold literal? at h
  split at h
  · next bits w hv =>
    cases h
    exact ⟨hf.supported hv, and_mask_and_mask (Nat.le_refl w) bits⟩
  · cases h

theorem Printable.isLegible (hf : f.Coherent) {v : ValueId} (h : Printable f printed v)
    (more : List ValueId) : (writtenOperand f (printed ++ more) v).IsLegible := by
  obtain h | ⟨hlit, hv⟩ := h
  · obtain ⟨l, hl⟩ := Option.isSome_iff_exists.mp h
    rw [writtenOperand, hl]
    exact ⟨l.bits.isLt, le_of_supported (masked_of_literal? hf hl).1⟩
  · rw [(writtenOperand_of_mem hlit hv more).2]
    exact Written.isName_decimal _

/-- What is printed of instructions can be read. -/
theorem Prints.isLegible (hf : f.Coherent) (h : Prints f printed is printed') :
    (writtenInsts f printed is).2 = printed' ∧
      ∀ j ∈ (writtenInsts f printed is).1, j.IsLegible := by
  induction h with
  | nil => exact ⟨rfl, by simp [writtenInsts]⟩
  | cons inst operands others ih =>
    obtain ⟨hprinted, hlegible⟩ := ih
    have hfirst := isLegible_writtenInst (hf.checked inst)
      (fun h => (hf.produces inst).symm.trans h) fun v hv => (operands v hv).isLegible hf _
    simp only [writtenInsts, inst]
    exact ⟨hprinted, List.forall_mem_cons.mpr ⟨hfirst, hlegible⟩⟩

theorem isLegible_writtenBlocks (hf : f.Coherent) {bs : List (List InstId)}
    (h : Prints f printed bs.flatten printed') :
    ∀ js ∈ writtenBlocks f printed bs, ∀ j ∈ js, j.IsLegible := by
  induction bs generalizing printed with
  | nil => simp [writtenBlocks]
  | cons is bs ih =>
    obtain ⟨middle, hfirst, hrest⟩ := h.split
    obtain ⟨hprinted, hlegible⟩ := hfirst.isLegible hf
    rw [writtenBlocks]
    simp only [hprinted]
    exact List.forall_mem_cons.mpr ⟨hlegible, ih hrest⟩

/-- The text of a settled function with a name can be read. -/
theorem isLegible_written (hf : f.Settled gone) (hname : Written.IsName f.name) :
    f.written.IsLegible where
  name := hname
  params p hp := by
    obtain ⟨k, hk, rfl⟩ := List.mem_mapIdx.mp hp
    obtain ⟨c, w, hv⟩ := hf.coherent.parameter.mp (List.getElem?_eq_getElem hk)
    refine ⟨Written.isName_decimal k, ?_⟩
    rw [writtenParam, Func.width, hv]
    exact le_of_supported (hf.coherent.supported hv)
  insts := by
    obtain ⟨printed, h⟩ := prints_layout hf
    exact isLegible_writtenBlocks hf.coherent h

/-! ### Following what has been printed -/

/-- Whether the values that have been read carry the names of those that have been printed. They
exist, each is listed once, and none is a literal. -/
structure Follows (s : State) (printed read : List ValueId) : Prop where
  names : s.names = numbered read
  length : read.length = printed.length
  distinct : read.Nodup
  value? : ∀ w ∈ read, ∃ d, s.func.value? w = some d ∧ ∀ bits, d.origin ≠ .literal bits

variable {s : State} {read : List ValueId} {i : InstId} {d : Inst} {v : ValueId} {b : BlockId}

theorem Follows.grows {t : State} (h : Follows s printed read) (hnames : t.names = s.names)
    (hg : s.func.Grows t.func) : Follows t printed read where
  names := hnames.trans h.names
  length := h.length
  distinct := h.distinct
  value? w hw := by
    obtain ⟨d, hd, horigin⟩ := h.value? w hw
    exact ⟨d, hg.value? w d hd, horigin⟩

/-- A new value gets the next name. -/
theorem Follows.define (h : Follows s printed read) {g : Func} (hg : s.func.Grows g)
    {w : ValueId} (hnew : s.func.value? w = none)
    (hw : ∃ d, g.value? w = some d ∧ ∀ bits, d.origin ≠ .literal bits) (v : ValueId) :
    State.define ⟨g, s.names⟩ (Numeral.decimal printed.length) w =
        .ok ⟨g, numbered (read ++ [w])⟩ ∧
      Follows ⟨g, numbered (read ++ [w])⟩ (printed ++ [v]) (read ++ [w]) := by
  have habsent : w ∉ read := by
    intro hmem
    obtain ⟨d, hd, -⟩ := h.value? w hmem
    rw [hnew] at hd
    cases hd
  refine ⟨?_, rfl, ?_, ?_, fun x hx => ?_⟩
  · rw [h.names, ← h.length]
    exact define_numbered g read w
  · rw [List.length_append, List.length_append, h.length]
    rfl
  · exact h.distinct.append (List.nodup_singleton w) (by simpa using habsent)
  · obtain hx | hx := List.mem_append.mp hx
    · obtain ⟨d, hd, horigin⟩ := h.value? x hx
      exact ⟨d, hg.value? x d hd, horigin⟩
    · rw [List.mem_singleton.mp hx]
      exact hw

/-- A literal is resolved to the same literal, and a value that has been printed to the one that has
been read under its name. -/
theorem operand_follows (hf : f.Coherent) (hs : Follows s printed read)
    (hv : Printable f printed v) (more : List ValueId) :
    ∃ w t, operand s (writtenOperand f (printed ++ more) v) = .ok (w, t) ∧ s.Interns t ∧
      ∀ g, t.func.Grows g → SameValue f g printed read v w := by
  obtain h | ⟨hlit, hv⟩ := hv
  · obtain ⟨l, hl⟩ := Option.isSome_iff_exists.mp h
    obtain ⟨hsupported, hmasked⟩ := masked_of_literal? hf hl
    obtain ⟨⟨w, g'⟩, hliteral⟩ := literal_ok s.func l.bits hsupported
    obtain ⟨hgrows, hw, hparams, hblocks⟩ := literal_grows hliteral
    refine ⟨w, ⟨g', s.names⟩, ?_, ⟨rfl, hgrows, hparams, hblocks⟩, fun g hg => .literal hl ?_⟩
    · rw [writtenOperand, hl]
      exact operand_integer hliteral hmasked
    · rw [literal?, hg.value? w _ hw, hmasked]
      exact congrArg (fun b => some (Literal.mk b l.width)) hmasked
  · obtain ⟨hnumber, hwritten⟩ := writtenOperand_of_mem hlit hv more
    have hlt : printed.idxOf v < read.length := by
      rw [hs.length]
      exact List.idxOf_lt_length_of_mem hv
    have hmem : read[printed.idxOf v] ∈ read := List.getElem_mem hlt
    have hnumber' : read.idxOf? read[printed.idxOf v] = some (printed.idxOf v) := by
      have hfirst : read.idxOf? read[printed.idxOf v] = some (read.idxOf read[printed.idxOf v]) :=
        List.findIdx?_eq_some_of_exists ⟨_, hmem, beq_self_eq_true _⟩
      rw [hfirst, hs.distinct.idxOf_getElem]
    refine ⟨read[printed.idxOf v], s, ?_, ⟨rfl, .refl _, rfl, rfl⟩, fun g hg => ?_⟩
    · rw [hwritten, operand, hs.names, lookup_numbered, List.getElem?_eq_getElem hlt]
    · obtain ⟨d, hd, horigin⟩ := hs.value? _ hmem
      exact .numbered hlit (literal?_of_value? (hg.value? _ d hd) horigin) hnumber hnumber'

theorem operands_follows (hf : f.Coherent) {vs : List ValueId} (hs : Follows s printed read)
    (hvs : ∀ v ∈ vs, Printable f printed v) (more : List ValueId) :
    ∃ ws t, operands s (vs.map (writtenOperand f (printed ++ more))) = .ok (ws, t) ∧
      s.Interns t ∧ ∀ g, t.func.Grows g → List.Forall₂ (SameValue f g printed read) vs ws := by
  induction vs generalizing s with
  | nil => exact ⟨[], s, rfl, ⟨rfl, .refl _, rfl, rfl⟩, fun _ _ => .nil⟩
  | cons v vs ih =>
    rw [List.forall_mem_cons] at hvs
    obtain ⟨w, u, hoperand, hinterns, hfirst⟩ := operand_follows hf hs hvs.1 more
    obtain ⟨ws, t, hoperands, hrest, hothers⟩ := ih (hs.grows hinterns.names hinterns.grows) hvs.2
    refine ⟨w :: ws, t, ?_, hinterns.trans hrest,
      fun g hg => .cons (hfirst g (hrest.grows.trans hg)) (hothers g hg)⟩
    rw [List.map_cons, operands, hoperand, ok_bind]
    dsimp only
    rw [hoperands]
    rfl

/-! ### Instructions -/

/-- The width of an instruction that edits have checked suits its operation. -/
theorem instWidth_ok {op : Opcode} {w n : Nat} (hcheck : checkInst op w n = .ok ())
    {v? : Option ValueId} (hv : v?.isSome = op.hasResult) (name : String) :
    instWidth op (v?.map fun _ => (name, w)) = .ok w := by
  have hfixed (fixed : Nat) (h : op.info.fixedWidth = some fixed) : fixed = w :=
    Opcode.fixedWidth_of_checkInst hcheck h
  cases v? with
  | none =>
    have hr : op.hasResult = false := by simpa using hv.symm
    have hzero : op.info.fixedWidth = some 0 := by
      simpa [Opcode.hasResult, OpInfo.hasResult] using hr
    obtain rfl := hfixed 0 hzero
    simp [instWidth, hr, hzero]
  | some v =>
    have hr : op.hasResult = true := by simpa using hv.symm
    have hw : supported w := supported_of_checkInst hcheck hr
    cases hinfo : op.info.fixedWidth with
    | none => simp [instWidth, hr, hinfo, hw]
    | some fixed =>
      obtain rfl := hfixed fixed hinfo
      simp [instWidth, hr, hinfo]

/-- An instruction that has been appended is named as it is printed. -/
theorem Follows.nameResult (h : Follows s printed read) {g : Func} (hg : s.func.Grows g)
    {v? w? : Option ValueId} (hsame : w?.isSome = v?.isSome)
    (hnew : ∀ w, w? = some w → s.func.value? w = none ∧
      ∃ d, g.value? w = some d ∧ ∀ bits, d.origin ≠ .literal bits) (width : Nat) :
    State.nameResult ⟨g, s.names⟩ (v?.map fun _ => (Numeral.decimal printed.length, width)) w? =
        .ok ⟨g, numbered (read ++ w?.toList)⟩ ∧
      Follows ⟨g, numbered (read ++ w?.toList)⟩ (printed ++ v?.toList) (read ++ w?.toList) := by
  cases w? with
  | none =>
    obtain rfl : v? = none := by simpa using hsame.symm
    simp only [Option.toList_none, List.append_nil, ← h.names]
    exact ⟨rfl, h.grows rfl hg⟩
  | some w =>
    obtain ⟨v, rfl⟩ := Option.isSome_iff_exists.mp hsame.symm
    obtain ⟨hw, hvalue⟩ := hnew w rfl
    exact h.define hg hw hvalue v

theorem inst_follows (hf : f.Coherent) (hd : f.inst? i = some d) (hs : Follows s printed read)
    (hv : ∀ v ∈ d.operands, Printable f printed v) (hb : b.index < s.func.blocks.size) :
    ∃ t j e, inst s b (writtenInst f printed d) = .ok t ∧
      Follows t (printed ++ d.result.toList) (read ++ e.result.toList) ∧
      s.func.Grows t.func ∧ t.func.params = s.func.params ∧
      t.func.blocks = s.func.blocks.modify b.index (· ++ [j]) ∧
      ∀ g, t.func.Grows g → g.inst? j = some e ∧ SameInst f g printed read d e := by
  obtain ⟨ws, u, hoperands, hinterns, hsame⟩ := operands_follows hf hs hv d.result.toList
  have hlength : ws.length = d.operands.length := (hsame _ (.refl _)).length_eq.symm
  have hcheck : checkInst d.opcode d.width ws.length = .ok () := hlength ▸ hf.checked hd
  obtain ⟨e, j, g, happend, hexact⟩ := append_ok hcheck (hinterns.blocks ▸ hb) d.exact
  have appends := append_setExact happend hexact
  let result : Option ValueId :=
    if d.opcode.hasResult then some ⟨u.func.values.size⟩ else none
  have hsome : result.isSome = d.result.isSome := by
    rw [hf.produces hd]
    cases hr : d.opcode.hasResult <;> simp [result, hr]
  have hresult : g.result? j = result := by
    rw [Func.result?, appends.inst?]
    rfl
  have hnew (w : ValueId) (hw : result = some w) : u.func.value? w = none ∧
      ∃ d, g.value? w = some d ∧ ∀ bits, d.origin ≠ .literal bits := by
    have hr : d.opcode.hasResult := by rw [← hf.produces hd, ← hsome, hw, Option.isSome_some]
    obtain rfl : ⟨u.func.values.size⟩ = w := by simpa [result, hr] using hw
    exact ⟨value?_size u.func, ⟨.result j, d.width⟩,
      by rw [appends.value?, if_pos ⟨hr, rfl⟩], fun _ => by simp⟩
  obtain ⟨hname, hfollows⟩ :=
    (hs.grows hinterns.names hinterns.grows).nameResult appends.grows hsome hnew d.width
  refine ⟨⟨g, numbered (read ++ result.toList)⟩, j, _, inst_eq_ok.mpr ⟨d.opcode, d.width, ws, u, j,
    e, g, ofName?_name d.opcode, ?_, instWidth_ok (hf.checked hd) (hf.produces hd) _, hoperands,
    happend, hexact, ?_⟩, hfollows, hinterns.grows.trans appends.grows,
    appends.params.trans hinterns.params, by rw [appends.blocks, hinterns.blocks],
    fun g' hg' => ⟨hg'.inst? j _ appends.inst?, rfl, rfl, rfl, hsome,
      hsame g' (appends.grows.trans hg')⟩⟩
  · rw [writtenInst, List.length_map]
    exact hf.length_operands hd
  · rw [hresult]
    exact hname

/-- What is printed of instructions is resolved to instructions that stand for them. -/
theorem insts_follows (hf : f.Coherent) {done : Array (List InstId)} {front : List InstId}
    (h : Prints f printed is printed') (hs : Follows s printed read)
    (hblocks : s.func.blocks = done.push front) :
    ∃ t ks read', (writtenInsts f printed is).1.foldlM (inst · ⟨done.size⟩ ·) s = .ok t ∧
      Follows t printed' read' ∧ s.func.Grows t.func ∧ t.func.params = s.func.params ∧
      t.func.blocks = done.push (front ++ ks) ∧
      ∀ g, t.func.Grows g → SameInsts f g printed read is ks printed' read' := by
  induction h generalizing s read front with
  | nil =>
    exact ⟨s, [], read, rfl, hs, .refl _, rfl, by rw [hblocks, List.append_nil], fun _ _ => .nil⟩
  | @cons printed i d is printed' hd hoperands others ih =>
    have hb : (⟨done.size⟩ : BlockId).index < s.func.blocks.size := by
      rw [hblocks, Array.size_push]
      exact Nat.lt_succ_self _
    obtain ⟨u, j, e, hinst, hu, hgrows, hparams, hmodify, hsame⟩ :=
      inst_follows hf hd hs hoperands hb
    have hmiddle : u.func.blocks = done.push (front ++ [j]) := by
      rw [hmodify, hblocks, modify_push]
    obtain ⟨t, ks, read', hrest, ht, hgrowsRest, hparamsRest, hblocksRest, hsameRest⟩ :=
      ih hu hmiddle
    refine ⟨t, j :: ks, read', ?_, ht, hgrows.trans hgrowsRest, hparamsRest.trans hparams,
      by rw [hblocksRest, List.append_assoc]; rfl, fun g hg => ?_⟩
    · rw [writtenInsts, hd]
      dsimp only
      rw [List.foldlM_cons, hinst, ok_bind, hrest]
    · obtain ⟨hj, hfirst⟩ := hsame g (hgrowsRest.trans hg)
      exact .cons hd hj hfirst (hsameRest g hg)

/-- What is printed of blocks is resolved to blocks that stand for them. -/
theorem blocks_follows (hf : f.Coherent) {bs : List (List InstId)}
    (h : Prints f printed bs.flatten printed') (hs : Follows s printed read) :
    ∃ t kss read', (writtenBlocks f printed bs).foldlM body s = .ok t ∧ s.func.Grows t.func ∧
      t.func.params = s.func.params ∧ t.func.blocks.toList = s.func.blocks.toList ++ kss ∧
      ∀ g, t.func.Grows g → SameBlocks f g printed read bs kss printed' read' := by
  induction bs generalizing s printed read with
  | nil =>
    cases h
    exact ⟨s, [], read, rfl, .refl _, rfl, (List.append_nil _).symm, fun _ _ => .nil⟩
  | cons is bs ih =>
    obtain ⟨middle, hfirst, hrest⟩ := h.split
    have hcreate : s.func.Grows s.func.createBlock.2 := ⟨rfl, fun _ _ hv => hv, fun _ _ hi => hi⟩
    have hopened : Follows { s with func := s.func.createBlock.2 } printed read :=
      hs.grows rfl hcreate
    obtain ⟨u, ks, read', hinsts, hu, hgrows, hparams, hblocks, hsame⟩ :=
      insts_follows hf hfirst hopened rfl
    obtain ⟨t, kss, read'', hbodies, hgrowsRest, hparamsRest, hblocksRest, hsameRest⟩ :=
      ih hrest hu
    refine ⟨t, ks :: kss, read'', ?_, (hcreate.trans hgrows).trans hgrowsRest,
      hparamsRest.trans hparams, ?_, fun g hg => .cons (hsame g (hgrowsRest.trans hg))
        (hsameRest g hg)⟩
    · have hbody : body s (writtenInsts f printed is).1 = .ok u := hinsts
      rw [writtenBlocks]
      simp only [(hfirst.isLegible hf).1]
      rw [List.foldlM_cons, hbody, ok_bind, hbodies]
    · rw [hblocksRest, hblocks]
      simp

/-! ### Parameters -/

/-- Resolution accepts the widths that are supported, and of floats those with a format. -/
theorem checkWidth_ok_iff {w : Nat} {c : Option TypeClass} (hw : supported w) :
    checkWidth w c = .ok () ↔ (c = some .float → isFloatWidth w) := by
  unfold checkWidth
  by_cases hc : c = some .float
  · cases isFloatWidth w <;> simp [hc]
  · simp [hc, hw]

theorem param_follows (hs : Follows s printed s.func.params) (hw : supported (f.width v))
    (hv : f.typeClass? v = some .float → isFloatWidth (f.width v)) :
    ∃ t w, param s (writtenParam f printed.length v) = .ok t ∧
      t.func.params = s.func.params ++ [w] ∧ Follows t (printed ++ [v]) t.func.params ∧
      s.func.Grows t.func ∧ t.func.blocks = s.func.blocks ∧
      ∀ g, t.func.Grows g → g.width w = f.width v ∧ g.typeClass? w = f.typeClass? v := by
  obtain ⟨⟨w, g⟩, hadd⟩ : ∃ r, s.func.addParam (f.width v) (f.typeClass? v) = .ok r :=
    ⟨_, if_pos hw⟩
  obtain ⟨-, adds, hparams⟩ := addParam_eq_ok hadd
  have hvalue : g.value? w =
      some ⟨.parameter s.func.params.length (f.typeClass? v), f.width v⟩ := by
    rw [adds.value?, if_pos rfl]
  obtain ⟨hdefine, hfollows⟩ := hs.define adds.grows adds.absent
    ⟨_, hvalue, fun _ => by simp⟩ v
  rw [← hparams] at hdefine hfollows
  refine ⟨⟨g, numbered g.params⟩, w, ?_, hparams, hfollows, adds.grows, adds.blocks,
    fun g' hg => ?_⟩
  · rw [param, writtenParam]
    dsimp only
    rw [(checkWidth_ok_iff hw).mpr hv, ok_bind, edit_eq_ok.mpr hadd, ok_bind]
    exact hdefine
  · rw [Func.width, Func.typeClass?, hg.value? w _ hvalue]
    exact ⟨rfl, rfl⟩

theorem params_follows {vs : List ValueId} (hs : Follows s printed s.func.params)
    (hvs : ∀ v ∈ vs, supported (f.width v) ∧
      (f.typeClass? v = some .float → isFloatWidth (f.width v))) :
    ∃ t ws, (vs.mapIdx fun k v => writtenParam f (printed.length + k) v).foldlM param s = .ok t ∧
      t.func.params = s.func.params ++ ws ∧ Follows t (printed ++ vs) t.func.params ∧
      s.func.Grows t.func ∧ t.func.blocks = s.func.blocks ∧ ∀ g, t.func.Grows g →
        List.Forall₂ (fun v w => g.width w = f.width v ∧ g.typeClass? w = f.typeClass? v)
          vs ws := by
  induction vs generalizing s printed with
  | nil =>
    exact ⟨s, [], rfl, (List.append_nil _).symm, by rwa [List.append_nil], .refl _, rfl,
      fun _ _ => .nil⟩
  | cons v vs ih =>
    rw [List.forall_mem_cons] at hvs
    obtain ⟨u, w, hparam, hparams, hu, hgrows, hblocks, hsame⟩ :=
      param_follows hs hvs.1.1 hvs.1.2
    obtain ⟨t, ws, hrest, hparamsRest, ht, hgrowsRest, hblocksRest, hsameRest⟩ := ih hu hvs.2
    have hshift (k : Nat) : printed.length + (k + 1) = (printed ++ [v]).length + k := by
      rw [List.length_append, List.length_singleton]
      omega
    refine ⟨t, w :: ws, ?_, by rw [hparamsRest, hparams, List.append_assoc]; rfl,
      by rwa [List.append_assoc] at ht, hgrows.trans hgrowsRest, hblocksRest.trans hblocks,
      fun g hg => .cons (hsame g (hgrowsRest.trans hg)) (hsameRest g hg)⟩
    simp only [List.mapIdx_cons, List.foldlM_cons, hshift, Nat.add_zero, hparam, ok_bind]
    exact hrest

theorem checkWidth_of_foldlM {ps : List Written.Param} {t : State}
    (h : ps.foldlM param s = .ok t) : ∀ p ∈ ps, checkWidth p.width p.typeClass = .ok () := by
  induction ps generalizing s with
  | nil => simp
  | cons p ps ih =>
    rw [List.foldlM_cons, bind_eq_ok] at h
    obtain ⟨u, hp, hps⟩ := h
    rw [param, bind_eq_ok] at hp
    obtain ⟨⟨⟩, hcheck, -⟩ := hp
    exact List.forall_mem_cons.mpr ⟨hcheck, ih hps⟩

/-! ### Functions -/

theorem supported_of_mem_params (hf : f.Coherent) (hv : v ∈ f.params) : supported (f.width v) := by
  obtain ⟨k, hk⟩ := List.mem_iff_getElem?.mp hv
  obtain ⟨c, w, hvalue⟩ := hf.parameter.mp hk
  rw [Func.width, hvalue]
  exact hf.supported hvalue

/-- The written form of a settled function is resolved exactly if its float parameters have widths
with a format, and it is resolved to a copy. -/
theorem func_written (hf : f.Settled gone) (hne : f.written.blocks ≠ []) (total : Nat) :
    ((∃ g, func total f.written = .ok g) ↔
      ∀ v ∈ f.params, f.typeClass? v = some .float → isFloatWidth (f.width v)) ∧
    ∀ g, func total f.written = .ok g → f.Copies g := by
  have hcopies (h : ∀ v ∈ f.params, f.typeClass? v = some .float → isFloatWidth (f.width v)) :
      ∃ g, func total f.written = .ok g ∧ f.Copies g := by
    have hstart : Follows ⟨.empty f.name, []⟩ [] [] := ⟨rfl, rfl, .nil, by simp⟩
    obtain ⟨s, ws, hparams, hread, hs, hgrows, hnone, hsameParams⟩ :=
      params_follows hstart fun v hv => ⟨supported_of_mem_params hf.coherent hv, h v hv⟩
    obtain ⟨printed, hprints⟩ := prints_layout hf
    obtain ⟨t, kss, read, hbodies, hgrowsBlocks, hframe, hkss, hsameBlocks⟩ :=
      blocks_follows hf.coherent hprints hs
    have hwritten : f.written.params.foldlM param ⟨.empty f.name, []⟩ = .ok s := by
      simp only [List.length_nil, Nat.zero_add] at hparams
      exact hparams
    have hwrittenBlocks : (Written.orEmpty f.written.blocks).foldlM body s = .ok t := by
      rwa [Written.orEmpty_of_ne_nil hne]
    refine ⟨t.func, func_eq_ok.mpr ⟨s, t, hwritten, hwrittenBlocks, rfl⟩, ?_, ?_,
      printed, read, ?_⟩
    · exact (hgrows.trans hgrowsBlocks).name
    · rw [hframe, hread]
      exact hsameParams t.func hgrowsBlocks
    · rw [hframe, hkss, hnone]
      exact hsameBlocks t.func (.refl _)
  have hfloat (g : Func) (hg : func total f.written = .ok g) (v : ValueId) (hv : v ∈ f.params) :
      f.typeClass? v = some .float → isFloatWidth (f.width v) := by
    obtain ⟨s, -, hs, -⟩ := func_eq_ok.mp hg
    obtain ⟨k, hk, rfl⟩ := List.mem_iff_getElem.mp hv
    refine (checkWidth_ok_iff (supported_of_mem_params hf.coherent hv)).mp ?_
    exact checkWidth_of_foldlM hs (writtenParam f k f.params[k])
      (List.mem_mapIdx.mpr ⟨k, hk, rfl⟩)
  refine ⟨⟨fun ⟨g, hg⟩ => hfloat g hg, fun h => ?_⟩, fun g hg => ?_⟩
  · obtain ⟨g, hg, -⟩ := hcopies h
    exact ⟨g, hg⟩
  · obtain ⟨g', hg', hcopy⟩ := hcopies (hfloat g hg)
    rw [hg] at hg'
    cases hg'
    exact hcopy

/-- A text is parsed as a function if that is all that is read of it. -/
theorem parseFunc_iff_functions {text : String} {g : Func} :
    parseFunc text = .ok g ↔
      functions (Written.byteLength text.toList) text.toList = .ok [g] := by
  simp only [parseFunc, parseProgram]
  cases functions (Written.byteLength text.toList) text.toList with
  | error e => exact ⟨fun h => (by cases h), fun h => (by cases h)⟩
  | ok gs =>
    rw [ok_bind, pure_eq_ok, ok_bind]
    split
    · next g' heq =>
      obtain rfl : gs = [g'] := heq
      simp
    · next hne =>
      refine ⟨fun h => (by cases h), fun h => ?_⟩
      cases h
      exact (hne g rfl).elim

/-- The text of a function that can be read is parsed as its written form is resolved. -/
theorem parseFunc_eq_ok {g : Func} (hlegible : f.written.IsLegible)
    (hblocks : f.written.blocks ≠ []) :
    parseFunc f.print = .ok g ↔
      func (Written.byteLength f.print.toList) f.written = .ok g := by
  have htext : Written.dropBlank false f.print.toList = f.written.spell ++ ['\n'] := by
    rw [toList_print]
    rfl
  have hlt : ['\n'].length < f.print.toList.length := by
    have hspell := List.length_pos_iff.mpr f.written.spell_ne_nil
    rw [toList_print, List.length_append]
    omega
  have hend (total : Nat) : functions total ['\n'] = .ok [] := by
    rw [functions]
    rfl
  rw [parseFunc_iff_functions, functions_spell hlegible hblocks htext hlt, hend]
  simp

end Parse

/-- The text of a valid function with a block and a name is parsed exactly if every parameter that
is declared a float has a width with a format; and what it is parsed to has the name, the shape and
the text of the function. -/
theorem parseFunc_print {f : Func} {gone : List InstId} (hf : f.Reachable gone) (hv : f.isValid)
    (hblocks : 0 < f.blocks.size) (hname : Written.IsName f.name) :
    ((∃ g, parseFunc f.print = .ok g) ↔
      ∀ v ∈ f.params, f.typeClass? v = some .float → isFloatWidth (f.width v)) ∧
    ∀ g, parseFunc f.print = .ok g → g.name = f.name ∧ g.shape = f.shape ∧ g.print = f.print := by
  have hset := hf.settled_of_isValid hv
  have hne : f.written.blocks ≠ [] := by
    rw [← List.length_pos_iff, Func.written, Print.length_writtenBlocks, Array.length_toList]
    exact hblocks
  have hparse (g : Func) := Parse.parseFunc_eq_ok (g := g) (Parse.isLegible_written hset hname) hne
  simp only [hparse]
  obtain ⟨hiff, hcopies⟩ := Parse.func_written hset hne (Written.byteLength f.print.toList)
  exact ⟨hiff, fun g hg => ⟨(hcopies g hg).name, (hcopies g hg).shape, (hcopies g hg).print⟩⟩

theorem Written.isName_f : Written.IsName "f" where
  nonempty := by decide
  chars c hc := by
    obtain rfl : c = 'f' := by simpa using hc
    decide

/-- A function that stores twice its parameter, a float. The negation of the parameter has been
removed, so that the values have other numbers than those that reading the text gives. -/
def storedDouble : Func where
  name := "f"
  params := [⟨0⟩]
  values := #[⟨.parameter 0 (some .float), 16⟩, ⟨.result ⟨0⟩, 16⟩, ⟨.result ⟨1⟩, 16⟩]
  chains := #[[⟨⟨1⟩, 0⟩, ⟨⟨1⟩, 1⟩], [], [⟨⟨2⟩, 0⟩]]
  insts := #[⟨.fneg, 16, false, [⟨0⟩], some ⟨1⟩, none⟩,
    ⟨.fadd, 16, false, [⟨0⟩, ⟨0⟩], some ⟨2⟩, some ⟨0⟩⟩,
    ⟨.store, 0, false, [⟨2⟩], none, some ⟨0⟩⟩]
  blocks := #[[⟨1⟩, ⟨2⟩]]

theorem reachable_storedDouble : Func.Reachable storedDouble [⟨0⟩] := by
  have hblock := (Func.Reachable.empty "f").edit (.createBlock rfl)
  have hparam := hblock.addParam 16 (some .float) rfl
  have hneg := hparam.append ⟨0⟩ .fneg 16 [⟨0⟩] (by decide) rfl
  have hout : Func.Reachable ⟨"f", [⟨0⟩],
      #[⟨.parameter 0 (some .float), 16⟩, ⟨.result ⟨0⟩, 16⟩], #[[⟨⟨0⟩, 0⟩], []],
      #[⟨.fneg, 16, false, [⟨0⟩], some ⟨1⟩, none⟩], #[[]]⟩ [] :=
    hneg.edit (.detachInst (i := ⟨0⟩) rfl)
  have hremoved : Func.Reachable ⟨"f", [⟨0⟩],
      #[⟨.parameter 0 (some .float), 16⟩, ⟨.result ⟨0⟩, 16⟩], #[[], []],
      #[⟨.fneg, 16, false, [⟨0⟩], some ⟨1⟩, none⟩], #[[]]⟩ [⟨0⟩] :=
    hout.edit (.removeInst (i := ⟨0⟩) rfl)
  have hdouble := hremoved.append ⟨0⟩ .fadd 16 [⟨0⟩, ⟨0⟩] (by decide) rfl
  exact hdouble.append ⟨0⟩ .store 0 [⟨2⟩] (by decide) rfl

theorem parseFunc_print_storedDouble : Func.Reachable storedDouble [⟨0⟩] ∧ storedDouble.isValid ∧
    0 < storedDouble.blocks.size ∧ Written.IsName storedDouble.name ∧
    ∃ g, parseFunc storedDouble.print = .ok g ∧ g.name = storedDouble.name ∧
      g.shape = storedDouble.shape ∧ g.print = storedDouble.print := by
  have hv : storedDouble.isValid := by decide +kernel
  obtain ⟨hiff, hsame⟩ :=
    parseFunc_print reachable_storedDouble hv Nat.one_pos Written.isName_f
  obtain ⟨g, hg⟩ := hiff.mpr (by decide)
  exact ⟨reachable_storedDouble, hv, Nat.one_pos, Written.isName_f, g, hg, hsame g hg⟩

/-! ### A float without a format -/

/-- An empty function of a parameter that is declared a float of a width without a format. -/
def narrowFloat : Func where
  name := "f"
  params := [⟨0⟩]
  values := #[⟨.parameter 0 (some .float), 8⟩]
  chains := #[[]]
  insts := #[]
  blocks := #[[]]

theorem reachable_narrowFloat : Func.Reachable narrowFloat [] :=
  ((Func.Reachable.empty "f").addParam 8 (some .float) rfl).edit (.createBlock rfl)

/-- A valid function whose text is not parsed. -/
theorem parseFunc_print_narrowFloat : Func.Reachable narrowFloat [] ∧ narrowFloat.isValid ∧
    0 < narrowFloat.blocks.size ∧ Written.IsName narrowFloat.name ∧
    parseFunc narrowFloat.print = .error ⟨.unsupportedWidth 8, 0⟩ := by
  have hparse : parseFunc narrowFloat.print = .error ⟨.unsupportedWidth 8, 0⟩ := by
    decide +kernel
  exact ⟨reachable_narrowFloat, by decide +kernel, Nat.one_pos, Written.isName_f, hparse⟩

end Peephole

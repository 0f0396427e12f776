import Peephole.Text.Parse
import Peephole.Proofs.Func.Effect
import Peephole.Proofs.Opcode
import Peephole.Proofs.Width
import Peephole.Proofs.Text.Printed
import Mathlib.Data.List.Induction

/-!
# Resolving what has been printed

Resolution that succeeds is **replayed**: the written form of the function that it leads to is
resolved to the same function. The two resolutions go through the same functions step by step, and
differ in the names of values only. Each step looks at entities that exist by then, and the function
only **grows** afterwards, so that printing the final function writes what the step needs.
-/

namespace Peephole

/-! ### Growing functions -/

namespace Func

/-- Whether a function has **grown** into another one: its values and instructions are still there,
as they were. -/
structure Grows (f g : Func) : Prop where
  name : g.name = f.name
  value? : ∀ v d, f.value? v = some d → g.value? v = some d
  inst? : ∀ i d, f.inst? i = some d → g.inst? i = some d

namespace Grows

variable {f g h : Func}

theorem refl (f : Func) : f.Grows f := ⟨rfl, fun _ _ hv => hv, fun _ _ hi => hi⟩

theorem trans (hfg : f.Grows g) (hgh : g.Grows h) : f.Grows h where
  name := hgh.name.trans hfg.name
  value? v d hv := hgh.value? v d (hfg.value? v d hv)
  inst? i d hi := hgh.inst? i d (hfg.inst? i d hi)

end Grows

variable {f g : Func}

theorem AddsValue.grows {o : Origin} {w : Nat} {v : ValueId} (h : f.AddsValue o w v g) :
    f.Grows g where
  name := h.name
  value? x d hx := by
    have hne : x ≠ v := by
      rintro rfl
      rw [h.absent] at hx
      cases hx
    rw [h.value?, if_neg hne, hx]
  inst? i d hi := by rwa [Func.inst?, h.insts]

/-- A literal is there afterwards, and nothing else changes but values. -/
theorem literal_grows {w : Nat} {bits : Word} {v : ValueId} (h : f.literal w bits = .ok (v, g)) :
    f.Grows g ∧ g.value? v = some ⟨.literal (bits &&& mask w), w⟩ ∧ g.params = f.params ∧
      g.blocks = f.blocks := by
  obtain ⟨-, ⟨rfl, hv⟩ | ⟨-, hadds, hparams⟩⟩ := literal_eq_ok h
  · exact ⟨.refl _, hv, rfl, rfl⟩
  · exact ⟨hadds.grows, by rw [hadds.value?, if_pos rfl], hparams, hadds.blocks⟩

/-- The effect of appending an instruction to a block, and of marking it exact or not. -/
structure Appends (f : Func) (b : BlockId) (op : Opcode) (w : Nat) (exact : Bool)
    (operands : List ValueId) (i : InstId) (g : Func) : Prop where
  checked : checkInst op w operands.length = .ok ()
  grows : f.Grows g
  inst? : g.inst? i =
    some ⟨op, w, exact, operands, if op.hasResult then some ⟨f.values.size⟩ else none, some b⟩
  value? : ∀ v, g.value? v =
    if op.hasResult ∧ v = ⟨f.values.size⟩ then some ⟨.result i, w⟩ else f.value? v
  params : g.params = f.params
  blocks : g.blocks = f.blocks.modify b.index (· ++ [i])

/-- Old instructions stay as they are when another one is appended and marked. -/
theorem inst?_of_append {b : BlockId} {op : Opcode} {w : Nat} {exact : Bool}
    {operands : List ValueId} {i j : InstId} {e : Func}
    (h : f.append b op w operands = ⟨e, .ok i⟩) (hexact : e.setExact i exact = .ok g)
    (hj : j ≠ i) : g.inst? j = f.inst? j := by
  obtain ⟨c, hcreate, hpush⟩ := append_eq_ok h
  obtain ⟨-, rfl⟩ := setExact_eq_ok hexact
  rw [inst?_modifyInst, if_neg (Ne.symm hj), (pushInst_eq_ok hpush).inst?, if_neg hj,
    (createInst_eq_ok hcreate).inst?, if_neg hj]

theorem append_setExact {b : BlockId} {op : Opcode} {w : Nat} {exact : Bool}
    {operands : List ValueId} {i : InstId} {e : Func} (h : f.append b op w operands = ⟨e, .ok i⟩)
    (hexact : e.setExact i exact = .ok g) : f.Appends b op w exact operands i g := by
  have hinst (j : InstId) (hj : j ≠ i) : g.inst? j = f.inst? j := inst?_of_append h hexact hj
  obtain ⟨c, hcreate, hpush⟩ := append_eq_ok h
  have creates := createInst_eq_ok hcreate
  have attaches := pushInst_eq_ok hpush
  obtain ⟨-, rfl⟩ := setExact_eq_ok hexact
  have hvalue (v : ValueId) : (e.modifyInst i fun d => { d with exact := exact }).value? v =
      if op.hasResult ∧ v = ⟨f.values.size⟩ then some ⟨.result i, w⟩ else f.value? v :=
    (attaches.value? v).trans (creates.value? v)
  constructor
  case checked => exact creates.checked
  case grows =>
    refine ⟨attaches.name.trans creates.name, fun v d hv => ?_, fun j d hj => ?_⟩
    · have hne : v ≠ ⟨f.values.size⟩ := by
        rintro rfl
        rw [value?_size] at hv
        cases hv
      rw [hvalue, if_neg fun hr => hne hr.2, hv]
    · have hne : j ≠ i := by
        rintro rfl
        rw [creates.absent] at hj
        cases hj
      rw [hinst j hne, hj]
  case inst? =>
    rw [inst?_modifyInst, if_pos rfl, attaches.inst?, if_pos rfl, creates.inst?, if_pos rfl]
    rfl
  case value? => exact hvalue
  case params => exact attaches.params.trans creates.params
  case blocks =>
    have hblocks : e.blocks = c.blocks.modify b.index fun _ => c.blockInsts b ++ [i] := by
      rw [attaches.eq]
      rfl
    change e.blocks = _
    rw [hblocks, ← creates.blocks]
    have hlast : c.modifyBlock b (fun _ => c.blockInsts b ++ [i]) =
        c.modifyBlock b (· ++ [i]) :=
      modifyBlock_congr rfl
    exact congrArg blocks hlast

end Func

namespace Parse

open Print

/-! ### Names that are numbers -/

/-- The values printed so far, by the names that printing gives them. -/
def numbered (printed : List ValueId) : List (String × ValueId) :=
  (printed.mapIdx fun k v => (Numeral.decimal k, v)).reverse

theorem numbered_append (printed : List ValueId) (v : ValueId) :
    numbered (printed ++ [v]) = (Numeral.decimal printed.length, v) :: numbered printed := by
  simp [numbered, List.mapIdx_append]

theorem lookup_numbered (printed : List ValueId) (k : Nat) :
    (numbered printed).lookup (Numeral.decimal k) = printed[k]? := by
  induction printed using List.reverseRecOn with
  | nil => rfl
  | append_singleton printed v ih =>
    rw [numbered_append, List.lookup_cons, ih]
    by_cases hk : k = printed.length
    · subst hk
      simp
    · have hname : (Numeral.decimal k == Numeral.decimal printed.length) = false := by
        simpa [Numeral.decimal_inj] using hk
      rw [hname]
      rcases Nat.lt_or_gt_of_ne hk with hlt | hgt
      · rw [List.getElem?_append_left hlt]
      · have hlength : (printed ++ [v]).length ≤ k := by
          rw [List.length_append, List.length_singleton]
          omega
        rw [List.getElem?_eq_none hlength, List.getElem?_eq_none (Nat.le_of_lt hgt)]

/-- Whether a list holds the values that names stand for. None of them is a literal. -/
structure State.Named (s : State) (printed : List ValueId) : Prop where
  mem : ∀ name v, s.names.lookup name = some v → v ∈ printed
  value? : ∀ v ∈ printed, ∃ d, s.func.value? v = some d ∧ ∀ bits, d.origin ≠ .literal bits

theorem literal?_of_value? {f : Func} {v : ValueId} {d : Value} (hv : f.value? v = some d)
    (hd : ∀ bits, d.origin ≠ .literal bits) : f.literal? v = none := by
  unfold Func.literal?
  rw [hv]
  split
  · next bits w heq =>
    cases heq
    exact (hd bits rfl).elim
  · rfl

/-! ### Operands -/

theorem edit_eq_ok {α : Type} {r : Except Fault α} {a : α} : edit r = .ok a ↔ r = .ok a := by
  cases r <;> simp [edit, Except.mapError]

theorem le_of_supported {w : Nat} (h : supported w) : w ≤ 255 := by
  unfold supported WidthClass.ofBits? at h
  split at h <;> simp_all

/-- What is printed of a literal is resolved to the literal. -/
theorem operand_integer {s : State} {g : Func} {w : Nat} {bits : Word} {v : ValueId}
    (h : s.func.literal w bits = .ok (v, g)) (hmasked : bits &&& mask w = bits) :
    operand s (.integer bits.toNat w) = .ok (v, ⟨g, s.names⟩) := by
  obtain ⟨hw, -⟩ := Func.literal_eq_ok h
  have hbits : BitVec.ofNat 64 bits.toNat = bits := BitVec.ofNat_toNat _ _
  have hfits : fits bits w := by
    simp [fits, hmasked]
  have hcheck : checkWidth w none = .ok () := by
    simp [checkWidth, hw]
  rw [operand, hcheck, ok_bind, hbits, hfits, edit_eq_ok.mpr h]
  rfl

/-- A literal that has been resolved is resolved again from what is printed of it. -/
theorem literal_replay {s : State} {g f : Func} {w : Nat} {bits : Word} {v : ValueId}
    (h : s.func.literal w bits = .ok (v, g)) (hg : g.Grows f) (printed : List ValueId)
    (names : List (String × ValueId)) :
    operand ⟨s.func, names⟩ (writtenOperand f printed v) = .ok (v, ⟨g, names⟩) ∧
      (writtenOperand f printed v).IsLegible := by
  obtain ⟨-, hv, -, -⟩ := Func.literal_grows h
  obtain ⟨hw, -⟩ := Func.literal_eq_ok h
  -- what is printed is the masked bits, which stand for the same literal
  have hmasked : bits &&& mask w &&& mask w = bits &&& mask w :=
    and_mask_and_mask (Nat.le_refl w) bits
  have hliteral : f.literal? v = some ⟨bits &&& mask w, w⟩ := by
    rw [Func.literal?, hg.value? v _ hv]
    exact congrArg (fun b => some (Literal.mk b w)) hmasked
  have hwritten : writtenOperand f printed v = .integer (bits &&& mask w).toNat w := by
    rw [writtenOperand, hliteral]
  have hagain : s.func.literal w (bits &&& mask w) = .ok (v, g) := by
    rw [← h]
    simp only [Func.literal, hmasked]
  rw [hwritten]
  exact ⟨operand_integer (s := ⟨s.func, names⟩) hagain hmasked,
    (bits &&& mask w).isLt, le_of_supported hw⟩

/-- A value that has been printed has a number, and is written by it, also when more has been
printed. -/
theorem writtenOperand_of_mem {f : Func} {printed : List ValueId} {v : ValueId}
    (hliteral : f.literal? v = none) (hv : v ∈ printed) (more : List ValueId) :
    printed.idxOf? v = some (printed.idxOf v) ∧ writtenOperand f (printed ++ more) v =
      .value (Numeral.decimal (printed.idxOf v)) := by
  have hfirst : printed.idxOf? v = some (printed.idxOf v) :=
    List.findIdx?_eq_some_of_exists ⟨v, hv, beq_self_eq_true v⟩
  have hindex : (printed ++ more).idxOf? v = some (printed.idxOf v) := by
    rw [List.idxOf?, List.findIdx?_append]
    exact congrArg (Option.or · _) hfirst
  refine ⟨hfirst, ?_⟩
  rw [writtenOperand, hliteral, hindex]
  rfl

/-- The effect of resolving operands: there may be new literals. -/
structure State.Interns (s t : State) : Prop where
  names : t.names = s.names
  grows : s.func.Grows t.func
  params : t.func.params = s.func.params
  blocks : t.func.blocks = s.func.blocks

theorem State.Interns.trans {s t u : State} (hst : s.Interns t) (htu : t.Interns u) :
    s.Interns u where
  names := htu.names.trans hst.names
  grows := hst.grows.trans htu.grows
  params := htu.params.trans hst.params
  blocks := htu.blocks.trans hst.blocks

/-- Names still stand for the same values when the function has grown. -/
theorem State.Named.grows {s t : State} {printed : List ValueId} (h : s.Named printed)
    (hnames : t.names = s.names) (hg : s.func.Grows t.func) : t.Named printed where
  mem name v hv := h.mem name v (hnames ▸ hv)
  value? v hv := by
    obtain ⟨d, hd, horigin⟩ := h.value? v hv
    exact ⟨d, hg.value? v d hd, horigin⟩

/-- A literal is what an operand is resolved to, unless it is a named value. -/
theorem operand_eq_ok {s t : State} {o : Written.Operand} {v : ValueId}
    (h : operand s o = .ok (v, t)) :
    (t = s ∧ ∃ name, s.names.lookup name = some v) ∨
      ∃ w bits g, s.func.literal w bits = .ok (v, g) ∧ t = ⟨g, s.names⟩ := by
  cases o with
  | value name =>
    rw [operand] at h
    split at h
    · next hv =>
      cases h
      exact .inl ⟨rfl, name, hv⟩
    · cases h
  | integer n w =>
    rw [operand, bind_eq_ok] at h
    obtain ⟨-, -, h⟩ := h
    dsimp only at h
    split at h
    · simp only [bind_eq_ok] at h
      obtain ⟨⟨u, g⟩, hliteral, h⟩ := h
      cases h
      exact .inr ⟨w, _, g, edit_eq_ok.mp hliteral, rfl⟩
    · cases h
  | float datum w =>
    simp only [operand, bind_eq_ok] at h
    obtain ⟨-, -, ⟨u, g⟩, hliteral, h⟩ := h
    obtain ⟨bits, -, hliteral⟩ := bind_eq_ok.mp (edit_eq_ok.mp hliteral)
    cases h
    exact .inr ⟨w, bits, g, hliteral, rfl⟩

/-- A named value is found under its number. -/
theorem named_replay {s : State} {printed : List ValueId} (hn : s.Named printed) {f : Func}
    (hg : s.func.Grows f) {v : ValueId} (hv : v ∈ printed) (more : List ValueId) :
    operand ⟨s.func, numbered printed⟩ (writtenOperand f (printed ++ more) v) =
        .ok (v, ⟨s.func, numbered printed⟩) ∧
      (writtenOperand f (printed ++ more) v).IsLegible := by
  obtain ⟨d, hd, horigin⟩ := hn.value? v hv
  have hliteral : f.literal? v = none := literal?_of_value? (hg.value? v d hd) horigin
  obtain ⟨-, hwritten⟩ := writtenOperand_of_mem hliteral hv more
  have hlt : printed.idxOf v < printed.length := List.idxOf_lt_length_of_mem hv
  have hlookup : (numbered printed).lookup (Numeral.decimal (printed.idxOf v)) = some v := by
    rw [lookup_numbered, List.getElem?_eq_getElem hlt, List.getElem_idxOf]
  refine ⟨?_, ?_⟩
  · rw [hwritten, operand, hlookup]
  · rw [hwritten]
    exact Written.isName_decimal _

theorem operand_replay {s t : State} {o : Written.Operand} {v : ValueId}
    (h : operand s o = .ok (v, t)) {printed : List ValueId} (hn : s.Named printed) :
    s.Interns t ∧ ∀ f, t.func.Grows f → ∀ more,
      operand ⟨s.func, numbered printed⟩ (writtenOperand f (printed ++ more) v) =
          .ok (v, ⟨t.func, numbered printed⟩) ∧
        (writtenOperand f (printed ++ more) v).IsLegible := by
  obtain ⟨rfl, name, hname⟩ | ⟨w, bits, g, hliteral, rfl⟩ := operand_eq_ok h
  · exact ⟨⟨rfl, .refl _, rfl, rfl⟩, fun f hg => named_replay hn hg (hn.mem name v hname)⟩
  · obtain ⟨hgrows, -, hparams, hblocks⟩ := Func.literal_grows hliteral
    exact ⟨⟨rfl, hgrows, hparams, hblocks⟩, fun f hg more => literal_replay hliteral hg _ _⟩

theorem operands_replay {s t : State} {os : List Written.Operand} {vs : List ValueId}
    (h : operands s os = .ok (vs, t)) {printed : List ValueId} (hn : s.Named printed) :
    s.Interns t ∧ vs.length = os.length ∧ ∀ f, t.func.Grows f → ∀ more,
      operands ⟨s.func, numbered printed⟩ (vs.map (writtenOperand f (printed ++ more))) =
          .ok (vs, ⟨t.func, numbered printed⟩) ∧
        ∀ v ∈ vs, (writtenOperand f (printed ++ more) v).IsLegible := by
  induction os generalizing s vs with
  | nil =>
    cases h
    exact ⟨⟨rfl, .refl _, rfl, rfl⟩, rfl, fun f _ more => ⟨rfl, by simp⟩⟩
  | cons o os ih =>
    simp only [operands, bind_eq_ok] at h
    obtain ⟨⟨v, u⟩, ho, ⟨vs, t⟩, hos, h⟩ := h
    cases h
    obtain ⟨hinterns, hreplay⟩ := operand_replay ho hn
    obtain ⟨hrest, hlength, hreplays⟩ := ih hos (hn.grows hinterns.names hinterns.grows)
    refine ⟨hinterns.trans hrest, congrArg (· + 1) hlength, fun f hg more => ?_⟩
    obtain ⟨hfirst, hlegible⟩ := hreplay f (hrest.grows.trans hg) more
    obtain ⟨hothers, hlegibles⟩ := hreplays f hg more
    refine ⟨?_, List.forall_mem_cons.mpr ⟨hlegible, hlegibles⟩⟩
    rw [List.map_cons, operands, hfirst, ok_bind]
    dsimp only
    rw [hothers]
    rfl

/-! ### Instructions -/

/-- Instructions name a result when their operation has one, and take its width from there. -/
theorem instWidth_eq_ok {op : Opcode} {result : Option (String × Nat)} {w : Nat}
    (h : instWidth op result = .ok w) :
    result.isSome = op.hasResult ∧ ∀ x, result = some x → x.2 = w := by
  cases result with
  | none =>
    cases hr : op.hasResult with
    | true => simp [instWidth, hr] at h
    | false => simp
  | some x =>
    cases hr : op.hasResult with
    | false => simp [instWidth, hr] at h
    | true =>
      refine ⟨rfl, fun y hy => ?_⟩
      obtain rfl := Option.some.inj hy
      simp only [instWidth, hr, pure_eq_ok, ok_bind] at h
      split at h
      · split at h
        · cases h
        · exact Except.ok.inj h
      · split at h
        · exact Except.ok.inj h
        · cases h

/-- The name of a result does not matter to the width. -/
theorem instWidth_replay {op : Opcode} {result : Option (String × Nat)} {w : Nat}
    (h : instWidth op result = .ok w) {v? : Option ValueId} (hv : v?.isSome = op.hasResult)
    (name : String) : instWidth op (v?.map fun _ => (name, w)) = .ok w := by
  obtain ⟨hr, hw⟩ := instWidth_eq_ok h
  cases result with
  | none =>
    obtain rfl : v? = none := by simpa [← hr] using hv
    exact h
  | some x =>
    obtain ⟨v, rfl⟩ := Option.isSome_iff_exists.mp (hv.trans hr.symm)
    obtain rfl := hw x rfl
    rw [← h]
    cases hop : op.hasResult <;> simp [instWidth, hop]

theorem ofName?_name (op : Opcode) : Opcode.ofName? op.name = some op := by
  have hall : ∀ op ∈ Opcode.all, Opcode.ofName? op.name = some op := by decide +kernel
  exact hall op (Opcode.mem_all op)

/-- Names the result of an instruction, if there is one. -/
def State.nameResult (s : State) (written : Option (String × Nat)) (result : Option ValueId) :
    Resolved State :=
  match written, result with
  | some (name, _), some v => s.define name v
  | _, _ => .ok s

/-- An instruction is resolved by resolving its operands, appending it, and naming its result. -/
theorem inst_eq_ok {s t : State} {b : BlockId} {i : Written.Inst} :
    inst s b i = .ok t ↔ ∃ op w vs u k e g, Opcode.ofName? i.opcode = some op ∧
      i.operands.length = op.arity ∧ instWidth op i.result = .ok w ∧
      operands s i.operands = .ok (vs, u) ∧ u.func.append b op w vs = ⟨e, .ok k⟩ ∧
      e.setExact k i.exact = .ok g ∧
      State.nameResult ⟨g, u.names⟩ i.result (g.result? k) = .ok t := by
  constructor
  · intro h
    rw [inst] at h
    split at h
    · next op hop =>
      split at h
      · cases h
      · next harity =>
        simp only [bind_eq_ok] at h
        obtain ⟨w, hw, ⟨vs, u⟩, hvs, ⟨k, e⟩, happend, g, hexact, h⟩ := h
        exact ⟨op, w, vs, u, k, e, g, hop, by simpa using harity, hw, hvs,
          Edited.toExcept_eq_ok.mp (edit_eq_ok.mp happend), edit_eq_ok.mp hexact, h⟩
    · cases h
  · rintro ⟨op, w, vs, u, k, e, g, hop, harity, hw, hvs, happend, hexact, hname⟩
    rw [inst, hop]
    dsimp only
    rw [if_neg (by simpa using harity), hw, ok_bind, hvs, ok_bind]
    dsimp only
    rw [edit_eq_ok.mpr (Edited.toExcept_eq_ok.mpr happend), ok_bind, edit_eq_ok.mpr hexact]
    exact hname

theorem define_eq_ok {s t : State} {name : String} {v : ValueId} :
    s.define name v = .ok t ↔
      s.names.lookup name = none ∧ t = { s with names := (name, v) :: s.names } := by
  rw [State.define]
  cases s.names.lookup name <;> simp [eq_comm]

/-- A named value is one of the values that names stand for. -/
theorem State.Named.define {s t : State} {printed : List ValueId} (h : s.Named printed)
    {name : String} {v : ValueId} {d : Value} (hv : s.func.value? v = some d)
    (hd : ∀ bits, d.origin ≠ .literal bits) (ht : s.define name v = .ok t) :
    t.func = s.func ∧ t.Named (printed ++ [v]) := by
  obtain ⟨-, rfl⟩ := define_eq_ok.mp ht
  refine ⟨rfl, fun other x hx => ?_, fun x hx => ?_⟩
  · rw [List.lookup_cons] at hx
    split at hx
    · cases hx
      exact List.mem_append_right printed (List.mem_singleton_self v)
    · exact List.mem_append_left [v] (h.mem other x hx)
  · rcases List.mem_append.mp hx with hx | hx
    · exact h.value? x hx
    · obtain rfl := List.mem_singleton.mp hx
      exact ⟨d, hv, hd⟩

/-- A value that is printed is named by the next number. -/
theorem define_numbered (f : Func) (printed : List ValueId) (v : ValueId) :
    State.define ⟨f, numbered printed⟩ (Numeral.decimal printed.length) v =
      .ok ⟨f, numbered (printed ++ [v])⟩ := by
  refine define_eq_ok.mpr ⟨?_, by rw [numbered_append]⟩
  rw [lookup_numbered, List.getElem?_eq_none (Nat.le_refl _)]

/-- A result that has been named is named by the next number when it is printed. -/
theorem nameResult_replay {s t : State} {printed : List ValueId} (hn : s.Named printed)
    {written : Option (String × Nat)} {result : Option ValueId}
    (hsame : written.isSome = result.isSome)
    (hvalue : ∀ v, result = some v →
      ∃ d, s.func.value? v = some d ∧ ∀ bits, d.origin ≠ .literal bits)
    (h : s.nameResult written result = .ok t) (w : Nat) :
    t.func = s.func ∧ t.Named (printed ++ result.toList) ∧
      State.nameResult ⟨s.func, numbered printed⟩
          (result.map fun _ => (Numeral.decimal printed.length, w)) result =
        .ok ⟨s.func, numbered (printed ++ result.toList)⟩ := by
  cases result with
  | none =>
    obtain rfl : written = none := by simpa using hsame
    cases h
    rw [Option.toList_none, List.append_nil]
    exact ⟨rfl, hn, rfl⟩
  | some v =>
    obtain ⟨x, rfl⟩ := Option.isSome_iff_exists.mp hsame
    obtain ⟨d, hd, horigin⟩ := hvalue v rfl
    obtain ⟨hfunc, hnamed⟩ := hn.define hd horigin h
    exact ⟨hfunc, hnamed, define_numbered s.func printed v⟩

/-- The effect of resolving an instruction at the end of a block. -/
structure State.Appends (s t : State) (printed : List ValueId) (b : BlockId) (k : InstId)
    (d : Inst) : Prop where
  grows : s.func.Grows t.func
  inst? : t.func.inst? k = some d
  params : t.func.params = s.func.params
  blocks : t.func.blocks = s.func.blocks.modify b.index (· ++ [k])
  named : t.Named (printed ++ d.result.toList)

/-- What is printed of an instruction can be read if its width has been checked and its operands can
be read. -/
theorem isLegible_writtenInst {f : Func} {printed : List ValueId} {d : Inst}
    (hcheck : Func.checkInst d.opcode d.width d.operands.length = .ok ())
    (hresult : d.result.isSome → d.opcode.hasResult)
    (hoperands : ∀ v ∈ d.operands,
      (writtenOperand f (printed ++ d.result.toList) v).IsLegible) :
    (writtenInst f printed d).IsLegible where
  opcode := ⟨d.opcode, rfl⟩
  result name width h := by
    obtain ⟨v, hv, hpair⟩ := Option.map_eq_some_iff.mp h
    obtain ⟨rfl, rfl⟩ := Prod.mk.inj hpair
    have hr : d.opcode.hasResult := hresult (by rw [hv, Option.isSome_some])
    exact ⟨Written.isName_decimal _, le_of_supported (supported_of_checkInst hcheck hr)⟩
  operands := by simpa [writtenInst] using hoperands
  nonempty := by
    have hpos : 0 < d.operands.length := length_of_checkInst hcheck ▸ d.opcode.arity_pos
    simpa [writtenInst] using List.ne_nil_of_length_pos hpos

/-- An instruction that has been resolved is resolved again from what is printed of it. -/
theorem inst_replay {s t : State} {b : BlockId} {i : Written.Inst} (h : inst s b i = .ok t)
    {printed : List ValueId} (hn : s.Named printed) :
    ∃ k d, s.Appends t printed b k d ∧ ∀ f, t.func.Grows f →
      inst ⟨s.func, numbered printed⟩ b (writtenInst f printed d) =
          .ok ⟨t.func, numbered (printed ++ d.result.toList)⟩ ∧
        (writtenInst f printed d).IsLegible := by
  obtain ⟨op, w, vs, u, k, e, g, hop, harity, hw, hvs, happend, hexact, hname⟩ := inst_eq_ok.mp h
  obtain ⟨hinterns, hlength, hreplay⟩ := operands_replay hvs hn
  have appends := Func.append_setExact happend hexact
  have hgrows : s.func.Grows g := hinterns.grows.trans appends.grows
  let result : Option ValueId := if op.hasResult then some ⟨u.func.values.size⟩ else none
  have hsome : result.isSome = op.hasResult := by
    cases hr : op.hasResult <;> simp [result, hr]
  have hresult : g.result? k = result := by
    rw [Func.result?, appends.inst?]
    rfl
  have hvalue (v : ValueId) (hv : result = some v) :
      ∃ d, g.value? v = some d ∧ ∀ bits, d.origin ≠ .literal bits := by
    have hr : op.hasResult := by rw [← hsome, hv, Option.isSome_some]
    obtain rfl : ⟨u.func.values.size⟩ = v := by simpa [result, hr] using hv
    exact ⟨⟨.result k, w⟩, by rw [appends.value?, if_pos ⟨hr, rfl⟩], fun _ => by simp⟩
  have hbefore : State.Named ⟨g, u.names⟩ printed := hn.grows hinterns.names hgrows
  rw [hresult] at hname
  obtain ⟨rfl, hnamed, hrename⟩ := nameResult_replay hbefore
    ((instWidth_eq_ok hw).1.trans hsome.symm) hvalue hname w
  refine ⟨k, _, ⟨hgrows, appends.inst?, appends.params.trans hinterns.params, ?_, hnamed⟩,
    fun f hf => ?_⟩
  · rw [appends.blocks, hinterns.blocks]
  · obtain ⟨hoperands, hlegible⟩ := hreplay f (appends.grows.trans hf) result.toList
    have hcount : vs.length = op.arity := hlength.trans harity
    refine ⟨inst_eq_ok.mpr ⟨op, w, vs, ⟨u.func, numbered printed⟩, k, e, t.func, ofName?_name op,
      ?_, instWidth_replay hw hsome _, hoperands, happend, hexact, ?_⟩,
      isLegible_writtenInst appends.checked (fun h => hsome.symm.trans h) hlegible⟩
    · rwa [writtenInst, List.length_map]
    · rw [hresult]
      exact hrename

end Parse

end Peephole

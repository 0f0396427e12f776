import Peephole.Func.Shape
import Peephole.Proofs.Text.Printed
import Mathlib.Data.List.Forall2

/-!
# Copies of functions

A function is a **copy** of another one when the two are printed alike, whatever the numbers of
their entities: values with one number among those printed so far stand for each other, and so do
values that are the same literal. Copies have the same text, `Copies.print`, and the same shape,
`Copies.shape`.
-/

namespace Peephole

namespace Func

variable {f g : Func}

/-! ### Copies -/

/-- Whether a value of one function stands for a value of another one, given the values printed so
far of both. -/
inductive SameValue (f g : Func) (printed read : List ValueId) (v w : ValueId) : Prop
  | literal {l} (left : f.literal? v = some l) (right : g.literal? w = some l)
  | numbered {k} (left : f.literal? v = none) (right : g.literal? w = none)
      (number : printed.idxOf? v = some k) (number' : read.idxOf? w = some k)

/-- Whether an instruction of one function stands for an instruction of another one. -/
structure SameInst (f g : Func) (printed read : List ValueId) (d e : Inst) : Prop where
  opcode : e.opcode = d.opcode
  width : e.width = d.width
  exact : e.exact = d.exact
  result : e.result.isSome = d.result.isSome
  operands : List.Forall₂ (SameValue f g printed read) d.operands e.operands

/-- Whether instructions of one function stand for instructions of another one, with the values
printed before them and after them. -/
inductive SameInsts (f g : Func) : List ValueId → List ValueId → List InstId → List InstId →
    List ValueId → List ValueId → Prop
  | nil {printed read} : SameInsts f g printed read [] [] printed read
  | cons {printed read i j d e is js printed' read'} (left : f.inst? i = some d)
      (right : g.inst? j = some e) (first : SameInst f g printed read d e)
      (others : SameInsts f g (printed ++ d.result.toList) (read ++ e.result.toList) is js
        printed' read') :
      SameInsts f g printed read (i :: is) (j :: js) printed' read'

/-- Whether blocks of one function stand for blocks of another one, with the values printed before
them and after them. -/
inductive SameBlocks (f g : Func) : List ValueId → List ValueId → List (List InstId) →
    List (List InstId) → List ValueId → List ValueId → Prop
  | nil {printed read} : SameBlocks f g printed read [] [] printed read
  | cons {printed read is js printed' read' bs cs printed'' read''}
      (first : SameInsts f g printed read is js printed' read')
      (others : SameBlocks f g printed' read' bs cs printed'' read'') :
      SameBlocks f g printed read (is :: bs) (js :: cs) printed'' read''

/-- Whether a function is a **copy** of another one. -/
structure Copies (f g : Func) : Prop where
  name : g.name = f.name
  params : List.Forall₂ (fun v w => g.width w = f.width v ∧ g.typeClass? w = f.typeClass? v)
    f.params g.params
  blocks : ∃ printed read,
    SameBlocks f g f.params g.params f.blocks.toList g.blocks.toList printed read

/-- What has the same image element by element has the same list of images. -/
theorem map_eq_of_forall₂ {α β γ : Type} {R : α → β → Prop} {p : α → γ} {q : β → γ} {as : List α}
    {bs : List β} (h : List.Forall₂ R as bs) (hR : ∀ a b, R a b → q b = p a) :
    bs.map q = as.map p := by
  induction h with
  | nil => rfl
  | cons first others ih => rw [List.map_cons, List.map_cons, ih, hR _ _ first]

/-! ### Numbers -/

variable {printed read printed' read' : List ValueId} {is js : List InstId} {v w : ValueId}

theorem idxOf?_append (vs more : List ValueId) (v : ValueId) :
    (vs ++ more).idxOf? v = (vs.idxOf? v).or ((more.idxOf? v).map (· + vs.length)) := by
  rw [List.idxOf?, List.findIdx?_append]

/-- A number below the length of the first list is one in that list. -/
theorem idxOf?_of_lt {vs more : List ValueId} {k : Nat} (hk : k < vs.length)
    (h : (vs ++ more).idxOf? v = some k) : vs.idxOf? v = some k := by
  rw [idxOf?_append, Option.or_eq_some_iff, Option.map_eq_some_iff] at h
  obtain h | ⟨-, m, -, hm⟩ := h
  · exact h
  · omega

/-- Another number is one in the second list. -/
theorem idxOf?_of_le {vs more : List ValueId} {k : Nat} (hk : vs.length ≤ k)
    (h : (vs ++ more).idxOf? v = some k) :
    vs.idxOf? v = none ∧ more.idxOf? v = some (k - vs.length) := by
  rw [idxOf?_append, Option.or_eq_some_iff, Option.map_eq_some_iff] at h
  obtain h | ⟨hnone, m, hm, rfl⟩ := h
  · exact absurd (List.findIdx?_eq_some_iff_getElem.mp h).1 (Nat.not_lt.mpr hk)
  · exact ⟨hnone, by rwa [Nat.add_sub_cancel]⟩

/-- What is printed later does not change what stands for what. -/
theorem SameValue.append (h : SameValue f g printed read v w) (more more' : List ValueId) :
    SameValue f g (printed ++ more) (read ++ more') v w := by
  cases h with
  | literal left right => exact .literal left right
  | numbered left right number number' =>
    exact .numbered left right (by rw [idxOf?_append, number]; rfl)
      (by rw [idxOf?_append, number']; rfl)

/-- The values printed after instructions are those before them and their results. -/
theorem SameInsts.printed_eq (h : SameInsts f g printed read is js printed' read') :
    printed' = printed ++ is.filterMap f.result? ∧ read' = read ++ js.filterMap g.result? := by
  induction h with
  | nil => simp
  | cons left right first others ih =>
    obtain ⟨rfl, rfl⟩ := ih
    simp only [List.append_assoc, List.append_cancel_left_eq, List.filterMap_cons, result?, left,
      right, Option.bind_some]
    constructor
    · split <;> simp_all
    · split <;> simp_all

theorem SameInsts.append {is' js' : List InstId} {printed'' read'' : List ValueId}
    (h : SameInsts f g printed read is js printed' read')
    (h' : SameInsts f g printed' read' is' js' printed'' read'') :
    SameInsts f g printed read (is ++ is') (js ++ js') printed'' read'' := by
  induction h with
  | nil => exact h'
  | cons left right first others ih => exact .cons left right first (ih h')

theorem SameBlocks.flatten {bs cs : List (List InstId)}
    (h : SameBlocks f g printed read bs cs printed' read') :
    SameInsts f g printed read bs.flatten cs.flatten printed' read' := by
  induction h with
  | nil => exact .nil
  | cons first others ih => exact first.append ih

/-- Instructions that stand for each other define values of one number at one position. -/
theorem SameInsts.findIdx?_eq (h : SameInsts f g printed read is js printed' read') {k : Nat}
    (hv : (is.filterMap f.result?).idxOf? v = some k)
    (hw : (js.filterMap g.result?).idxOf? w = some k) :
    is.findIdx? (fun i => f.result? i = some v) = js.findIdx? fun j => g.result? j = some w := by
  induction h generalizing k with
  | nil => rfl
  | @cons _ _ i j d e is js _ _ left right first others ih =>
    have hleft : f.result? i = d.result := by rw [result?, left, Option.bind_some]
    have hright : g.result? j = e.result := by rw [result?, right, Option.bind_some]
    have hsame := first.result
    rw [List.findIdx?_cons, List.findIdx?_cons, hleft, hright]
    rw [List.filterMap_cons, hleft] at hv
    rw [List.filterMap_cons, hright] at hw
    cases hd : d.result with
    | none =>
      have he : e.result = none := by simpa [hd] using hsame
      rw [hd] at hv
      rw [he] at hw ⊢
      simpa using congrArg (Option.map (· + 1)) (ih hv hw)
    | some x =>
      obtain ⟨y, he⟩ := Option.isSome_iff_exists.mp (hsame.trans (by rw [hd]; rfl))
      rw [hd] at hv
      rw [he] at hw ⊢
      rw [List.idxOf?_cons] at hv hw
      -- the first result has number 0, and no other one has
      by_cases hx : x = v
      · obtain rfl : 0 = k := by simpa [hx] using hv
        have hy : y = w := by
          by_contra hne
          simp [hne] at hw
        simp [hx, hy]
      · obtain ⟨n, hn, rfl⟩ : ∃ n, (is.filterMap f.result?).idxOf? v = some n ∧ n + 1 = k := by
          simpa [hx] using hv
        have hy : y ≠ w := by
          rintro rfl
          simp at hw
        have hn' : (js.filterMap g.result?).idxOf? w = some n := by simpa [hy] using hw
        simpa [hx, hy] using congrArg (Option.map (· + 1)) (ih hn hn')

/-- What stands for each other comes from the same place. -/
theorem SameInsts.source_eq (h : SameInsts f g f.params g.params f.layout g.layout printed read)
    (hparams : f.params.length = g.params.length) (hv : SameValue f g printed read v w) :
    g.source w = f.source v := by
  cases hv with
  | literal left right => simp only [source, left, right]
  | @numbered k left right number number' =>
    obtain ⟨rfl, rfl⟩ := h.printed_eq
    have hleft : f.params.findIdx? (· = v) = f.params.idxOf? v := rfl
    have hright : g.params.findIdx? (· = w) = g.params.idxOf? w := rfl
    simp only [source, left, right, hleft, hright]
    -- numbers below the number of parameters are those of parameters
    by_cases hk : k < f.params.length
    · rw [idxOf?_of_lt hk number, idxOf?_of_lt (hparams ▸ hk) number']
    · have hk := Nat.le_of_not_lt hk
      obtain ⟨hv, hm⟩ := idxOf?_of_le hk number
      obtain ⟨hw, hn⟩ := idxOf?_of_le (hparams ▸ hk) number'
      rw [← hparams] at hn
      rw [hv, hw]
      simp only [h.findIdx?_eq hm hn]

/-! ### The same text -/

open Print

theorem SameValue.written (h : SameValue f g printed read v w) :
    writtenOperand g read w = writtenOperand f printed v := by
  cases h with
  | literal left right => rw [writtenOperand, writtenOperand, left, right]
  | numbered left right number number' =>
    rw [writtenOperand, writtenOperand, left, right, number, number']

theorem length_toList_eq {v? w? : Option ValueId} (h : w?.isSome = v?.isSome) :
    w?.toList.length = v?.toList.length := by
  cases v? <;> cases w? <;> simp_all

theorem SameInst.written {d e : Inst} (h : SameInst f g printed read d e)
    (hlength : read.length = printed.length) :
    writtenInst g read e = writtenInst f printed d := by
  have hresult : e.result.map (fun _ => (Numeral.decimal read.length, e.width)) =
      d.result.map fun _ => (Numeral.decimal printed.length, d.width) := by
    have hsame := h.result
    rw [hlength, h.width]
    cases hd : d.result <;> cases he : e.result <;> simp_all
  have hoperands : e.operands.map (writtenOperand g (read ++ e.result.toList)) =
      d.operands.map (writtenOperand f (printed ++ d.result.toList)) :=
    map_eq_of_forall₂ h.operands fun _ _ hv => (hv.append _ _).written
  rw [writtenInst, writtenInst, hresult, hoperands, h.opcode, h.exact]

theorem SameInsts.written (h : SameInsts f g printed read is js printed' read')
    (hlength : read.length = printed.length) :
    (writtenInsts g read js).1 = (writtenInsts f printed is).1 ∧
      (writtenInsts f printed is).2 = printed' ∧ (writtenInsts g read js).2 = read' ∧
      read'.length = printed'.length := by
  induction h with
  | nil => exact ⟨rfl, rfl, rfl, hlength⟩
  | cons left right first others ih =>
    have hnext := length_toList_eq first.result
    obtain ⟨hwritten, hprinted, hread, hlength'⟩ := ih (by
      rw [List.length_append, List.length_append, hlength, hnext])
    simp only [writtenInsts, left, right]
    exact ⟨by rw [hwritten, first.written hlength], hprinted, hread, hlength'⟩

theorem SameBlocks.written {bs cs : List (List InstId)}
    (h : SameBlocks f g printed read bs cs printed' read')
    (hlength : read.length = printed.length) :
    writtenBlocks g read cs = writtenBlocks f printed bs := by
  induction h with
  | nil => rfl
  | cons first others ih =>
    obtain ⟨hwritten, hprinted, hread, hlength'⟩ := first.written hlength
    rw [writtenBlocks, writtenBlocks]
    simp only [hwritten, hprinted, hread, ih hlength']

/-- Copies are written alike. -/
theorem Copies.written (h : Copies f g) : g.written = f.written := by
  obtain ⟨printed, read, hblocks⟩ := h.blocks
  have hparams : g.params.mapIdx (writtenParam g) = f.params.mapIdx (writtenParam f) := by
    refine List.ext_getElem ?_ fun k hk hk' => ?_
    · simp [h.params.length_eq]
    · rw [List.getElem_mapIdx, List.getElem_mapIdx]
      simp only [List.length_mapIdx] at hk hk'
      obtain ⟨hwidth, hclass⟩ := h.params.get hk' hk
      rw [List.get_eq_getElem, List.get_eq_getElem] at hwidth hclass
      rw [writtenParam, writtenParam, hwidth, hclass]
  rw [Func.written, Func.written, hparams, hblocks.written h.params.length_eq.symm, h.name]

/-- Copies have the same text. -/
theorem Copies.print (h : Copies f g) : g.print = f.print := by
  refine String.toList_injective ?_
  rw [toList_print, toList_print, h.written]

/-! ### The same shape -/

theorem SameInst.shape {d e : Inst} (h : SameInst f g printed read d e)
    (hsource : ∀ v w, SameValue f g printed read v w → g.source w = f.source v) :
    InstShape.mk e.opcode e.width e.exact (e.operands.map g.source) =
      ⟨d.opcode, d.width, d.exact, d.operands.map f.source⟩ := by
  rw [h.opcode, h.width, h.exact, map_eq_of_forall₂ h.operands hsource]

theorem SameInsts.shapes (h : SameInsts f g printed read is js printed' read')
    (hsource : ∀ v w, SameValue f g printed' read' v w → g.source w = f.source v) :
    js.filterMap g.instShape? = is.filterMap f.instShape? := by
  induction h with
  | nil => rfl
  | @cons printed read i j d e is js _ _ left right first others ih =>
    obtain ⟨rfl, rfl⟩ := others.printed_eq
    -- what stands for each other does so afterwards
    have hshape := first.shape fun v w hv => hsource v w (by
      rw [List.append_assoc, List.append_assoc]
      exact hv.append _ _)
    have hleft : f.instShape? i = some ⟨d.opcode, d.width, d.exact, d.operands.map f.source⟩ := by
      rw [instShape?, left, Option.map_some]
    have hright : g.instShape? j = some ⟨d.opcode, d.width, d.exact, d.operands.map f.source⟩ := by
      rw [instShape?, right, Option.map_some, hshape]
    rw [List.filterMap_cons_some hleft, List.filterMap_cons_some hright, ih hsource]

theorem SameBlocks.shapes {bs cs : List (List InstId)}
    (h : SameBlocks f g printed read bs cs printed' read')
    (hsource : ∀ v w, SameValue f g printed' read' v w → g.source w = f.source v) :
    cs.map (·.filterMap g.instShape?) = bs.map (·.filterMap f.instShape?) := by
  induction h with
  | nil => rfl
  | cons first others ih =>
    obtain ⟨rfl, rfl⟩ := others.flatten.printed_eq
    rw [List.map_cons, List.map_cons, ih hsource,
      first.shapes fun v w hv => hsource v w (hv.append _ _)]

/-- Copies have the same shape. -/
theorem Copies.shape (h : Copies f g) : g.shape = f.shape := by
  obtain ⟨printed, read, hblocks⟩ := h.blocks
  have hparams : (g.params.map fun v => (g.width v, g.typeClass? v)) =
      f.params.map fun v => (f.width v, f.typeClass? v) :=
    map_eq_of_forall₂ h.params fun v w hv => by rw [hv.1, hv.2]
  rw [Func.shape, Func.shape, hparams,
    hblocks.shapes fun v w hv => hblocks.flatten.source_eq h.params.length_eq hv]

end Func

end Peephole

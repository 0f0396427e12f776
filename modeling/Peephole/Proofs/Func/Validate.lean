import Peephole.Func.Validate
import Peephole.Proofs.Func.Order

/-!
# The validator and validity

For functions that edits lead to, the walk of the validator over the layout decides validity as it
is declared, `Coherent.isValid_iff`. Violations of definitions and of use-chains are
**structural**; there are none exactly if definitions come before uses and the chains list the
operands of the attached instructions, `Coherent.isStructural_iff`.

An operand may also be a value that does not exist. The validator gives no report then, and
definitions do not come before uses either, so that what it accepts is again what is declared to be
valid, `Called.accepts_iff`.
-/

namespace Peephole

/-- Whether a violation concerns definitions or use-chains, and not widths. -/
def Violation.isStructural : Violation → Bool
  | useBeforeDef .. | missingUse .. | staleUse .. => true
  | _ => false

namespace Func

/-- Whether a function has no violation that concerns definitions or use-chains. -/
def isStructural (f : Func) : Bool := f.violations.all fun v => !v.isStructural

variable {f g : Func} {gone : List InstId} {p : Violation → Prop}

/-! ### The walk over the layout -/

/-- The results of instructions, the last one first. -/
def resultsOf (f : Func) (is : List InstId) : List ValueId :=
  is.reverse.flatMap fun i => (f.result? i).toList

theorem mem_resultsOf {is : List InstId} {v : ValueId} :
    v ∈ f.resultsOf is ↔ ∃ i ∈ is, f.result? i = some v := by
  simp [resultsOf]

theorem definitionViolations_cons (defined : List ValueId) (i : InstId) (is : List InstId) :
    f.definitionViolations defined (i :: is) =
      (f.inst? i).elim [] (f.instViolations defined i) ++
        f.definitionViolations ((f.result? i).toList ++ defined) is := by
  rw [definitionViolations]
  cases hd : f.inst? i <;> simp [result?, hd]

/-- The violations of a walk are those of every instruction, given the results before it. -/
theorem forall_definitionViolations {defined : List ValueId} {is : List InstId} :
    (∀ v ∈ f.definitionViolations defined is, p v) ↔
      ∀ front i back d, is = front ++ i :: back → f.inst? i = some d →
        ∀ v ∈ f.instViolations (f.resultsOf front ++ defined) i d, p v := by
  induction is generalizing defined with
  | nil => simp [definitionViolations]
  | cons j is ih =>
    rw [definitionViolations_cons, List.forall_mem_append, ih]
    have hshift (front : List InstId) : f.resultsOf front ++ ((f.result? j).toList ++ defined) =
        f.resultsOf (j :: front) ++ defined := by
      simp [resultsOf]
    constructor
    · rintro ⟨hhere, hrest⟩ front i back d his hd
      cases front with
      | nil =>
        cases his
        rw [hd] at hhere
        exact hhere
      | cons k front =>
        cases his
        rw [← hshift]
        exact hrest front i back d rfl hd
    · intro h
      refine ⟨?_, fun front i back d his hd => ?_⟩
      · cases hd : f.inst? j with
        | none => simp
        | some d => exact h [] j is d rfl hd
      · rw [hshift]
        exact h (j :: front) i back d (by rw [his]; rfl) hd

theorem forall_instViolations {defined : List ValueId} {i : InstId} {d : Inst} :
    (∀ v ∈ f.instViolations defined i d, p v) ↔
      (d.result.isSome → d.opcode.info.resultClass = .float → isFloatWidth d.width = false →
        p (.floatResult i d.opcode d.width)) ∧
      ∀ k x, d.operands[k]? = some x → ∀ v ∈ f.operandViolations defined i d k x, p v := by
  rw [instViolations, List.forall_mem_append]
  refine and_congr ?_ ?_
  · split
    · next h => simp_all
    · next h => simpa using fun hr hc hw => (h ⟨hr, hc, by simp [hw]⟩).elim
  · simp only [List.mem_flatten, List.mem_mapIdx]
    constructor
    · intro h k x hk v hv
      obtain ⟨hlt, rfl⟩ := List.getElem?_eq_some_iff.mp hk
      exact h v ⟨_, ⟨k, hlt, rfl⟩, hv⟩
    · rintro h v ⟨_, ⟨k, hk, rfl⟩, hv⟩
      exact h k d.operands[k] (List.getElem?_eq_getElem hk) v hv

theorem forall_operandViolations {defined : List ValueId} {i : InstId} {d : Inst} {k : Nat}
    {x : ValueId} :
    (∀ v ∈ f.operandViolations defined i d k x, p v) ↔
      (f.isVisible defined x = false → p (.useBeforeDef i d.opcode k x)) ∧
      (d.opcode.info.sourceClasses[k]? = some .float → isFloatWidth (f.width x) = false →
        p (.floatOperand i d.opcode k (f.width x))) ∧
      ∀ expected,
        d.opcode.info.sourceWidths[k]?.bind (requiredWidth d (f.pairedWidth d)) = some expected →
        f.width x ≠ expected → p (.widthMismatch i d.opcode k expected (f.width x)) := by
  rw [operandViolations, List.append_assoc, List.forall_mem_append, List.forall_mem_append]
  refine and_congr ?_ (and_congr ?_ ?_)
  · split
    · next h => simp [h]
    · next h => simp [h]
  · split
    · next h => simp_all
    · next h => simpa using fun hc hw => (h ⟨hc, by simp [hw]⟩).elim
  · split
    · next expected h =>
      split
      · next hw => simp [h, hw]
      · next hw => simp [h, hw]
    · next h => simp [h]

/-! ### Definitions and widths -/

/-- An operand is visible exactly if it is available. -/
theorem Orderly.isVisible_iff (hf : f.Orderly) {front back : List InstId} {i : InstId}
    (h : f.layout = front ++ i :: back) {v : ValueId} :
    f.isVisible (f.resultsOf front ++ f.params) v ↔ f.Available i v := by
  simp only [isVisible, Available, Bool.or_eq_true, List.contains_iff_mem, List.mem_append,
    mem_resultsOf, hf.precedes_iff h]
  refine or_congr Iff.rfl ?_
  rw [or_comm]
  exact or_congr Iff.rfl ⟨fun ⟨j, hj, hr⟩ => ⟨j, hr, hj⟩, fun ⟨j, hr, hj⟩ => ⟨j, hj, hr⟩⟩

/-- The widths that the validator requires are those that suit. -/
theorem requiredWidth_iff {d : Inst} :
    (∀ (k : Nat) (x : ValueId), d.operands[k]? = some x → ∀ expected,
      d.opcode.info.sourceWidths[k]?.bind (requiredWidth d (f.pairedWidth d)) = some expected →
      f.width x = expected) ↔
    ∀ (k : Nat) (x : ValueId) (w : SourceWidth), d.operands[k]? = some x →
      d.opcode.info.sourceWidths[k]? = some w → f.Suits d x w := by
  constructor
  · intro h k x w hk hw
    cases w with
    | dest => exact h k x hk d.width (by rw [hw]; rfl)
    | fixed bits => exact h k x hk bits (by rw [hw]; rfl)
    | any => trivial
    | paired =>
      intro m y hm hmw
      have hx := h k x hk (f.pairedWidth d) (by rw [hw]; rfl)
      have hy := h m y hm (f.pairedWidth d) (by rw [hmw]; rfl)
      exact hy.trans hx.symm
  · intro h k x hk expected he
    obtain ⟨w, hw, he⟩ := Option.bind_eq_some_iff.mp he
    have hsuits := h k x w hk hw
    cases w with
    | dest => simpa [requiredWidth] using hsuits.trans (Option.some.inj he)
    | fixed bits => simpa [requiredWidth] using hsuits.trans (Option.some.inj he)
    | any => cases he
    | paired =>
      cases he
      have hmem : (x, SourceWidth.paired) ∈ d.operands.zip d.opcode.info.sourceWidths := by
        refine List.mem_iff_getElem?.mpr ⟨k, ?_⟩
        rw [List.getElem?_zip_eq_some]
        exact ⟨hk, hw⟩
      -- the first paired operand is what the others are compared with
      cases hfind : (d.operands.zip d.opcode.info.sourceWidths).find? (·.2 = .paired) with
      | none => simpa using List.find?_eq_none.mp hfind _ hmem
      | some y =>
        obtain ⟨y, w⟩ := y
        have hpaired := List.find?_some hfind
        simp only [decide_eq_true_eq] at hpaired
        obtain ⟨m, hm⟩ := List.mem_iff_getElem?.mp (List.mem_of_find?_eq_some hfind)
        rw [List.getElem?_zip_eq_some, hpaired] at hm
        rw [pairedWidth, hfind]
        exact (hsuits m y hm.1 hm.2).symm

/-- Structural violations of the walk are operands that are not available. -/
theorem Orderly.definitions_structural_iff (hf : f.Orderly) :
    (∀ v ∈ f.definitionViolations f.params f.layout, v.isStructural = false) ↔ f.Defined := by
  simp only [forall_definitionViolations, forall_instViolations, forall_operandViolations]
  constructor
  · intro h i hi v hv
    obtain ⟨front, back, hl⟩ := List.append_of_mem hi
    cases hd : f.inst? i with
    | none => simp [operands, hd] at hv
    | some d =>
      obtain ⟨k, hk⟩ := List.mem_iff_getElem?.mp hv
      have hk : d.operands[k]? = some v := by simpa [operands, hd] using hk
      rw [← hf.isVisible_iff hl]
      by_contra hvis
      have := ((h front i back d hl hd).2 k v hk).1 (by simpa using hvis)
      simp [Violation.isStructural] at this
  · intro h front i back d hl hd
    refine ⟨fun _ _ _ => rfl, fun k x hk => ⟨fun hvis => ?_, fun _ _ => rfl, fun _ _ _ => rfl⟩⟩
    have hx : x ∈ f.operands i := by
      rw [operands, hd]
      exact List.mem_of_getElem? hk
    have := (hf.isVisible_iff hl).mpr (h i (by simp [hl]) x hx)
    rw [this] at hvis
    cases hvis

/-- The walk finds nothing exactly if definitions come before uses and widths fit. -/
theorem Orderly.definitionViolations_eq_nil_iff (hf : f.Orderly) :
    f.definitionViolations f.params f.layout = [] ↔ f.Defined ∧ f.Sized ∧ f.Formatted := by
  have hwalk : f.definitionViolations f.params f.layout = [] ↔
      ∀ v ∈ f.definitionViolations f.params f.layout, False := List.eq_nil_iff_forall_not_mem
  constructor
  · intro h
    have hall := hwalk.mp h
    simp only [forall_definitionViolations, forall_instViolations, forall_operandViolations] at hall
    refine ⟨hf.definitions_structural_iff.mp (by simp [h]), ?_, ?_⟩
    · intro i hi d hd
      obtain ⟨front, back, hl⟩ := List.append_of_mem hi
      refine requiredWidth_iff.mp fun k x hk expected he => ?_
      by_contra hne
      exact ((hall front i back d hl hd).2 k x hk).2.2 expected he hne
    · intro i hi d hd
      obtain ⟨front, back, hl⟩ := List.append_of_mem hi
      obtain ⟨hres, hops⟩ := hall front i back d hl hd
      refine ⟨fun k v hk hc => ?_, fun hr hc => ?_⟩
      · simpa using (hops k v hk).2.1 hc
      · simpa using hres hr hc
  · rintro ⟨hdef, hsize, hform⟩
    refine hwalk.mpr ?_
    simp only [forall_definitionViolations, forall_instViolations, forall_operandViolations]
    intro front i back d hl hd
    have hi : i ∈ f.layout := by simp [hl]
    refine ⟨fun hr hc hw => ?_, fun k x hk => ⟨fun hvis => ?_, fun hc hw => ?_, ?_⟩⟩
    · simp [(hform i hi d hd).2 hr hc] at hw
    · have hx : x ∈ f.operands i := by
        rw [operands, hd]
        exact List.mem_of_getElem? hk
      simp [(hf.isVisible_iff hl).mpr (hdef i hi x hx)] at hvis
    · simp [(hform i hi d hd).1 k x hk hc] at hw
    · intro expected he hne
      exact hne (requiredWidth_iff.mpr (hsize i hi d hd) k x hk expected he)

/-! ### Use-chains -/

theorem isLiveUse_iff {v : ValueId} {u : Use} : f.isLiveUse v u ↔ f.Mentions v u := by
  simp [isLiveUse, Mentions]

theorem mem_liveUses {v : ValueId} {u : Use} : u ∈ f.liveUses v ↔ f.Mentions v u := by
  obtain ⟨i, k⟩ := u
  simp only [liveUses, List.mem_flatMap, List.mem_filter, List.mem_filterMap, Mentions,
    List.contains_iff_mem, Prod.exists, List.mem_zipIdx_iff_getElem?]
  constructor
  · rintro ⟨j, ⟨-, hj⟩, w, n, hn, hu⟩
    split at hu
    · next hw =>
      cases hu
      exact ⟨hj, hw ▸ hn⟩
    · cases hu
  · rintro ⟨hi, hk⟩
    refine ⟨i, ⟨?_, hi⟩, v, k, hk, if_pos rfl⟩
    -- an instruction with operands exists
    cases hd : f.inst? i with
    | none => simp [operands, hd] at hk
    | some d =>
      obtain ⟨hlt, -⟩ := Array.getElem?_eq_some_iff.mp hd
      exact List.mem_map.mpr ⟨i.index, List.mem_range.mpr hlt, rfl⟩

theorem mem_valueIds {v : ValueId} : v ∈ f.valueIds ↔ (f.value? v).isSome := by
  obtain ⟨v⟩ := v
  simp [valueIds, value?]

/-- What stands at an operand position exists. -/
theorem Coherent.known_of_operand (hf : f.Coherent) {i : InstId} {k : Nat} {v : ValueId}
    (h : (f.operands i)[k]? = some v) : (f.value? v).isSome := by
  cases hd : f.inst? i with
  | none => simp [operands, hd] at h
  | some d =>
    rw [operands, hd] at h
    exact hf.known hd (List.mem_of_getElem? h)

/-- Chains that mirror operands list a value when they list the mentions of it. -/
theorem Mirrored.lists_iff (h : f.Mirrored gone) {v : ValueId} :
    f.Lists v ↔ ∀ u, u ∈ f.uses v ↔ f.Mentions v u := by
  refine forall_congr' fun u => ?_
  rw [h.count, h.mem_uses]
  by_cases hm : f.Mentions v u <;> simp [hm]

/-- Chains that mirror operands list the existing values when no use is missing and none is
stale. -/
theorem Mirrored.forall_lists_iff (h : f.Mirrored gone) :
    (∀ v, (f.value? v).isSome → f.Lists v) ↔ f.missingUses = [] ∧ f.staleUses = [] := by
  simp only [h.lists_iff, missingUses, staleUses, List.flatMap_eq_nil_iff, List.map_eq_nil_iff,
    List.filter_eq_nil_iff, mem_valueIds, mem_liveUses, Bool.not_eq_true', Bool.not_eq_false,
    List.contains_iff_mem, isLiveUse_iff]
  constructor
  · intro hall
    exact ⟨fun v hv u hu => (hall v hv u).mpr hu, fun v hv u hu => (hall v hv u).mp hu⟩
  · rintro ⟨hmissing, hstale⟩ v hv u
    exact ⟨hstale v hv u, hmissing v hv u⟩

theorem Mirrored.tracked_iff (hf : f.Coherent) (h : f.Mirrored gone) :
    f.Tracked ↔ f.missingUses = [] ∧ f.staleUses = [] := by
  rw [← h.forall_lists_iff]
  refine ⟨fun hall v _ => hall v, fun hall v => ?_⟩
  by_cases hv : (f.value? v).isSome
  · exact hall v hv
  -- no instruction uses a value that does not exist
  · refine h.lists_iff.mpr fun u => ⟨fun hu => ?_, fun hu => ?_⟩
    · exact (hv (hf.known_of_operand (h.mem_uses.mp hu).1)).elim
    · exact (hv (hf.known_of_operand hu.2)).elim

/-! ### The report -/

/-- The validator finds no structural violation exactly if definitions come before uses and the
chains list the mentions. -/
theorem Coherent.isStructural_iff (hf : f.Coherent) (h : f.Mirrored gone) :
    f.isStructural ↔ f.Defined ∧ f.Tracked := by
  have hmissing : (∀ v ∈ f.missingUses, v.isStructural = false) ↔ f.missingUses = [] := by
    rw [List.eq_nil_iff_forall_not_mem]
    refine forall_congr' fun v => imp_congr_right fun hv => ?_
    obtain ⟨_, -, hv⟩ := List.mem_flatMap.mp hv
    obtain ⟨_, -, rfl⟩ := List.mem_map.mp hv
    simp [Violation.isStructural]
  have hstale : (∀ v ∈ f.staleUses, v.isStructural = false) ↔ f.staleUses = [] := by
    rw [List.eq_nil_iff_forall_not_mem]
    refine forall_congr' fun v => imp_congr_right fun hv => ?_
    obtain ⟨_, -, hv⟩ := List.mem_flatMap.mp hv
    obtain ⟨_, -, rfl⟩ := List.mem_map.mp hv
    simp [Violation.isStructural]
  rw [h.tracked_iff hf, ← hf.orderly.definitions_structural_iff, ← hmissing, ← hstale, isStructural,
    List.all_eq_true]
  simp only [violations, List.forall_mem_append, Bool.not_eq_true', and_assoc]

/-- The validator accepts exactly the valid functions. -/
theorem Coherent.isValid_iff (hf : f.Coherent) (h : f.Mirrored gone) : f.isValid ↔ f.Valid := by
  rw [isValid, List.isEmpty_iff, violations, List.append_eq_nil_iff, List.append_eq_nil_iff,
    hf.orderly.definitionViolations_eq_nil_iff, and_assoc, ← h.tracked_iff hf]
  exact ⟨fun ⟨⟨hd, hs, hf⟩, ht⟩ => ⟨hd, ht, hs, hf⟩,
    fun hv => ⟨⟨hv.defined, hv.sized, hv.formatted⟩, hv.tracked⟩⟩

/-! ### Functions that mention what does not exist -/

/-- Operands whose definitions come before them exist. -/
theorem Orderly.isClosed_of_defined (hf : f.Orderly) (h : f.Defined) : f.isClosed := by
  refine List.all_eq_true.mpr fun i hi => List.all_eq_true.mpr fun v hv => ?_
  obtain hlit | hparam | ⟨j, hj, -⟩ := h i hi v hv
  · unfold isLiteral literal? at hlit
    cases hd : f.value? v with
    | none => simp [hd] at hlit
    | some d => rfl
  · exact hf.param hparam
  · exact hf.result hj

/-- The validator **accepts** a function exactly if definitions come before uses, chains list what
exists, and widths fit. It gives no report on a function that is not closed. -/
theorem Called.accepts_iff (h : Called f gone) :
    f.requireClosed = .ok () ∧ f.isValid ↔
      f.Defined ∧ (∀ v, (f.value? v).isSome → f.Lists v) ∧ f.Sized ∧ f.Formatted := by
  have hclosed : f.requireClosed = .ok () ↔ f.isClosed := by
    unfold requireClosed
    split <;> simp [*]
  rw [hclosed, isValid, List.isEmpty_iff, violations, List.append_eq_nil_iff,
    List.append_eq_nil_iff, h.orderly.definitionViolations_eq_nil_iff, and_assoc,
    ← h.mirrored.forall_lists_iff]
  constructor
  · rintro ⟨-, ⟨hdefined, hsized, hformatted⟩, hlists⟩
    exact ⟨hdefined, hlists, hsized, hformatted⟩
  · rintro ⟨hdefined, hlists, hsized, hformatted⟩
    exact ⟨h.orderly.isClosed_of_defined hdefined, ⟨hdefined, hsized, hformatted⟩, hlists⟩

/-- A function that stores the complement of the negated parameter. The complement has been created
first, when its operand did not exist yet. -/
def mentionedEarly : Func where
  name := "f"
  params := [⟨0⟩]
  values := #[⟨.parameter 0 none, 32⟩, ⟨.result ⟨0⟩, 32⟩, ⟨.result ⟨1⟩, 32⟩]
  chains := #[[⟨⟨1⟩, 0⟩], [⟨⟨2⟩, 0⟩], [⟨⟨0⟩, 0⟩]]
  insts := #[⟨.inot, 32, false, [⟨2⟩], some ⟨1⟩, some ⟨0⟩⟩,
    ⟨.ineg, 32, false, [⟨0⟩], some ⟨2⟩, some ⟨0⟩⟩, ⟨.store, 0, false, [⟨1⟩], none, some ⟨0⟩⟩]
  blocks := #[[⟨1⟩, ⟨0⟩, ⟨2⟩]]

theorem called_mentionedEarly : Called mentionedEarly [] := by
  have hblock := (Called.empty "f").call (.edit (.createBlock rfl))
  have hparam := hblock.call (.edit (.addParam (rfl : Func.addParam _ 32 none = _)))
  have hnot : Called ⟨"f", [⟨0⟩], #[⟨.parameter 0 none, 32⟩, ⟨.result ⟨0⟩, 32⟩],
      #[[], [], [⟨⟨0⟩, 0⟩]], #[⟨.inot, 32, false, [⟨2⟩], some ⟨1⟩, none⟩], #[[]]⟩ [] :=
    hparam.call (.createInst (rfl : Func.createInst _ .inot 32 [⟨2⟩] = .ok _))
  have hneg := hnot.call (.append (rfl : Func.append _ ⟨0⟩ .ineg 32 [⟨0⟩] = ⟨_, .ok _⟩))
  have hpush : Called ⟨"f", [⟨0⟩],
      #[⟨.parameter 0 none, 32⟩, ⟨.result ⟨0⟩, 32⟩, ⟨.result ⟨1⟩, 32⟩],
      #[[⟨⟨1⟩, 0⟩], [], [⟨⟨0⟩, 0⟩]],
      #[⟨.inot, 32, false, [⟨2⟩], some ⟨1⟩, some ⟨0⟩⟩,
        ⟨.ineg, 32, false, [⟨0⟩], some ⟨2⟩, some ⟨0⟩⟩], #[[⟨1⟩, ⟨0⟩]]⟩ [] :=
    hneg.call (.edit (.pushInst (rfl : Func.pushInst _ ⟨0⟩ ⟨0⟩ = ⟨_, .ok _⟩)))
  exact hpush.call (.append (rfl : Func.append _ ⟨0⟩ .store 0 [⟨1⟩] = ⟨_, .ok _⟩))

theorem Called.accepts_mentionedEarly : Called mentionedEarly [] ∧ mentionedEarly.isValid ∧
    mentionedEarly.Defined ∧ mentionedEarly.Lists ⟨2⟩ := by
  have hvalid : mentionedEarly.isValid := by decide +kernel
  obtain ⟨hdefined, hlists, -, -⟩ := called_mentionedEarly.accepts_iff.mp ⟨by decide, hvalid⟩
  exact ⟨called_mentionedEarly, hvalid, hdefined, hlists ⟨2⟩ rfl⟩

end Func

end Peephole

import Peephole.Proofs.Build.Forms

/-!
# When building fails

A replacement of an admitted rule fails to be built for one of three reasons: an operation of it has
no form at the width that it is built at, a form of it produces no value, or a float constant of it
has a width without a format. Each of them shows in the widths alone, `fault_of_value`, so that a
buildable replacement is always built.
-/

namespace Peephole

open Func

/-- Whether a fault tells that a replacement cannot be built at its width. -/
def Fault.isUnbuildable : Fault → Bool
  | .noForm .. | .noResult | .encodingWidth _ => true
  | _ => false

namespace Pattern

theorem allForms_false_of_const {check : Opcode → Nat → List (Option Nat) → Bool} {ω : Nat → Nat}
    {slot : Nat} {k : ConstantSlot} {expected : Option Nat} {w : Nat} {e : Fault}
    (hw : (k.width <|> expected) = some w) (h : Build.encodeConstant k w = .error e) :
    e.isUnbuildable ∧ allForms check ω (.const slot k) expected = false := by
  rw [allForms, hw, Option.any_some, Bool.eq_false_iff]
  refine ⟨?_, fun hform => ?_⟩
  · unfold Build.encodeConstant encodeFloat at h
    split at h
    · cases h
    · split at h
      · cases h
      · cases h
        rfl
    · cases h
  · obtain ⟨bits, hbits⟩ := encodeConstant_ok_iff.mpr hform
    rw [hbits] at h
    cases h

end Pattern

open Pattern

namespace Build

variable {P : Array Pattern} {site : Site} {gone : List InstId}

/-! ### Emitting -/

theorem folded?_ok {f : Func} {op : Opcode} {w : Nat} {vs : List ValueId}
    (hknown : ∀ v ∈ vs, (f.value? v).isSome) (hlen : vs.length = op.arity) :
    ∃ o, folded? f op w vs = .ok o := by
  unfold folded?
  cases op.isPure with
  | false => exact ⟨none, rfl⟩
  | true =>
    obtain ⟨o, ho⟩ := literals?_ok hknown
    rw [ho]
    cases o with
    | none => exact ⟨none, rfl⟩
    | some ls =>
      have hlen' : ls.length = op.arity := by
        simpa [hlen] using (congrArg List.length (literals_of_literals? ho)).symm
      simp only [Bool.not_true, Bool.false_eq_true, if_false, ok_bind, evaluate, hlen', ne_eq,
        not_true_eq_false]
      split
      · exact ⟨_, rfl⟩
      · exact ⟨_, rfl⟩

/-- The instruction of a state of building can be inserted before the cursor. -/
theorem Sound.insertBefore_ok {s : State} (hs : Sound P site gone s) {op : Opcode} {w : Nat}
    {vs : List ValueId} {i : InstId} {g : Func} (exact : Bool)
    (hcreate : s.func.createInst op w vs = .ok (i, g)) :
    ∃ g' h, g.setExact i exact = .ok g' ∧ g'.insertBefore site.cursor i = .ok h := by
  have hc := createInst_eq_ok hcreate
  have hi := (hc.inst? i).trans (if_pos rfl)
  obtain ⟨d, b, hd, hb⟩ := isAttached_iff.mp (hs.settled.coherent.mem_layout.mp hs.cursor)
  have hmem : site.cursor ∈ s.func.blockInsts b :=
    hs.settled.coherent.listed.mpr (by rw [hd]; exact hb)
  -- creating and marking the instruction leaves the cursor where it stands
  have hlt : b.index < s.func.blocks.size := by
    by_contra hlt
    simp [blockInsts, hlt] at hmem
  have hne : i ≠ site.cursor := by
    rintro rfl
    rw [hc.absent] at hd
    cases hd
  let g' := g.modifyInst i fun d => { d with exact := exact }
  have hi' : g'.inst? i = _ := (inst?_modifyInst g i i _).trans (by rw [if_pos rfl, hi])
  have hd' : g'.inst? site.cursor = some d := by
    rw [inst?_modifyInst, if_neg hne, hc.kept hd]
  have hlt' : b.index < g'.blocks.size := by
    simpa only [g', modifyInst, hc.blocks] using hlt
  have hmem' : site.cursor ∈ g'.blockInsts b := by
    rwa [blockInsts_modifyInst, hc.blockInsts]
  exact ⟨g', _, by simp [setExact, requireInst, hi, g'],
    insertBefore_eq_ok_iff.mpr ⟨_, d, b, hi', rfl, hd', hb, hlt', hmem', rfl⟩⟩

/-- An operation is added unless it produces no value. -/
theorem fault_of_emit {s : State} {w : Nat} {op : Opcode} {exact : Bool} {vs : List ValueId}
    {e : Fault} (hs : Sound P site gone s) (hknown : ∀ v ∈ vs, (s.func.value? v).isSome)
    (hcheck : checkInst op w vs.length = .ok ()) (hlen : vs.length = op.arity)
    (h : s.emit site op w exact vs = .error e) : e.isUnbuildable ∧ op.hasResult = false := by
  unfold State.emit at h
  obtain ⟨o, ho⟩ := folded?_ok hknown hlen
  rw [ho, ok_bind] at h
  cases o with
  | some bits =>
    -- a value of the operation has a width that literals may have
    exfalso
    obtain ⟨-, ls, -, hval⟩ := folded?_eq_some ho
    have hw := supported_of_checkInst hcheck (hasResult_of_evaluate hval)
    obtain ⟨r, hr⟩ := literal_ok s.func bits hw
    simp [hr] at h
  | none =>
    have hcreate : ∃ i g, s.func.createInst op w vs = .ok (i, g) := by
      rw [createInst_eq, hcheck]
      exact ⟨_, _, rfl⟩
    obtain ⟨i, g, hcreate⟩ := hcreate
    obtain ⟨g', g'', hexact, hinsert⟩ := hs.insertBefore_ok (exact || site.exact) hcreate
    obtain ⟨_, hi⟩ := (emits_of_eq_ok hcreate hexact hinsert).inst?_self
    cases hr : op.hasResult with
    | true => simp [hcreate, hexact, hinsert, result?, hi, hr] at h
    | false =>
      simp [hcreate, hexact, hinsert, result?, hi, hr] at h
      subst h
      exact ⟨rfl, rfl⟩

/-! ### Widths on the way -/

/-- The width that is asked of a source is supported. -/
theorem supported_of_sourceWidth {w n : Nat} {paired : Option Nat} {sw : SourceWidth}
    (hdest : sw = .dest → supported w) (hfixed : ∀ bits, sw = .fixed bits → supported bits)
    (hpaired : ∀ n, paired = some n → supported n) (h : sourceWidth w paired sw = some n) :
    supported n := by
  cases sw with
  | dest =>
    cases h
    exact hdest rfl
  | fixed bits =>
    cases h
    exact hfixed _ rfl
  | paired => exact hpaired n h
  | any => cases h

theorem isSome_sourceWidth (w : Nat) (paired : Option Nat) (sw : SourceWidth) :
    (sourceWidth w paired sw).isSome = isSized paired.isSome sw := by
  cases sw <;> rfl

theorem supported_of_declared {declared expected : Option Nat} {w : Nat}
    (hdeclared : ∀ w, declared = some w → supported w)
    (hexpected : ∀ w, expected = some w → supported w) (hw : (declared <|> expected) = some w) :
    supported w := by
  cases hd : declared with
  | some n =>
    rw [hd] at hw
    cases hw
    exact hdeclared w hd
  | none =>
    rw [hd] at hw
    exact hexpected w hw

/-- An admitted width of an expression is supported, unless its operation produces no value. -/
theorem supported_of_form {e : ExpressionSlot} {expected : Option Nat} {w : Nat} {op : Opcode}
    (hwidth : ∀ w, e.width = some w → supported w)
    (hexpected : ∀ w, expected = some w → supported w)
    (hw : (e.width <|> e.op.fixedWidth <|> expected) = some w) (hop : e.op.withWidth? w = some op)
    (hr : op.hasResult ∨ op.info.fixedWidth = none) : supported w := by
  have hfixed : ∀ n, e.op.fixedWidth = some n → supported n := by
    intro n hn
    have hn := Operation.fixedWidth_of_form hop hn
    obtain hr | hr := hr
    · exact Opcode.supported_of_fixedWidth hr hn
    · rw [hn] at hr
      cases hr
  exact supported_of_declared hwidth (fun _ h => supported_of_declared hfixed hexpected h) hw

/-- There are as many sources as the operation takes. -/
theorem length_of_realizedAll {f : Func} {b : Bindings} {c : InstId} {w : Nat} :
    ∀ {ps : List Pattern} {sws : List SourceWidth} {paired : Option Nat} {xs : List ValueId},
      RealizedAll f b c w ps sws paired xs → ps.length ≤ sws.length → xs.length = ps.length
  | _, _, _, _, .nil stop, hle => by
    obtain rfl | rfl := stop
    · rfl
    · exact (Nat.le_zero.mp hle).symm
  | _, _, _, _, .cons _ _ others, hle => by
    rw [List.length_cons, List.length_cons,
      length_of_realizedAll others (Nat.le_of_succ_le_succ hle)]

theorem values_cons_eq_error {w : Nat} {p : Pattern} {ps : List Pattern} {sw : SourceWidth}
    {sws : List SourceWidth} {paired : Option Nat} {s : State} {e : Fault}
    (h : values site w (p :: ps) (sw :: sws) paired s = .error e) :
    value site p (sourceWidth w paired sw) s = .error e ∨
      ∃ x t, value site p (sourceWidth w paired sw) s = .ok (x, t) ∧
        ∀ next, (if sw = .paired then pairedWidth t.func paired x else .ok paired) = .ok next →
          values site w ps sws next t = .error e := by
  rw [values_cons] at h
  obtain h | ⟨⟨x, t⟩, hvalue, h⟩ := bind_eq_error.mp h
  · exact .inl h
  · refine .inr ⟨x, t, hvalue, fun next hnext => ?_⟩
    rw [hnext, ok_bind] at h
    obtain h | ⟨r, -, h⟩ := bind_eq_error.mp h
    · exact h
    · cases h

/-- The width of the paired sources after a source that exists. -/
theorem pairedAfter_eq {f : Func} (paired : Option Nat) (sw : SourceWidth) {x : ValueId}
    (hx : (f.value? x).isSome) :
    (if sw = .paired then pairedWidth f paired x else .ok paired) =
      .ok (pairedAfter paired sw (some (f.width x))) := by
  unfold pairedAfter
  split
  · exact (pairedWidth_eq_ok hx).mpr rfl
  · rfl

theorem isSome_pairedAfter (paired : Option Nat) (sw : SourceWidth) (w : Nat) :
    (pairedAfter paired sw (some w)).isSome = (paired.isSome || sw == .paired) := by
  unfold pairedAfter
  by_cases hsw : sw = .paired
  · cases paired <;> simp [hsw]
  · simp [hsw]

theorem supported_of_pairedAfter {paired : Option Nat} {sw : SourceWidth} {w n : Nat}
    (hpaired : ∀ n, paired = some n → supported n) (hw : supported w)
    (h : pairedAfter paired sw (some w) = some n) : supported n := by
  unfold pairedAfter at h
  split at h
  · cases hp : paired with
    | some m =>
      rw [hp] at h
      exact hpaired n (hp.trans h)
    | none =>
      rw [hp] at h
      cases h
      exact hw
  · exact hpaired n h

/-! ### The reasons -/

/-- An expression is not built because it has no width or no form, or because a source or the
operation itself is not. -/
theorem value_expr_eq_error {slot : Nat} {es : ExpressionSlot} {guard : Option InstPredicate}
    {args : List Pattern} {expected : Option Nat} {s : State} {e : Fault}
    (h : value site (.expr slot es guard args) expected s = .error e) :
    (es.width <|> es.op.fixedWidth <|> expected) = none ∨
      ∃ w, (es.width <|> es.op.fixedWidth <|> expected) = some w ∧
        (es.op.withWidth? w = none ∧ e = .noForm es.op w ∨
          ∃ op, es.op.withWidth? w = some op ∧
            (values site w args op.info.sourceWidths none s = .error e ∨
              ∃ xs t, values site w args op.info.sourceWidths none s = .ok (xs, t) ∧
                t.emit site op w es.exact xs = .error e)) := by
  rw [value] at h
  split at h
  · next hw => exact .inl hw
  · next w hw =>
    refine .inr ⟨w, hw, ?_⟩
    split at h
    · cases h
    · split at h
      · next hop =>
        cases h
        exact .inl ⟨hop, rfl⟩
      · next op hop =>
        refine .inr ⟨op, hop, ?_⟩
        obtain h | ⟨⟨xs, t⟩, hvalues, h⟩ := bind_eq_error.mp h
        · exact .inl h
        · obtain h | ⟨r, -, h⟩ := bind_eq_error.mp h
          · exact .inr ⟨xs, t, hvalues, h⟩
          · cases h

/-- A constant whose width is determined is built unless it has no format. -/
theorem fault_of_const {slot : Nat} {k : ConstantSlot} {expected : Option Nat} {s : State}
    {e : Fault} {ω : Nat → Nat} (hwidth : ∀ w, k.width = some w → supported w)
    (hexpected : ∀ w, expected = some w → supported w)
    (hsized : (Pattern.const slot k).unsized? expected.isSome = none)
    (h : value site (.const slot k) expected s = .error e) :
    e.isUnbuildable ∧ (Pattern.const slot k).isBuildable ω expected = false := by
  rw [value] at h
  split at h
  · next hw =>
    cases hkw : k.width <;> cases expected <;> simp [unsized?, hkw] at hw hsized
  · next w hw =>
    obtain hbits | ⟨bits, hbits, h⟩ := bind_eq_error.mp h
    · exact allForms_false_of_const hw hbits
    · obtain ⟨r, hr⟩ := literal_ok s.func bits (supported_of_declared hwidth hexpected hw)
      simp [hr] at h

mutual

/-- A replacement whose widths are determined and whose variables are bound is built unless it has
no form, no value or no format. -/
theorem fault_of_value :
    ∀ (p : Pattern) (expected : Option Nat) (s : State) (e : Fault), p.WellFormed P →
      Sound P site gone s → (∀ k, p.mentions k → (site.bindings k).isSome) →
      (∀ w, expected = some w → supported w) → p.unsized? expected.isSome = none →
      value site p expected s = .error e →
      e.isUnbuildable ∧ p.isBuildable (site.bindings.width s.func) expected = false
  | .var v guard, expected, s, e, _, _, hbound, _, _, h => by
    obtain ⟨x, hx⟩ := Option.isSome_iff_exists.mp (hbound v.index (by simp [mentions]))
    simp [value, hx] at h
  | .const slot k, expected, s, e, hp, _, _, hexpected, hsized, h => by
    cases hp with
    | const _ hwidth _ => exact fault_of_const hwidth hexpected hsized h
  | .expr slot es guard args, expected, s, e, hp, hs, hbound, hexpected, hsized, h => by
    cases hp with
    | expr _ hwidth harity hargs =>
    rw [unsized?] at hsized
    split at hsized
    · cases hsized
    · next hinherited =>
      obtain hw | ⟨w, hw, h⟩ := value_expr_eq_error h
      · cases hew : es.width <;> cases hef : es.op.fixedWidth <;> cases expected <;>
          simp [hew, hef] at hw hinherited
      · rw [isBuildable, allForms, hw, Option.any_some]
        obtain ⟨hop, rfl⟩ | ⟨op, hop, h⟩ := h
        · exact ⟨rfl, by rw [hop]; rfl⟩
        · obtain ⟨hopArity, hopWidths, -, hopFixed⟩ := Operation.form hop
          have hlen : args.length ≤ op.info.sourceWidths.length := by
            rw [harity, ← hopArity]
            exact op.arity_le_sourceWidths
          have hsup := supported_of_form (fun w hw => (hwidth w hw).1) hexpected hw hop
          rw [hop, Option.any_some]
          obtain h | ⟨xs, t, hvalues, h⟩ := h
          · obtain ⟨hfault, hforms⟩ := fault_of_values args w op.info.sourceWidths none s e hargs
              hs (by simpa [mentions] using hbound)
              (fun hd => hsup (.inl (Opcode.hasResult_of_dest hd)))
              (fun _ hf => Opcode.supported_of_fixed hf) (by simp) (hopWidths ▸ hsized) h
            exact ⟨hfault, by rw [hforms, Bool.and_false]⟩
          · obtain ⟨ht, -, hsources, hknown, -⟩ :=
              realizedAll_of_values args w op.info.sourceWidths none s t xs hargs hs hvalues
            have hxs : xs.length = op.arity := by
              rw [length_of_realizedAll hsources hlen, harity, hopArity]
            have hcheck : checkInst op w xs.length = .ok () :=
              checkInst_eq_ok hxs hopFixed fun hnone => hsup (.inr hnone)
            obtain ⟨hfault, hr⟩ := fault_of_emit ht hknown hcheck hxs h
            exact ⟨hfault, by rw [hr, Bool.false_and]⟩

theorem fault_of_values :
    ∀ (ps : List Pattern) (w : Nat) (sws : List SourceWidth) (paired : Option Nat) (s : State)
      (e : Fault), (∀ p ∈ ps, p.WellFormed P) → Sound P site gone s →
      (∀ k, mentionsAny k ps → (site.bindings k).isSome) → (.dest ∈ sws → supported w) →
      (∀ bits, .fixed bits ∈ sws → supported bits) → (∀ n, paired = some n → supported n) →
      unsizedAmong? paired.isSome ps sws = none → values site w ps sws paired s = .error e →
      e.isUnbuildable ∧ allFormsAmong (fun op _ _ => op.hasResult) (site.bindings.width s.func) w ps
        sws paired = false
  | [], w, sws, paired, s, e, _, _, _, _, _, _, _, h => by simp [values] at h
  | p :: ps, w, [], paired, s, e, _, _, _, _, _, _, _, h => by simp [values] at h
  | p :: ps, w, sw :: sws, paired, s, e, hps, hs, hbound, hdest, hfixed, hpaired, hsized, h => by
    rw [List.forall_mem_cons] at hps
    simp only [unsizedAmong?, Option.orElse_eq_orElse, Option.orElse_eq_or,
      Option.or_eq_none_iff] at hsized
    simp only [mentionsAny, Bool.or_eq_true] at hbound
    rw [allFormsAmong, Bool.and_eq_false_iff]
    have hexpected : ∀ n, sourceWidth w paired sw = some n → supported n :=
      fun n => supported_of_sourceWidth (fun hd => hdest (hd ▸ List.mem_cons_self))
        (fun bits hb => hfixed bits (hb ▸ List.mem_cons_self)) hpaired
    obtain h | ⟨x, t, hvalue, h⟩ := values_cons_eq_error h
    · obtain ⟨hfault, hform⟩ := fault_of_value p _ s e hps.1 hs (fun k hk => hbound k (.inl hk))
        hexpected (isSome_sourceWidth w paired sw ▸ hsized.1) h
      exact ⟨hfault, .inl hform⟩
    · obtain ⟨ht, hext, hreal⟩ := realized_of_value p _ s t x hps.1 hs hvalue
      have hwidth := hreal.width ht.settled.coherent
      have hknown := hreal.known ht.settled.coherent
      have hafter := pairedAfter_eq paired sw hknown
      have hsup : supported (t.func.width x) := by
        obtain ⟨d, hd⟩ := Option.isSome_iff_exists.mp hknown
        rw [Func.width, hd]
        exact ht.settled.coherent.supported hd
      rw [hs.width_eq hext] at hwidth
      obtain ⟨hfault, hforms⟩ := fault_of_values ps w sws _ t e hps.2 ht
        (fun k hk => hbound k (.inr hk)) (fun hd => hdest (List.mem_cons_of_mem _ hd))
        (fun bits hb => hfixed bits (List.mem_cons_of_mem _ hb))
        (fun n => supported_of_pairedAfter hpaired hsup)
        (by rw [isSome_pairedAfter]; exact hsized.2) (h _ hafter)
      rw [hs.width_eq hext] at hforms
      exact ⟨hfault, .inr (by rw [hwidth]; exact hforms)⟩

end

end Build

/-! ### Replacements that are always built -/

namespace Pattern

variable {P : Array Pattern} {ω : Nat → Nat}

/-- A replacement that something gives a width is built at some width. -/
theorem isSome_widthAt {p : Pattern} {expected : Option Nat}
    (h : p.unsized? expected.isSome = none) : (p.widthAt ω expected).isSome := by
  cases p with
  | var v guard => rfl
  | const slot k =>
    rw [unsized?] at h
    cases hkw : k.width <;> cases expected <;> simp [widthAt, hkw] at h ⊢
  | expr slot e guard args =>
    rw [unsized?] at h
    cases hew : e.width <;> cases hef : e.op.fixedWidth <;> cases expected <;>
      simp [widthAt, hew, hef] at h ⊢

/-- An operation that produces values has a form at the width that it is built at, unless it is a
family and nothing declares the width. -/
theorem exists_form {e : ExpressionSlot} {expected : Option Nat}
    (hwidth : ∀ w, e.width = some w → (e.op.withWidth? w).isSome)
    (hinherited : (e.width <|> e.op.fixedWidth) = none → expected.isSome)
    (htotal : (match e.op with
      | .single op => op.hasResult
      | .family _ => e.width.isSome) = true) :
    ∃ w op, (e.width <|> e.op.fixedWidth <|> expected) = some w ∧
      e.op.withWidth? w = some op ∧ op.hasResult := by
  cases hew : e.width with
  | some w =>
    obtain ⟨op, hop⟩ := Option.isSome_iff_exists.mp (hwidth w hew)
    refine ⟨w, op, rfl, hop, ?_⟩
    cases ho : e.op with
    | single op' =>
      rw [ho] at hop htotal
      rw [Operation.eq_of_single hop]
      exact htotal
    | family f =>
      rw [ho] at hop
      exact Operation.hasResult_of_family hop
  | none =>
    cases ho : e.op with
    | family f => simp [ho, hew] at htotal
    | single op =>
      rw [ho] at htotal hinherited
      rw [hew] at hinherited
      cases hfixed : op.info.fixedWidth with
      | some w =>
        have hf : (Operation.single op).fixedWidth = some w := hfixed
        exact ⟨w, op, by rw [hf]; rfl, by simp [Operation.withWidth?, hfixed], htotal⟩
      | none =>
        have hf : (Operation.single op).fixedWidth = none := hfixed
        obtain ⟨w, hw⟩ := Option.isSome_iff_exists.mp (hinherited (by rw [hf]; rfl))
        exact ⟨w, op, by rw [hf, hw]; rfl, by simp [Operation.withWidth?, hfixed], htotal⟩

mutual

/-- A replacement that can be built at every width can be built at the one that is expected. -/
theorem WellFormed.isBuildable :
    ∀ {p : Pattern} {expected : Option Nat}, p.WellFormed P → p.unsized? expected.isSome = none →
      p.isTotal → p.isBuildable ω expected
  | .var .., _, _, _, _ => by rw [Pattern.isBuildable, allForms]
  | .const slot k, expected, hp, hsized, htotal => by
    cases hp with
    | const _ _ hfloat =>
    rw [Pattern.isBuildable, allForms]
    cases hkw : k.width with
    | some w =>
      by_cases hk : k.kind = .float
      · simp [hfloat hk w hkw]
      · simp [hk]
    | none =>
      have hk : k.kind ≠ .float := by
        rintro hk
        simp [isTotal, hk, hkw] at htotal
      cases expected with
      | some w => simp [hk]
      | none => simp [unsized?, hkw] at hsized
  | .expr slot e guard args, expected, hp, hsized, htotal => by
    cases hp with
    | expr _ hwidth _ hargs =>
    rw [isTotal, Bool.and_eq_true] at htotal
    rw [unsized?] at hsized
    split at hsized
    · cases hsized
    · next hinherited =>
      obtain ⟨w, op, hw, hop, hr⟩ := exists_form (fun w hw => (hwidth w hw).2)
        (fun hnone => by
          rw [hnone] at hinherited
          simpa [Option.isSome_iff_ne_none] using hinherited) htotal.1
      obtain ⟨-, hwidths, -, -⟩ := Operation.form hop
      rw [Pattern.isBuildable, allForms, hw, Option.any_some, hop, Option.any_some,
        Bool.and_eq_true]
      exact ⟨hr, areBuildable hargs (hwidths ▸ hsized) htotal.2⟩

theorem areBuildable {w : Nat} :
    ∀ {ps : List Pattern} {sws : List SourceWidth} {paired : Option Nat},
      (∀ p ∈ ps, p.WellFormed P) → unsizedAmong? paired.isSome ps sws = none → areTotal ps →
      allFormsAmong (fun op _ _ => op.hasResult) ω w ps sws paired
  | [], _, _, _, _, _ => by simp [allFormsAmong]
  | _ :: _, [], _, _, _, _ => by simp [allFormsAmong]
  | p :: ps, sw :: sws, paired, hps, hsized, htotal => by
    rw [List.forall_mem_cons] at hps
    simp only [unsizedAmong?, Option.orElse_eq_orElse, Option.orElse_eq_or,
      Option.or_eq_none_iff] at hsized
    rw [areTotal, Bool.and_eq_true] at htotal
    rw [allFormsAmong, Bool.and_eq_true]
    rw [← Build.isSome_sourceWidth w paired sw] at hsized
    obtain ⟨n, hn⟩ := Option.isSome_iff_exists.mp (isSome_widthAt hsized.1)
    refine ⟨hps.1.isBuildable hsized.1 htotal.1, areBuildable hps.2 ?_ htotal.2⟩
    rw [hn, Build.isSome_pairedAfter]
    exact hsized.2

end

end Pattern

end Peephole

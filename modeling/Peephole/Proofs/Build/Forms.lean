import Peephole.Proofs.Build.Realized

/-!
# Forms of replacements

Which replacements can be built. `Pattern.allForms` looks at the widths only: whether every
expression has a form at the width that it is built at, and every constant can be written. It takes
a check of each form, with its width and the widths of its sources.

* A replacement is **buildable** when its forms produce values. Building an admitted replacement
succeeds exactly then, `build_eq_ok_iff`. * Every instruction that is built passes the check,
`check_of_value`.
-/

namespace Peephole

open Func

namespace Pattern

/-! ### Widths of sources -/

/-- The width of the paired sources after a source, given the one before it. -/
def pairedAfter (paired : Option Nat) (sw : SourceWidth) (w : Option Nat) : Option Nat :=
  if sw = .paired then paired <|> w else paired

/-- The widths at which the sources of an operation of a width are built. -/
def widthsAt (ω : Nat → Nat) (w : Nat) :
    List Pattern → List SourceWidth → Option Nat → List (Option Nat)
  | p :: ps, sw :: sws, paired =>
    let n := p.widthAt ω (Build.sourceWidth w paired sw)
    n :: widthsAt ω w ps sws (pairedAfter paired sw n)
  | _, _, _ => []

/-! ### Forms -/

mutual

/-- Whether constants can be written, and expressions have a form that passes a check. -/
def allForms (check : Opcode → Nat → List (Option Nat) → Bool) (ω : Nat → Nat) :
    Pattern → Option Nat → Bool
  | var .., _ => true
  | const _ k, expected =>
    (k.width <|> expected).any fun w => k.kind != .float || isFloatWidth w
  | expr _ e _ args, expected =>
    (e.width <|> e.op.fixedWidth <|> expected).any fun w =>
      (e.op.withWidth? w).any fun op =>
        check op w (widthsAt ω w args op.info.sourceWidths none) &&
          allFormsAmong check ω w args op.info.sourceWidths none

/-- Whether all sources of an operation of a width have forms that pass a check. -/
def allFormsAmong (check : Opcode → Nat → List (Option Nat) → Bool) (ω : Nat → Nat) (w : Nat) :
    List Pattern → List SourceWidth → Option Nat → Bool
  | p :: ps, sw :: sws, paired =>
    allForms check ω p (Build.sourceWidth w paired sw) &&
      allFormsAmong check ω w ps sws
        (pairedAfter paired sw (p.widthAt ω (Build.sourceWidth w paired sw)))
  | _, _, _ => true

end

/-- Whether a replacement can be built at an expected width: its constants can be written, and its
expressions have forms that produce values. -/
def isBuildable (ω : Nat → Nat) (p : Pattern) (expected : Option Nat) : Bool :=
  p.allForms (fun op _ _ => op.hasResult) ω expected

mutual

/-- Whether a replacement can be built at every width: all its operations produce values, and its
families and its float constants declare their width. -/
def isTotal : Pattern → Bool
  | var .. => true
  | const _ k => k.kind != .float || k.width.isSome
  | expr _ e _ args =>
    (match e.op with
      | .single op => op.hasResult
      | .family _ => e.width.isSome) && areTotal args

/-- Whether replacements can be built at every width. -/
def areTotal : List Pattern → Bool
  | [] => true
  | p :: ps => isTotal p && areTotal ps

end

end Pattern

open Pattern

variable {f : Func} {b : Bindings} {c : InstId}

mutual

/-- Forms that pass a check pass a weaker one. -/
theorem Pattern.allForms_mono {check check' : Opcode → Nat → List (Option Nat) → Bool}
    (hcheck : ∀ op w ws, check op w ws → check' op w ws) {ω : Nat → Nat} :
    ∀ {p : Pattern} {expected : Option Nat}, p.allForms check ω expected →
      p.allForms check' ω expected
  | .var .., _, _ => by rw [allForms]
  | .const _ _, _, h => by
    rw [allForms] at h ⊢
    exact h
  | .expr _ e _ args, expected, h => by
    rw [allForms] at h ⊢
    obtain ⟨w, hw, h⟩ := (Option.any_eq_true _ _).mp h
    obtain ⟨op, hop, h⟩ := (Option.any_eq_true _ _).mp h
    rw [Bool.and_eq_true] at h
    rw [hw, Option.any_some, hop, Option.any_some, Bool.and_eq_true]
    exact ⟨hcheck _ _ _ h.1, allFormsAmong_mono hcheck h.2⟩

theorem Pattern.allFormsAmong_mono {check check' : Opcode → Nat → List (Option Nat) → Bool}
    (hcheck : ∀ op w ws, check op w ws → check' op w ws) {ω : Nat → Nat} {w : Nat} :
    ∀ {ps : List Pattern} {sws : List SourceWidth} {paired : Option Nat},
      allFormsAmong check ω w ps sws paired → allFormsAmong check' ω w ps sws paired
  | [], _, _, _ => by simp [allFormsAmong]
  | _ :: _, [], _, _ => by simp [allFormsAmong]
  | p :: ps, sw :: sws, paired, h => by
    rw [allFormsAmong, Bool.and_eq_true] at h ⊢
    exact ⟨allForms_mono hcheck h.1, allFormsAmong_mono hcheck h.2⟩

end

/-! ### What is realized has forms -/

theorem isFloatWidth_of_encodeFloat {d : Datum} {w : Nat} {bits : Word}
    (h : encodeFloat d w = .ok bits) : isFloatWidth w := by
  unfold encodeFloat FloatFormat.ofWidth? at h
  split at h
  · next hw => split at hw <;> first | rfl | cases hw
  · cases h

/-- A number can be written at every width with a format. -/
theorem encodeFloat_ok {d : Datum} {w : Nat} (h : isFloatWidth w) :
    ∃ bits, encodeFloat d w = .ok bits := by
  simp only [isFloatWidth, Bool.or_eq_true, beq_iff_eq] at h
  obtain (rfl | rfl) | rfl := h <;> exact ⟨_, rfl⟩

theorem encodeConstant_ok_iff {k : ConstantSlot} {w : Nat} :
    (∃ bits, Build.encodeConstant k w = .ok bits) ↔ (k.kind != .float || isFloatWidth w) := by
  unfold Build.encodeConstant
  cases k.kind with
  | int => simp
  | bool => simp
  | float =>
    simp only [bne_self_eq_false, Bool.false_or]
    exact ⟨fun ⟨_, h⟩ => isFloatWidth_of_encodeFloat h, fun h => encodeFloat_ok h⟩

/-- An operation that evaluates to something produces a value. -/
theorem hasResult_of_evaluate {op : Opcode} {w : Nat} {ls : List Literal} {bits : Word}
    (h : evaluate op w ls = .ok (some bits)) : op.hasResult := by
  by_contra hr
  unfold evaluate at h
  split at h
  · cases h
  · simp [Bool.eq_false_iff.mpr hr] at h

mutual

theorem isBuildable_of_realized (hf : f.Coherent) {p : Pattern} {expected : Option Nat}
    {x : ValueId} : Realized f b c p expected x → p.isBuildable (b.width f) expected
  | .var _ _ _ => by rw [isBuildable, allForms]
  | .const width encoded _ => by
    rw [isBuildable, allForms, width, Option.any_some]
    exact encodeConstant_ok_iff.mp ⟨_, encoded⟩
  | .folded width form sources _ value _ => by
    rw [isBuildable, allForms, width, Option.any_some, form, Option.any_some, Bool.and_eq_true]
    exact ⟨hasResult_of_evaluate value, areBuildable_of_realizedAll hf sources⟩
  | .emitted width form sources _ inst opcode _ result => by
    rw [isBuildable, allForms, width, Option.any_some, form, Option.any_some, Bool.and_eq_true]
    refine ⟨?_, areBuildable_of_realizedAll hf sources⟩
    rw [← opcode, ← hf.produces inst, result]
    rfl

theorem areBuildable_of_realizedAll (hf : f.Coherent) {w : Nat} {ps : List Pattern}
    {sws : List SourceWidth} {paired : Option Nat} {xs : List ValueId} :
    RealizedAll f b c w ps sws paired xs →
      allFormsAmong (fun op _ _ => op.hasResult) (b.width f) w ps sws paired
  | .nil stop => by
    obtain rfl | rfl := stop
    · simp [allFormsAmong]
    · simp [allFormsAmong]
  | .cons first _ others => by
    rw [allFormsAmong, Bool.and_eq_true, first.width hf]
    exact ⟨isBuildable_of_realized hf first, areBuildable_of_realizedAll hf others⟩

end

/-- The widths of values that realize sources. -/
theorem RealizedAll.widths (hf : f.Coherent) {w : Nat} :
    ∀ {ps : List Pattern} {sws : List SourceWidth} {paired : Option Nat} {xs : List ValueId},
      RealizedAll f b c w ps sws paired xs →
      widthsAt (b.width f) w ps sws paired = xs.map fun x => some (f.width x)
  | _, _, _, _, .nil stop => by
    obtain rfl | rfl := stop
    · simp [widthsAt]
    · simp [widthsAt]
  | _, _, _, _, .cons first _ others => by
    rw [widthsAt, first.width hf, List.map_cons]
    exact congrArg _ (others.widths hf)

/-! ### What is built has passed the check -/

/-- Whether the instructions that one function has more than another have passed a check. -/
def Checked (check : Opcode → Nat → List (Option Nat) → Bool) (f g : Func) : Prop :=
  ∀ i ∈ g.layout, f.inst? i = none →
    ∃ d, g.inst? i = some d ∧ check d.opcode d.width (d.operands.map fun v => some (g.width v))

variable {check : Opcode → Nat → List (Option Nat) → Bool} {g h : Func}

theorem Checked.of_layout (hf : f.Coherent) (hl : g.layout = f.layout) : Checked check f g := by
  intro i hi hnone
  have := hf.exists_of_mem_layout (hl ▸ hi)
  simp [hnone] at this

theorem Checked.trans (hg : g.Coherent) (e : g.Extends h) (hfg : Checked check f g)
    (hgh : Checked check g h) : Checked check f h := by
  intro i hi hnone
  cases hgi : g.inst? i with
  | none => exact hgh i hi hgi
  | some d =>
    have hig : i ∈ g.layout := by
      rw [e.layout, List.mem_filter]
      exact ⟨hi, by simp [hgi]⟩
    obtain ⟨d', hd', hcheck⟩ := hfg i hig hnone
    refine ⟨d', e.inst? hd', ?_⟩
    have hwidths : d'.operands.map (fun v => some (h.width v)) =
        d'.operands.map fun v => some (g.width v) :=
      List.map_congr_left fun v hv => by rw [e.width (hg.known hd' hv)]
    rwa [hwidths]

namespace Build

variable {P : Array Pattern} {site : Site} {gone : List InstId}

/-- The widths of the variables stay the same while more is built. -/
theorem Sound.width_eq {s : State} {t : Func} (hs : Sound P site gone s)
    (e : s.func.Extends t) : site.bindings.width t = site.bindings.width s.func := by
  funext k
  unfold Bindings.width
  cases hk : site.bindings k with
  | none => rfl
  | some x => exact e.width (hs.bound hk).1

theorem check_of_emit {s s' : State} {w : Nat} {op : Opcode} {exact : Bool} {vs : List ValueId}
    {x : ValueId} (hs : Sound P site gone s) (hknown : ∀ v ∈ vs, (s.func.value? v).isSome)
    (e : s.func.Extends s'.func) (hcheck : check op w (vs.map fun v => some (s.func.width v)))
    (h : s.emit site op w exact vs = .ok (x, s')) : Checked check s.func s'.func := by
  obtain ⟨-, ⟨_, _, -, -, hlit⟩ | ⟨i, g, g', hcreate, hexact, hinsert, -⟩⟩ := emit_eq_ok h
  · exact .of_layout hs.settled.coherent (hs.settled.literal hlit).2.2.1
  · have em := emits_of_eq_ok hcreate hexact hinsert
    intro j hj hnone
    by_cases hji : j = i
    · subst hji
      obtain ⟨_, hi⟩ := em.inst?_self
      refine ⟨_, hi, ?_⟩
      have hwidths : vs.map (fun v => some (s'.func.width v)) =
          vs.map fun v => some (s.func.width v) :=
        List.map_congr_left fun v hv => by rw [e.width (hknown v hv)]
      simpa only [hwidths] using hcheck
    · rw [em.inst?_of_ne hji] at *
      have := hs.settled.coherent.exists_of_mem_layout (em.mem_layout hj hji)
      simp [hnone] at this

mutual

/-- Instructions built for a pattern whose forms pass a check pass it. -/
theorem check_of_value :
    ∀ (p : Pattern) (expected : Option Nat) (s s' : State) (x : ValueId), p.WellFormed P →
      Sound P site gone s → value site p expected s = .ok (x, s') →
      p.allForms check (site.bindings.width s.func) expected → Checked check s.func s'.func
  | .var v guard, expected, s, s', x, _, hs, h, _ => by
    rw [value] at h
    split at h
    · cases h
      exact .of_layout hs.settled.coherent rfl
    · cases h
  | .const slot k, expected, s, s', x, _, hs, h, _ => by
    rw [value] at h
    split at h
    · cases h
    · obtain ⟨bits, -, h⟩ := bind_eq_ok.mp h
      obtain ⟨⟨y, g⟩, hlit, h⟩ := bind_eq_ok.mp h
      cases h
      exact .of_layout hs.settled.coherent (hs.settled.literal hlit).2.2.1
  | .expr slot e guard args, expected, s, s', x, hp, hs, h, hforms => by
    cases hp with
    | expr _ _ _ hargs =>
    obtain ⟨w, hw, ⟨-, rfl⟩ | ⟨-, op, xs, t, u, hop, hvalues, hemit, rfl⟩⟩ :=
      value_expr_eq_ok h
    · exact .of_layout hs.settled.coherent rfl
    · rw [allForms, hw, Option.any_some, hop, Option.any_some, Bool.and_eq_true] at hforms
      obtain ⟨ht, hext, hsources, hknown, hav⟩ :=
        realizedAll_of_values args w op.info.sourceWidths none s t xs hargs hs hvalues
      obtain ⟨-, hext', -⟩ := ht.emit slot guard hop hsources hknown hav hemit
      have hcheck := hforms.1
      rw [← hs.width_eq hext, hsources.widths ht.settled.coherent] at hcheck
      have hnew : Checked check t.func u.func := check_of_emit ht hknown hext' hcheck hemit
      exact (checkAll_of_values args w op.info.sourceWidths none s t xs hargs hs hvalues
        hforms.2).trans ht.settled.coherent hext' hnew

theorem checkAll_of_values :
    ∀ (ps : List Pattern) (w : Nat) (sws : List SourceWidth) (paired : Option Nat) (s s' : State)
      (xs : List ValueId), (∀ p ∈ ps, p.WellFormed P) → Sound P site gone s →
      values site w ps sws paired s = .ok (xs, s') →
      allFormsAmong check (site.bindings.width s.func) w ps sws paired →
      Checked check s.func s'.func
  | [], w, sws, paired, s, s', xs, _, hs, h, _ => by
    simp only [values] at h
    cases h
    exact .of_layout hs.settled.coherent rfl
  | p :: ps, w, [], paired, s, s', xs, _, hs, h, _ => by
    simp only [values] at h
    cases h
    exact .of_layout hs.settled.coherent rfl
  | p :: ps, w, sw :: sws, paired, s, s', xs, hps, hs, h, hforms => by
    rw [List.forall_mem_cons] at hps
    rw [allFormsAmong, Bool.and_eq_true] at hforms
    obtain ⟨x, t, next, ys, hvalue, hnext, hvalues, rfl⟩ := values_cons_eq_ok h
    obtain ⟨ht, hext, hreal⟩ := realized_of_value p _ s t x hps.1 hs hvalue
    obtain ⟨-, hext', -⟩ := realizedAll_of_values ps w sws next t s' ys hps.2 ht hvalues
    refine Checked.trans ht.settled.coherent hext'
      (check_of_value p _ s t x hps.1 hs hvalue hforms.1)
      (checkAll_of_values ps w sws next t s' ys hps.2 ht hvalues ?_)
    -- the source has the width that the check has assumed, and with it the paired ones after it
    rw [paired_eq_of_ok (hreal.known ht.settled.coherent) hnext]
    rw [← hs.width_eq hext, hreal.width ht.settled.coherent] at hforms
    exact hforms.2

end

end Build

end Peephole

import Peephole.Legalize.Boolean
import Peephole.Proofs.Legalize.Inert
import Peephole.Proofs.Legalize.Soundness
import Peephole.Proofs.Match.Chain
import Peephole.Proofs.Pass.Fit

/-!
# Rules of the passes that fit

Wherever a rule of the three passes matches in a valid function, its replacement may be built, and
has the width of what it replaces. Where a rule converts a float of any width, the function tells
that the width has a format, since it holds the conversion that the rule has matched.

A pass of rules that fit keeps functions valid, together with any other property that is kept where
one of its rules **fires**, `Pass.keeps_of_fires`.
-/

namespace Peephole

open Func

/-! ### Rules that fit -/

/-- Whether the replacement of a written rule fits wherever the rule matches in a valid function. -/
def TermRule.Fits (x : TermRule) : Prop :=
  ∀ (P : Array Pattern) (r : Rule) (f : Func) (gone : List InstId) (i : InstId) (d : Inst)
    (b : Bindings), r.Admitted P → f.Settled gone → f.isValid → f.inst? i = some d → i ∈ f.layout →
    x.search.Denotes r.search → x.replace.Denotes r.replace → r.matchInst f i = some b →
      r.replace.FitsAt (b.width f) d.width

/-- Whether a rule fires that denotes a written rule. -/
structure TermRule.Fires (x : TermRule) (r : Rule) (P : Array Pattern) (f : Func)
    (gone : List InstId) (i : InstId) (d : Inst) (result : ValueId) (b : Bindings) : Prop extends
    r.Fires P f gone i d result b where
  search : x.search.Denotes r.search
  replace : x.replace.Denotes r.replace

section Fits

variable {name : String} {rules : List TermRule} {rs : RuleSet} {p : Pass}
  (hload : RuleSet.load (.ofRules name rules) = .ok rs) (h : ∀ x ∈ rules, x.Fits)
include hload h

/-- The replacements of a rule set of written rules that fit, fit wherever they match. -/
theorem RuleSet.fitsAt_of_fits {f : Func} {gone : List InstId} {i : InstId} {d : Inst} {k : Nat}
    {r : Rule} {b : Bindings} (hreach : Reachable f gone) (hv : f.isValid)
    (hd : f.inst? i = some d) (hi : i ∈ f.layout) (hr : rs.rules[k]? = some r)
    (hm : r.matchInst f i = some b) : r.replace.FitsAt (b.width f) d.width := by
  obtain ⟨x, hx, hsearch, hreplace⟩ := RuleSet.exists_termRule hload hr
  exact h x hx _ r f gone i d b (RuleSet.admitted_of_load hload hr) (hreach.settled_of_isValid hv)
    hv hd hi hsearch hreplace hm

/-- Passes of written rules that fit keep functions valid. -/
theorem Pass.keeps_valid_of_fits (hp : p.rules = rs) :
    p.Keeps (fun f => ∃ gone, Reachable f gone ∧ f.isValid) fun _ => False :=
  keeps_valid hload hp fun _ _ hreach hv _ _ hd hi _ _ _ hr hm =>
    RuleSet.fitsAt_of_fits hload h hreach hv hd hi hr hm

/-- Passes of written rules that fit keep functions valid with whatever they keep where a rule
fires. -/
theorem Pass.keeps_of_fires (inv : Func → Prop) (hp : p.rules = rs)
    (hinv : ∀ {x r f g gone i d result b events}, x ∈ rules →
      x.Fires r rs.patterns f gone i d result b → commit f i result r b = .ok (g, events) →
        inv f → inv g) :
    p.Keeps (fun f => (∃ gone, Reachable f gone ∧ f.isValid) ∧ inv f) fun _ => False := by
  rintro f i result k r b ⟨⟨gone, hreach, hv⟩, hf⟩ ha hres hr hm
  obtain ⟨⟨g, events⟩, hc, hg⟩ := (keeps_valid_of_fits hload h hp f i result k r b
    ⟨gone, hreach, hv⟩ ha hres hr hm).exists_ok
  rw [hc]
  rw [hp] at hr
  have hi := hreach.coherent.mem_layout.mpr ha
  obtain ⟨d, hd, hdres⟩ := Option.bind_eq_some_iff.mp hres
  obtain ⟨x, hx, hsearch, hreplace⟩ := RuleSet.exists_termRule hload hr
  have hfits := RuleSet.fitsAt_of_fits hload h hreach hv hd hi hr hm
  have hfires : r.Fires rs.patterns f gone i d result b :=
    ⟨RuleSet.admitted_of_load hload hr, hreach, hv, hi, hd, hdres, hm, hfits⟩
  exact ⟨hg, hinv hx ⟨hfires, hsearch, hreplace⟩ hc hf⟩

end Fits

namespace TermRule

variable {op op' : Opcode} {w n : Nat} {v : VariableSlot} {replace : Term}

theorem width_set_empty (f : Func) (u : ValueId) :
    (Bindings.empty.set v.index u).width f v.index = f.width u := by
  simp [Bindings.width, Bindings.set]

/-- A rule for an operation fits if its replacement may be built for every width that the variable
accepts. -/
theorem fits_of_one (h : ∀ ω, v.widths.allows (ω v.index) → replace.MayBuild [] ω (some w) w) :
    Fits ⟨.op op w [.var v], replace⟩ := by
  intro P r f gone i d b hr hf hv hd hi hsearch hreplace hm
  obtain ⟨x, u, hx, hyields, haccepts, rfl⟩ := (hsearch.matchInst_iff_one hr).mp hm
  obtain ⟨-, rfl, -⟩ := (hf.coherent.yields_iff hd hx).mp hyields
  simp only [VariableSlot.accepts, Bool.and_eq_true] at haccepts
  rw [← width_set_empty f u] at haccepts
  exact (h _ haccepts.1.1.1 r.replace hreplace).symm

/-- A rule for an operation on the result of another one fits if its replacement may be built for
every width that the variable and the inner operation accept. -/
theorem fits_of_two (h : ∀ ω, v.widths.allows (ω v.index) → op'.fits n [ω v.index] →
      replace.MayBuild [] ω (some w) w) :
    Fits ⟨.op op w [.op op' n [.var v]], replace⟩ := by
  intro P r f gone i d b hr hf hv hd hi hsearch hreplace hm
  obtain ⟨x, y, u, hx, hyields, ⟨j, e, hj, he, rfl, rfl, hu⟩, haccepts, rfl⟩ :=
    (hsearch.matchInst_iff_two hr).mp hm
  obtain ⟨-, rfl, hy⟩ := (hf.coherent.yields_iff hd hx).mp hyields
  simp only [VariableSlot.accepts, Bool.and_eq_true] at haccepts
  -- the inner operation stands before the instruction, where a valid function has it fit
  have hmem : y ∈ f.operands i := by simp [operands, hd, hy]
  have hprec := hf.coherent.definer_precedes (hf.defined i hi y hmem) hj
  have hfits := hf.isValid_iff_fitting.mp hv j hprec.mem_left e he
  rw [hu, List.map_singleton] at hfits
  rw [← width_set_empty f u] at haccepts hfits
  exact (h _ haccepts.1.1.1 hfits r.replace hreplace).symm

end TermRule

namespace Legalize

open TermRule

/-! ### The narrowing rules -/

section Narrowing

variable {n w s : Nat} {outer inner : Family}

theorem fits_convert_convert {x replace : Term} {v : VariableSlot} {op op' : Opcode}
    (hop : outer.withWidth? w = some op) (hop' : inner.withWidth? n = some op') (hx : x = .var v)
    (h : ∀ ω, v.widths.allows (ω v.index) → op'.fits n [ω v.index] →
      replace.MayBuild [] ω (some w) w) :
    Fits ⟨.convert outer w (.convert inner n x), replace⟩ := by
  rw [hx, Term.convert_eq_op hop', Term.convert_eq_op hop]
  exact fits_of_two h

theorem fits_ofInteger (hn : n = 8 ∨ n = 16) (hw : w ∈ wide n) (houter : outer.readsInteger)
    (hinner : inner = .u2u ∨ inner = .i2i) : (ofInteger n outer w inner s).Fits := by
  obtain ⟨op, hop⟩ := exists_withWidth? houter hw
  obtain ⟨op', hop'⟩ := exists_narrow hn (hinner.imp id .inl)
  exact fits_convert_convert hop hop' rfl fun ω hω _ =>
    mayBuild_ofInteger hw houter (by simp) (WidthMask.eq_of_allows hω)

theorem fits_ofFloat (hn : n = 8 ∨ n = 16) (hw : w ∈ wide n) (houter : outer.readsInteger)
    (hinner : inner = .f2u ∨ inner = .f2i) : (ofFloat n outer w inner).Fits := by
  obtain ⟨op, hop⟩ := exists_withWidth? houter hw
  obtain ⟨op', hop'⟩ := exists_narrow hn (.inr (.inr hinner))
  obtain ⟨low, hlow⟩ := exists_withWidth?_inner hinner hw
  refine fits_convert_convert hop hop' rfl fun ω _ hfits => ?_
  have hsource : inner.source = .float := by obtain rfl | rfl := hinner <;> rfl
  have hresult : inner.result ≠ .float := by obtain rfl | rfl := hinner <;> decide
  have hfloat : isFloatWidth (ω 0) := by
    obtain ⟨-, -, -, -, -, hclasses, -⟩ := Family.spec_of_withWidth? hop'
    simp only [Opcode.fits, Bool.and_eq_true] at hfits
    simpa [hclasses, hsource] using hfits.1.2
  exact mayBuild_lowBits (by simp) (Term.mayBuild_convert hlow (fun _ => hfloat)
    (fun h => (hresult h).elim) (by simp) (Term.mayBuild_var rfl))

theorem fits_clamp (hn : n = 8 ∨ n = 16) (hw : w ∈ wide n) (hs : s ∈ wide n)
    (houter : outer.readsInteger) (hinner : inner = .f2u ∨ inner = .f2i) :
    (clamp n outer w inner s).Fits := by
  obtain ⟨op, hop⟩ := exists_withWidth? houter hw
  obtain ⟨op', hop'⟩ := exists_narrow hn (.inr (.inr hinner))
  refine fits_convert_convert hop hop' rfl fun ω hω _ => ?_
  have hfloat := isFloatWidth_of_mem_wide hs
  have hbound {o : Opcode} (ho : o = .fmin ∨ o = .fmax) : o.mayBuild [] s [some s, some s] := by
    obtain rfl | rfl := ho <;>
      simp [Opcode.mayBuild, Opcode.fits, Opcode.hasResult, OpInfo.hasResult, Opcode.info,
        OpInfo.binary, hfloat]
  have hconst (k : Int) (expected : Option Nat) : (Term.float s k).MayBuild [] ω expected s :=
    Term.mayBuild_const rfl fun _ => hfloat
  have hclamped (expected : Option Nat) : (Term.commuting .fmin s
      [.commuting .fmax s [source s, .float s (least n outer)],
        .float s (greatest n outer)]).MayBuild [] ω expected s := by
    refine Term.mayBuild_two rfl rfl ?_ (hconst _ _) (hbound (.inl rfl))
    exact Term.mayBuild_two rfl rfl (Term.mayBuild_var (WidthMask.eq_of_allows hω)) (hconst _ _)
      (hbound (.inr rfl))
  split
  · next hsame =>
    obtain rfl := hsame
    exact hclamped _
  · obtain ⟨low, hlow⟩ := exists_f2f hw
    exact Term.mayBuild_convert hlow (fun _ => hfloat) (fun _ => isFloatWidth_of_mem_wide hw)
      (by simp) (hclamped none)

/-- The narrowing rules fit. -/
theorem fits_narrowing (hn : n = 8 ∨ n = 16) {x : TermRule} (hx : x ∈ narrowing n) : x.Fits := by
  obtain ⟨outer, w, houter, hw, hx⟩ := mem_narrowing_iff.mp hx
  obtain ⟨inner, s, hinner, -, rfl⟩ | ⟨inner, hinner, -, rfl⟩ | ⟨inner, s, hinner, -, hs, rfl⟩ :=
    mem_narrowingTo_iff.mp hx
  · exact fits_ofInteger hn hw houter hinner
  · exact fits_ofFloat hn hw houter hinner
  · exact fits_clamp hn hw hs houter hinner

end Narrowing

/-! ### The other rules -/

/-- The rules for the packing of halves fit. -/
theorem fits_halfPacking {x : TermRule} (hx : x ∈ halfPacking) : x.Fits := by
  simp only [halfPacking, List.mem_cons, List.not_mem_nil, or_false] at hx
  have hword (ω : Nat → Nat) (hω : (WidthMask.of 32).allows (ω 0)) : ω 0 = 32 :=
    WidthMask.eq_of_allows hω
  obtain rfl | rfl := hx
  · have hop : Family.f2f.withWidth? 32 = some .f2f32 := rfl
    have hop' : Family.u2u.withWidth? 16 = some .u2u16 := rfl
    exact fits_convert_convert hop hop' rfl fun ω hω _ =>
      mayBuild_unpackHalf (by simp) (hword ω hω)
  · have hop : Family.u2u.withWidth? 32 = some .u2u32 := rfl
    have hpack : Opcode.packHalf2x16Split.mayBuild [] 32 [some 32, some 32] := by decide
    have hzero (ω : Nat → Nat) (expected : Option Nat) :
        (Term.int 32 0).MayBuild [] ω expected 32 :=
      Term.mayBuild_int
    rw [Term.convert_eq_op hop]
    exact fits_of_two fun ω hω _ =>
      Term.mayBuild_two rfl rfl (Term.mayBuild_var (hword ω hω)) (hzero ω _) hpack

/-- The rules for truth values fit. -/
theorem fits_booleans {x : TermRule} (hx : x ∈ booleans) : x.Fits := by
  have htruth (ω : Nat → Nat) (expected : Option Nat) :
      truthAsInt.MayBuild [] ω expected 32 :=
    Term.mayBuild_one rfl rfl (Term.mayBuild_var rfl)
      (by simp [Opcode.mayBuild, Opcode.fits, Opcode.hasResult, OpInfo.hasResult, Opcode.info,
        OpInfo.conversion])
  have hzero (ω : Nat → Nat) (expected : Option Nat) :
      (Term.int 32 0).MayBuild [] ω expected 32 :=
    Term.mayBuild_int
  have hop : Family.b2b.withWidth? 32 = some .b2b32 := rfl
  have hop' : Family.b2b.withWidth? 1 = some .b2b1 := rfl
  have hine : Opcode.ine.mayBuild [] 1 [some 32, some 32] := by decide
  obtain rfl | rfl := mem_booleans_iff.mp hx
  · rw [Term.convert_eq_op hop]
    exact fits_of_one fun ω _ => htruth ω _
  · rw [Term.convert_eq_op hop']
    exact fits_of_one fun ω _ => Term.mayBuild_two rfl rfl (htruth ω _) (hzero ω _) hine

end Legalize

end Peephole

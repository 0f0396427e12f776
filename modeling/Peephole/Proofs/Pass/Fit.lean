import Peephole.Proofs.Func.Simplify
import Peephole.Proofs.Pass.Local
import Peephole.Proofs.Pass.Total

/-!
# Rules that keep functions valid

A build **keeps widths** when the value has the width of the instruction that it replaces, and what
is emitted accepts the widths of its operands. A rewrite that keeps widths keeps a function valid,
`valid_of_commit`, whatever it does to what the function stores.

A replacement **fits** where its forms accept the widths of their sources and it has the width of
what it replaces. A rewrite by a replacement that fits succeeds and keeps widths, `keeps_valid`.
-/

namespace Peephole

open Func

/-- Whether a replacement **fits** at a width, given the widths of variables: it may be built, and
it has that width. -/
def Pattern.FitsAt (p : Pattern) (ω : Nat → Nat) (w : Nat) : Prop :=
  p.allForms (Opcode.mayBuild []) ω (some w) ∧ p.widthAt ω (some w) = some w

/-- The value that is built has the width at which its pattern is built, and the result that of its
instruction. -/
theorem Rule.Admitted.width_of_build {P : Array Pattern} {r : Rule} {f g : Func}
    {gone : List InstId} {i : InstId} {d : Inst} {b : Bindings} {result x : ValueId}
    {events : List Event} (hr : r.Admitted P) (hreach : Reachable f gone) (hf : f.Settled gone)
    (hi : i ∈ f.layout) (hm : r.matchInst f i = some b) (hd : f.inst? i = some d)
    (hres : d.result = some result) (h : r.replace.build f b i = .ok (x, g, events)) :
    r.replace.widthAt (b.width f) (some d.width) = some (g.width x) ∧ g.width result = d.width := by
  obtain ⟨d', hd', -, hg, hext, -, hreal⟩ := hr.build_eq_ok hreach hf hi hm h
  obtain rfl := Option.some.inj (hd.symm.trans hd')
  have hvars : b.width g = b.width f := (hr.sound hreach hf hi hm d.exact).width_eq hext
  refine ⟨hvars ▸ hreal.width hg.coherent, ?_⟩
  rw [Func.width, hg.coherent.produced (hext.inst? hd) hres]
  rfl

/-- A name for a value that has the same width keeps the widths of operands. -/
theorem Func.width_rename {f : Func} {old new : ValueId} (h : f.width new = f.width old)
    (v : ValueId) : f.width (rename old new v) = f.width v := by
  unfold rename
  split
  · next hv => rw [hv, h]
  · rfl

/-- Whether a build of a value for an instruction of a width **keeps widths**. -/
structure Func.KeepsWidths (f : Func) (w : Nat) (g : Func) (x : ValueId) : Prop where
  /-- The value has the width of the instruction. -/
  width : g.width x = w
  /-- What is emitted accepts the widths of its operands. -/
  emitted : f.EmittedFit g

/-- Whether a rule **fires** at an instruction of a valid function: it matches there, in place of a
result, and its replacement fits. -/
structure Rule.Fires (r : Rule) (P : Array Pattern) (f : Func) (gone : List InstId) (i : InstId)
    (d : Inst) (result : ValueId) (b : Bindings) : Prop where
  admitted : r.Admitted P
  reachable : Reachable f gone
  valid : f.isValid
  mem : i ∈ f.layout
  inst? : f.inst? i = some d
  result : d.result = some result
  matched : r.matchInst f i = some b
  fits : r.replace.FitsAt (b.width f) d.width

namespace Rule.Fires

variable {r : Rule} {P : Array Pattern} {f : Func} {gone : List InstId} {i : InstId} {d : Inst}
  {result : ValueId} {b : Bindings}

theorem settled (h : r.Fires P f gone i d result b) : f.Settled gone :=
  h.reachable.settled_of_isValid h.valid

theorem result? (h : r.Fires P f gone i d result b) : f.result? i = some result := by
  rw [Func.result?, h.inst?, Option.bind_some, h.result]

end Rule.Fires

/-- What is built by a replacement that fits keeps widths. -/
theorem Rule.Admitted.keepsWidths {P : Array Pattern} {r : Rule} {f g : Func} {gone : List InstId}
    {i : InstId} {d : Inst} {b : Bindings} {result x : ValueId} {events : List Event}
    (hr : r.Admitted P) (hreach : Reachable f gone) (hf : f.Settled gone) (hi : i ∈ f.layout)
    (hm : r.matchInst f i = some b) (hd : f.inst? i = some d) (hres : d.result = some result)
    (hfits : r.replace.FitsAt (b.width f) d.width)
    (h : r.replace.build f b i = .ok (x, g, events)) : f.KeepsWidths d.width g x := by
  have hx := (hr.width_of_build hreach hf hi hm hd hres h).1
  rw [hfits.2, Option.some.injEq] at hx
  exact ⟨hx.symm, (hr.checked_of_build hreach hi hd hm hf hfits.1 h).emittedFit⟩

namespace Pass

variable {p : Pass} {t : RuleTable} {rs : RuleSet}

/-- A rewrite that keeps widths keeps a function valid. -/
theorem valid_of_commit {P : Array Pattern} {r : Rule} {f g : Func} {gone : List InstId}
    {i : InstId} {d : Inst} {b : Bindings} {result : ValueId} {events : List Event}
    (hr : r.Admitted P) (hreach : Reachable f gone) (hv : f.isValid) (hi : i ∈ f.layout)
    (hm : r.matchInst f i = some b) (hd : f.inst? i = some d) (hres : d.result = some result)
    (hkeeps : ∀ x h events, r.replace.build f b i = .ok (x, h, events) →
      f.KeepsWidths d.width h x)
    (hc : commit f i result r b = .ok (g, events)) :
    ∃ gone', Reachable g gone' ∧ g.isValid := by
  have hf := hreach.settled_of_isValid hv
  have hresult : f.result? i = some result := by
    rw [result?, hd, Option.bind_some, hres]
  obtain ⟨x, e, is, gone', hbuild, herase, hreach', hg⟩ :=
    commit_eq_ok hr hreach hf hi hresult hm hc
  obtain ⟨d', hd', -, he, hext, -, hreal⟩ := hr.build_eq_ok hreach hf hi hm hbuild
  have hkeep := hkeeps x e events hbuild
  have hfit := hkeep.emitted.fitting hf.coherent hext (hf.isValid_iff_fitting.mp hv)
  -- the value has the width of the result, so that it fits wherever the result does
  have hwidth := hkeep.width.trans (hr.width_of_build hreach hf hi hm hd hres hbuild).2.symm
  exact ⟨gone', hreach', hg.isValid_iff_fitting.mpr
    ((he.simplifies (hreal.known he.coherent) herase).fitting hg.coherent
      (width_rename hwidth) hfit)⟩

/-- Rewrites by replacements that fit where they are matched never fail, and keep functions valid.
-/
theorem keeps_valid (hload : RuleSet.load t = .ok rs) (hp : p.rules = rs)
    (hfits : ∀ f gone, Reachable f gone → f.isValid → ∀ i d, f.inst? i = some d → i ∈ f.layout →
      ∀ (k : Nat) r b, rs.rules[k]? = some r → r.matchInst f i = some b →
        r.replace.FitsAt (b.width f) d.width) :
    p.Keeps (fun f => ∃ gone, Reachable f gone ∧ f.isValid) fun _ => False := by
  rintro f i result k r b ⟨gone, hreach, hv⟩ ha hres hr hm
  rw [hp] at hr
  have hadm := RuleSet.admitted_of_load hload hr
  have hf := hreach.settled_of_isValid hv
  have hi := hf.coherent.mem_layout.mpr ha
  obtain ⟨d, hd, hdres⟩ := Option.bind_eq_some_iff.mp hres
  have hfit := hfits f gone hreach hv i d hd hi k r b hr hm
  have hbuildable : r.replace.isBuildable (b.width f) (some d.width) :=
    Pattern.allForms_mono (fun op w ws h => by
      simp only [Opcode.mayBuild, Bool.and_eq_true] at h
      exact h.1.1) hfit.1
  obtain ⟨⟨g, events⟩, hc⟩ := (commit_ok_iff hadm hreach hf hi hres hm hd).mpr hbuildable
  rw [hc]
  exact valid_of_commit hadm hreach hv hi hm hd hdres
    (fun x h events => hadm.keepsWidths hreach hf hi hm hd hdres hfit) hc

end Pass

end Peephole

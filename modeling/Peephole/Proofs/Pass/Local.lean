import Peephole.Proofs.Pass.Soundness
import Peephole.Proofs.Rule.Meaning

/-!
# Local soundness of rules

A rule is sound where what it builds fits, and its two patterns denote the same literal whatever its
variables stand for: `Rule.Admitted.sound_of_meaning`. That asks nothing about functions, so that
the rules of a table can be looked at one by one.

A rule may be sound only among functions that **avoid** some operations. What it builds has to avoid
them as well.
-/

namespace Peephole

open Func

/-- Whether no attached instruction has one of some operations. -/
def Func.Avoids (absent : List Opcode) (f : Func) : Prop :=
  ∀ i ∈ f.layout, ∀ d, f.inst? i = some d → d.opcode ∉ absent

/-- Whether a form may be built: it has a result, is none of some operations, and accepts the widths
of its sources. -/
def Opcode.mayBuild (absent : List Opcode) (op : Opcode) (w : Nat) (ws : List (Option Nat)) :
    Bool :=
  op.hasResult && !absent.contains op && op.fits w (ws.map (·.getD 0))

variable {f g : Func} {gone : List InstId} {absent : List Opcode} {args : List Word}
  {ρ : Valuation}

/-! ### What is built -/

theorem Func.Simplifies.avoids {σ : ValueId → ValueId} (e : f.Simplifies σ g)
    (h : f.Avoids absent) : g.Avoids absent := by
  intro i hi d hd
  obtain ⟨d', hd', hop, -⟩ := e.inst? hi hd
  rw [hop]
  exact h i (e.mem_layout hi) d' hd'

/-- Whether the instructions that one function has more than another accept the widths of their
operands. -/
def Func.EmittedFit (f g : Func) : Prop :=
  ∀ i ∈ g.layout, f.inst? i = none → ∀ d, g.inst? i = some d →
    d.opcode.fits d.width (d.operands.map g.width)

/-- An extension fits if the function and the instructions that are new in it fit. -/
theorem Func.EmittedFit.fitting (hnew : f.EmittedFit g) (hf : f.Coherent) (e : f.Extends g)
    (h : f.Fitting) : g.Fitting := by
  intro i hi d hd
  cases hfi : f.inst? i with
  | some d' =>
    rw [e.inst? hfi] at hd
    cases hd
    have hif : i ∈ f.layout := by
      rw [e.layout, List.mem_filter]
      exact ⟨hi, by rw [hfi]; rfl⟩
    have hwidths : d.operands.map g.width = d.operands.map f.width :=
      List.map_congr_left fun v hv => e.width (hf.known hfi hv)
    rw [hwidths]
    exact h i hif d hfi
  | none => exact hnew i hi hfi d hd

section Checked

variable (hc : Checked (Opcode.mayBuild absent) f g)
include hc

/-- Functions avoid operations that may not be built. -/
theorem Checked.avoids (e : f.Extends g) (h : f.Avoids absent) : g.Avoids absent := by
  intro i hi d hd
  cases hfi : f.inst? i with
  | some d' =>
    rw [e.inst? hfi] at hd
    cases hd
    refine h i ?_ d hfi
    rw [e.layout, List.mem_filter]
    exact ⟨hi, by rw [hfi]; rfl⟩
  | none =>
    obtain ⟨d', hd', hcheck⟩ := hc i hi hfi
    rw [hd] at hd'
    cases hd'
    simp only [Opcode.mayBuild, Bool.and_eq_true, Bool.not_eq_true', List.contains_eq_mem,
      decide_eq_false_iff_not] at hcheck
    exact hcheck.1.2

/-- What may be built accepts the widths of its operands. -/
theorem Checked.emittedFit : f.EmittedFit g := by
  intro i hi hnone d hd
  obtain ⟨d', hd', hcheck⟩ := hc i hi hnone
  rw [hd] at hd'
  cases hd'
  simp only [Opcode.mayBuild, Bool.and_eq_true, List.map_map, Function.comp_def,
    Option.getD_some] at hcheck
  exact hcheck.2

end Checked

/-- The search pattern of a match denotes the literal of the result. -/
theorem Rule.meaning_of_matchInst {r : Rule} {i : InstId} {b : Bindings} {result : ValueId}
    (hf : f.Settled gone) (h : f.Models args f.layout ρ) (hplain : r.search.isPlain)
    (hi : i ∈ f.layout) (hresult : f.result? i = some result) (hm : r.matchInst f i = some b) :
    r.search.meaning (b.literals ρ) none = some (ρ result) := by
  obtain ⟨y, swapped, os, hy, hfits⟩ := r.fits_of_matchInst hm
  rw [hresult] at hy
  cases hy
  refine hfits.placed.meaning hf h hplain (fun j hj => ?_) hfits.held none
  rwa [hf.coherent.result_inj (hf.coherent.definer?_eq_some.mp hj) hresult]

section Rule

variable {P : Array Pattern} {r : Rule} {i : InstId} {b : Bindings} {d : Inst} {result : ValueId}
  (hr : r.Admitted P) (hreach : Reachable f gone) (hi : i ∈ f.layout) (hd : f.inst? i = some d)
  (hm : r.matchInst f i = some b)
include hr hreach hi hd hm

/-- Instructions built for a replacement whose forms pass a check pass it. -/
theorem Rule.Admitted.checked_of_build (hf : f.Settled gone)
    {check : Opcode → Nat → List (Option Nat) → Bool} {x : ValueId} {events : List Event}
    (hforms : r.replace.allForms check (b.width f) (some d.width))
    (h : r.replace.build f b i = .ok (x, g, events)) : Checked check f g := by
  unfold Pattern.build at h
  simp only [requireInst, hd, Option.elim_some, ok_bind] at h
  obtain ⟨⟨y, s⟩, hvalue, h⟩ := bind_eq_ok.mp h
  cases h
  exact Build.check_of_value r.replace _ _ s y hr.replace (hr.sound hreach hf hi hm d.exact)
    hvalue hforms

/-- A replacement is sound if what is built fits, and the two patterns denote the same. -/
theorem Rule.Admitted.sound_of_meaning (hv : f.isValid) (havoid : f.Avoids absent)
    (hres : d.result = some result) (hplain : r.search.isPlain)
    (hforms : r.replace.allForms (Opcode.mayBuild absent) (b.width f) (some d.width))
    (heq : ∀ σ : Nat → Option Literal,
      (∀ k l, σ k = some l → l.width = b.width f k ∧ l.IsMasked) →
      ∀ l, r.search.meaning σ none = some l → r.replace.meaning σ (some l.width) = some l) :
    ∃ x g events, r.replace.build f b i = .ok (x, g, events) ∧ g.isValid ∧ g.Avoids absent ∧
      ∀ args, args.length = f.params.length → g.finally? args result = g.finally? args x := by
  have hf := hreach.settled_of_isValid hv
  have hresult : f.result? i = some result := by rw [result?, hd, Option.bind_some, hres]
  have hbuildable : r.replace.isBuildable (b.width f) (some d.width) :=
    Pattern.allForms_mono (fun op w ws h => by
      simp only [Opcode.mayBuild, Bool.and_eq_true] at h
      exact h.1.1) hforms
  obtain ⟨⟨x, g, events⟩, hbuild⟩ :=
    (hr.build_ok_iff hreach hf hi hm hd (by rw [hres]; rfl)).mpr hbuildable
  obtain ⟨d', hd', -, hg, hext, hi', hreal⟩ := hr.build_eq_ok hreach hf hi hm hbuild
  rw [hd] at hd'
  cases hd'
  have hchecked := hr.checked_of_build hreach hi hd hm hf hforms hbuild
  have hfit := hchecked.emittedFit.fitting hf.coherent hext (hf.isValid_iff_fitting.mp hv)
  refine ⟨x, g, events, hbuild, hg.isValid_iff_fitting.mpr hfit, hchecked.avoids hext havoid,
    fun args hargs => ?_⟩
  have hargs' : args.length = g.params.length := hargs.trans (by rw [hext.params])
  obtain ⟨ρ, hρ⟩ := hg.exists_models hfit hargs'
  have hρf : f.Models args f.layout ρ :=
    hext.simplifies.models hf.coherent (blind_of_eq fun _ => rfl) hρ
  have hdet : g.Determined g.layout result := .inr (.inr ⟨i, hi', hext.result? hresult⟩)
  -- the search pattern is placed in the function before building, of which this is a model too
  have hsearch := r.meaning_of_matchInst hf hρf hplain hi hresult hm
  have hσ (k : Nat) (l : Literal) (hl : b.literals ρ k = some l) :
      l.width = b.width f k ∧ l.IsMasked := by
    obtain ⟨v, hk, rfl⟩ := Option.map_eq_some_iff.mp hl
    have hv := (hr.available hf.coherent hf.defined hi hm hk).determined
    rw [Bindings.width, hk]
    exact ⟨hρf.width hf.coherent hargs hv, hρf.isMasked hargs hv⟩
  have hwidth : (ρ result).width = d.width := by
    rw [hρ.width hg.coherent hargs' hdet, width, hg.coherent.produced (hext.inst? hd) hres]
    rfl
  have hreplace := heq _ hσ _ hsearch
  rw [hwidth, hreal.meaning hg.coherent hargs' hρ, Option.some.injEq] at hreplace
  rw [hg.finally?_eq hargs' hρ hdet, hg.finally?_eq hargs' hρ hreal.available.determined, hreplace]

end Rule

end Peephole

import Peephole.Legalize.Legal
import Peephole.Proofs.Pass.Converge
import Peephole.Proofs.Pass.Fit

/-!
# What feeds what after a rewrite

A rewrite builds a replacement, names its value in place of a result, and erases what is dead. So an
instruction that feeds another one after the rewrite did so before, or is what the value is the
result of, or the other one has been built. Either way they are the same operations, on operands of
the same widths, as in the function with the replacement: `feeds_of_commit`.
-/

namespace Peephole

open Func

namespace Legalize

variable {f g h : Func} {gone gone' : List InstId} {i : InstId} {d e : Inst}

/-- Whether an instruction of a number takes the result of another instruction. -/
def FeedsAt (f : Func) (e : Inst) (i : InstId) (d : Inst) : Prop :=
  f.inst? i = some d ∧ ∃ v ∈ d.operands, ∃ j, f.definer? v = some j ∧ f.inst? j = some e

/-- Whether an instruction of one function is the same operation as one of another function, on
operands of the same widths. -/
structure Resembles (f : Func) (d : Inst) (g : Func) (d' : Inst) : Prop where
  opcode : d.opcode = d'.opcode
  width : d.width = d'.width
  result : d.result = d'.result
  operands : d.operands.map f.width = d'.operands.map g.width

/-- What feeds an old instruction after an extension has fed it before. -/
theorem FeedsAt.of_extends (h : FeedsAt g e i d) (ext : f.Extends g) (hf : f.Coherent)
    (hi : i ∈ g.layout) (hold : (f.inst? i).isSome) :
    i ∈ f.layout ∧ FeedsAt f e i d ∧ e.operands.map g.width = e.operands.map f.width := by
  obtain ⟨hd, v, hv, j, hj, he⟩ := h
  obtain ⟨d', hd'⟩ := Option.isSome_iff_exists.mp hold
  obtain rfl : d' = d := Option.some.inj ((ext.inst? hd').symm.trans hd)
  -- the operand has been there before, and so has what defines it
  have hvalue := hf.known hd' hv
  obtain ⟨c, hc⟩ := Option.isSome_iff_exists.mp hvalue
  have hdef : f.definer? v = some j := by
    rwa [definer?, ext.value? hc, ← hc] at hj
  obtain ⟨e', he', -⟩ := Option.bind_eq_some_iff.mp (hf.definer?_eq_some.mp hdef)
  obtain rfl : e' = e := Option.some.inj ((ext.inst? he').symm.trans he)
  refine ⟨?_, ⟨hd', v, hv, j, hdef, he'⟩,
    List.map_congr_left fun u hu => ext.width (hf.known he' hu)⟩
  rw [ext.layout, List.mem_filter]
  exact ⟨hi, hold⟩

/-- What a simplification leaves resembles what has been there, if the renaming keeps widths. -/
theorem exists_resembles {σ : ValueId → ValueId} (s : f.Simplifies σ g) (hg : g.Coherent)
    (hσ : ∀ v, f.width (σ v) = f.width v) (hi : i ∈ g.layout) (hd : g.inst? i = some d) :
    ∃ d', f.inst? i = some d' ∧ Resembles g d f d' ∧ d.operands = d'.operands.map σ := by
  obtain ⟨d', hd', hop, hw, hres, hoperands⟩ := s.inst? hi hd
  refine ⟨d', hd', ⟨hop, hw, hres, ?_⟩, hoperands⟩
  calc d.operands.map g.width
      = d.operands.map f.width := List.map_congr_left fun v hv => s.width (hg.known hd hv)
    _ = d'.operands.map (f.width ∘ σ) := by rw [hoperands, List.map_map]
    _ = d'.operands.map f.width := List.map_congr_left fun v _ => hσ v

/-- What feeds an instruction of a function fed it, or the same value under another name, in what
the function simplifies. -/
theorem FeedsAt.of_simplifies {σ : ValueId → ValueId} (h : FeedsAt g e i d)
    (s : f.Simplifies σ g) (hf : f.Coherent) (hg : g.Settled gone)
    (hσ : ∀ v, f.width (σ v) = f.width v) (hi : i ∈ g.layout) :
    ∃ e' d' v j, Resembles g e f e' ∧ Resembles g d f d' ∧ i ∈ f.layout ∧ f.inst? i = some d' ∧
      v ∈ d'.operands ∧ f.definer? (σ v) = some j ∧ f.inst? j = some e' := by
  obtain ⟨hd, w, hw, j, hj, he⟩ := h
  have hprec := hg.coherent.definer_precedes
    (hg.defined i hi w (by rwa [operands, hd])) hj
  obtain ⟨d', hd', hdd', hoperands⟩ := exists_resembles s hg.coherent hσ hi hd
  obtain ⟨e', he', hee', -⟩ := exists_resembles s hg.coherent hσ hprec.mem_left he
  rw [hoperands] at hw
  obtain ⟨v, hv, rfl⟩ := List.mem_map.mp hw
  have hres : f.result? j = some (σ v) := by
    obtain ⟨c, hc, hcres⟩ := Option.bind_eq_some_iff.mp (hg.coherent.definer?_eq_some.mp hj)
    obtain rfl := Option.some.inj (hc.symm.trans he)
    rw [result?, he', Option.bind_some, ← hee'.result, hcres]
  exact ⟨e', d', v, j, hee', hdd', s.mem_layout hi, hd', hv, hf.definer?_eq_some.mpr hres, he'⟩

section Fires

variable {P : Array Pattern} {r : Rule} {b : Bindings} {result x : ValueId}
  {events events' : List Event} (hr : r.Fires P f gone i d result b)
  (hbuild : r.replace.build f b i = .ok (x, h, events))
include hr hbuild

/-- After a rule has fired, what feeds an instruction resembles something that feeds the same
instruction in the function with the replacement, or that defines the value of the replacement. -/
theorem feeds_of_commit (hc : Pass.commit f i result r b = .ok (g, events')) {c : InstId}
    {e d₀ : Inst} (hcl : c ∈ g.layout) (hfeeds : FeedsAt g e c d₀) :
    ∃ e', Resembles g e h e' ∧
      ((∃ d', Resembles g d₀ h d' ∧ c ∈ h.layout ∧ FeedsAt h e' c d') ∨
        ∃ j, h.definer? x = some j ∧ h.inst? j = some e') := by
  obtain ⟨x', h', is, gone', hbuild', herase, -, hg⟩ :=
    Pass.commit_eq_ok hr.admitted hr.reachable hr.settled hr.mem hr.result? hr.matched hc
  rw [hbuild] at hbuild'
  cases hbuild'
  obtain ⟨d', -, -, hh, -, -, hreal⟩ :=
    hr.admitted.build_eq_ok hr.reachable hr.settled hr.mem hr.matched hbuild
  obtain ⟨hx, hresult⟩ := hr.admitted.width_of_build hr.reachable hr.settled hr.mem hr.matched
    hr.inst? hr.result hbuild
  rw [hr.fits.2, Option.some.injEq] at hx
  obtain ⟨e', d', v, j, hee', hdd', hch, hd', hv, hj, he'⟩ :=
    hfeeds.of_simplifies (hh.simplifies (hreal.known hh.coherent) herase) hh.coherent hg
      (width_rename (hx.symm.trans hresult.symm)) hcl
  refine ⟨e', hee', ?_⟩
  by_cases hvr : v = result
  · rw [rename, if_pos hvr] at hj
    exact .inr ⟨j, hj, he'⟩
  · rw [rename, if_neg hvr] at hj
    exact .inl ⟨d', hdd', hch, hd', v, hv, j, hj, he'⟩

/-- What defines the value of a replacement has the width of what is replaced. -/
theorem width_of_definer {j : InstId} {e : Inst} (hj : h.definer? x = some j)
    (he : h.inst? j = some e) : e.width = d.width := by
  obtain ⟨-, -, -, hh, -, -, -⟩ :=
    hr.admitted.build_eq_ok hr.reachable hr.settled hr.mem hr.matched hbuild
  obtain ⟨hx, -⟩ := hr.admitted.width_of_build hr.reachable hr.settled hr.mem hr.matched hr.inst?
    hr.result hbuild
  rw [hr.fits.2, Option.some.injEq] at hx
  obtain ⟨e', he', hres'⟩ := Option.bind_eq_some_iff.mp (hh.coherent.definer?_eq_some.mp hj)
  obtain rfl := Option.some.inj (he'.symm.trans he)
  rw [hx, Func.width, hh.coherent.produced he hres']
  rfl

end Fires

end Legalize

end Peephole

import Peephole.Proofs.Func.Simplify
import Peephole.Proofs.Pass.Sweep

/-!
# Soundness of runs

A match of a rule is sound when its replacement, built in place of the result that it matches,
leaves the function valid and has the same literal as that result on all arguments. A rewrite by
such a match keeps a function valid and what it stores, `commit_sound`, and so does a run of a rule
set whose matches are sound, `run_ok_of_soundAmong`.

The argument goes through models: the function with the replacement before the instruction extends
the one before the rewrite, and the one after the rewrite simplifies it, so that one model serves
all three.
-/

namespace Peephole

open Func

/-- Whether two functions have the same parameters and store the same on all arguments. -/
structure Func.SameStores (f g : Func) : Prop where
  params : g.params = f.params
  stores : ∀ args, args.length = f.params.length →
    ∃ ls, f.stores args = some ls ∧ g.stores args = some ls

/-- Whether matches of a rule set lead to sound replacements in functions with a property. -/
def RuleSet.SoundAmong (rs : RuleSet) (inv : Func → Prop) : Prop :=
  ∀ f gone, Reachable f gone → f.isValid → inv f → ∀ i ∈ f.layout, ∀ (k : Nat) r b,
    rs.rules[k]? = some r → rs.matchTransform f k i = .ok (some b) →
    ∃ x g events, r.replace.build f b i = .ok (x, g, events) ∧ g.isValid ∧ inv g ∧
      ∀ args result, args.length = f.params.length → f.result? i = some result →
        g.finally? args result = g.finally? args x

namespace Func

variable {f g h : Func} {gone : List InstId}

theorem Settled.sameStores_refl (hf : f.Settled gone) (hv : f.isValid) : f.SameStores f where
  params := rfl
  stores args hargs := by
    obtain ⟨ρ, hρ⟩ := hf.exists_models (hf.isValid_iff_fitting.mp hv) hargs
    exact ⟨_, hf.stores_eq hargs hρ, hf.stores_eq hargs hρ⟩

theorem SameStores.trans (hfg : f.SameStores g) (hgh : g.SameStores h) : f.SameStores h where
  params := hgh.params.trans hfg.params
  stores args hargs := by
    obtain ⟨ls, hf, hg⟩ := hfg.stores args hargs
    obtain ⟨ls', hg', hh⟩ := hgh.stores args (hargs.trans (by rw [hfg.params]))
    rw [hg] at hg'
    cases hg'
    exact ⟨ls, hf, hh⟩

/-- A function with a replacement extends the one before the rewrite, and the one after the rewrite
simplifies it. The two store the same if models are blind to the renaming. -/
theorem sameStores_of_blind {gone' : List InstId} {σ : ValueId → ValueId} (ext : f.Extends h)
    (s : h.Simplifies σ g) (hf : f.Settled gone) (hh : h.Settled gone) (hg : g.Settled gone')
    (hfit : h.Fitting) (hblind : ∀ args ρ, args.length = h.params.length →
      h.Models args h.layout ρ → h.Blind σ ρ) : f.SameStores g where
  params := s.params.trans ext.params
  stores args hargs := by
    have hargs' : args.length = h.params.length := hargs.trans (by rw [ext.params])
    obtain ⟨ρ, hρ⟩ := hh.exists_models hfit hargs'
    obtain ⟨-, hgstores⟩ := s.stores_eq hh hg hargs' (hblind args ρ hargs' hρ) hρ
    obtain ⟨-, hfstores⟩ := ext.simplifies.stores_eq hh hf hargs' (blind_of_eq fun _ => rfl) hρ
    exact ⟨_, hfstores, hgstores⟩

end Func

namespace Pass

section Commit

variable {f g h : Func} {gone : List InstId} {P : Array Pattern} {r : Rule} {i : InstId}
  {b : Bindings} {result x : ValueId} {events events' : List Event}

/-- A rewrite stores the same if the value that is built has the literal of the result. -/
theorem commit_sound (hr : r.Admitted P) (hreach : Reachable f gone) (hf : f.Settled gone)
    (hi : i ∈ f.layout) (hres : f.result? i = some result) (hm : r.matchInst f i = some b)
    (hbuild : r.replace.build f b i = .ok (x, h, events)) (hv : h.isValid)
    (heq : ∀ args, args.length = f.params.length → h.finally? args result = h.finally? args x)
    (hc : commit f i result r b = .ok (g, events')) :
    (∃ gone', Reachable g gone') ∧ g.isValid ∧ h.Simplifies (rename result x) g ∧
      f.SameStores g := by
  obtain ⟨x', h', is, gone', hbuild', herase, hreach', hg⟩ :=
    commit_eq_ok hr hreach hf hi hres hm hc
  rw [hbuild] at hbuild'
  cases hbuild'
  obtain ⟨d, -, -, hh, hext, hi', hreal⟩ := hr.build_eq_ok hreach hf hi hm hbuild
  have hsimp := hh.simplifies (hreal.known hh.coherent) herase
  have hfit := hh.isValid_iff_fitting.mp hv
  have hdet : h.Determined h.layout x := hreal.available.determined
  have hdet' : h.Determined h.layout result := .inr (.inr ⟨i, hi', hext.result? hres⟩)
  -- a model of the function with the replacement does not tell the result from the new value
  have hmodel (args : List Word) (ρ : Valuation) (hargs : args.length = h.params.length)
      (hρ : h.Models args h.layout ρ) : ρ result = ρ x := by
    refine Option.some.inj ?_
    rw [← hh.finally?_eq hargs hρ hdet, ← hh.finally?_eq hargs hρ hdet']
    exact heq args (hargs.trans (by rw [hext.params]))
  -- so whatever agrees on the two is blind to the renaming: literals and widths
  have hrename {α : Type} {φ : ValueId → α} (hφ : φ result = φ x) (v : ValueId) :
      φ (rename result x v) = φ v := by
    unfold rename
    split
    · next hv => rw [hv, hφ]
    · rfl
  have hwidth : h.width result = h.width x := by
    have hzero : (List.replicate h.params.length (0 : Word)).length = h.params.length :=
      List.length_replicate
    obtain ⟨ρ, hρ⟩ := hh.exists_models hfit hzero
    rw [← hρ.width hh.coherent hzero hdet, ← hρ.width hh.coherent hzero hdet',
      hmodel _ ρ hzero hρ]
  exact ⟨⟨gone', hreach'⟩,
    hg.isValid_iff_fitting.mpr (hsimp.fitting hg.coherent (hrename hwidth) hfit), hsimp,
    sameStores_of_blind hext hsimp hf hh hg hfit fun args ρ hargs hρ =>
      blind_of_eq (hrename (hmodel args ρ hargs hρ))⟩

end Commit

variable {p : Pass} {t : RuleTable} {rs : RuleSet} {f : Func} {gone : List InstId}
  {inv : Func → Prop}

/-- Rewrites by sound rules never fail, and keep what is stored. -/
theorem keeps_sound (hload : RuleSet.load t = .ok rs) (hp : p.rules = rs)
    (hsound : rs.SoundAmong inv) (hinv : ∀ g σ h, g.Simplifies σ h → inv g → inv h) :
    p.Keeps (fun g => (∃ gone, Reachable g gone) ∧ g.isValid ∧ inv g ∧ f.SameStores g)
      fun _ => False := by
  rintro g i result k r b ⟨⟨gone, hreach⟩, hv, hg, hsame⟩ ha hres hr hm
  rw [hp] at hr
  have hadm := RuleSet.admitted_of_load hload hr
  have hset := hreach.settled_of_isValid hv
  have hi := hset.coherent.mem_layout.mpr ha
  have hmatch : rs.matchTransform g k i = .ok (some b) := by
    rw [RuleSet.matchTransform_eq hr hres, hm]
  obtain ⟨x, h, events, hbuild, hvh, hh, heq⟩ := hsound g gone hreach hv hg i hi k r b hr hmatch
  obtain ⟨⟨e, events'⟩, hc⟩ := commit_ok_of_build hadm hreach hset hi hres hm hbuild
  obtain ⟨hreach', hv', hsimp, hsame'⟩ := commit_sound hadm hreach hset hi hres hm hbuild hvh
    (fun args hargs => heq args result hargs hres) hc
  rw [hc]
  exact ⟨hreach', hv', hinv h _ e hsimp hh, hsame.trans hsame'⟩

/-- A run by sound rules returns, and keeps functions valid and what they store. -/
theorem run_ok_of_soundAmong (hload : RuleSet.load t = .ok rs) (hp : p.rules = rs)
    (hsound : rs.SoundAmong inv) (hinv : ∀ g σ h, g.Simplifies σ h → inv g → inv h)
    (hf : Reachable f gone) (hv : f.isValid) (hfinv : inv f) :
    ∃ o, p.run f = .ok o ∧ o.func.isValid ∧ f.SameStores o.func := by
  obtain ⟨o, ho, -, hvalid, -, hsame⟩ := ((keeps_sound hload hp hsound hinv).run
    ⟨⟨gone, hf⟩, hv, hfinv, (hf.settled_of_isValid hv).sameStores_refl hv⟩).exists_ok
  exact ⟨o, ho, hvalid, hsame⟩

end Pass

end Peephole

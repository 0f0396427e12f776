import Mathlib
import Peephole.Proofs.Build.Employed
import Peephole.Proofs.Pass.Total

/-!
# Runs leave no new dead code

A rewrite erases two instructions and what dies with them: the one that is replaced, and the one
that defines the new value, which is dead where the replaced result has had no uses. Nothing else
can be left dead. What is built for the replacement is used but for the new value, and the erasures
find whatever has lost its last use: `lingers_of_commit`.

So what lingers after a run has lingered before it, `run_lingers`.
-/

namespace Peephole

open Func

variable {f g : Func} {gone : List InstId}

/-- Whatever is built for a replacement is used, but for its value. -/
theorem Rule.Admitted.employs_of_build {P : Array Pattern} {r : Rule} {i : InstId} {b : Bindings}
    {x : ValueId} {events : List Event} (hr : r.Admitted P) (hreach : Reachable f gone)
    (hf : f.Settled gone) (hi : i ∈ f.layout) (hm : r.matchInst f i = some b)
    (h : r.replace.build f b i = .ok (x, g, events)) : f.Employs g [x] := by
  unfold Pattern.build at h
  obtain ⟨d, -, h⟩ := bind_eq_ok.mp h
  obtain ⟨⟨y, s⟩, hvalue, h⟩ := bind_eq_ok.mp h
  cases h
  exact Build.employs_of_value r.replace _ _ s _ hr.replace (hr.sound hreach hf hi hm d.exact)
    hvalue

/-- What lingers in an extension that is used but for one value has lingered before, unless it
defines that value. -/
theorem Func.Employs.lingers {x : ValueId} {j : InstId} (h : f.Employs g [x]) (e : f.Extends g)
    (hf : f.Settled gone) (hg : g.Settled gone) (hj : g.lingers j) (hx : g.result? j ≠ some x) :
    f.lingers j := by
  obtain ⟨v, hmem, hv, hunused⟩ := hg.lingers_iff.mp hj
  cases hfj : f.inst? j with
  | none =>
    obtain hvx | ⟨k, hk, hvk⟩ := h j hmem hfj v hv
    · exact (hx (by rw [hv, List.mem_singleton.mp hvx])).elim
    · exact (hunused k hk hvk).elim
  | some d =>
    refine hf.lingers_iff.mpr ⟨v, ?_, ?_, fun k hk hvk => ?_⟩
    · rw [e.layout, List.mem_filter]
      exact ⟨hmem, by rw [hfj]; rfl⟩
    · rwa [result?, hfj, ← e.inst? hfj]
    · exact hunused k (e.sublist.subset hk) (e.mem_operands hvk)

namespace Pass

variable {p : Pass} {t : RuleTable} {rs : RuleSet}

/-- What lingers after a rewrite has lingered before. -/
theorem lingers_of_commit {P : Array Pattern} {r : Rule} {i j : InstId} {b : Bindings}
    {result : ValueId} {events : List Event} (hr : r.Admitted P) (hreach : Reachable f gone)
    (hf : f.Settled gone) (hi : i ∈ f.layout) (hres : f.result? i = some result)
    (hm : r.matchInst f i = some b) (h : commit f i result r b = .ok (g, events))
    (hj : g.lingers j) : f.lingers j := by
  obtain ⟨x, e, n, e', hbuild, herase, hrest⟩ := commit_cases h
  obtain ⟨d, -, -, hset, hext, -, -⟩ := hr.build_eq_ok hreach hf hi hm hbuild
  obtain ⟨hne, hreach', hmoved⟩ := settled_replaceAllUses hr hreach hf hi hres hm hbuild
  obtain ⟨is, his, -, herased⟩ := hmoved.eraseDead hreach' herase
  have hresult (k : InstId) : e'.result? k = e.result? k := by
    rw [his.result?, result?_replaceAllUses]
  -- neither the new value nor the old one is defined by what lingers
  have hlast : e'.lingers j ∧ e'.result? j ≠ some x := by
    obtain ⟨hnone, rfl⟩ | ⟨k, m, hk, herase'⟩ := hrest
    · refine ⟨hj, fun hx => ?_⟩
      rw [herased.coherent.definer?_eq_some.mpr hx] at hnone
      cases hnone
    · obtain ⟨hlingers, hjk⟩ := herased.lingers_of_eraseDead herase' hj
      refine ⟨hlingers, fun hx => hjk ?_⟩
      rw [herased.coherent.definer?_eq_some.mpr hx] at hk
      exact Option.some.inj hk
  obtain ⟨hlingers, hji⟩ := hmoved.lingers_of_eraseDead herase hlast.1
  have hlingers : e.lingers j :=
    lingers_of_replaceAllUses hne hlingers fun hj' =>
      hji (hset.coherent.result_inj hj' (hext.result? hres))
  exact (hr.employs_of_build hreach hf hi hm hbuild).lingers hext hf hset hlingers
    (hresult j ▸ hlast.2)

/-- What lingers after steps has lingered before. -/
theorem lingers_of_steps (hload : RuleSet.load t = .ok rs) (hp : p.rules = rs)
    (h : Relation.ReflTransGen p.Step f g) {j : InstId} (hj : g.lingers j) : f.lingers j := by
  induction h with
  | refl => exact hj
  | tail _ hstep ih =>
    obtain ⟨hreach, hset, hi, hres, hr, hm, hc⟩ := hstep
    rw [hp] at hr
    exact ih (lingers_of_commit (RuleSet.admitted_of_load hload hr) hreach hset hi hres hm hc hj)

/-- A run over a valid function leaves no new dead code: whatever is attached and dead after it has
been so before. Every rewrite on the way takes away the instruction that it replaces, and leaves
nothing dead that was not attached and dead before the rewrite, neither of what it has matched nor
of what it has built. -/
theorem run_lingers (hload : RuleSet.load t = .ok rs) (hp : p.rules = rs) (hf : Reachable f gone)
    (hv : f.isValid) :
    (∀ o, p.run f = .ok o → ∀ j, o.func.isAttached j → o.func.isDead j →
      f.isAttached j ∧ f.isDead j) ∧
    ∀ g i result k r b h events, p.Visits p.maxIterations f g i → p.Selects g i result k r b →
      commit g i result r b = .ok (h, events) →
        ¬ h.isAttached i ∧ ∀ j, h.isAttached j → h.isDead j → g.isAttached j ∧ g.isDead j := by
  have hs := hf.settled_of_isValid hv
  constructor
  · intro o ho j ha hdead
    obtain ⟨-, hsteps⟩ := steps_of_run hload hp hf hs ho
    exact lingers_iff.mp (lingers_of_steps hload hp hsteps (lingers_iff.mpr ⟨ha, hdead⟩))
  · intro g i result k r b h events hvisit hsel hc
    obtain ⟨⟨gone', hg, hset⟩, ha⟩ := (keeps_settled hload hp).visits ⟨gone, hf, hs⟩ hvisit
    obtain ⟨d, hd, hres, -, hfirst⟩ := hsel
    obtain ⟨-, hr, -, hm⟩ := firstMatch_eq_some hfirst
    have hadm := RuleSet.admitted_of_load hload (hp ▸ hr)
    have hi := hset.coherent.mem_layout.mpr ha
    have hresult : g.result? i = some result := by rw [result?, hd, Option.bind_some, hres]
    refine ⟨not_isAttached_of_commit hadm hg hset hi hresult hm hc, fun j hj hdead => ?_⟩
    exact lingers_iff.mp
      (lingers_of_commit hadm hg hset hi hresult hm hc (lingers_iff.mpr ⟨hj, hdead⟩))

/-- A function that widens its parameter, a truth value, for nothing. -/
def unusedTruth : Func where
  name := "f"
  params := [⟨0⟩]
  values := #[⟨.parameter 0 none, 1⟩, ⟨.result ⟨0⟩, 32⟩]
  chains := #[[⟨⟨0⟩, 0⟩], []]
  insts := #[⟨.b2b32, 32, false, [⟨0⟩], some ⟨1⟩, some ⟨0⟩⟩]
  blocks := #[[⟨0⟩]]

theorem reachable_unusedTruth : Reachable unusedTruth [] := by
  have hblock := (Reachable.empty "f").edit (.createBlock rfl)
  have hparam := hblock.addParam 1 none rfl
  exact hparam.append ⟨0⟩ .b2b32 32 [⟨0⟩] (by decide) rfl

set_option maxRecDepth 100000 in
theorem run_lingers_unusedTruth : ∃ rs o, RuleSet.load Legalize.lowering1 = .ok rs ∧
    Reachable unusedTruth [] ∧ unusedTruth.isValid ∧ (Pass.new rs).run unusedTruth = .ok o ∧
    o.replaced = 1 ∧ ∀ j, ¬ o.func.lingers j := by
  have hv : unusedTruth.isValid := by decide +kernel
  have hrun : ((RuleSet.load Legalize.lowering1).toOption.any fun rs =>
      ((Pass.new rs).run unusedTruth).toOption.any fun o =>
        o.replaced == 1 && !o.func.isAttached ⟨0⟩) = true := by
    cbv
  cases hload : RuleSet.load Legalize.lowering1 with
  | error e => simp [hload, Except.toOption] at hrun
  | ok rs =>
    cases hok : (Pass.new rs).run unusedTruth with
    | error e => simp [hload, hok, Except.toOption] at hrun
    | ok o =>
      have hends : o.replaced = 1 ∧ o.func.isAttached ⟨0⟩ = false := by
        simpa [hload, hok, Except.toOption] using hrun
      refine ⟨rs, o, rfl, reachable_unusedTruth, hv, hok, hends.1, fun j hj => ?_⟩
      -- what lingers would have been attached before, where there was one instruction only
      obtain ⟨ha, hdead⟩ := lingers_iff.mp hj
      obtain ⟨hbefore, -⟩ :=
        (run_lingers hload rfl reachable_unusedTruth hv).1 o hok j ha hdead
      obtain ⟨_ | k⟩ := j
      · rw [hends.2] at ha
        cases ha
      · simp [isAttached, inst?, unusedTruth] at hbefore

end Pass

end Peephole

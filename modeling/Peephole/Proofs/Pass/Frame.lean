import Peephole.Proofs.Func.Frame
import Peephole.Proofs.Pass.Total

/-!
# What a run leaves alone

A rewrite builds instructions with results, moves the uses of a value and erases what is dead, all
of which spares the function that it starts from: `spares_of_commit`. So does a sequence of
rewrites, `spares_of_steps`. What a run therefore leaves alone is listed in `run_frame`.
-/

namespace Peephole

namespace Pass

open Func

variable {p : Pass} {t : RuleTable} {rs : RuleSet} {f g : Func} {gone : List InstId}

/-- A rewrite spares the function. -/
theorem spares_of_commit {P : Array Pattern} {r : Rule} {i : InstId} {b : Bindings}
    {result : ValueId} {events : List Event} (hr : r.Admitted P) (hreach : Reachable f gone)
    (hf : f.Settled gone) (hi : i ∈ f.layout) (hres : f.result? i = some result)
    (hm : r.matchInst f i = some b) (h : commit f i result r b = .ok (g, events)) : f.Spares g := by
  obtain ⟨x, e, is, -, hbuild, herase, -⟩ := commit_eq_ok hr hreach hf hi hres hm h
  obtain ⟨d, -, -, hset, hext, -, -⟩ := hr.build_eq_ok hreach hf hi hm hbuild
  obtain ⟨-, -, hset'⟩ := settled_replaceAllUses hr hreach hf hi hres hm hbuild
  have hbuilt : f.Spares e := hext.spares hf.coherent
  have hmoved : e.Spares (e.replaceAllUses result x) := spares_replaceAllUses hset.coherent _ _
  have herased : (e.replaceAllUses result x).Spares g := herase.spares hset'.coherent
  exact hbuilt.trans hf.coherent (hmoved.trans hset.coherent herased)

/-- Steps spare the function. -/
theorem spares_of_steps (hload : RuleSet.load t = .ok rs) (hp : p.rules = rs) (hf : f.Coherent)
    (h : Relation.ReflTransGen p.Step f g) : f.Spares g := by
  induction h with
  | refl => exact .refl hf
  | tail _ hstep ih =>
    obtain ⟨hreach, hset, hi, hres, hr, hm, hc⟩ := hstep
    rw [hp] at hr
    exact ih.trans hf
      (spares_of_commit (RuleSet.admitted_of_load hload hr) hreach hset hi hres hm hc)

/-- A run over a valid function leaves its name, its parameters and its blocks alone. Every block
has the same stores in the same order, and what stays attached stays in its block and in the same
order there. Instructions keep all but their operands as long as they are attached, and what is
detached has no effect. -/
theorem run_frame {o : Outcome} (hload : RuleSet.load t = .ok rs) (hp : p.rules = rs)
    (hf : Reachable f gone) (hv : f.isValid) (h : p.run f = .ok o) :
    o.func.name = f.name ∧ o.func.params = f.params ∧
      (∀ v ∈ f.params, o.func.value? v = f.value? v) ∧ o.func.blockIds = f.blockIds ∧
      (∀ b, (o.func.blockInsts b).filter (o.func.isStore ·) =
        (f.blockInsts b).filter (f.isStore ·)) ∧
      (∀ b, (o.func.blockInsts b).filter (f.isAttached ·) =
        (f.blockInsts b).filter (o.func.isAttached ·)) ∧
      ∀ i d, f.inst? i = some d → f.isAttached i → ∃ e, o.func.inst? i = some e ∧
        e.opcode = d.opcode ∧ e.width = d.width ∧ e.exact = d.exact ∧ e.result = d.result ∧
        (o.func.isAttached i → e.block = d.block) ∧ (¬ o.func.isAttached i → d.opcode.isPure) := by
  have hs := hf.settled_of_isValid hv
  obtain ⟨⟨_, -, hset⟩, hsteps⟩ := steps_of_run hload hp hf hs h
  have hspares := spares_of_steps hload hp hs.coherent hsteps
  refine ⟨hspares.name, hspares.params, fun v hmem => ?_, by rw [blockIds, blockIds, hspares.size],
    hspares.filter_isStore hs.coherent hset.coherent,
    hspares.filter_blockInsts hs.coherent hset.coherent, fun i d hd ha => ?_⟩
  · obtain ⟨k, hk⟩ := List.mem_iff_getElem?.mp hmem
    obtain ⟨c, w, hvalue⟩ := hs.coherent.parameter.mp hk
    rw [hvalue, hspares.value? hvalue]
  · obtain ⟨e, he, hop, hw, hexact, hres, hblock⟩ := hspares.inst? hd
    refine ⟨e, he, hop, hw, hexact, hres, fun ha' => ?_, fun hout => ?_⟩
    · rw [← hspares.block_eq hd ha', he, Option.bind_some]
    · refine (hblock.resolve_left fun hsame => hout ?_).2
      obtain ⟨d', b, hd', hb⟩ := isAttached_iff.mp ha
      obtain rfl := Option.some.inj (hd.symm.trans hd')
      exact isAttached_iff.mpr ⟨e, b, he, hsame.trans hb⟩

theorem run_frame_widenedTruth : ∃ rs o, RuleSet.load Legalize.lowering1 = .ok rs ∧
    Reachable widenedTruth [] ∧ widenedTruth.isValid ∧
    (Pass.new rs).run widenedTruth = .ok o ∧ o.func.params = [⟨0⟩] ∧
    (o.func.blockInsts ⟨0⟩).filter (o.func.isStore ·) = [⟨1⟩] := by
  obtain ⟨rs, hload, htotal⟩ := lowering1_total
  have hv : widenedTruth.isValid := by decide +kernel
  obtain ⟨o, ho⟩ := run_ok_of_total (p := .new rs) hload rfl htotal reachable_widenedTruth
    (reachable_widenedTruth.settled_of_isValid hv).isStructural
  obtain ⟨-, hparams, -, -, hstores, -⟩ := run_frame hload rfl reachable_widenedTruth hv ho
  exact ⟨rs, o, hload, reachable_widenedTruth, hv, ho, hparams, hstores ⟨0⟩⟩

end Pass

end Peephole

import Peephole.Proofs.Pass.Safe

/-!
# Lifting local soundness

A rule set is **locally sound** when every replacement of a match, built in place of the result that
it matches, leaves the function valid and has the same literal as that result on all arguments. Runs
of such a rule set over a valid function return, and the function at the end is valid and stores the
same literals in the same order.
-/

namespace Peephole

open Func

/-- A rule set is **locally sound** when its matches lead to sound replacements in all functions. -/
def RuleSet.LocallySound (rs : RuleSet) : Prop := rs.SoundAmong fun _ => True

/-- Rule sets of rules that are safe wherever they match are locally sound. -/
theorem RuleSet.locallySound_of_isSafe {t : RuleTable} {rs : RuleSet}
    (hload : RuleSet.load t = .ok rs) (h : ∀ (k : Nat) r, rs.rules[k]? = some r → r.IsSafe []) :
    rs.LocallySound := by
  intro f gone hf hv _ i hi k r b hr hm
  have havoid : f.Avoids [] := fun _ _ _ _ => List.not_mem_nil
  obtain ⟨x, g, events, hbuild, hg, -, heq⟩ :=
    soundAmong_of_isSafe hload h f gone hf hv havoid i hi k r b hr hm
  exact ⟨x, g, events, hbuild, hg, trivial, heq⟩

namespace Pass

/-! ### A double complement -/

/-- The rule that takes a complement of a complement away. -/
def complements : RuleTable :=
  .ofRules "complements"
    [{ search := .op .inot 32 [.op .inot 32 [.value 0 (.of 32)]], replace := .value 0 (.of 32) }]

/-- A function that stores the complement of the complement of its parameter. -/
def complemented : Func where
  name := "f"
  params := [⟨0⟩]
  values := #[⟨.parameter 0 none, 32⟩, ⟨.result ⟨0⟩, 32⟩, ⟨.result ⟨1⟩, 32⟩]
  chains := #[[⟨⟨0⟩, 0⟩], [⟨⟨1⟩, 0⟩], [⟨⟨2⟩, 0⟩]]
  insts := #[⟨.inot, 32, false, [⟨0⟩], some ⟨1⟩, some ⟨0⟩⟩,
    ⟨.inot, 32, false, [⟨1⟩], some ⟨2⟩, some ⟨0⟩⟩, ⟨.store, 0, false, [⟨2⟩], none, some ⟨0⟩⟩]
  blocks := #[[⟨0⟩, ⟨1⟩, ⟨2⟩]]

theorem reachable_complemented : Reachable complemented [] := by
  have hblock := (Reachable.empty "f").edit (.createBlock rfl)
  have hparam := hblock.addParam 32 none rfl
  have hinner : Reachable ⟨"f", [⟨0⟩], #[⟨.parameter 0 none, 32⟩, ⟨.result ⟨0⟩, 32⟩],
      #[[⟨⟨0⟩, 0⟩], []], #[⟨.inot, 32, false, [⟨0⟩], some ⟨1⟩, some ⟨0⟩⟩], #[[⟨0⟩]]⟩ [] :=
    hparam.append ⟨0⟩ .inot 32 [⟨0⟩] (by decide) rfl
  have houter := hinner.append ⟨0⟩ .inot 32 [⟨1⟩] (by decide) rfl
  exact houter.append ⟨0⟩ .store 0 [⟨2⟩] (by decide) rfl

/-- A complement of a complement is the masked literal that it started from. -/
theorem complement_complement {a : Literal} (hw : a.width = 32) (ha : a.IsMasked) :
    Literal.of (~~~(~~~a.bits &&& mask 32)) 32 = a := by
  obtain ⟨bits, w⟩ := a
  obtain rfl : w = 32 := hw
  rw [Literal.IsMasked] at ha
  have hbits : ~~~(~~~bits &&& mask 32) &&& mask 32 = bits &&& mask 32 := by
    refine BitVec.eq_of_getLsbD_eq fun i hi => ?_
    simp only [BitVec.getLsbD_and, BitVec.getLsbD_not, hi, decide_true, Bool.true_and]
    cases bits.getLsbD i <;> cases (mask 32).getLsbD i <;> rfl
  rw [Literal.of, hbits, ha]

/-- The rule may be built, since it builds nothing, and denotes what it replaces. -/
theorem isSafe_complements {r : Rule} {x : TermRule}
    (hx : x = ⟨.op .inot 32 [.op .inot 32 [.value 0 (.of 32)]], .value 0 (.of 32)⟩)
    (hsearch : x.search.Denotes r.search) (hreplace : x.replace.Denotes r.replace) :
    r.IsSafe [] := by
  subst hx
  refine ⟨_, _, hsearch.chain, .inr ⟨32, rfl, fun ω expected _ => ?_, fun σ l hσ hl expected => ?_⟩⟩
  · rw [hreplace.eq_var, Pattern.allForms]
  · have hnot (slot : Nat) (children : List Nat) (q : Pattern) (expected : Option Nat) :
        (Pattern.expr slot ⟨.single .inot, some 32, children, false, false, false, none⟩ none
          [q]).meaning σ expected =
          (q.meaning σ (some 32)).map fun a => .of (~~~a.bits) 32 := by
      have hev (a : Literal) : evaluate .inot 32 [a] = .ok (some (~~~a.bits &&& mask 32)) := rfl
      rw [Pattern.meaning_expr rfl rfl]
      simp only [Opcode.info, OpInfo.unary, Pattern.meanings_cons, Pattern.meanings_nil,
        Build.sourceWidth]
      cases q.meaning σ (some 32) with
      | none => rfl
      | some a => simp [hev, Except.toOption, Literal.of, BitVec.and_assoc]
    obtain ⟨_, _, q, hq, heq⟩ := hsearch.eq_op
    obtain ⟨_, _, y, hy, rfl⟩ := hq.eq_op
    obtain rfl := hy.eq_var
    rw [heq, hnot, hnot, Pattern.meaning] at hl
    rw [hreplace.eq_var, Pattern.meaning, ← hl]
    cases ha : σ 0 with
    | none => rfl
    | some a =>
      obtain ⟨hw, hmasked⟩ := hσ a ha
      exact congrArg some (complement_complement hw hmasked).symm

set_option maxRecDepth 100000 in
theorem load_complements : ∃ rs, RuleSet.load complements = .ok rs :=
  RuleSet.exists_load (by decide +kernel)

/-! ### Runs -/

/-- Local soundness lifts to runs: over a valid function, a run of a locally sound rule set returns
a valid function that stores the same literals, on all arguments. -/
theorem run_sound {p : Pass} {t : RuleTable} {rs : RuleSet} {f : Func} {gone : List InstId}
    (hload : RuleSet.load t = .ok rs) (hsound : rs.LocallySound) (hp : p.rules = rs)
    (hf : Reachable f gone) (hv : f.isValid) :
    ∃ o, p.run f = .ok o ∧ o.func.isValid ∧ ∀ args, args.length = f.params.length →
      ∃ ls, f.stores args = some ls ∧ o.func.stores args = some ls := by
  obtain ⟨o, ho, hvalid, hsame⟩ :=
    run_ok_of_soundAmong hload hp hsound (fun _ _ _ _ _ => trivial) hf hv trivial
  exact ⟨o, ho, hvalid, hsame.stores⟩

theorem run_sound_complemented : ∃ rs o, RuleSet.load complements = .ok rs ∧ rs.LocallySound ∧
    Reachable complemented [] ∧ complemented.isValid ∧ (Pass.new rs).run complemented = .ok o ∧
    o.func.isValid ∧ ∃ ls, complemented.stores [5] = some ls ∧ o.func.stores [5] = some ls := by
  obtain ⟨rs, hload⟩ := load_complements
  have hsound : rs.LocallySound := RuleSet.locallySound_of_isSafe hload fun k r hr => by
    obtain ⟨x, hx, hsearch, hreplace⟩ := RuleSet.exists_termRule hload hr
    exact isSafe_complements (List.mem_singleton.mp hx) hsearch hreplace
  have hv : complemented.isValid := by decide +kernel
  obtain ⟨o, ho, hvalid, hstores⟩ := run_sound (p := .new rs) hload hsound rfl
    reachable_complemented hv
  exact ⟨rs, o, hload, hsound, reachable_complemented, hv, ho, hvalid, hstores [5] rfl⟩

end Pass

end Peephole

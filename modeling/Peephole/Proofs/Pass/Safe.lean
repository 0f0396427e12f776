import Peephole.Proofs.Pass.Local
import Peephole.Proofs.Rule.Term

/-!
# Safe rules

Many rules look for one operation after another of a variable, a **chain**. Such a rule is **safe**
where some operations are absent if the inner operation is one of them, so that the rule never
matches, or if what the rule builds may be built and denotes what it replaces. Rule sets of safe
rules are sound among the functions that avoid these operations.
-/

namespace Peephole

open Func

/-! ### Chains -/

/-- The pattern of one operation after another of a variable. -/
inductive Pattern.Chain (v : VariableSlot) (inner : Opcode) : Pattern → Prop
  | mk {slot slot' e e'} (plain : e.width.isSome ∧ e.commutative = false)
      (plain' : e'.width.isSome ∧ e'.commutative = false) (op : e'.op = .single inner) :
      Chain v inner (.expr slot e none [.expr slot' e' none [.var v none]])

variable {v : VariableSlot} {inner : Opcode} {p : Pattern}

theorem Pattern.Chain.isPlain (h : Pattern.Chain v inner p) : p.isPlain := by
  obtain ⟨⟨hw, hc⟩, ⟨hw', hc'⟩, -⟩ := h
  simp [isPlain, arePlain, hw, hc, hw', hc']

/-- A chain is matched by an instruction on the result of the inner operation. -/
theorem Pattern.Chain.of_matchInst {f : Func} {gone : List InstId} {r : Rule} {i : InstId}
    {b : Bindings} (h : Pattern.Chain v inner r.search) (hf : f.Settled gone) (hi : i ∈ f.layout)
    (hm : r.matchInst f i = some b) :
    (∃ j ∈ f.layout, ∃ d, f.inst? j = some d ∧ d.opcode = inner) ∧
      v.widths.allows (b.width f v.index) := by
  obtain ⟨x, swapped, os, hx, hfits⟩ := r.fits_of_matchInst hm
  have hplaced := hfits.placed
  have hbound : (b v.index).isSome := by
    refine (hfits.bound v.index).mpr (.inr ?_)
    generalize r.search = p at h
    cases h
    simp [Pattern.mentions, Pattern.mentionsAny]
  obtain ⟨y, hy⟩ := Option.isSome_iff_exists.mp hbound
  obtain ⟨o, ho, -, -, haccepts⟩ := hfits.exists_occurrence hy
  rw [Bindings.width, hy]
  generalize r.search = p at h hplaced
  obtain ⟨-, -, hop⟩ := h
  -- the outer operation is the instruction itself, and the inner one defines its operand
  obtain _ | _ | @⟨_, _, _, _, _, _, j, d, _, hdef, hd, -, sources⟩ := hplaced
  obtain rfl := hf.coherent.result_inj (hf.coherent.definer?_eq_some.mp hdef) hx
  obtain ⟨z, hz, hinner⟩ := sources.eq_singleton
  have hmem : z ∈ f.operands j :=
    Pattern.mem_operands_of_exchanged hd (hz ▸ List.mem_cons_self)
  obtain _ | _ | @⟨_, _, _, _, _, _, j', d', _, hdef', hd', haccepted, sources'⟩ := hinner
  obtain ⟨u, -, hvar⟩ := sources'.eq_singleton
  obtain _ | _ | _ := hvar
  have hprec := hf.coherent.definer_precedes (hf.defined j hi z hmem) hdef'
  refine ⟨⟨j', hprec.mem_left, d', hd', ?_⟩, ?_⟩
  · simp only [ExpressionSlot.accepts, hop, Operation.covers, Bool.and_eq_true, beq_iff_eq]
      at haccepted
    exact haccepted.1.1.1.symm
  · obtain rfl := List.mem_singleton.mp ho
    simp only [VariableSlot.accepts, Bool.and_eq_true] at haccepts
    exact haccepts.1.1.1

/-- The term of one operation after another of a variable denotes a chain. -/
theorem Term.Denotes.chain {op op' : Opcode} {w n : Nat}
    (h : (Term.op op w [.op op' n [.var v]]).Denotes p) : Pattern.Chain v op' p := by
  obtain ⟨_, _, q, hq, rfl⟩ := h.eq_op
  obtain ⟨_, _, x, hx, rfl⟩ := hq.eq_op
  obtain rfl := hx.eq_var
  exact .mk ⟨rfl, rfl⟩ ⟨rfl, rfl⟩ rfl

/-! ### Safe rules -/

/-- What reads no float may be built where float readers may not, if it accepts its sources. -/
theorem Opcode.mayBuild_of_fits {absent : List Opcode} {op : Opcode} {w : Nat}
    {ws : List (Option Nat)} (habsent : ∀ o ∈ absent, o.info.sourceClasses[0]? = some .float)
    (hop : op.info.sourceClasses[0]? ≠ some .float) (hr : op.hasResult)
    (hfits : op.fits w (ws.map (·.getD 0))) : op.mayBuild absent w ws := by
  have hnot : op ∉ absent := fun hmem => hop (habsent op hmem)
  simp [mayBuild, hr, hnot, hfits]

/-- Whether a rule is **safe** where operations are absent: its search pattern is a chain, and
either the inner operation is absent, or what the rule builds may be built and denotes what it
replaces. -/
def Rule.IsSafe (absent : List Opcode) (r : Rule) : Prop :=
  ∃ v inner, Pattern.Chain v inner r.search ∧ (inner ∈ absent ∨ ∃ s, v.widths = .of s ∧
    (∀ ω expected, ω v.index = s → r.replace.allForms (Opcode.mayBuild absent) ω expected) ∧
    ∀ σ l, (∀ a, σ v.index = some a → a.width = s ∧ a.IsMasked) →
      r.search.meaning σ none = some l → ∀ expected, r.replace.meaning σ expected = some l)

/-- Rule sets of safe rules are sound among functions that avoid the absent operations. -/
theorem RuleSet.soundAmong_of_isSafe {t : RuleTable} {rs : RuleSet} {absent : List Opcode}
    (hload : RuleSet.load t = .ok rs)
    (h : ∀ (k : Nat) r, rs.rules[k]? = some r → r.IsSafe absent) :
    rs.SoundAmong (Func.Avoids absent) := by
  intro f gone hreach hv havoid i hi k r b hr hm
  have hadm := RuleSet.admitted_of_load hload hr
  have hf := hreach.settled_of_isValid hv
  obtain ⟨d, hd⟩ := Option.isSome_iff_exists.mp (hf.coherent.exists_of_mem_layout hi)
  cases hres : d.result with
  | none => simp [RuleSet.matchTransform, requireInst, hd, hres] at hm
  | some result =>
    have hresult : f.result? i = some result := by rw [result?, hd, Option.bind_some, hres]
    rw [RuleSet.matchTransform_eq hr hresult, Except.ok.injEq] at hm
    obtain ⟨v, inner, hchain, hsafe⟩ := h k r hr
    obtain ⟨⟨j, hj, e, he, hop⟩, hallows⟩ := hchain.of_matchInst hf hi hm
    obtain habsent | ⟨s, hs, hforms, hmeaning⟩ := hsafe
    · exact (havoid j hj e he (hop ▸ habsent)).elim
    · have hwidth : b.width f v.index = s := WidthMask.eq_of_allows (hs ▸ hallows)
      obtain ⟨x, g, events, hbuild, hvg, hg, heq⟩ := hadm.sound_of_meaning hreach hi hd hm hv
        havoid hres hchain.isPlain (hforms _ _ hwidth) fun σ hσ l hl =>
          hmeaning σ l (fun a ha => ⟨(hσ _ a ha).1.trans hwidth, (hσ _ a ha).2⟩) hl _
      refine ⟨x, g, events, hbuild, hvg, hg, fun args result' hargs hres' => ?_⟩
      rw [hresult] at hres'
      cases hres'
      exact heq args hargs

end Peephole

import Peephole.Proofs.Build.Placed
import Peephole.Proofs.Pass.Widths
import Peephole.Proofs.Rule.Meaning

/-!
# Replacements as they are written

A replacement is built with folding and sharing, and means what it would mean without. On arguments
on which the function can be executed with what has been emitted, the value that has been built has
the literal that the pattern denotes when every occurrence of an expression is evaluated on its own,
`RuleSet.build_naive`. The same theorem says what has been emitted, and where.
-/

namespace Peephole

/-! ### Executions that get through -/

namespace Func

variable {f g : Func} {gone gone' : List InstId} {args : List Word} {ρ : Valuation}

/-- Whether an execution that comes to an instruction **proceeds**: the instruction has a value on
the literals that its operands have by then. -/
def Proceeds (f : Func) (args : List Word) (i : InstId) : Prop :=
  ∀ front back s, f.layout = front ++ i :: back → front.foldlM f.step (f.enter args) = some s →
    (f.step s i).isSome

/-- No instruction is in the way of an execution that comes to its end. -/
theorem proceeds_of_execute (h : (f.execute args).isSome) (i : InstId) : f.Proceeds args i := by
  intro front back s hl hs
  rw [execute, hl, List.foldlM_append, hs] at h
  simp only [Option.bind_eq_bind, Option.bind_some, List.foldlM_cons] at h
  cases hi : f.step s i with
  | none => simp [hi] at h
  | some t => rfl

/-- An instruction at which executions proceed has a value on what a model of the instructions
before it says. -/
theorem Settled.evaluate_of_proceeds (hf : f.Settled gone) (hargs : args.length = f.params.length)
    {front back : List InstId} {i : InstId} (hl : f.layout = front ++ i :: back)
    (h : f.Models args front ρ) {d : Inst} (hd : f.inst? i = some d) (hr : d.opcode.hasResult)
    (hproceeds : f.Proceeds args i) :
    ∃ bits, evaluate d.opcode d.width (d.operands.map ρ) = .ok (some bits) := by
  obtain ⟨s, hs, -, henv⟩ := hf.exists_foldlM_step_of_models hargs hl h
  have hstep := hproceeds front back s hl hs
  have hsources : d.operands.mapM (f.literalIn? s.env) = some (d.operands.map ρ) := by
    refine mapM_eq_some_map fun v hv => henv v ?_
    rw [← hf.coherent.available_iff_determined hl]
    exact hf.defined i (by simp [hl]) v (by rwa [operands, hd])
  obtain ⟨v, hv⟩ := Option.isSome_iff_exists.mp ((hf.coherent.produces hd).trans hr)
  cases heval : evaluate d.opcode d.width (d.operands.map ρ) with
  | error e => simp [step, hd, hsources, hv, heval, Except.toOption] at hstep
  | ok bits? =>
    cases bits? with
    | none => simp [step, hd, hsources, hv, heval, Except.toOption] at hstep
    | some bits => exact ⟨bits, rfl⟩

/-- What extends a valid function has a value everywhere if executions proceed at what it has more.
-/
theorem Extends.evaluates (e : f.Extends g) (hf : f.Settled gone) (hfit : f.Fitting)
    (hg : g.Settled gone') (hargs : args.length = f.params.length)
    (hproceeds : ∀ i ∈ g.layout, f.inst? i = none → g.Proceeds args i) : g.Evaluates args := by
  intro front i back ρ d hl hρ hd hr
  have hi : i ∈ g.layout := by simp [hl]
  have hargs : args.length = g.params.length := hargs.trans (by rw [e.params])
  cases hold : f.inst? i with
  | none => exact hg.evaluate_of_proceeds hargs hl hρ hd hr (hproceeds i hi hold)
  | some d' =>
    obtain rfl : d' = d := Option.some.inj ((e.inst? hold).symm.trans hd)
    have hmem : i ∈ f.layout := by
      rw [e.layout, List.mem_filter]
      exact ⟨hi, by rw [hold]; rfl⟩
    have hwidths : d'.operands.map g.width = d'.operands.map f.width :=
      List.map_congr_left fun v hv => e.width (hf.coherent.known hold hv)
    exact hg.exists_evaluate hargs hl hρ hd hr (hwidths ▸ hfit i hmem d' hold)

/-- A model of what extends a function tells the literals in the function. -/
theorem Extends.finally?_eq (e : f.Extends g) (hf : f.Settled gone)
    (hargs : args.length = f.params.length) (hρ : g.Models args g.layout ρ) {v : ValueId}
    (hv : f.Determined f.layout v) : f.finally? args v = some (ρ v) :=
  hf.finally?_eq hargs (e.simplifies.models hf.coherent (blind_of_eq fun _ => rfl) hρ) hv

end Func

open Func Build

section Build

variable {P : Array Pattern} {r : Rule} {f g : Func} {gone : List InstId} {i : InstId}
  {b : Bindings} {x : ValueId} {events : List Event} (hr : r.Admitted P)
  (hreach : Reachable f gone) (hf : f.Settled gone) (hi : i ∈ f.layout)
  (hm : r.matchInst f i = some b) (hbuild : r.replace.build f b i = .ok (x, g, events))
include hr hreach hf hi hm hbuild

/-- The value of a replacement has the literal that the pattern denotes. -/
theorem Rule.Admitted.meaning_of_build (hfit : f.Fitting) {args : List Word}
    (hargs : args.length = f.params.length)
    (hproceeds : ∀ j ∈ g.layout, f.inst? j = none → g.Proceeds args j) {d : Inst}
    (hd : f.inst? i = some d) :
    ∃ l, g.finally? args x = some l ∧
      r.replace.meaning (fun k => (b k).bind (f.finally? args)) (some d.width) = some l := by
  obtain ⟨d', hd', -, hg, ext, -, hreal⟩ := hr.build_eq_ok hreach hf hi hm hbuild
  obtain rfl := Option.some.inj (hd.symm.trans hd')
  have hargs' : args.length = g.params.length := hargs.trans (by rw [ext.params])
  obtain ⟨ρ, hρ⟩ := hg.exists_models_of_evaluates (ext.evaluates hf hfit hg hargs hproceeds)
  -- what the variables are bound to has the same literal in both functions
  have hbound : (fun k => (b k).bind (f.finally? args)) = b.literals ρ := by
    funext k
    cases hk : b k with
    | none => rw [Bindings.literals, hk]; rfl
    | some v =>
      have hav := hr.available hf.coherent hf.defined hi hm hk
      rw [Bindings.literals, hk, Option.bind_some, ext.finally?_eq hf hargs hρ hav.determined]
      rfl
  refine ⟨ρ x, hg.finally?_eq hargs' hρ hreal.available.determined, ?_⟩
  rw [hbound]
  exact hreal.meaning hg.coherent hargs' hρ

/-- What is recorded when a replacement has been built. -/
theorem Rule.Admitted.records_of_build {d : Inst} (hd : f.inst? i = some d) :
    ∃ s, s.func = g ∧ Records P ⟨b, i, d.exact⟩ f s ∧
      ∀ entry ∈ s.built, ∃ q, r.replace.Contains q ∧ P[entry.1]? = some q := by
  unfold Pattern.build at hbuild
  simp only [requireInst, hd, Option.elim_some, ok_bind] at hbuild
  obtain ⟨⟨y, s⟩, hvalue, h⟩ := bind_eq_ok.mp hbuild
  cases h
  have hstart : Records P ⟨b, i, d.exact⟩ f ⟨f, [], []⟩ :=
    ⟨⟨[], inserts_refl hi⟩, List.nodup_nil, fun {j e} hj hnone => by simp [hnone] at hj⟩
  obtain ⟨hrec, hwithin⟩ := records_of_value r.replace _ _ s y hr.replace
    (hr.sound hreach hf hi hm d.exact) hf.coherent.extends_refl hstart hvalue
  refine ⟨s, rfl, hrec, fun entry hentry => ?_⟩
  obtain hold | ⟨p, hp, q, inside, hq⟩ := hwithin entry hentry
  · cases hold
  · exact ⟨q, by rwa [List.mem_singleton.mp hp] at inside, hq⟩

end Build

/-- The expressions that instructions have been made for, of which there is no pair of one slot and
one width. -/
theorem Build.Records.exists_slots {P : Array Pattern} {site : Site} {f : Func} {s : State}
    (h : Records P site f s) (hs : s.func.Coherent) :
    ∃ slot : InstId → Nat, ∀ j e, s.func.inst? j = some e → f.inst? j = none →
      MadeFor P site s.func e (slot j) ∧ (∃ x, (slot j, e.width, x) ∈ s.built) ∧
        ∀ j' e', s.func.inst? j' = some e' → f.inst? j' = none → slot j' = slot j →
          e'.width = e.width → j' = j := by
  have hslot (j : InstId) : ∃ slot, ∀ e, s.func.inst? j = some e → f.inst? j = none →
      ∃ x, (slot, e.width, x) ∈ s.built ∧ e.result = some x ∧ MadeFor P site s.func e slot := by
    cases hj : s.func.inst? j with
    | none => exact ⟨0, nofun⟩
    | some e =>
      by_cases hnone : f.inst? j = none
      · obtain ⟨slot, hmade⟩ := h.made hj hnone
        exact ⟨slot, fun e' he' _ => by cases he'; exact hmade⟩
      · exact ⟨0, fun _ _ hno => absurd hno hnone⟩
  choose slot hslot using hslot
  refine ⟨slot, fun j e hj hnone => ?_⟩
  obtain ⟨x, hx, hres, hmade⟩ := hslot j e hj hnone
  refine ⟨hmade, ⟨x, hx⟩, fun j' e' hj' hnone' hsame hwidth => ?_⟩
  obtain ⟨x', hx', hres', -⟩ := hslot j' e' hj' hnone'
  have hkey : key (slot j', e'.width, x') = key (slot j, e.width, x) := by
    rw [key, key, hsame, hwidth]
  have hentry := List.inj_on_of_nodup_map h.distinct hx' hx hkey
  have hvalue : x' = x := (Prod.mk.inj (Prod.mk.inj hentry).2).2
  refine hs.result_inj (v := x) ?_ ?_
  · rw [result?, hj', Option.bind_some, hres', hvalue]
  · rw [result?, hj, Option.bind_some, hres]

variable {t : RuleTable} {rs : RuleSet} {f g : Func} {gone : List InstId} {i : InstId} {k : Nat}
  {r : Rule} {b : Bindings} {x : ValueId} {events : List Event}

/-- **Folding and sharing do not matter.** When the replacement of a rule is built for a match in a
valid function, the value has the literal that the replacement denotes as it is written, on all
arguments on which executions proceed at the emitted instructions. Every emitted instruction has
been made for an expression of the replacement, and no two of them for one slot at one width. They
stand in one piece right before the instruction that is replaced, and in its block; whatever an
instruction uses is defined before it. Nothing else has changed but for new literals: instructions
are what they were, and in the order in which they were. -/
theorem RuleSet.build_naive (hload : RuleSet.load t = .ok rs) (hreach : Reachable f gone)
    (hv : f.isValid) (hi : i ∈ f.layout) (hr : rs.rules[k]? = some r)
    (hm : rs.matchTransform f k i = .ok (some b))
    (hbuild : r.replace.build f b i = .ok (x, g, events)) :
    ∃ d, f.inst? i = some d ∧
      (∀ args, args.length = f.params.length →
        (∀ j ∈ g.layout, f.inst? j = none → g.Proceeds args j) →
        ∃ l, g.finally? args x = some l ∧
          r.replace.meaning (fun n => (b n).bind (f.finally? args)) (some d.width) = some l) ∧
      (∃ slot : InstId → Nat, ∀ j e, g.inst? j = some e → f.inst? j = none →
        MadeFor rs.patterns ⟨b, i, d.exact⟩ g e (slot j) ∧
        (∃ q, r.replace.Contains q ∧ rs.patterns[slot j]? = some q) ∧
        ∀ j' e', g.inst? j' = some e' → f.inst? j' = none → slot j' = slot j →
          e'.width = e.width → j' = j) ∧
      (∃ new, f.Inserts i new g) ∧ g.Defined ∧ f.Extends g := by
  have hf := hreach.settled_of_isValid hv
  have hadm := RuleSet.admitted_of_load hload hr
  have hmatch := RuleSet.matchInst_of_matchTransform hr hm
  obtain ⟨d, hd, -, hg, ext, -, -⟩ := hadm.build_eq_ok hreach hf hi hmatch hbuild
  obtain ⟨s, rfl, hrec, hbuilt⟩ := hadm.records_of_build hreach hf hi hmatch hbuild hd
  obtain ⟨slot, hslot⟩ := hrec.exists_slots hg.coherent
  refine ⟨d, hd, fun args hargs hproceeds => hadm.meaning_of_build hreach hf hi hmatch hbuild
    (hf.isValid_iff_fitting.mp hv) hargs hproceeds hd, ⟨slot, fun j e hj hnone => ?_⟩,
    hrec.inserts, hg.defined, ext⟩
  obtain ⟨hmade, ⟨y, hy⟩, hone⟩ := hslot j e hj hnone
  exact ⟨hmade, hbuilt _ hy, hone⟩

/-- The rule that a number is negated by subtracting it from zero. The zero is written as a
difference, and the whole twice over. -/
def negations : RuleTable :=
  let subtracted := .op .isub 32 [.op .isub 32 [.int 32 1, .int 32 1], .value 0 (.of 32)]
  .ofRules "negations"
    [{ search := .op .ineg 32 [.value 0 (.of 32)]
       replace := .op .iand 32 [subtracted, subtracted] }]

set_option maxRecDepth 100000 in
/-- Two instructions are emitted for a replacement with five operations, for different expressions
of it, and they come to its literal. -/
theorem RuleSet.build_naive_doubledNegation : ∃ rs r b x g events,
    RuleSet.load negations = .ok rs ∧ Reachable Pass.doubledNegation [] ∧
    Pass.doubledNegation.isValid ∧ ⟨0⟩ ∈ Pass.doubledNegation.layout ∧ rs.rules[0]? = some r ∧
    rs.matchTransform Pass.doubledNegation 0 ⟨0⟩ = .ok (some b) ∧
    r.replace.build Pass.doubledNegation b ⟨0⟩ = .ok (x, g, events) ∧
    g.layout = [⟨3⟩, ⟨4⟩, ⟨0⟩, ⟨1⟩, ⟨2⟩] ∧ g.finally? [5] x = some ⟨0xfffffffb, 32⟩ ∧
    r.replace.meaning (fun n => (b n).bind (Pass.doubledNegation.finally? [5])) (some 32) =
      some ⟨0xfffffffb, 32⟩ ∧
    ∃ slot : InstId → Nat, slot ⟨3⟩ ≠ slot ⟨4⟩ ∧
      ∀ j ∈ [(⟨3⟩ : InstId), ⟨4⟩], ∃ q, r.replace.Contains q ∧ rs.patterns[slot j]? = some q := by
  have hv : Pass.doubledNegation.isValid := by decide +kernel
  have hi : ⟨0⟩ ∈ Pass.doubledNegation.layout := by decide
  have hrun : ((RuleSet.load negations).toOption.any fun rs => rs.rules[0]?.any fun r =>
      (rs.matchTransform Pass.doubledNegation 0 ⟨0⟩).toOption.join.any fun b =>
        (r.replace.build Pass.doubledNegation b ⟨0⟩).toOption.any fun y =>
          decide (y.2.1.layout = [⟨3⟩, ⟨4⟩, ⟨0⟩, ⟨1⟩, ⟨2⟩] ∧ (y.2.1.execute [5]).isSome ∧
            y.2.1.finally? [5] y.1 = some ⟨0xfffffffb, 32⟩ ∧
            (y.2.1.inst? ⟨3⟩).map (·.width) = some 32 ∧
            (y.2.1.inst? ⟨4⟩).map (·.width) = some 32)) = true := by
    decide +kernel
  obtain ⟨rs, hload, hrun⟩ := (Option.any_eq_true _ _).mp hrun
  obtain ⟨r, hr, hrun⟩ := (Option.any_eq_true _ _).mp hrun
  obtain ⟨b, hm, hrun⟩ := (Option.any_eq_true _ _).mp hrun
  obtain ⟨⟨x, g, events⟩, hbuild, hrun⟩ := (Option.any_eq_true _ _).mp hrun
  simp only [decide_eq_true_eq, Option.map_eq_some_iff] at hrun
  obtain ⟨hlayout, hexecute, hx, ⟨d₃, h₃, hw₃⟩, d₄, h₄, hw₄⟩ := hrun
  have hload := toOption_eq_some.mp hload
  have hm := toOption_eq_some.mp (Option.join_eq_some_iff.mp hm)
  have hbuild := toOption_eq_some.mp hbuild
  obtain ⟨d, hd, hmeaning, ⟨slot, hslot⟩, -⟩ :=
    RuleSet.build_naive hload Pass.reachable_doubledNegation hv hi hr hm hbuild
  cases hd
  obtain ⟨l, hl, hr'⟩ := hmeaning [5] rfl fun j _ _ => proceeds_of_execute hexecute j
  obtain rfl := Option.some.inj (hl.symm.trans hx)
  obtain ⟨-, hin₃, -⟩ := hslot ⟨3⟩ d₃ h₃ rfl
  obtain ⟨-, hin₄, hone⟩ := hslot ⟨4⟩ d₄ h₄ rfl
  refine ⟨rs, r, b, x, g, events, hload, Pass.reachable_doubledNegation, hv, hi, hr, hm, hbuild,
    hlayout, hx, hr', slot, fun hsame => ?_, by simpa using ⟨hin₃, hin₄⟩⟩
  cases hone ⟨3⟩ d₃ h₃ rfl hsame (hw₃.trans hw₄.symm)

end Peephole

import Peephole.Proofs.Legalize.Converge
import Peephole.Proofs.Legalize.Feeds

/-!
# The joint fixpoint of the passes

What one pass has removed, the later ones do not bring back. The narrowing rules for `n` bits look
for an operation on what another one yields at `n` bits. A later rewrite replaces results of other
widths, by values of the same width, so that no such pair comes about by redirecting an operand;
what it builds clashes with what the rules look for; and all other pairs have been there before. So
an **exhausted** rule set stays exhausted, `exhausted_of_commit`, and after the last pass there is
nothing left to do for any of them.
-/

namespace Peephole

open Func

/-- Whether no rule of a rule set matches an attached instruction. -/
def RuleSet.Exhausted (rs : RuleSet) (f : Func) : Prop :=
  ∀ i ∈ f.layout, ∀ (k : Nat) r, rs.rules[k]? = some r → r.matchInst f i = none

/-- Whether a function that can be built is valid, and nothing is left in it for some rule sets. -/
def Func.DoneWith (sets : List RuleSet) (f : Func) : Prop :=
  (∃ gone, Reachable f gone ∧ f.isValid) ∧ ∀ rs ∈ sets, rs.Exhausted f

theorem Func.DoneWith.exists_settled {sets : List RuleSet} {f : Func} (h : f.DoneWith sets) :
    ∃ gone, Reachable f gone ∧ f.Settled gone := by
  obtain ⟨⟨gone, hreach, hv⟩, -⟩ := h
  exact ⟨gone, hreach, hreach.settled_of_isValid hv⟩

namespace Legalize

variable {f g h : Func} {gone : List InstId} {i : InstId} {d e d' e' : Inst} {op op' : Opcode}
  {w n k : Nat} {m : WidthMask} {rules sought : List TermRule} {rs rs' : RuleSet}

/-! ### Chains -/

/-- Whether two instructions are one operation on what another one yields from a value of an allowed
width. -/
structure IsChain (f : Func) (op op' : Opcode) (w n : Nat) (m : WidthMask) (e d : Inst) : Prop where
  outer : d.opcode = op ∧ d.width = w
  unary : d.result.isSome ∧ (d.operands.map f.width).length = 1
  inner : e.opcode = op' ∧ e.width = n
  allowed : ∃ s, e.operands.map f.width = [s] ∧ m.allows s

/-- Being a chain is a matter of operations and of widths. -/
theorem IsChain.of_resembles (h : IsChain f op op' w n m e d) (he : Resembles f e g e')
    (hd : Resembles f d g d') : IsChain g op op' w n m e' d' where
  outer := ⟨hd.opcode ▸ h.outer.1, hd.width ▸ h.outer.2⟩
  unary := ⟨hd.result ▸ h.unary.1, hd.operands ▸ h.unary.2⟩
  inner := ⟨he.opcode ▸ h.inner.1, he.width ▸ h.inner.2⟩
  allowed := he.operands ▸ h.allowed

/-- The matches of an operation on what another one yields. -/
theorem matches_iff_isChain {P : Array Pattern} {r : Rule} (hf : f.Coherent) (hr : r.Admitted P)
    (h : (Term.op op w [.op op' n [.value k m]]).Denotes r.search) :
    (r.matchInst f i).isSome ↔ ∃ e d, FeedsAt f e i d ∧ IsChain f op op' w n m e d := by
  have haccepts (u : ValueId) :
      VariableSlot.accepts ⟨k, m, false, none, none⟩ none f u = m.allows (f.width u) := by
    simp [VariableSlot.accepts]
  rw [Option.isSome_iff_exists]
  constructor
  · rintro ⟨b, hb⟩
    obtain ⟨x, z, u, hx, hz, ⟨j, e, hj, he, hop', hn, hu⟩, hallows, -⟩ :=
      (h.matchInst_iff_two hr).mp hb
    obtain ⟨d, hd, hdx⟩ := Option.bind_eq_some_iff.mp hx
    obtain ⟨hop, hw, hoperands⟩ := (hf.yields_iff hd hx).mp hz
    refine ⟨e, d, ⟨hd, z, by simp [hoperands], j, hj, he⟩, ⟨hop, hw⟩, ?_, ⟨hop', hn⟩, ?_⟩
    · exact ⟨by rw [hdx]; rfl, by rw [hoperands]; rfl⟩
    · exact ⟨f.width u, by rw [hu]; rfl, by rwa [haccepts] at hallows⟩
  · rintro ⟨e, d, ⟨hd, z, hz, j, hj, he⟩, ⟨hop, hw⟩, ⟨hres, hone⟩, ⟨hop', hn⟩, s, hs, hallows⟩
    obtain ⟨x, hdx⟩ := Option.isSome_iff_exists.mp hres
    have hx : f.result? i = some x := by rw [result?, hd, Option.bind_some, hdx]
    rw [List.length_map] at hone
    obtain ⟨z', hz'⟩ := List.length_eq_one_iff.mp hone
    obtain rfl : z = z' := by simpa [hz'] using hz
    obtain ⟨u, hu, rfl⟩ := List.map_eq_singleton_iff.mp hs
    exact ⟨_, (h.matchInst_iff_two hr).mpr ⟨x, z, u, hx,
      (hf.yields_iff hd hx).mpr ⟨hop, hw, hz'⟩, ⟨j, e, hj, he, hop', hn, hu⟩,
      by rwa [haccepts], rfl⟩⟩

/-- Whether a rule looks for a wide operation on what another one yields at `n` bits. -/
def LooksThrough (n : Nat) (y : TermRule) : Prop :=
  ∃ op op' w k m, w ∈ wide n ∧ y.search = .op op w [.op op' n [.value k m]]

theorem looksThrough_convert {outer inner : Family} {replace : Term}
    (hop : outer.withWidth? w = some op) (hop' : inner.withWidth? n = some op') (hw : w ∈ wide n) :
    LooksThrough n ⟨.convert outer w (.convert inner n (.value k m)), replace⟩ :=
  ⟨op, op', w, k, m, hw, by rw [Term.convert_eq_op hop', Term.convert_eq_op hop]⟩

/-- The narrowing rules look through conversions to their width. -/
theorem looksThrough_narrowing (hn : n = 8 ∨ n = 16) {y : TermRule} (hy : y ∈ narrowing n) :
    LooksThrough n y := by
  obtain ⟨outer, w, houter, hw, hy⟩ := mem_narrowing_iff.mp hy
  obtain ⟨op, hop⟩ := exists_withWidth? houter hw
  obtain ⟨inner, s, hinner, -, rfl⟩ | ⟨inner, hinner, -, rfl⟩ | ⟨inner, s, hinner, -, -, rfl⟩ :=
    mem_narrowingTo_iff.mp hy
  · obtain ⟨op', hop'⟩ := exists_narrow hn (hinner.imp id .inl)
    exact looksThrough_convert hop hop' hw
  · obtain ⟨op', hop'⟩ := exists_narrow hn (.inr (.inr hinner))
    exact looksThrough_convert hop hop' hw
  · obtain ⟨op', hop'⟩ := exists_narrow hn (.inr (.inr hinner))
    exact looksThrough_convert hop hop' hw

theorem looksThrough_halfPacking {y : TermRule} (hy : y ∈ halfPacking) : LooksThrough 16 y := by
  simp only [halfPacking, List.mem_cons, List.not_mem_nil, or_false] at hy
  obtain rfl | rfl := hy
  · exact ⟨.f2f32, .u2u16, 32, 0, .of 32, by decide, rfl⟩
  · exact ⟨.u2u32, .f2f16Rtz, 32, 0, .of 32, by decide, rfl⟩

/-- The rules for 16 bits look through operations that yield 16 bits. -/
theorem looksThrough_of_mem_append {y : TermRule} (hy : y ∈ narrowing 16 ++ halfPacking) :
    LooksThrough 16 y := by
  obtain hy | hy := List.mem_append.mp hy
  · exact looksThrough_narrowing (.inr rfl) hy
  · exact looksThrough_halfPacking hy

/-! ### Exhausted rule sets -/

/-- A quiet function leaves nothing to rules that look through operations. -/
theorem exhausted_of_quiet {name : String} {p : Pass}
    (hload : RuleSet.load (.ofRules name rules) = .ok rs) (hp : p.rules = rs)
    (hlooks : ∀ y ∈ rules, LooksThrough n y) (hf : f.Coherent)
    (hquiet : ∀ i ∈ f.layout, p.Quiet f i) : rs.Exhausted f := by
  intro i hi k r hr
  by_contra hm
  obtain ⟨y, hy, hsearch, -⟩ := RuleSet.exists_termRule hload hr
  obtain ⟨op, op', w, v, m, -, heq⟩ := hlooks y hy
  rw [heq] at hsearch
  obtain ⟨e, d, hfeeds, hchain⟩ :=
    (matches_iff_isChain hf (RuleSet.admitted_of_load hload hr) hsearch).mp
      (Option.isSome_iff_ne_none.mpr hm)
  refine Pass.not_quiet_of_matchInst hload hp hf hfeeds.1 ?_ hy ?_ (fun P r' hr' h => ?_)
    (hquiet i hi)
  · rw [← hf.produces hfeeds.1]
    exact hchain.unary.1
  · rw [heq, hchain.outer.1, hchain.outer.2]
    rfl
  · rw [heq] at h
    exact (matches_iff_isChain hf hr' h).mpr ⟨e, d, hfeeds, hchain⟩

/-- Whether a rule leaves alone what rules look for by way of `n` bits: it replaces results of
another width, by what these rules do not match. -/
structure Spares (n : Nat) (sought : List TermRule) (x : TermRule) : Prop where
  width : ∃ op w y, w ≠ n ∧ x.search = .op op w [y]
  unmatched : Unmatched sought x.replace

/-- What a written operation matches has its width. -/
theorem width_of_matchInst {y : Term} {r : Rule} {b : Bindings} (hf : f.Coherent)
    (h : (Term.op op w [y]).Denotes r.search) (hd : f.inst? i = some d)
    (hm : r.matchInst f i = some b) : d.width = w := by
  obtain ⟨x, swapped, os, hx, hfits⟩ := r.fits_of_matchInst hm
  obtain ⟨slot, children, q, -, heq⟩ := h.eq_op
  have hplaced := hfits.placed
  rw [heq] at hplaced
  obtain _ | _ | ⟨definer, inst, accepted, -⟩ := hplaced
  obtain rfl := hf.result_inj (hf.definer?_eq_some.mp definer) hx
  obtain rfl := Option.some.inj (inst.symm.trans hd)
  simp only [ExpressionSlot.accepts, Bool.and_eq_true, Option.all_some, beq_iff_eq] at accepted
  exact accepted.1.1.2.symm

section Fires

variable {name : String} {P : Array Pattern} {r : Rule} {b : Bindings} {result v : ValueId}
  {events : List Event} {x : TermRule} (hr : x.Fires r P f gone i d result b)
  (hload : RuleSet.load (.ofRules name sought) = .ok rs)
  (hlooks : ∀ y ∈ sought, LooksThrough n y) (hspares : Spares n sought x) (hex : rs.Exhausted f)
include hr hload hlooks hspares hex

/-- A replacement that clashes with what an exhausted rule set looks for leaves it exhausted where
it is built. -/
theorem exhausted_of_build (hbuild : r.replace.build f b i = .ok (v, h, events)) :
    rs.Exhausted h := by
  have hf := hr.settled
  obtain ⟨-, -, -, hh, hext, -, -⟩ :=
    hr.admitted.build_eq_ok hr.reachable hf hr.mem hr.matched hbuild
  have hclash : r.replace.EveryExpr fun p => ∀ (k : Nat) r', rs.rules[k]? = some r' →
      p.clashes r'.search := by
    refine (hspares.unmatched _ hr.replace).imp fun p hp k r' hr' => ?_
    obtain ⟨z, hz, hsearch, -⟩ := RuleSet.exists_termRule hload hr'
    exact hp z hz _ hsearch
  intro c hc k r' hr'
  cases hold : f.inst? c with
  | some _ =>
    -- a pair that is matched now has been there before
    by_contra hmatch
    have hadm := RuleSet.admitted_of_load hload hr'
    obtain ⟨y, hy, hsearch, -⟩ := RuleSet.exists_termRule hload hr'
    obtain ⟨op, op', w, slot, m, -, heq⟩ := hlooks y hy
    rw [heq] at hsearch
    obtain ⟨e, d', hfeeds, hchain⟩ := (matches_iff_isChain hh.coherent hadm hsearch).mp
      (Option.isSome_iff_ne_none.mpr hmatch)
    obtain ⟨hcf, hfeeds, hoperands⟩ := hfeeds.of_extends hext hf.coherent hc (by rw [hold]; rfl)
    have hsame : Resembles h d' f d' := ⟨rfl, rfl, rfl,
      List.map_congr_left fun u hu => hext.width (hf.coherent.known hfeeds.1 hu)⟩
    have hsome := (matches_iff_isChain hf.coherent hadm hsearch).mpr
      ⟨e, d', hfeeds, hchain.of_resembles ⟨rfl, rfl, rfl, hoperands⟩ hsame⟩
    rw [hex c hcf k r' hr'] at hsome
    cases hsome
  | none =>
    obtain ⟨q, expected, u, hq, hreal, hu⟩ :=
      hr.admitted.emerges_of_build hr.reachable hf hr.mem hr.matched hclash hbuild c hc hold
    exact hreal.matchInst_eq_none hh.coherent (hq k r' hr') hu

/-- A rewrite by a rule that spares what an exhausted rule set looks for leaves it exhausted. -/
theorem exhausted_of_commit (hc : Pass.commit f i result r b = .ok (g, events)) :
    rs.Exhausted g := by
  intro c hcl k r' hr'
  by_contra hmatch
  have hf := hr.settled
  obtain ⟨v, h, is, gone', hbuild, -, -, hg⟩ :=
    Pass.commit_eq_ok hr.admitted hr.reachable hf hr.mem hr.result? hr.matched hc
  obtain ⟨-, -, -, hh, -, -, -⟩ :=
    hr.admitted.build_eq_ok hr.reachable hf hr.mem hr.matched hbuild
  have hadm := RuleSet.admitted_of_load hload hr'
  obtain ⟨y, hy, hsearch', -⟩ := RuleSet.exists_termRule hload hr'
  obtain ⟨op, op', w, slot, m, -, heq⟩ := hlooks y hy
  rw [heq] at hsearch'
  obtain ⟨e, d₀, hfeeds, hchain⟩ := (matches_iff_isChain hg.coherent hadm hsearch').mp
    (Option.isSome_iff_ne_none.mpr hmatch)
  obtain ⟨e', hee', ⟨d', hdd', hch, hfeeds'⟩ | ⟨j, hj, he'⟩⟩ :=
    feeds_of_commit hr.toFires hbuild hc hcl hfeeds
  · -- the pair has been there before the operands were redirected
    have hsome := (matches_iff_isChain hh.coherent hadm hsearch').mpr
      ⟨e', d', hfeeds', hchain.of_resembles hee' hdd'⟩
    rw [exhausted_of_build hr hload hlooks hspares hex hbuild c hch k r' hr'] at hsome
    cases hsome
  · -- the operand has been redirected, to a value that is too wide
    obtain ⟨o, w', z, hne, hsearcheq⟩ := hspares.width
    have hsearch := hr.search
    rw [hsearcheq] at hsearch
    have hw := width_of_definer hr.toFires hbuild hj he'
    rw [width_of_matchInst hf.coherent hsearch hr.inst? hr.matched, ← hee'.width,
      hchain.inner.2] at hw
    exact hne hw.symm

end Fires

/-- Whether written rules spare a rule set, one of rules that look through operations. -/
def SparesSet (rules : List TermRule) (rs : RuleSet) : Prop :=
  ∃ name n sought, RuleSet.load (.ofRules name sought) = .ok rs ∧
    (∀ y ∈ sought, LooksThrough n y) ∧ ∀ x ∈ rules, Spares n sought x

/-- Passes of rules that fit, and that spare exhausted rule sets, keep them exhausted. -/
theorem keeps_doneWith {name : String} {p : Pass} {sets : List RuleSet}
    (hload : RuleSet.load (.ofRules name rules) = .ok rs) (hp : p.rules = rs)
    (hfits : ∀ x ∈ rules, x.Fits) (hspares : ∀ rs' ∈ sets, SparesSet rules rs') :
    p.Keeps (Func.DoneWith sets) fun _ => False := by
  refine Pass.keeps_of_fires hload hfits (fun f => ∀ rs ∈ sets, rs.Exhausted f) hp
    fun hx hr hc hex rs' hrs' => ?_
  obtain ⟨name', n, sought, hload', hlooks, hsparesx⟩ := hspares rs' hrs'
  exact exhausted_of_commit hr hload' hlooks (hsparesx _ hx) (hex rs' hrs') hc

/-! ### Programs -/

/-- A computation for every entry of a list has results if it has one for each. -/
theorem exists_mapM_ok {ε α β : Type} (check : α → Except ε β) (R : α → β → Prop) {as : List α}
    (h : ∀ a ∈ as, ∃ b, check a = .ok b ∧ R a b) :
    ∃ bs, as.mapM check = .ok bs ∧ List.Forall₂ R as bs := by
  induction as with
  | nil => exact ⟨[], rfl, .nil⟩
  | cons a as ih =>
    rw [List.forall_mem_cons] at h
    obtain ⟨⟨b, hb, hR⟩, hrest⟩ := h
    obtain ⟨bs, hbs, hall⟩ := ih hrest
    exact ⟨b :: bs, by rw [List.mapM_cons, hb, ok_bind, hbs]; rfl, .cons hR hall⟩

variable {t : RuleTable} {m : Program} {sets : List RuleSet}

/-- What comes of running a table is told by what comes of every function. -/
theorem runTable_eq (hload : RuleSet.load t = .ok rs) {os : List Pass.Outcome}
    (hos : m.functions.mapM (Pass.new rs).run = .ok os) :
    runTable t m = .ok (os.any (·.changed), ⟨m.name, os.map (·.func)⟩,
      os.flatMap (·.events) ++ [.finished rs.name m.name (os.any (·.changed))]) := by
  simp only [runTable, hload, Except.mapError, ok_bind, Pass.runProgram, Pass.runAll, hos,
    pure_eq_ok]

/-- A table of inert rules that fit runs over a program, leaves its functions quiet, and leaves
nothing to rule sets that it spares. -/
theorem exists_runTable (sets : List RuleSet) {name : String}
    (hload : RuleSet.load (.ofRules name rules) = .ok rs) (hinert : rs.IsInert)
    (hfits : ∀ x ∈ rules, x.Fits) (hspares : ∀ rs' ∈ sets, SparesSet rules rs')
    (hm : ∀ f ∈ m.functions, f.DoneWith sets) :
    ∃ changed q events, runTable (.ofRules name rules) m = .ok (changed, q, events) ∧
      ∀ f ∈ q.functions, f.DoneWith sets ∧ ∀ i ∈ f.layout, (Pass.new rs).Quiet f i := by
  have hcap : 2 ≤ (Pass.new rs).maxIterations := Nat.le_of_ble_eq_true rfl
  obtain ⟨os, hos, hall⟩ := exists_mapM_ok (Pass.new rs).run
    (fun _ o => o.func.DoneWith sets ∧ ∀ i ∈ o.func.layout, (Pass.new rs).Quiet o.func i)
    fun f hf => by
      obtain ⟨o, ho, hdone, -, -, hquiet⟩ := Pass.run_converges hload rfl hinert
        (keeps_doneWith hload rfl hfits hspares) (fun _ h => h.exists_settled) hcap (hm f hf)
      exact ⟨o, ho, hdone, hquiet⟩
  refine ⟨os.any (·.changed), ⟨m.name, os.map (·.func)⟩, _, by rw [runTable_eq hload hos],
    fun f hf => ?_⟩
  obtain ⟨o, ho, rfl⟩ := List.mem_map.mp hf
  obtain ⟨-, -, h⟩ := exists_of_forall₂ hall ho
  exact h

/-- A table that leaves the functions of a program quiet does nothing. -/
theorem runTable_of_quiet (hload : RuleSet.load t = .ok rs)
    (hm : ∀ f ∈ m.functions, f.DoneWith sets ∧ ∀ i ∈ f.layout, (Pass.new rs).Quiet f i) :
    ∃ events, runTable t m = .ok (false, m, events) := by
  obtain ⟨os, hos, hall⟩ := exists_mapM_ok (Pass.new rs).run
    (fun f o => o.func = f ∧ o.changed = false) fun f hf => by
      obtain ⟨hdone, hquiet⟩ := hm f hf
      obtain ⟨gone, -, hset⟩ := hdone.exists_settled
      obtain ⟨u, hu, hfunc, hzero⟩ := Pass.sweep_of_quiet hset.coherent hquiet
      have hcap : (Pass.new rs).maxIterations = 63 + 1 := rfl
      refine ⟨⟨u.func, 1, 0, true, u.events⟩, ?_, hfunc, rfl⟩
      rw [Pass.run, hcap, Pass.runFor, hu, ok_bind, if_pos hzero]
      rfl
  have hsame : os.map (·.func) = m.functions ∧ os.any (·.changed) = false := by
    clear hos
    generalize m.functions = fs at hall
    induction hall with
    | nil => exact ⟨rfl, rfl⟩
    | cons h _ ih =>
      rw [List.map_cons, List.any_cons, h.1, h.2, ih.1, ih.2]
      exact ⟨rfl, rfl⟩
  exact ⟨_, by rw [runTable_eq hload hos, hsame.1, hsame.2]⟩

/-- Nothing is left for a rule set that looks through operations once its pass has run. -/
theorem doneWith_cons {name : String} (hload : RuleSet.load (.ofRules name rules) = .ok rs)
    (hlooks : ∀ y ∈ rules, LooksThrough n y)
    (h : f.DoneWith sets ∧ ∀ i ∈ f.layout, (Pass.new rs).Quiet f i) : f.DoneWith (rs :: sets) := by
  obtain ⟨gone, -, hset⟩ := h.1.exists_settled
  exact ⟨h.1.1, List.forall_mem_cons.mpr
    ⟨exhausted_of_quiet hload rfl hlooks hset.coherent h.2, h.1.2⟩⟩

/-- What is left for no rule set is quiet. -/
theorem quiet_of_doneWith (h : f.DoneWith sets) (hrs : rs ∈ sets) :
    f.DoneWith sets ∧ ∀ i ∈ f.layout, (Pass.new rs).Quiet f i :=
  ⟨h, fun i hi => Pass.quiet_of_matchInst_eq_none fun k r hr => h.2 rs hrs i hi k r hr⟩

/-! ### The three passes -/

/-- The rules for 16 bits spare what those for 8 bits look for. -/
theorem spares_narrowing {x : TermRule} (hx : x ∈ narrowing 16 ++ halfPacking) :
    Spares 8 (narrowing 8) x where
  width := by
    obtain ⟨op, op', w, k, m, hw, heq⟩ := looksThrough_of_mem_append hx
    refine ⟨op, w, _, ?_, heq⟩
    rintro rfl
    revert hw
    decide
  unmatched := unmatched_narrowing
    (fun _ hy => convertsTwice_narrowing (.inl rfl) (List.mem_append_left _ hy)) hx

/-- The rules for truth values spare what looks for conversions of conversions. -/
theorem spares_booleans {x : TermRule} (hn : n = 8 ∨ n = 16) (h : ∀ y ∈ sought, ConvertsTwice y)
    (hx : x ∈ booleans) : Spares n sought x where
  width := by
    obtain ⟨op, w, hop, hsearch⟩ := exists_search_of_booleans hx
    exact ⟨op, w, _, by omega, hsearch⟩
  unmatched := by
    refine unmatched_booleans (fun o ho y hy => ?_) hx
    obtain ⟨op, op', w, m, v, hop, -, heq⟩ := h y hy
    refine ⟨op, w, _, ?_, heq⟩
    rintro rfl
    obtain rfl | rfl := ho <;> cases hop

/-- The three passes reach a joint fixpoint: over a program of valid functions they succeed, and a
further run of any of the tables reports no change and leaves the program as it is. -/
theorem run_fixpoint {m : Program} (hm : ∀ f ∈ m.functions, ∃ gone, Reachable f gone ∧ f.isValid) :
    ∃ n, run m = .ok n ∧ ∀ t ∈ tables, ∃ events, runTable t n = .ok (false, n, events) := by
  obtain ⟨rs8, hload8⟩ := load_lowering8
  obtain ⟨rs16, hload16⟩ := load_lowering16
  obtain ⟨rs1, hload1, -⟩ := Pass.lowering1_total
  have hlooks8 (y : TermRule) (hy : y ∈ narrowing 8) := looksThrough_narrowing (.inl rfl) hy
  have htwice8 (y : TermRule) (hy : y ∈ narrowing 8) : ConvertsTwice y :=
    convertsTwice_narrowing (.inl rfl) (List.mem_append_left _ hy)
  have hfits16 (x : TermRule) (hx : x ∈ narrowing 16 ++ halfPacking) : x.Fits := by
    obtain hx | hx := List.mem_append.mp hx
    · exact fits_narrowing (.inr rfl) hx
    · exact fits_halfPacking hx
  -- every pass leaves nothing to its own rules, and spares those of the passes before it
  have hspares16 : ∀ rs ∈ [rs8], SparesSet (narrowing 16 ++ halfPacking) rs :=
    List.forall_mem_singleton.mpr
      ⟨_, 8, _, hload8, hlooks8, fun x hx => spares_narrowing hx⟩
  have hspares1 : ∀ rs ∈ [rs16, rs8], SparesSet booleans rs := by
    rw [List.forall_mem_cons, List.forall_mem_singleton]
    exact ⟨⟨_, 16, _, hload16, fun y hy => looksThrough_of_mem_append hy, fun x hx =>
        spares_booleans (.inr rfl) (fun y hy => convertsTwice_narrowing (.inr rfl) hy) hx⟩,
      ⟨_, 8, _, hload8, hlooks8, fun x hx => spares_booleans (.inl rfl) htwice8 hx⟩⟩
  obtain ⟨changed8, m8, events8, hrun8, hm8⟩ := exists_runTable [] hload8
    (isInert_narrowing (.inl rfl) (fun _ hx => List.mem_append_left _ hx) hload8)
    (fun x hx => fits_narrowing (.inl rfl) hx) (List.forall_mem_nil _)
    fun f hf => ⟨hm f hf, List.forall_mem_nil _⟩
  obtain ⟨changed16, m16, events16, hrun16, hm16⟩ := exists_runTable [rs8] hload16
    (isInert_narrowing (.inr rfl) (fun _ hx => hx) hload16) hfits16 hspares16
    fun f hf => doneWith_cons hload8 hlooks8 (hm8 f hf)
  obtain ⟨changed1, n, events1, hrun1, hn⟩ := exists_runTable [rs16, rs8] hload1
    (isInert_booleans hload1) (fun x hx => fits_booleans hx) hspares1
    fun f hf => doneWith_cons hload16 (fun y hy => looksThrough_of_mem_append hy) (hm16 f hf)
  refine ⟨n, ?_, fun t ht => ?_⟩
  · rw [run, tables, List.foldlM_cons, lowering8, hrun8, ok_bind, pure_eq_ok, ok_bind,
      List.foldlM_cons, lowering16, hrun16, ok_bind, pure_eq_ok, ok_bind, List.foldlM_cons,
      lowering1, hrun1]
    rfl
  · rw [tables, List.mem_cons, List.mem_cons, List.mem_singleton] at ht
    rcases ht with ht | ht | ht <;> rw [ht]
    · exact runTable_of_quiet hload8 fun f hf => quiet_of_doneWith (hn f hf).1 (by simp)
    · exact runTable_of_quiet hload16 fun f hf => quiet_of_doneWith (hn f hf).1 (by simp)
    · exact runTable_of_quiet hload1 hn

theorem run_fixpoint_lowByte_widenedTruth :
    (∀ f ∈ [lowByte, Pass.widenedTruth], ∃ gone, Reachable f gone ∧ f.isValid) ∧
      ∃ n, run ⟨"m", [lowByte, Pass.widenedTruth]⟩ = .ok n ∧
        ∀ t ∈ tables, ∃ events, runTable t n = .ok (false, n, events) := by
  have hm : ∀ f ∈ [lowByte, Pass.widenedTruth], ∃ gone, Reachable f gone ∧ f.isValid := by
    rw [List.forall_mem_cons, List.forall_mem_singleton]
    exact ⟨⟨[], reachable_lowByte, by decide +kernel⟩,
      [], Pass.reachable_widenedTruth, by decide +kernel⟩
  exact ⟨hm, run_fixpoint (m := ⟨"m", [lowByte, Pass.widenedTruth]⟩) hm⟩

end Legalize

end Peephole

import Peephole.Proofs.Legalize.Converge
import Peephole.Proofs.Legalize.Feeds

/-!
# Truth values of 32 bits

A truth value of 32 bits has all bits set or none; what takes its place is 0 or 1. The two literals
differ, but they have the same truth value, which is all that a conversion of truth values reads.
Where nothing else reads such truth values, a model of the function with the replacement is blind to
the renaming, so that a run stores the same: `lowering1_keeps_stores`.

That nothing else reads them is kept: what a rewrite builds is no truth value of 32 bits, and does
not read one but by a conversion, `boolsConverted_of_commit`.
-/

namespace Peephole

open Func

/-! ### What conversions of truth values read -/

/-- A conversion of truth values reads its source as a truth value. -/
theorem evaluate_congr_of_toBool {op : Opcode} {family : Family} {a a' : Literal} {w : Nat}
    (hfamily : op.family? = some family) (hsource : family.source = .bool)
    (h : a.toBool = a'.toBool) : evaluate op w [a] = evaluate op w [a'] := by
  obtain ⟨-, hclasses, -⟩ := Evaluate.classes_of_family? hfamily
  have hformats : hasFormats op w [a] = hasFormats op w [a'] := by
    have hne : (TypeClass.bool != .float) = true := rfl
    simp [hasFormats, hclasses, hsource, hne]
  have hconvert : Evaluate.convert family w a = Evaluate.convert family w a' := by
    cases family with
    | b2b | b2i | b2f => simp only [Evaluate.convert, h]
    | _ => cases hsource
  simp only [evaluate, hformats, hfamily, hconvert, List.length_singleton]

namespace Func

variable {f : Func} {old new : ValueId} {ρ : Valuation}

/-- A valuation is blind to a value of the same truth value where the old one is read by conversions
of truth values only. -/
theorem blind_of_toBool (hf : f.Coherent) (h : (ρ new).toBool = (ρ old).toBool)
    (hreads : ∀ {i d}, i ∈ f.layout → f.inst? i = some d → old ∈ d.operands →
      ∃ family, d.opcode.family? = some family ∧ family.source = .bool) :
    f.Blind (rename old new) ρ := by
  have hsame {d : Inst} (hd : old ∉ d.operands) : d.operands.map (rename old new) = d.operands :=
    (List.map_congr_left fun v hv => if_neg (by rintro rfl; exact hd hv)).trans (List.map_id _)
  constructor
  · intro i d hi hd _
    by_cases hold : old ∈ d.operands
    · obtain ⟨family, hfamily, hsource⟩ := hreads hi hd hold
      obtain ⟨harity, -⟩ := Evaluate.classes_of_family? hfamily
      obtain ⟨v, hv⟩ := List.length_eq_one_iff.mp ((hf.length_operands hd).trans harity)
      obtain rfl : old = v := by simpa [hv] using hold
      rw [hv]
      simp only [List.map_cons, List.map_nil, rename, if_true]
      exact evaluate_congr_of_toBool hfamily hsource h
    · rw [hsame hold]
  · intro i d hi hd hnone
    rw [hsame fun hold => ?_]
    -- a conversion has a result
    obtain ⟨family, hfamily, -⟩ := hreads hi hd hold
    obtain ⟨w, -, hform⟩ := Operation.withWidth?_of_family? hfamily
    have hresult := hf.produces hd
    rw [hnone, (Family.spec_of_withWidth? hform).2.2.1] at hresult
    cases hresult

end Func

namespace Legalize

open Pattern

variable {P : Array Pattern} {r : Rule} {f g h : Func} {gone : List InstId} {i : InstId} {d : Inst}
  {b : Bindings} {result x : ValueId} {events : List Event} {y : TermRule}

/-! ### What the rules denote -/

section Meaning

variable {σ : Nat → Option Literal} {p : Pattern} {expected : Option Nat}

/-- A conversion of a variable denotes what its literal is converted to. -/
theorem meaning_convert_value {family : Family} {op : Opcode} {w : Nat}
    (hop : family.withWidth? w = some op) (hsource : family.source = .bool)
    (hresult : family.result ≠ .float) (hp : (Term.op op w [.value 0 .any]).Denotes p) :
    p.meaning σ expected = (σ 0).bind fun a => (Evaluate.convert family w a).map (.of · w) := by
  obtain ⟨_, _, q, hq, rfl⟩ := hp.eq_op
  obtain rfl := hq.eq_var
  rw [meaning_convert hop (fun _ _ h => by rw [hsource] at h; cases h)
    (fun h => (hresult h).elim) rfl rfl, meaning]

/-- The integer that a truth value becomes. -/
theorem meaning_truthAsInt (hp : truthAsInt.Denotes p) :
    p.meaning σ expected = (σ 0).map fun a => .of (if a.toBool then 1 else 0) 32 := by
  have hop : Family.b2i.withWidth? 32 = some .b2i32 := rfl
  rw [meaning_convert_value hop rfl (by decide) hp]
  cases σ 0 <;> rfl

/-- The comparison of that integer with 0. -/
theorem meaning_ine (hp : (Term.commuting .ine 1 [truthAsInt, .int 32 0]).Denotes p) :
    p.meaning σ expected = (σ 0).map fun a => .of (Evaluate.truth a.toBool) 1 := by
  obtain ⟨_, _, q, k, hq, hk, rfl⟩ := hp.eq_expr_two
  obtain ⟨slot, rfl⟩ := hk.eq_const
  have hzero (e : Option Nat) :
      (Pattern.const slot ⟨some 32, .int, 0⟩).meaning σ e = some (.of 0 32) := by
    simp [meaning, Build.encodeConstant, Except.toOption]
  rw [meaning_expr rfl rfl]
  simp only [Opcode.info, OpInfo.comparison, meanings_cons, meanings_nil, meaning_truthAsInt hq,
    hzero]
  cases σ 0 with
  | none => rfl
  | some a =>
    simp only [Option.map_some, Option.bind_some]
    cases a.toBool <;> rfl

/-- A rule for truth values denotes the same before and after, but for a truth value of 32 bits,
which only stays true or false. -/
theorem toBool_of_booleans (hy : y ∈ booleans) (hsearch : y.search.Denotes r.search)
    (hreplace : y.replace.Denotes r.replace) {l l' : Literal}
    (hl : r.search.meaning σ none = some l) (hl' : r.replace.meaning σ expected = some l') :
    l' = l ∨ y.search = .op .b2b32 32 [.value 0 .any] ∧ l'.toBool = l.toBool := by
  have hop : Family.b2b.withWidth? 32 = some .b2b32 := rfl
  have hop' : Family.b2b.withWidth? 1 = some .b2b1 := rfl
  obtain rfl | rfl := mem_booleans_iff.mp hy
  · rw [Term.convert_eq_op hop] at hsearch ⊢
    rw [meaning_convert_value hop rfl (by decide) hsearch] at hl
    rw [meaning_truthAsInt hreplace] at hl'
    obtain ⟨a, ha, rfl⟩ := Option.map_eq_some_iff.mp hl'
    rw [ha, Option.bind_some, Evaluate.convert, Option.map_some, Option.some.injEq] at hl
    subst hl
    refine .inr ⟨rfl, ?_⟩
    cases a.toBool <;> rfl
  · rw [Term.convert_eq_op hop'] at hsearch
    rw [meaning_convert_value hop' rfl (by decide) hsearch] at hl
    rw [meaning_ine hreplace] at hl'
    obtain ⟨a, ha, rfl⟩ := Option.map_eq_some_iff.mp hl'
    rw [ha, Option.bind_some, Evaluate.convert, Option.map_some, Option.some.injEq] at hl
    subst hl
    refine .inl ?_
    cases a.toBool <;> rfl

end Meaning

/-! ### What the rules build -/

/-- Whether a pattern is the integer that a truth value becomes, or a comparison of that. -/
def ReadsTruth (p : Pattern) : Prop :=
  truthAsInt.Denotes p ∨ (Term.commuting .ine 1 [truthAsInt, .int 32 0]).Denotes p

theorem everyExpr_truthAsInt {p : Pattern} (hp : truthAsInt.Denotes p) :
    p.EveryExpr ReadsTruth := by
  obtain ⟨_, _, q, hq, heq⟩ := hp.eq_op
  obtain rfl := hq.eq_var
  have hall : EveryExprAmong ReadsTruth [.var ⟨0, .any, false, none, none⟩ none] := by
    simp [EveryExprAmong, EveryExpr]
  rw [heq] at hp ⊢
  rw [EveryExpr]
  exact ⟨.inl hp, hall⟩

/-- The rules for truth values build integers for truth values and comparisons of them. -/
theorem readsTruth_of_booleans (hy : y ∈ booleans) (hreplace : y.replace.Denotes r.replace) :
    ReadsTruth r.replace ∧ r.replace.EveryExpr ReadsTruth := by
  obtain rfl | rfl := mem_booleans_iff.mp hy
  · exact ⟨.inl hreplace, everyExpr_truthAsInt hreplace⟩
  · refine ⟨.inr hreplace, ?_⟩
    obtain ⟨_, _, q, k, hq, hk, heq⟩ := hreplace.eq_expr_two
    obtain ⟨slot, rfl⟩ := hk.eq_const
    have hconst : EveryExpr ReadsTruth (.const slot ⟨some 32, .int, 0⟩) := by simp [EveryExpr]
    have hall : EveryExprAmong ReadsTruth [q, .const slot ⟨some 32, .int, 0⟩] := by
      rw [EveryExprAmong, EveryExprAmong, EveryExprAmong]
      exact ⟨everyExpr_truthAsInt hq, hconst, trivial⟩
    rw [heq] at hreplace ⊢
    rw [EveryExpr]
    exact ⟨.inr hreplace, hall⟩

/-- What defines a value that realizes an operation is that operation on values that realize its
sources. -/
theorem Realized.definer_of_single {op : Opcode} {slot w : Nat} {children : List Nat}
    {commutative : Bool} {args : List Pattern} {expected : Option Nat} {c j : InstId} {z : ValueId}
    (hf : f.Coherent) (hz : Realized f b c (.expr slot ⟨.single op, some w, children, commutative,
      false, false, none⟩ none args) expected z) (hj : f.definer? z = some j)
    (hd : f.inst? j = some d) :
    d.opcode = op ∧ RealizedAll f b c w args op.info.sourceWidths none d.operands := by
  obtain _ | _ | ⟨-, -, -, -, -, hlit⟩ | ⟨hw, hform, hsources, -, inst, opcode, -, result⟩ := hz
  · rw [definer?_of_literal? hlit] at hj
    cases hj
  · have hdef := hf.definer?_eq_some.mpr (by rw [result?, inst, Option.bind_some, result])
    obtain rfl := Option.some.inj (hdef.symm.trans hj)
    obtain rfl := Option.some.inj (inst.symm.trans hd)
    obtain rfl := Operation.eq_of_single hform
    cases hw
    exact ⟨opcode, hsources⟩

/-- What defines the integer for a truth value is the conversion. -/
theorem opcode_of_truthAsInt {p : Pattern} {expected : Option Nat} {c j : InstId} {z : ValueId}
    (hf : f.Coherent) (hp : truthAsInt.Denotes p) (hz : Realized f b c p expected z)
    (hj : f.definer? z = some j) (hd : f.inst? j = some d) : d.opcode = .b2i32 := by
  obtain ⟨_, _, q, hq, rfl⟩ := hp.eq_op
  exact (Realized.definer_of_single hf hz hj hd).1

/-- What the rules for truth values build is no truth value of 32 bits, and a conversion of truth
values or an operation that reads none. -/
theorem opcode_of_readsTruth {p : Pattern} {expected : Option Nat} {c j : InstId} {z : ValueId}
    (hf : f.Coherent) (hp : ReadsTruth p) (hz : Realized f b c p expected z)
    (hj : f.definer? z = some j) (hd : f.inst? j = some d) :
    d.opcode = .b2i32 ∨ d.opcode = .ine ∧ ∀ v ∈ d.operands, ∀ (k : InstId) (e : Inst),
      f.definer? v = some k → f.inst? k = some e → e.opcode = .b2i32 := by
  obtain hp | hp := hp
  · exact .inl (opcode_of_truthAsInt hf hp hz hj hd)
  · obtain ⟨_, _, q, k, hq, hk, rfl⟩ := hp.eq_expr_two
    obtain ⟨slot, rfl⟩ := hk.eq_const
    obtain ⟨hop, hsources⟩ := Realized.definer_of_single hf hz hj hd
    refine .inr ⟨hop, ?_⟩
    generalize d.operands = vs at hsources
    obtain _ | @⟨_, _, _, _, _, _, u, us, hu, -, hsources⟩ := hsources
    · exact fun v hv => by cases hv
    obtain _ | @⟨_, _, _, _, _, _, u', us', hu', -, hsources⟩ := hsources
    · intro v hv k e hk he
      obtain rfl := List.mem_singleton.mp hv
      exact opcode_of_truthAsInt hf hq hu hk he
    obtain ⟨⟩ := hsources
    obtain _ | ⟨-, -, hlit⟩ := hu'
    intro v hv k e hk he
    simp only [List.mem_cons, List.not_mem_nil, or_false] at hv
    obtain rfl | rfl := hv
    · exact opcode_of_truthAsInt hf hq hu hk he
    · rw [definer?_of_literal? hlit] at hk
      cases hk

/-! ### One rewrite -/

section Fires

variable (hy : y ∈ booleans) (hr : y.Fires r P f gone i d result b) (hbools : BoolsConverted f)
include hy hr hbools

/-- What reads a truth value of 32 bits that is replaced is a conversion of truth values. -/
theorem reads_of_boolsConverted (hbuild : r.replace.build f b i = .ok (x, h, events))
    (hop : d.opcode = .b2b32) {c : InstId} {d' : Inst} (hc : c ∈ h.layout)
    (hd' : h.inst? c = some d') (hmem : result ∈ d'.operands) :
    ∃ family, d'.opcode.family? = some family ∧ family.source = .bool := by
  have hf := hr.settled
  obtain ⟨-, -, -, hh, hext, -, -⟩ :=
    hr.admitted.build_eq_ok hr.reachable hf hr.mem hr.matched hbuild
  have hemerges := hr.admitted.emerges_of_build hr.reachable hf hr.mem hr.matched
    (readsTruth_of_booleans hy hr.replace).2 hbuild
  have hdef : h.definer? result = some i :=
    hh.coherent.definer?_eq_some.mpr (hext.result? hr.result?)
  have hfeeds : FeedsAt h d c d' := ⟨hd', result, hmem, i, hdef, hext.inst? hr.inst?⟩
  -- what is built comes too early to read the result
  have hold : (f.inst? c).isSome := by
    by_contra hnone
    have hci := hemerges.precedes hh.coherent hc (Option.not_isSome_iff_eq_none.mp hnone)
    have hic := hh.coherent.definer_precedes
      (hh.defined c hc result (by rwa [operands, hd'])) hdef
    exact hh.coherent.not_precedes_self c (hh.coherent.precedes_trans hci hic)
  obtain ⟨hcf, hfeeds, -⟩ := hfeeds.of_extends hext hf.coherent hc hold
  obtain ⟨family, hfamily, hop'⟩ := hbools d d' ⟨c, hcf, hfeeds⟩ hop
  refine ⟨family, hop', ?_⟩
  simp only [List.mem_cons, List.not_mem_nil, or_false] at hfamily
  obtain rfl | rfl | rfl := hfamily <;> rfl

/-- A rewrite keeps that truth values of 32 bits are read by conversions of truth values only. -/
theorem boolsConverted_of_commit (hc : Pass.commit f i result r b = .ok (g, events)) :
    BoolsConverted g := by
  have hf := hr.settled
  obtain ⟨x, h, is, gone', hbuild, -, -, -⟩ :=
    Pass.commit_eq_ok hr.admitted hr.reachable hf hr.mem hr.result? hr.matched hc
  obtain ⟨d', -, -, hh, hext, -, hreal⟩ :=
    hr.admitted.build_eq_ok hr.reachable hf hr.mem hr.matched hbuild
  obtain ⟨hroot, hevery⟩ := readsTruth_of_booleans hy hr.replace
  have hemerges :=
    hr.admitted.emerges_of_build hr.reachable hf hr.mem hr.matched hevery hbuild
  rintro e d₀ ⟨c, hcl, hfeeds⟩ hop
  obtain ⟨e', hee', ⟨d', hdd', hch, hfeeds'⟩ | ⟨j, hj, he'⟩⟩ :=
    feeds_of_commit hr.toFires hbuild hc hcl hfeeds
  · rw [hee'.opcode] at hop
    rw [hdd'.opcode]
    cases hold : f.inst? c with
    | some _ =>
      obtain ⟨hcf, hfeeds, -⟩ := hfeeds'.of_extends hext hf.coherent hch (by rw [hold]; rfl)
      exact hbools e' d' ⟨c, hcf, hfeeds⟩ hop
    | none =>
      obtain ⟨q, expected, u, hq, hreal', hu⟩ := hemerges c hch hold
      have hdef := hh.coherent.definer?_eq_some.mpr hu
      obtain ⟨hd', v, hv, k, hk, he⟩ := hfeeds'
      obtain hop' | ⟨-, hsources⟩ := opcode_of_readsTruth hh.coherent hq hreal' hdef hd'
      · exact ⟨.b2i, by decide, by rw [hop']; rfl⟩
      · rw [hsources v hv k e' hk he] at hop
        cases hop
  · rw [hee'.opcode] at hop
    obtain hop' | ⟨hop', -⟩ := opcode_of_readsTruth hh.coherent hroot hreal hj he' <;>
      rw [hop'] at hop <;> cases hop

/-- A rewrite keeps what is stored. -/
theorem sameStores_of_commit (hc : Pass.commit f i result r b = .ok (g, events)) :
    f.SameStores g := by
  have hf := hr.settled
  obtain ⟨x, h, is, gone', hbuild, herase, -, hg⟩ :=
    Pass.commit_eq_ok hr.admitted hr.reachable hf hr.mem hr.result? hr.matched hc
  obtain ⟨d', -, -, hh, hext, -, hreal⟩ :=
    hr.admitted.build_eq_ok hr.reachable hf hr.mem hr.matched hbuild
  have hkeeps := hr.admitted.keepsWidths hr.reachable hf hr.mem hr.matched hr.inst? hr.result
    hr.fits hbuild
  have hfit : h.Fitting :=
    hkeeps.emitted.fitting hf.coherent hext (hf.isValid_iff_fitting.mp hr.valid)
  refine sameStores_of_blind hext (hh.simplifies (hreal.known hh.coherent) herase) hf hh hg hfit
    fun args ρ hargs hρ => ?_
  have hρf : f.Models args f.layout ρ :=
    hext.simplifies.models hf.coherent (blind_of_eq fun _ => rfl) hρ
  have hsearch := hr.search
  have hplain : r.search.isPlain := by
    obtain ⟨op, w, -, heq⟩ := exists_search_of_booleans hy
    rw [heq] at hsearch
    obtain ⟨_, _, q, hq, heq⟩ := hsearch.eq_op
    obtain rfl := hq.eq_var
    rw [heq]
    rfl
  obtain heq | ⟨heq, htruth⟩ := toBool_of_booleans hy hsearch hr.replace
    (r.meaning_of_matchInst hf hρf hplain hr.mem hr.result? hr.matched)
    (hreal.meaning hh.coherent hargs hρ)
  · refine blind_of_eq fun v => ?_
    unfold rename
    split
    · next hvr => rw [hvr, heq]
    · rfl
  · rw [heq] at hsearch
    obtain ⟨z, u, hz, hyields, -, -⟩ := (hsearch.matchInst_iff_one hr.admitted).mp hr.matched
    have hop := ((hf.coherent.yields_iff hr.inst? hz).mp hyields).1
    exact blind_of_toBool hh.coherent htruth fun hc hd' hmem =>
      reads_of_boolsConverted hy hr hbools hbuild hop hc hd' hmem

end Fires

/-! ### Runs -/

/-- Rewrites by the rules for truth values never fail, and keep what is stored. -/
theorem keeps_truth {name : String} {rs : RuleSet} {p : Pass} {f : Func}
    (hload : RuleSet.load (.ofRules name booleans) = .ok rs) (hp : p.rules = rs) :
    p.Keeps (fun g => (∃ gone, Reachable g gone ∧ g.isValid) ∧ BoolsConverted g ∧ f.SameStores g)
      fun _ => False := by
  refine Pass.keeps_of_fires hload (fun x hx => fits_booleans hx)
    (fun g => BoolsConverted g ∧ f.SameStores g) hp fun hx hr hc hg => ?_
  obtain ⟨hbools, hsame⟩ := hg
  exact ⟨boolsConverted_of_commit hx hr hbools hc,
    hsame.trans (sameStores_of_commit hx hr hbools hc)⟩

/-- The pass for truth values changes no stored literal, on any arguments, in a valid function whose
truth values of 32 bits are read by conversions of truth values only. -/
theorem lowering1_keeps_stores : ∃ rs, RuleSet.load lowering1 = .ok rs ∧
    ∀ (p : Pass) f gone, p.rules = rs → Reachable f gone → f.isValid → BoolsConverted f →
      ∃ o, p.run f = .ok o ∧ ∀ args, args.length = f.params.length →
        ∃ ls, f.stores args = some ls ∧ o.func.stores args = some ls := by
  obtain ⟨rs, hload, -⟩ := Pass.lowering1_total
  refine ⟨rs, hload, fun p f gone hp hreach hv hbools => ?_⟩
  obtain ⟨o, ho, -, -, hsame⟩ := ((keeps_truth (f := f) hload hp).run
    ⟨⟨gone, hreach, hv⟩, hbools, (hreach.settled_of_isValid hv).sameStores_refl hv⟩).exists_ok
  exact ⟨o, ho, hsame.stores⟩

/-- A function that widens its parameter, a truth value, and stores what becomes of it as an integer
and as a truth value of one bit. -/
def readTruth : Func where
  name := "f"
  params := [⟨0⟩]
  values := #[⟨.parameter 0 none, 1⟩, ⟨.result ⟨0⟩, 32⟩, ⟨.result ⟨1⟩, 32⟩, ⟨.result ⟨2⟩, 1⟩]
  chains := #[[⟨⟨0⟩, 0⟩], [⟨⟨1⟩, 0⟩, ⟨⟨2⟩, 0⟩], [⟨⟨3⟩, 0⟩], [⟨⟨4⟩, 0⟩]]
  insts := #[⟨.b2b32, 32, false, [⟨0⟩], some ⟨1⟩, some ⟨0⟩⟩,
    ⟨.b2i32, 32, false, [⟨1⟩], some ⟨2⟩, some ⟨0⟩⟩, ⟨.b2b1, 1, false, [⟨1⟩], some ⟨3⟩, some ⟨0⟩⟩,
    ⟨.store, 0, false, [⟨2⟩], none, some ⟨0⟩⟩, ⟨.store, 0, false, [⟨3⟩], none, some ⟨0⟩⟩]
  blocks := #[[⟨0⟩, ⟨1⟩, ⟨2⟩, ⟨3⟩, ⟨4⟩]]

theorem reachable_readTruth : Reachable readTruth [] := by
  have hblock := (Reachable.empty "f").edit (.createBlock rfl)
  have hparam := hblock.addParam 1 none rfl
  have hwide : Reachable ⟨"f", [⟨0⟩], #[⟨.parameter 0 none, 1⟩, ⟨.result ⟨0⟩, 32⟩],
      #[[⟨⟨0⟩, 0⟩], []], #[⟨.b2b32, 32, false, [⟨0⟩], some ⟨1⟩, some ⟨0⟩⟩], #[[⟨0⟩]]⟩ [] :=
    hparam.append ⟨0⟩ .b2b32 32 [⟨0⟩] (by decide) rfl
  have hint := hwide.append ⟨0⟩ .b2i32 32 [⟨1⟩] (by decide) rfl
  have hbit : Reachable ⟨"f", [⟨0⟩], readTruth.values,
      #[[⟨⟨0⟩, 0⟩], [⟨⟨1⟩, 0⟩, ⟨⟨2⟩, 0⟩], [], []], #[⟨.b2b32, 32, false, [⟨0⟩], some ⟨1⟩, some ⟨0⟩⟩,
        ⟨.b2i32, 32, false, [⟨1⟩], some ⟨2⟩, some ⟨0⟩⟩,
        ⟨.b2b1, 1, false, [⟨1⟩], some ⟨3⟩, some ⟨0⟩⟩], #[[⟨0⟩, ⟨1⟩, ⟨2⟩]]⟩ [] :=
    hint.append ⟨0⟩ .b2b1 1 [⟨1⟩] (by decide) rfl
  have hstore := hbit.append ⟨0⟩ .store 0 [⟨2⟩] (by decide) rfl
  exact hstore.append ⟨0⟩ .store 0 [⟨3⟩] (by decide) rfl

theorem lowering1_keeps_stores_readTruth : ∃ rs o, RuleSet.load lowering1 = .ok rs ∧
    Reachable readTruth [] ∧ readTruth.isValid ∧ BoolsConverted readTruth ∧
    (Pass.new rs).run readTruth = .ok o ∧ readTruth.stores [1] = some [.of 1 32, .of 1 1] ∧
    o.func.stores [1] = some [.of 1 32, .of 1 1] := by
  obtain ⟨rs, hload, hruns⟩ := lowering1_keeps_stores
  have hv : readTruth.isValid := by decide +kernel
  have hbools : BoolsConverted readTruth := by decide +kernel
  have hstores : readTruth.stores [1] = some [.of 1 32, .of 1 1] := by decide +kernel
  obtain ⟨o, ho, hsame⟩ := hruns (.new rs) readTruth [] rfl reachable_readTruth hv hbools
  obtain ⟨ls, hls, hls'⟩ := hsame [1] rfl
  rw [hstores] at hls
  cases hls
  exact ⟨rs, o, hload, reachable_readTruth, hv, hbools, ho, hstores, hls'⟩

end Legalize

end Peephole

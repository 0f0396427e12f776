import Peephole.Proofs.Build.Fault
import Peephole.Proofs.Match
import Peephole.Proofs.Rule.Survey

/-!
# Widths that nothing determines

Loading looks for the first slot of a replacement without a width, `Pattern.unsized?`, before
anything is known of the function. Building finds the width of a slot when it comes to it, from the
instruction that is replaced and the sources built so far, and does not come back to an expression
that it has built before. The two agree on every function, `RuleTable.build_agrees`: building never
lacks a width where loading has found no slot, and where loading has found one nothing is built, and
the first width that is lacking is the one of that slot.

An **incidental** fault has to do with neither. All steps of building but the look-up of a variable
and of a width have incidental faults only.
-/

namespace Peephole

open Func

/-! ### Faults -/

namespace Fault

/-- Whether a fault tells that nothing determines the width of a slot. -/
def lacksWidth : Fault → Bool
  | .constantWidth _ | .expressionWidth .. => true
  | _ => false

/-- Whether a fault has to do neither with a variable without a value nor with a slot without a
width. -/
def isIncidental : Fault → Bool
  | .unbound _ | .constantWidth _ | .expressionWidth .. => false
  | _ => true

theorem not_lacksWidth {e : Fault} (h : e.isIncidental) : ¬ e.lacksWidth := by
  cases e <;> simp_all [isIncidental, lacksWidth]

end Fault

/-- The fault of building a node to which nothing gives a width. -/
def Pattern.widthFault? : Pattern → Option Fault
  | .var .. => none
  | .const slot _ => some (.constantWidth slot)
  | .expr slot e _ _ => some (.expressionWidth e.op slot)

/-- A fault of building is **foreseen** by the first slot that has been found without a width when
it is incidental, or tells that this slot lacks one. -/
def Fault.IsForeseen (P : Array Pattern) (found : Option Nat) (e : Fault) : Prop :=
  e.isIncidental ∨ ∃ slot q, found = some slot ∧ P[slot]? = some q ∧ q.widthFault? = some e

namespace Fault.IsForeseen

variable {P : Array Pattern} {found : Option Nat} {e : Fault}

theorem not_unbound (h : e.IsForeseen P found) (k : Nat) : e ≠ .unbound k := by
  rintro rfl
  obtain h | ⟨slot, q, -, -, h⟩ := h
  · cases h
  · cases q <;> cases h

theorem or_left (h : e.IsForeseen P found) (other : Option Nat) :
    e.IsForeseen P (found <|> other) :=
  h.imp_right fun ⟨slot, q, hfound, hq⟩ => ⟨slot, q, by rw [hfound]; rfl, hq⟩

end Fault.IsForeseen

open Pattern

namespace Build

variable {P : Array Pattern} {site : Site}

/-! ### Incidental faults -/

theorem meets_requireValue (f : Func) (v : ValueId) :
    Meets (f.requireValue v) (fun d => f.value? v = some d) (·.isIncidental) := by
  unfold requireValue
  cases f.value? v with
  | none => rfl
  | some d => rfl

theorem meets_literal (f : Func) (w : Nat) (bits : Word) :
    Meets (f.literal w bits) (fun _ => True) (·.isIncidental) := by
  unfold literal
  split
  · dsimp only
    split <;> trivial
  · rfl

theorem meets_encodeConstant (c : ConstantSlot) (w : Nat) :
    Meets (encodeConstant c w) (fun _ => True) (·.isIncidental) := by
  unfold encodeConstant encodeFloat
  split
  · trivial
  · split
    · trivial
    · rfl
  · trivial

theorem meets_literals? (f : Func) (vs : List ValueId) :
    Meets (literals? f vs) (fun _ => True) (·.isIncidental) := by
  induction vs with
  | nil => trivial
  | cons v vs ih =>
    have hv : Meets (discard (f.requireValue v)) (fun _ => True) (·.isIncidental) :=
      (meets_requireValue f v).bind fun _ _ => trivial
    rw [literals?]
    refine hv.bind fun _ _ => ?_
    cases f.literal? v with
    | none => trivial
    | some l => exact ih.bind fun _ _ => trivial

theorem meets_folded? (f : Func) (op : Opcode) (w : Nat) (vs : List ValueId) :
    Meets (folded? f op w vs) (fun _ => True) (·.isIncidental) := by
  unfold folded?
  split
  · trivial
  · refine (meets_literals? f vs).bind fun o _ => ?_
    cases o with
    | none => trivial
    | some ls =>
      unfold evaluate
      dsimp only
      split
      · rfl
      · split <;> trivial

theorem meets_createInst (f : Func) (op : Opcode) (w : Nat) (vs : List ValueId) :
    Meets (f.createInst op w vs) (fun _ => True) (·.isIncidental) := by
  have hcheck : Meets (checkInst op w vs.length) (fun _ => True) (·.isIncidental) := by
    unfold checkInst
    split
    · rfl
    · split <;> split <;> trivial
  rw [createInst_eq]
  exact hcheck.bind fun _ _ => trivial

theorem meets_setExact (f : Func) (i : InstId) (exact : Bool) :
    Meets (f.setExact i exact) (fun _ => True) (·.isIncidental) := by
  unfold setExact requireInst
  cases f.inst? i with
  | none => rfl
  | some d => trivial

theorem meets_insertBefore (f : Func) (before i : InstId) :
    Meets (f.insertBefore before i) (fun _ => True) (·.isIncidental) := by
  unfold insertBefore requireInst
  cases f.inst? i with
  | none => rfl
  | some d =>
    cases hd : d.block with
    | some b => simp [hd, Fault.isIncidental]
    | none =>
      cases f.inst? before with
      | none => simp [hd, Fault.isIncidental]
      | some e =>
        cases he : e.block with
        | none => simp [hd, he, Fault.isIncidental]
        | some b =>
          by_cases hb : b.index < f.blocks.size
          · by_cases hmem : before ∈ f.blockInsts b
            · simp [hd, he, hb, hmem]
            · simp [hd, he, hb, hmem, Fault.isIncidental]
          · simp [hd, he, hb, Fault.isIncidental]

/-- What is emitted leaves what has been built before. -/
theorem meets_emit (s : State) (op : Opcode) (w : Nat) (exact : Bool) (vs : List ValueId) :
    Meets (s.emit site op w exact vs) (fun r => r.2.built = s.built) (·.isIncidental) := by
  unfold State.emit
  refine (meets_folded? s.func op w vs).bind fun o _ => ?_
  cases o with
  | some bits => exact (meets_literal s.func w bits).bind fun _ _ => rfl
  | none =>
    refine (meets_createInst s.func op w vs).bind fun r _ => ?_
    refine (meets_setExact r.2 r.1 _).bind fun f _ => ?_
    refine (meets_insertBefore f site.cursor r.1).bind fun g _ => ?_
    cases g.result? r.1 with
    | none => rfl
    | some x => rfl

/-! ### The agreement -/

/-- Whether the sources of all expressions that have been built before have their widths. -/
def State.IsSized (P : Array Pattern) (s : State) : Prop :=
  ∀ {slot w x}, (slot, w, x) ∈ s.built →
    ∀ {e guard args}, P[slot]? = some (.expr slot e guard args) →
      unsizedAmong? false args e.op.sourceWidths = none

/-- An incidental fault is foreseen whatever slot has been found. -/
theorem meets_foreseen {α : Type} {x : Except Fault α} {post : α → Prop}
    (h : Meets x post (·.isIncidental)) (found : Option Nat) :
    Meets x post (Fault.IsForeseen P found) :=
  h.mono (fun _ hpost => hpost) fun _ => .inl

/-- The width of the paired sources is known once one of them has been built. -/
theorem meets_pairedAfter (f : Func) (paired : Option Nat) (sw : SourceWidth) (x : ValueId) :
    Meets (if sw = .paired then pairedWidth f paired x else .ok paired)
      (fun next => next.isSome = (paired.isSome || sw == .paired)) (·.isIncidental) := by
  split
  · next hsw =>
    refine (meets_requireValue f x).bind fun d _ => ?_
    cases paired <;> simp [hsw]
  · next hsw => simp [hsw]

mutual

/-- A pattern is built only if all its widths are determined, and a fault is foreseen by the first
slot without a width. -/
theorem meets_value :
    ∀ (p : Pattern) (expected : Option Nat) (s : State), p.WellFormed P → s.IsSized P →
      (∀ k, p.mentions k → (site.bindings k).isSome) →
      Meets (value site p expected s)
        (fun r => p.unsized? expected.isSome = none ∧ r.2.IsSized P)
        (Fault.IsForeseen P (p.unsized? expected.isSome))
  | .var v guard, expected, s, _, hs, hbound => by
    obtain ⟨x, hx⟩ := Option.isSome_iff_exists.mp (hbound v.index (by simp [mentions]))
    rw [value, hx]
    exact ⟨rfl, hs⟩
  | .const slot k, expected, s, hp, hs, _ => by
    cases hp with
    | const resolved _ _ =>
    rw [value]
    cases hw : k.width <|> expected with
    | none =>
      have hlacks : (Pattern.const slot k).unsized? expected.isSome = some slot := by
        cases hk : k.width <;> cases expected <;> simp [hk, unsized?] at hw ⊢
      exact .inr ⟨slot, _, hlacks, resolved, rfl⟩
    | some w =>
      have hsized : (Pattern.const slot k).unsized? expected.isSome = none := by
        cases hk : k.width <;> cases expected <;> simp [hk, unsized?] at hw ⊢
      refine (meets_foreseen (meets_encodeConstant k w) _).bind fun bits _ => ?_
      refine (meets_foreseen (meets_literal s.func w bits) _).bind fun r _ => ?_
      exact ⟨hsized, hs⟩
  | .expr slot e guard args, expected, s, hp, hs, hbound => by
    cases hp with
    | expr resolved _ _ hargs =>
    rw [value]
    cases hw : e.width <|> e.op.fixedWidth <|> expected with
    | none =>
      have hlacks : (Pattern.expr slot e guard args).unsized? expected.isSome = some slot := by
        cases he : e.width <;> cases hf : e.op.fixedWidth <;> cases expected <;>
          simp [he, hf, unsized?] at hw ⊢
      exact .inr ⟨slot, _, hlacks, resolved, rfl⟩
    | some w =>
      -- past the width of the expression itself, only its sources can lack one
      have hsources : (Pattern.expr slot e guard args).unsized? expected.isSome =
          unsizedAmong? false args e.op.sourceWidths := by
        cases he : e.width <;> cases hf : e.op.fixedWidth <;> cases expected <;>
          simp [he, hf, unsized?] at hw ⊢
      rw [hsources]
      dsimp only
      split
      · next x hx => exact ⟨hs (mem_of_built? hx) resolved, hs⟩
      · split
        · exact .inl rfl
        · next op hop =>
          obtain ⟨-, hwidths, -, -⟩ := Operation.form hop
          have hvalues := meets_values args w op.info.sourceWidths none s hargs hs
            (by simpa [mentions] using hbound)
          rw [hwidths] at hvalues ⊢
          refine hvalues.bind fun r hr => ?_
          refine (meets_foreseen (meets_emit r.2 op w e.exact r.1) _).bind
            fun t ht => ⟨hr.1, ?_⟩
          intro slot' w' y hmem e' guard' args' hP
          obtain hmem | hmem := List.mem_append.mp hmem
          · exact hr.2 (ht ▸ hmem) hP
          · obtain ⟨rfl, -, -⟩ : slot' = slot ∧ w' = w ∧ y = t.1 := by simpa using hmem
            rw [resolved] at hP
            cases hP
            exact hr.1

theorem meets_values :
    ∀ (ps : List Pattern) (w : Nat) (sws : List SourceWidth) (paired : Option Nat) (s : State),
      (∀ p ∈ ps, p.WellFormed P) → s.IsSized P →
      (∀ k, mentionsAny k ps → (site.bindings k).isSome) →
      Meets (values site w ps sws paired s)
        (fun r => unsizedAmong? paired.isSome ps sws = none ∧ r.2.IsSized P)
        (Fault.IsForeseen P (unsizedAmong? paired.isSome ps sws))
  | [], w, sws, paired, s, _, hs, _ => by
    rw [values]
    · exact ⟨by rw [unsizedAmong?]; simp, hs⟩
    · simp
  | p :: ps, w, [], paired, s, _, hs, _ => by
    rw [values]
    · exact ⟨by rw [unsizedAmong?]; simp, hs⟩
    · simp
  | p :: ps, w, sw :: sws, paired, s, hps, hs, hbound => by
    rw [List.forall_mem_cons] at hps
    simp only [mentionsAny, Bool.or_eq_true] at hbound
    have hfirst := meets_value p (sourceWidth w paired sw) s hps.1 hs fun k hk => hbound k (.inl hk)
    rw [isSome_sourceWidth] at hfirst
    rw [values_cons, unsizedAmong?]
    refine (hfirst.mono (fun _ h => h) fun _ he => he.or_left _).bind fun r hr => ?_
    rw [hr.1]
    refine (meets_foreseen (meets_pairedAfter r.2.func paired sw r.1) _).bind
      fun next hnext => ?_
    have hothers := meets_values ps w sws next r.2 hps.2 hr.2 fun k hk => hbound k (.inr hk)
    rw [hnext] at hothers
    exact hothers.bind fun _ hq => hq

end

end Build

/-- What building a pattern yields, when its variables have values. -/
theorem Pattern.meets_build {P : Array Pattern} {p : Pattern} (hp : p.WellFormed P) (f : Func)
    {b : Bindings} (c : InstId) (hb : ∀ k, p.mentions k → (b k).isSome) :
    Meets (p.build f b c) (fun _ => p.unsized? true = none)
      (Fault.IsForeseen P (p.unsized? true)) := by
  unfold build requireInst
  cases f.inst? c with
  | none => exact .inl rfl
  | some d =>
    have hempty : (⟨f, [], []⟩ : Build.State).IsSized P := fun hmem => nomatch hmem
    have hvalue : Meets (Build.value ⟨b, c, d.exact⟩ p (some d.width) ⟨f, [], []⟩)
        (fun r => p.unsized? true = none ∧ r.2.IsSized P)
        (Fault.IsForeseen P (p.unsized? true)) :=
      Build.meets_value p (some d.width) _ hp hempty hb
    exact hvalue.bind fun _ hr => hr.1

/-! ### Tables and rule sets -/

/-- The search of a table for slots without a width agrees with what building infers. In a table
whose slots have passed their checks, let the variables of a pattern have values: if the search
finds no slot, building never fails for lack of a width; if it finds one, the pattern is not built,
and the only width that can be lacking is the one of that slot. Nor does building the replacement of
a loaded rule, with what its search has bound, ever fail for lack of the value of a variable. -/
theorem RuleTable.build_agrees {t : RuleTable} (hslots : t.checkSlots = .ok ()) :
    (∀ (slot : Nat) (p : Pattern), (Pattern.ofTable t)[slot]? = some p →
      ∃ find found, t.unsizedSlots[slot]? = some find ∧ find true = .ok found ∧
        ∀ (f : Func) (b : Bindings) (c : InstId), (∀ k, p.mentions k → (b k).isSome) →
          (found = none → ∀ e, p.build f b c = .error e → ¬ e.lacksWidth) ∧
          ∀ lacking, found = some lacking → ∃ e, p.build f b c = .error e ∧
            (e.lacksWidth → ∃ q, (Pattern.ofTable t)[lacking]? = some q ∧
              q.widthFault? = some e)) ∧
    ∀ rs, RuleSet.load t = .ok rs → ∀ (k : Nat) (r : Rule), rs.rules[k]? = some r →
      ∀ (f : Func) (i : InstId) (b : Bindings), rs.matchTransform f k i = .ok (some b) →
        ∀ (g : Func) (c : InstId) (index : Nat),
          r.replace.build g b c ≠ .error (.unbound index) := by
  refine ⟨fun slot p hp => ?_, fun rs hload k r hr f i b hmatch g c index => ?_⟩
  · obtain ⟨find, hfind, hfinds⟩ := unsizedSlots_of_ofTable hslots hp
    refine ⟨find, p.unsized? true, hfind, hfinds true, fun f b c hb => ?_⟩
    have hbuild := Pattern.meets_build (wellFormed_ofTable hslots hp) f c hb
    refine ⟨fun hnone e he => ?_, fun lacking hsome => ?_⟩
    · obtain h | ⟨_, _, hfound, -⟩ := hbuild.of_error he
      · exact Fault.not_lacksWidth h
      · rw [hnone] at hfound
        cases hfound
    · cases hresult : p.build f b c with
      | ok r =>
        have hnone := hbuild.of_ok hresult
        rw [hsome] at hnone
        cases hnone
      | error e =>
        refine ⟨e, rfl, fun hlacks => ?_⟩
        obtain h | ⟨_, q, hfound, hq⟩ := hbuild.of_error hresult
        · exact (Fault.not_lacksWidth h hlacks).elim
        · rw [hsome] at hfound
          cases hfound
          exact ⟨q, hq⟩
  · have hadm := RuleSet.admitted_of_load hload hr
    obtain ⟨_, _, _, -, hfits⟩ :=
      Rule.fits_of_matchInst (RuleSet.matchInst_of_matchTransform hr hmatch)
    have hb (k : Nat) (hk : r.replace.mentions k) : (b k).isSome :=
      (hfits.bound k).mpr (.inr (hadm.bound k hk))
    intro hbuild
    exact ((Pattern.meets_build hadm.replace g c hb).of_error hbuild).not_unbound index rfl

/-- The rule that a value is zero if it is below one. The constants take the width of the value, but
for the one in front of it, which has no width. -/
def zeroTests : RuleTable where
  name := "zero tests"
  slots := #[.var ⟨0, .any, false, none, none⟩, .const ⟨none, .int, 0⟩,
    .expr ⟨.single .ieq, none, [0, 1], false, false, false, none⟩,
    .expr ⟨.single .ieq, none, [1, 0], false, false, false, none⟩, .const ⟨none, .int, 1⟩,
    .expr ⟨.single .ult, none, [0, 4], false, false, false, none⟩]
  transforms := #[⟨2, 5, none⟩]
  runs := #[.empty, ⟨0, 1⟩]
  dispatch := [⟨.single .ieq, none, [1]⟩]
  conditions := []
  valuePredicates := #[]
  instPredicates := #[]

/-- A function that stores whether its parameter is zero. -/
def storedZeroTest : Func where
  name := "f"
  params := [⟨0⟩]
  values := #[⟨.parameter 0 none, 16⟩, ⟨.literal 0, 16⟩, ⟨.result ⟨0⟩, 1⟩]
  chains := #[[⟨⟨0⟩, 0⟩], [⟨⟨0⟩, 1⟩], [⟨⟨1⟩, 0⟩]]
  insts := #[⟨.ieq, 1, false, [⟨0⟩, ⟨1⟩], some ⟨2⟩, some ⟨0⟩⟩,
    ⟨.store, 0, false, [⟨2⟩], none, some ⟨0⟩⟩]
  blocks := #[[⟨0⟩, ⟨1⟩]]

/-- The constant in front lacks a width, the one behind takes it. -/
theorem RuleTable.build_agrees_zeroTests : zeroTests.checkSlots = .ok () ∧
    (∃ p, (Pattern.ofTable zeroTests)[3]? = some p ∧ ∀ (f : Func) (b : Bindings) (c : InstId),
      (b 0).isSome → ∃ e, p.build f b c = .error e ∧ (e.lacksWidth → e = .constantWidth 1)) ∧
    (∃ p, (Pattern.ofTable zeroTests)[5]? = some p ∧ ∀ (f : Func) (b : Bindings) (c : InstId),
      (b 0).isSome → ∀ e, p.build f b c = .error e → ¬ e.lacksWidth) ∧
    ∃ rs r b, RuleSet.load zeroTests = .ok rs ∧ rs.rules[0]? = some r ∧
      rs.matchTransform storedZeroTest 0 ⟨0⟩ = .ok (some b) ∧
      r.replace.build storedZeroTest b ⟨0⟩ ≠ .error (.unbound 0) := by
  have hslots : zeroTests.checkSlots = .ok () := by decide +kernel
  obtain ⟨hbuilds, hmatches⟩ := RuleTable.build_agrees hslots
  have hlacks : (zeroTests.unsizedSlots[3]?.bind fun find => (find true).toOption) =
      some (some 1) := by decide +kernel
  have htakes : (zeroTests.unsizedSlots[5]?.bind fun find => (find true).toOption) =
      some none := by decide +kernel
  have hrun : ((RuleSet.load zeroTests).toOption.any fun rs => rs.rules[0]?.any fun _ =>
      (rs.matchTransform storedZeroTest 0 ⟨0⟩).toOption.join.isSome) = true := by decide +kernel
  have hthird : (Pattern.ofTable zeroTests)[3]? =
      some (.expr 3 ⟨.single .ieq, none, [1, 0], false, false, false, none⟩ none
        [.const 1 ⟨none, .int, 0⟩, .var ⟨0, .any, false, none, none⟩ none]) := rfl
  have hfifth : (Pattern.ofTable zeroTests)[5]? =
      some (.expr 5 ⟨.single .ult, none, [0, 4], false, false, false, none⟩ none
        [.var ⟨0, .any, false, none, none⟩ none, .const 4 ⟨none, .int, 1⟩]) := rfl
  refine ⟨hslots, ⟨_, hthird, fun f b c hb => ?_⟩, ⟨_, hfifth, fun f b c hb => ?_⟩, ?_⟩
  · obtain ⟨find, found, hfind, hfound, hbuild⟩ := hbuilds 3 _ hthird
    rw [hfind, Option.bind_some, hfound] at hlacks
    cases hlacks
    obtain ⟨e, he, hwidth⟩ := (hbuild f b c fun k hk => by
      obtain rfl : 0 = k := by simpa [mentions, mentionsAny] using hk
      exact hb).2 1 rfl
    refine ⟨e, he, fun h => ?_⟩
    obtain ⟨q, hq, hfault⟩ := hwidth h
    cases hq
    exact (Option.some.inj hfault).symm
  · obtain ⟨find, found, hfind, hfound, hbuild⟩ := hbuilds 5 _ hfifth
    rw [hfind, Option.bind_some, hfound] at htakes
    cases htakes
    exact (hbuild f b c fun k hk => by
      obtain rfl : 0 = k := by simpa [mentions, mentionsAny] using hk
      exact hb).1 rfl
  · obtain ⟨rs, hload, hrun⟩ := (Option.any_eq_true ..).mp hrun
    obtain ⟨r, hr, hrun⟩ := (Option.any_eq_true ..).mp hrun
    obtain ⟨b, hb⟩ := Option.isSome_iff_exists.mp hrun
    have hload := toOption_eq_some.mp hload
    have hmatch := toOption_eq_some.mp (Option.join_eq_some_iff.mp hb)
    exact ⟨rs, r, b, hload, hr, hmatch, hmatches rs hload 0 r hr _ _ b hmatch _ _ 0⟩

end Peephole

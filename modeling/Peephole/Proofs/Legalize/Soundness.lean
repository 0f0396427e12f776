import Peephole.Proofs.Legalize.Load
import Peephole.Proofs.Legalize.Narrowing

/-!
# Soundness of the narrowing passes

The passes for conversions through 8 and through 16 bits leave what functions store alone, as long
as no float is converted to a narrow integer: the rules that look for such conversions never match,
and the others denote the same before and after.
-/

namespace Peephole

open Func Pattern

namespace Legalize

variable {v : VariableSlot}

/-! ### Chains from integers -/

section OfInteger

variable {n w s : Nat} {outer inner : Family} {p : Pattern} {σ : Nat → Option Literal}

/-- What an outer conversion of the rules makes of what its source denotes. -/
theorem meaning_outer {slot : Nat} {children : List Nat} {op : Opcode} (houter : outer.readsInteger)
    (hw : w ∈ wide n) (hop : outer.withWidth? w = some op) (expected : Option Nat) :
    (expr slot ⟨.single op, some w, children, false, false, false, none⟩ none [p]).meaning σ
      expected = (p.meaning σ none).bind fun a => (Evaluate.convert outer w a).map (.of · w) :=
  meaning_convert hop (fun _ _ h => (Family.source_ne_float houter h).elim)
    (fun _ => isFloatWidth_of_mem_wide hw) rfl rfl expected

/-- Two conversions in a row convert the low bits of their source. -/
theorem meaning_ofInteger_search (hn : n = 8 ∨ n = 16) (hw : w ∈ wide n) (hs : s ∈ wide n)
    (houter : outer.readsInteger) (hinner : inner = .u2u ∨ inner = .i2i)
    (h : (ofInteger n outer w inner s).search.Denotes p)
    (hσ : ∀ a, σ 0 = some a → a.width = s) (expected : Option Nat) :
    p.meaning σ expected =
      (σ 0).bind fun a => (Evaluate.convert outer w (.of a.bits n)).map (.of · w) := by
  obtain ⟨op, hop⟩ := exists_withWidth? houter hw
  obtain ⟨op', hop'⟩ := exists_narrow hn (hinner.imp id .inl)
  rw [ofInteger, Term.convert_eq_op hop', Term.convert_eq_op hop] at h
  obtain ⟨_, _, q, hq, rfl⟩ := h.eq_op
  obtain ⟨_, _, x, hx, rfl⟩ := hq.eq_op
  obtain rfl := hx.eq_var
  rw [meaning_outer houter hw hop,
    meaning_convert hop' (by obtain rfl | rfl := hinner <;> simp [Family.source])
      (by obtain rfl | rfl := hinner <;> simp [Family.result]) rfl rfl, meaning]
  cases ha : σ 0 with
  | none => simp only [Option.bind_none]
  | some a =>
    have hwa := hσ a ha
    obtain ⟨hwide, hns⟩ := mem_wide.mp hs
    rw [Option.bind_some, convert_narrow (by omega) (by omega) (by omega) hinner,
      Option.bind_some, Option.bind_some]

/-- The replacement converts the low bits as well, after it has extended them. -/
theorem meaning_ofInteger_replace (hn : n = 8 ∨ n = 16) (hw : w ∈ wide n) (hs : s ∈ wide n)
    (houter : outer.readsInteger) (hinner : inner = .u2u ∨ inner = .i2i)
    (h : (ofInteger n outer w inner s).replace.Denotes p) {a : Literal} (ha : σ 0 = some a)
    (hwa : a.width = s) (expected : Option Nat) :
    p.meaning σ expected = (Evaluate.convert outer w (.of a.bits n)).map (.of · w) := by
  obtain ⟨op, hop⟩ := exists_withWidth? houter hw
  obtain ⟨hwide, hns⟩ := mem_wide.mp hs
  simp only [ofInteger, Term.convert_eq_op hop] at h
  split at h
  · next hsame =>
    -- the extended bits are the result, as the outer conversion is back at the width of the source
    obtain ⟨rfl, rfl⟩ := hsame
    rw [meaning_lowBits hn hs h (fun _ hx => meaning_value hx ha) hwa, ← hwa]
    exact (convert_widen (by omega) (by omega) (by omega) hinner).symm
  · obtain ⟨_, _, q, hq, rfl⟩ := h.eq_op
    rw [meaning_outer houter hw hop, meaning_lowBits hn hs hq (fun _ hx => meaning_value hx ha) hwa,
      Option.bind_some, convert_extendLow (by omega) (by omega) (by omega) houter]

/-- The replacement may be built. -/
theorem mayBuild_ofInteger {absent : List Opcode} {ω : Nat → Nat} {expected : Option Nat}
    (hw : w ∈ wide n) (houter : outer.readsInteger)
    (habsent : ∀ o ∈ absent, o.info.sourceClasses[0]? = some .float) (hω : ω 0 = s) :
    (ofInteger n outer w inner s).replace.MayBuild absent ω expected w := by
  obtain ⟨op, hop⟩ := exists_withWidth? houter hw
  have hfloat := Family.source_ne_float houter
  have hlow (expected : Option Nat) :
      (lowBits n outer s (source s)).MayBuild absent ω expected s :=
    mayBuild_lowBits habsent (Term.mayBuild_var hω)
  simp only [ofInteger]
  split
  · next hsame =>
    obtain ⟨-, rfl⟩ := hsame
    exact hlow expected
  · have hop' : op ∉ absent := by
      intro hmem
      have := habsent op hmem
      simp [(Family.spec_of_withWidth? hop).2.2.2.2.2.1, hfloat] at this
    exact Term.mayBuild_convert hop (fun h => (hfloat h).elim)
      (fun _ => isFloatWidth_of_mem_wide hw) hop' (hlow none)

/-- Rules for integers through narrow integers are safe. -/
theorem isSafe_ofInteger {absent : List Opcode} {r : Rule} (hn : n = 8 ∨ n = 16) (hw : w ∈ wide n)
    (hs : s ∈ wide n) (houter : outer.readsInteger) (hinner : inner = .u2u ∨ inner = .i2i)
    (habsent : ∀ o ∈ absent, o.info.sourceClasses[0]? = some .float)
    (hsearch : (ofInteger n outer w inner s).search.Denotes r.search)
    (hreplace : (ofInteger n outer w inner s).replace.Denotes r.replace) : r.IsSafe absent := by
  obtain ⟨op, hop⟩ := exists_withWidth? houter hw
  obtain ⟨op', hop'⟩ := exists_narrow hn (hinner.imp id .inl)
  have hchain := hsearch
  rw [ofInteger, Term.convert_eq_op hop', Term.convert_eq_op hop] at hchain
  refine ⟨_, op', hchain.chain, .inr ⟨s, rfl,
    fun ω expected hω => (mayBuild_ofInteger hw houter habsent hω _ hreplace).2,
    fun σ l hσ hl expected => ?_⟩⟩
  rw [meaning_ofInteger_search hn hw hs houter hinner hsearch fun a ha => (hσ a ha).1] at hl
  obtain ⟨a, ha, hl⟩ := Option.bind_eq_some_iff.mp hl
  rw [meaning_ofInteger_replace hn hw hs houter hinner hreplace ha (hσ a ha).1, hl]

end OfInteger

/-! ### The narrowing rules -/

/-- A rule whose inner operation is absent is safe. -/
theorem isSafe_of_absent {absent : List Opcode} {r : Rule} {op op' : Opcode} {w n : Nat}
    (hsearch : (Term.op op w [.op op' n [.var v]]).Denotes r.search) (h : op' ∈ absent) :
    r.IsSafe absent :=
  ⟨v, op', hsearch.chain, .inl h⟩

/-- Rules for conversions through narrow integers are safe where no float is converted to one. -/
theorem isSafe_narrowing {n : Nat} {absent : List Opcode} {x : TermRule} {r : Rule}
    (hn : n = 8 ∨ n = 16) (habsent : ∀ o ∈ absent, o.info.sourceClasses[0]? = some .float)
    (hfloat : ∀ inner op, inner = Family.f2u ∨ inner = .f2i → inner.withWidth? n = some op →
      op ∈ absent)
    (hx : x ∈ narrowing n) (hsearch : x.search.Denotes r.search)
    (hreplace : x.replace.Denotes r.replace) : r.IsSafe absent := by
  simp only [narrowing, List.mem_flatMap] at hx
  obtain ⟨outer, houter, w, hw, hx⟩ := hx
  have houter : outer.readsInteger := by
    simp only [List.mem_cons, List.not_mem_nil, or_false] at houter
    obtain rfl | rfl | rfl | rfl := houter <;> rfl
  obtain ⟨op, hop⟩ := exists_withWidth? houter hw
  obtain hx | hx := List.mem_append.mp hx
  · obtain ⟨inner, hinner, hx⟩ := List.mem_flatMap.mp hx
    obtain ⟨s, hs, rfl⟩ := List.mem_map.mp hx
    exact isSafe_ofInteger hn hw hs houter (by simpa using hinner) habsent hsearch hreplace
  · obtain ⟨inner, hinner, hx⟩ := List.mem_flatMap.mp hx
    have hinner : inner = .f2u ∨ inner = .f2i := by simpa using hinner
    obtain ⟨op', hop'⟩ := exists_narrow hn (.inr (.inr hinner))
    have hchain : ∃ v, x.search = .op op w [.op op' n [.var v]] := by
      split at hx
      · obtain ⟨s, -, rfl⟩ := List.mem_map.mp hx
        exact ⟨_, by rw [clamp, Term.convert_eq_op hop', Term.convert_eq_op hop]; rfl⟩
      · obtain rfl := List.mem_singleton.mp hx
        exact ⟨_, by rw [ofFloat, Term.convert_eq_op hop', Term.convert_eq_op hop]; rfl⟩
    obtain ⟨v, hv⟩ := hchain
    exact isSafe_of_absent (hv ▸ hsearch) (hfloat inner op' hinner hop')

/-- Reading a half from the low bits of a word is what widening the low bits to a float does. -/
theorem convert_half (a : Literal) :
    Evaluate.convert .f2f 32 (.of a.bits 16) = some (Evaluate.ofHalf a.bits) := by
  have hbits : (Literal.of a.bits 16).bits.toNat = a.bits.toNat % twoPow 16 :=
    toNat_and_mask a.bits (by decide)
  have hdatum : (Literal.of a.bits 16).datum? =
      some (binary16.decode (a.bits.toNat % twoPow 16)) := by
    rw [Literal.datum?, hbits]
    rfl
  rw [Evaluate.convert, hdatum]
  rfl

/-- Widening a half that stands in the low bits of a word denotes what unpacking denotes. -/
theorem meaning_unpackHalf {p q : Pattern} {σ : Nat → Option Literal} {l : Literal}
    (hp : (Term.convert .f2f 32 (.convert .u2u 16 (source 32))).Denotes p)
    (hq : (Term.op .unpackHalf2x16SplitX 32 [source 32]).Denotes q)
    (hl : p.meaning σ none = some l) (expected : Option Nat) : q.meaning σ expected = some l := by
  have hf2f : Family.f2f.withWidth? 32 = some .f2f32 := rfl
  have hu2u : Family.u2u.withWidth? 16 = some .u2u16 := rfl
  rw [Term.convert_eq_op hu2u, Term.convert_eq_op hf2f] at hp
  obtain ⟨_, _, inner, hinner, rfl⟩ := hp.eq_op
  obtain ⟨_, _, y, hy, rfl⟩ := hq.eq_op
  obtain rfl := hy.eq_var
  have hlow : inner.meaning σ none = (σ 0).map fun a => .of a.bits 16 := by
    obtain ⟨_, _, z, hz, rfl⟩ := hinner.eq_op
    obtain rfl := hz.eq_var
    rw [meaning_convert hu2u (by simp [Family.source]) (by simp [Family.result]) rfl rfl, meaning]
    cases σ 0 <;> rfl
  have hwidth (z : Literal) (hz : inner.meaning σ none = some z) : z.isFloatWidth := by
    rw [hlow] at hz
    obtain ⟨a, -, rfl⟩ := Option.map_eq_some_iff.mp hz
    rfl
  rw [meaning_convert hf2f (fun z hz _ => hwidth z hz) (fun _ => rfl) rfl rfl, hlow] at hl
  cases ha : σ 0 with
  | none => simp [ha] at hl
  | some a =>
    have hvar (expected : Option Nat) :
        (var ⟨0, .of 32, false, none, none⟩ none).meaning σ expected = some a := by
      rw [meaning, ha]
    have hunpack : evaluate .unpackHalf2x16SplitX 32 [a] =
        .ok (some (Evaluate.ofHalf a.bits &&& mask 32)) := rfl
    rw [meaning_expr_eq_some rfl rfl ?_ hunpack, ← hl, ha, Option.map_some, Option.bind_some,
      convert_half]
    · simp [Literal.of, BitVec.and_assoc]
    · simp [Opcode.info, OpInfo.unpacking, meanings_cons, hvar]

/-- Unpacking may be built on a word. -/
theorem mayBuild_unpackHalf {absent : List Opcode} {ω : Nat → Nat} {expected : Option Nat}
    (habsent : ∀ o ∈ absent, o.info.sourceClasses[0]? = some .float) (hω : ω 0 = 32) :
    (Term.op .unpackHalf2x16SplitX 32 [source 32]).MayBuild absent ω expected 32 := by
  have hbuild : Opcode.unpackHalf2x16SplitX.mayBuild absent 32 [some 32] :=
    Opcode.mayBuild_of_fits habsent (by decide) rfl (by decide)
  exact Term.mayBuild_one rfl rfl (Term.mayBuild_var hω) hbuild

/-- Rules for the packing of halves are safe where no float is rounded toward zero. -/
theorem isSafe_halfPacking {absent : List Opcode} {x : TermRule} {r : Rule}
    (habsent : ∀ o ∈ absent, o.info.sourceClasses[0]? = some .float) (hrtz : .f2f16Rtz ∈ absent)
    (hx : x ∈ halfPacking) (hsearch : x.search.Denotes r.search)
    (hreplace : x.replace.Denotes r.replace) : r.IsSafe absent := by
  have hf2f : Family.f2f.withWidth? 32 = some .f2f32 := rfl
  have hu2u : Family.u2u.withWidth? 16 = some .u2u16 := rfl
  have hu2u32 : Family.u2u.withWidth? 32 = some .u2u32 := rfl
  simp only [halfPacking, List.mem_cons, List.not_mem_nil, or_false] at hx
  obtain rfl | rfl := hx
  · have hchain := hsearch
    rw [Term.convert_eq_op hu2u, Term.convert_eq_op hf2f] at hchain
    exact ⟨_, _, hchain.chain, .inr ⟨32, rfl,
      fun ω expected hω => (mayBuild_unpackHalf habsent hω _ hreplace).2,
      fun σ l _ hl expected => meaning_unpackHalf hsearch hreplace hl expected⟩⟩
  · rw [Term.convert_eq_op hu2u32] at hsearch
    exact isSafe_of_absent hsearch hrtz

/-! ### Runs of the passes -/

/-- Whether a table is accepted, and runs of it return and keep what valid functions store that
avoid some operations. -/
def KeepsStores (t : RuleTable) (absent : List Opcode) : Prop :=
  ∃ rs, RuleSet.load t = .ok rs ∧ ∀ (p : Pass) f gone, p.rules = rs → Reachable f gone →
    f.isValid → f.Avoids absent → ∃ o, p.run f = .ok o ∧
      ∀ args, args.length = f.params.length →
        ∃ ls, f.stores args = some ls ∧ o.func.stores args = some ls

/-- Tables of safe rules keep stores. -/
theorem keepsStores_of_isSafe {name : String} {rules : List TermRule} {absent : List Opcode}
    (hload : ∃ rs, RuleSet.load (.ofRules name rules) = .ok rs)
    (h : ∀ x ∈ rules, ∀ r : Rule, x.search.Denotes r.search → x.replace.Denotes r.replace →
      r.IsSafe absent) : KeepsStores (.ofRules name rules) absent := by
  obtain ⟨rs, hrs⟩ := hload
  have hsound := RuleSet.soundAmong_of_isSafe hrs fun k r hr => by
    obtain ⟨x, hx, hsearch, hreplace⟩ := RuleSet.exists_termRule hrs hr
    exact h x hx r hsearch hreplace
  refine ⟨rs, hrs, fun p f gone hp hf hv havoid => ?_⟩
  obtain ⟨o, ho, -, hsame⟩ :=
    Pass.run_ok_of_soundAmong hrs hp hsound (fun _ _ _ e => e.avoids) hf hv havoid
  exact ⟨o, ho, hsame.stores⟩

/-- The narrowing passes return, and keep what valid functions store that convert no float to the
narrow integers; the pass for 16 bits asks as well that no float is rounded toward zero. -/
theorem keepsStores_narrowing : KeepsStores lowering8 [.f2u8, .f2i8] ∧
    KeepsStores lowering16 [.f2u16, .f2i16, .f2f16Rtz] := by
  refine ⟨keepsStores_of_isSafe load_lowering8 fun x hx r hsearch hreplace => ?_,
    keepsStores_of_isSafe load_lowering16 fun x hx r hsearch hreplace => ?_⟩
  · refine isSafe_narrowing (.inl rfl) (by decide) ?_ hx hsearch hreplace
    rintro inner op (rfl | rfl) hop
    · obtain rfl : Opcode.f2u8 = op := Option.some.inj hop
      decide
    · obtain rfl : Opcode.f2i8 = op := Option.some.inj hop
      decide
  · obtain hx | hx := List.mem_append.mp hx
    · refine isSafe_narrowing (.inr rfl) (by decide) ?_ hx hsearch hreplace
      rintro inner op (rfl | rfl) hop
      · obtain rfl : Opcode.f2u16 = op := Option.some.inj hop
        decide
      · obtain rfl : Opcode.f2i16 = op := Option.some.inj hop
        decide
    · exact isSafe_halfPacking (by decide) (by decide) hx hsearch hreplace

/-- A function that stores the low byte of its parameter. -/
def lowByte : Func where
  name := "f"
  params := [⟨0⟩]
  values := #[⟨.parameter 0 none, 32⟩, ⟨.result ⟨0⟩, 8⟩, ⟨.result ⟨1⟩, 32⟩]
  chains := #[[⟨⟨0⟩, 0⟩], [⟨⟨1⟩, 0⟩], [⟨⟨2⟩, 0⟩]]
  insts := #[⟨.u2u8, 8, false, [⟨0⟩], some ⟨1⟩, some ⟨0⟩⟩,
    ⟨.u2u32, 32, false, [⟨1⟩], some ⟨2⟩, some ⟨0⟩⟩, ⟨.store, 0, false, [⟨2⟩], none, some ⟨0⟩⟩]
  blocks := #[[⟨0⟩, ⟨1⟩, ⟨2⟩]]

theorem reachable_lowByte : Reachable lowByte [] := by
  have hblock := (Reachable.empty "f").edit (.createBlock rfl)
  have hparam := hblock.addParam 32 none rfl
  have hinner : Reachable ⟨"f", [⟨0⟩], #[⟨.parameter 0 none, 32⟩, ⟨.result ⟨0⟩, 8⟩],
      #[[⟨⟨0⟩, 0⟩], []], #[⟨.u2u8, 8, false, [⟨0⟩], some ⟨1⟩, some ⟨0⟩⟩], #[[⟨0⟩]]⟩ [] :=
    hparam.append ⟨0⟩ .u2u8 8 [⟨0⟩] (by decide) rfl
  have houter := hinner.append ⟨0⟩ .u2u32 32 [⟨1⟩] (by decide) rfl
  exact houter.append ⟨0⟩ .store 0 [⟨2⟩] (by decide) rfl

theorem keepsStores_narrowing_lowByte : ∃ rs o, RuleSet.load lowering8 = .ok rs ∧
    Reachable lowByte [] ∧ lowByte.isValid ∧ lowByte.Avoids [.f2u8, .f2i8] ∧
    (Pass.new rs).run lowByte = .ok o ∧ lowByte.stores [300] = some [.of 44 32] ∧
    o.func.stores [300] = some [.of 44 32] := by
  obtain ⟨rs, hload, hruns⟩ := keepsStores_narrowing.1
  have hv : lowByte.isValid := by decide +kernel
  have havoid : lowByte.Avoids [.f2u8, .f2i8] := by
    intro i hi d hd
    have hi : i = ⟨0⟩ ∨ i = ⟨1⟩ ∨ i = ⟨2⟩ := by simpa [layout, lowByte] using hi
    obtain rfl | rfl | rfl := hi <;> cases hd <;> decide
  have hstores : lowByte.stores [300] = some [.of 44 32] := by decide +kernel
  obtain ⟨o, ho, hsame⟩ := hruns (.new rs) lowByte [] rfl reachable_lowByte hv havoid
  obtain ⟨ls, hls, hls'⟩ := hsame [300] rfl
  rw [hstores] at hls
  cases hls
  exact ⟨rs, o, hload, reachable_lowByte, hv, havoid, ho, hstores, hls'⟩

end Legalize

end Peephole

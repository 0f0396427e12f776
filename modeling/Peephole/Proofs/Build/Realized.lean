import Peephole.Build
import Peephole.Proofs.Func.Settled
import Peephole.Proofs.Rule.Load

/-!
# What is built

A value **realizes** a pattern when it is made the way `Build` makes it: a bound value for a
variable, a literal for a constant, and for an expression either the literal of its value or the
result of an instruction on values that realize the sources. `realized_of_value` says that building
yields such a value; expressions that are found among those built before realize the pattern as
well, so that nothing that follows from `Realized` has to speak of sharing again.

Building only extends a function, and keeps it settled, `Sound`.
-/

namespace Peephole

open Func

/-! ### Realization -/

mutual

/-- Whether a value of a function **realizes** a pattern before an instruction, at an expected width
where nothing else gives one. -/
inductive Realized (f : Func) (b : Bindings) (c : InstId) : Pattern → Option Nat → ValueId → Prop
  | var {v guard expected x} (bound : b v.index = some x) (known : (f.value? x).isSome)
      (available : f.Available c x) : Realized f b c (.var v guard) expected x
  | const {slot k expected w bits x} (width : (k.width <|> expected) = some w)
      (encoded : Build.encodeConstant k w = .ok bits)
      (literal : f.literal? x = some (.of bits w)) : Realized f b c (.const slot k) expected x
  | folded {slot e guard args expected w op xs ls bits x}
      (width : (e.width <|> e.op.fixedWidth <|> expected) = some w)
      (form : e.op.withWidth? w = some op)
      (sources : RealizedAll f b c w args op.info.sourceWidths none xs)
      (literals : xs.map f.literal? = ls.map some)
      (value : evaluate op w ls = .ok (some bits))
      (literal : f.literal? x = some (.of bits w)) :
      Realized f b c (.expr slot e guard args) expected x
  | emitted {slot e guard args expected w op x i d}
      (width : (e.width <|> e.op.fixedWidth <|> expected) = some w)
      (form : e.op.withWidth? w = some op)
      (sources : RealizedAll f b c w args op.info.sourceWidths none d.operands)
      (precedes : f.Precedes i c) (inst : f.inst? i = some d) (opcode : d.opcode = op)
      (dwidth : d.width = w) (result : d.result = some x) :
      Realized f b c (.expr slot e guard args) expected x

/-- Whether values realize the sources of an operation of a width, given the width of the paired
source before. -/
inductive RealizedAll (f : Func) (b : Bindings) (c : InstId) :
    Nat → List Pattern → List SourceWidth → Option Nat → List ValueId → Prop
  | nil {w ps sws paired} (stop : ps = [] ∨ sws = []) : RealizedAll f b c w ps sws paired []
  | cons {w p ps sw sws paired x xs}
      (first : Realized f b c p (Build.sourceWidth w paired sw) x) (known : (f.value? x).isSome)
      (others : RealizedAll f b c w ps sws
        (if sw = .paired then paired <|> some (f.width x) else paired) xs) :
      RealizedAll f b c w (p :: ps) (sw :: sws) paired (x :: xs)

end

variable {f g : Func} {b : Bindings} {c : InstId}

mutual

/-- What is realized stays realized when more is built. -/
theorem Realized.extends (e : f.Extends g) {p : Pattern} {expected : Option Nat} {x : ValueId} :
    Realized f b c p expected x → Realized g b c p expected x
  | .var bound known available => .var bound (e.exists_value known) (e.available available)
  | .const width encoded literal => .const width encoded (e.literal? literal)
  | .folded width form sources literals value literal =>
    .folded width form (sources.extends e) (e.map_literal? literals) value (e.literal? literal)
  | .emitted width form sources precedes inst opcode dwidth result =>
    .emitted width form (sources.extends e) (precedes.mono e.sublist) (e.inst? inst) opcode dwidth
      result

theorem RealizedAll.extends (e : f.Extends g) {w : Nat} {ps : List Pattern}
    {sws : List SourceWidth} {paired : Option Nat} {xs : List ValueId} :
    RealizedAll f b c w ps sws paired xs → RealizedAll g b c w ps sws paired xs
  | .nil stop => .nil stop
  | .cons first known others =>
    .cons (first.extends e) (e.exists_value known) (by
      rw [e.width known]
      exact others.extends e)

end

/-- A realized pattern is available. -/
theorem Realized.available {p : Pattern} {expected : Option Nat} {x : ValueId}
    (h : Realized f b c p expected x) : f.Available c x := by
  cases h with
  | var _ _ available => exact available
  | const _ _ literal => exact .inl (by rw [isLiteral, literal]; rfl)
  | folded _ _ _ _ _ literal => exact .inl (by rw [isLiteral, literal]; rfl)
  | emitted _ _ _ precedes inst _ _ result =>
    exact .inr (.inr ⟨_, by rw [result?, inst]; exact result, precedes⟩)

theorem Realized.known (hf : f.Coherent) {p : Pattern} {expected : Option Nat} {x : ValueId}
    (h : Realized f b c p expected x) : (f.value? x).isSome := by
  cases h with
  | var _ known _ => exact known
  | const _ _ literal => exact known_of_literal? literal
  | folded _ _ _ _ _ literal => exact known_of_literal? literal
  | emitted _ _ _ _ inst _ _ result =>
    rw [hf.produced inst result]
    rfl

namespace Pattern

/-- The width at which a pattern is built, given the widths of variables and an expected width. -/
def widthAt (ω : Nat → Nat) : Pattern → Option Nat → Option Nat
  | var v _, _ => some (ω v.index)
  | const _ k, expected => k.width <|> expected
  | expr _ e _ _, expected => e.width <|> e.op.fixedWidth <|> expected

end Pattern

/-- The width of what a variable is bound to. -/
def Bindings.width (b : Bindings) (f : Func) (k : Nat) : Nat := (b k).elim 0 f.width

/-- What realizes a pattern has the width at which the pattern is built. -/
theorem Realized.width (hf : f.Coherent) {p : Pattern} {expected : Option Nat} {x : ValueId}
    (h : Realized f b c p expected x) : p.widthAt (b.width f) expected = some (f.width x) := by
  cases h with
  | var bound _ _ => rw [Pattern.widthAt, Bindings.width, bound]; rfl
  | const width _ literal => rw [Pattern.widthAt, width, width_of_literal? literal]; rfl
  | folded width _ _ _ _ literal => rw [Pattern.widthAt, width, width_of_literal? literal]; rfl
  | emitted width _ _ _ inst _ dwidth result =>
    rw [Pattern.widthAt, width, Func.width, hf.produced inst result, ← dwidth]
    rfl

namespace Build

/-! ### Steps of building -/

/-- Existing values can be asked for their literals. -/
theorem literals?_ok {vs : List ValueId} (h : ∀ v ∈ vs, (f.value? v).isSome) :
    ∃ o, literals? f vs = .ok o := by
  induction vs with
  | nil => exact ⟨some [], rfl⟩
  | cons v vs ih =>
    rw [List.forall_mem_cons] at h
    obtain ⟨d, hd⟩ := Option.isSome_iff_exists.mp h.1
    obtain ⟨o, ho⟩ := ih h.2
    cases hl : f.literal? v with
    | none => exact ⟨none, by simp [literals?, requireValue, hd, hl]⟩
    | some l => exact ⟨o.map (l :: ·), by simp [literals?, requireValue, hd, hl, ho]⟩

/-- The literals that are found are those of the values. -/
theorem literals_of_literals? {vs : List ValueId} {ls : List Literal}
    (h : literals? f vs = .ok (some ls)) : vs.map f.literal? = ls.map some := by
  induction vs generalizing ls with
  | nil =>
    cases h
    rfl
  | cons v vs ih =>
    rw [literals?] at h
    obtain ⟨_, -, h⟩ := bind_eq_ok.mp h
    split at h
    · next l hl =>
      obtain ⟨o, ho, h⟩ := bind_eq_ok.mp h
      cases o with
      | none => cases h
      | some ls' =>
        cases h
        rw [List.map_cons, List.map_cons, hl, ih ho]
    · cases h

/-- A folded operation is pure, and has a value on the literals. -/
theorem folded?_eq_some {op : Opcode} {w : Nat} {vs : List ValueId} {bits : Word}
    (h : folded? f op w vs = .ok (some bits)) :
    op.isPure ∧ ∃ ls, vs.map f.literal? = ls.map some ∧ evaluate op w ls = .ok (some bits) := by
  unfold folded? at h
  cases hp : op.isPure with
  | false => simp [hp] at h
  | true =>
    simp only [hp, Bool.not_true, Bool.false_eq_true, if_false] at h
    obtain ⟨o, ho, h⟩ := bind_eq_ok.mp h
    cases o with
    | none => cases h
    | some ls => exact ⟨rfl, ls, literals_of_literals? ho, h⟩

/-- What is added for an operation: a literal, or an instruction before the cursor. -/
theorem emit_eq_ok {s s' : State} {site : Site} {op : Opcode} {w : Nat} {exact : Bool}
    {vs : List ValueId} {x : ValueId} (h : s.emit site op w exact vs = .ok (x, s')) :
    s'.built = s.built ∧
      ((∃ ls bits, vs.map s.func.literal? = ls.map some ∧ evaluate op w ls = .ok (some bits) ∧
          s.func.literal w bits = .ok (x, s'.func)) ∨
        ∃ i e e', s.func.createInst op w vs = .ok (i, e) ∧
          e.setExact i (exact || site.exact) = .ok e' ∧
          e'.insertBefore site.cursor i = .ok s'.func ∧ s'.func.result? i = some x) := by
  unfold State.emit at h
  obtain ⟨o, ho, h⟩ := bind_eq_ok.mp h
  cases o with
  | some bits =>
    obtain ⟨⟨y, g⟩, hlit, h⟩ := bind_eq_ok.mp h
    cases h
    obtain ⟨-, ls, hls, hval⟩ := folded?_eq_some ho
    exact ⟨rfl, .inl ⟨ls, bits, hls, hval, hlit⟩⟩
  | none =>
    obtain ⟨⟨i, e⟩, hcreate, h⟩ := bind_eq_ok.mp h
    obtain ⟨e', hexact, h⟩ := bind_eq_ok.mp h
    obtain ⟨g, hinsert, h⟩ := bind_eq_ok.mp h
    cases hr : g.result? i with
    | none => simp [hr] at h
    | some y =>
      simp only [hr] at h
      cases h
      exact ⟨rfl, .inr ⟨i, e, e', hcreate, hexact, hinsert, hr⟩⟩

/-- How an expression is built: it has been built before, or its sources are built and it is added.
-/
theorem value_expr_eq_ok {site : Site} {slot : Nat} {e : ExpressionSlot}
    {guard : Option InstPredicate} {args : List Pattern} {expected : Option Nat} {s s' : State}
    {x : ValueId} (h : value site (.expr slot e guard args) expected s = .ok (x, s')) :
    ∃ w, (e.width <|> e.op.fixedWidth <|> expected) = some w ∧
      (s.built? slot w = some x ∧ s' = s ∨ s.built? slot w = none ∧
        ∃ op xs t u, e.op.withWidth? w = some op ∧
          values site w args op.info.sourceWidths none s = .ok (xs, t) ∧
          t.emit site op w e.exact xs = .ok (x, u) ∧
          s' = { u with built := u.built ++ [(slot, w, x)] }) := by
  rw [value] at h
  split at h
  · cases h
  · next w hw =>
    refine ⟨w, hw, ?_⟩
    split at h
    · next y hy =>
      cases h
      exact .inl ⟨hy, rfl⟩
    · next hnone =>
      split at h
      · cases h
      · next op hop =>
        obtain ⟨⟨xs, t⟩, hvalues, h⟩ := bind_eq_ok.mp h
        obtain ⟨⟨y, u⟩, hemit, h⟩ := bind_eq_ok.mp h
        cases h
        exact .inr ⟨hnone, op, xs, t, u, hop, hvalues, hemit, rfl⟩

/-- How sources are built: one after another, the first of the paired ones giving its width. -/
theorem values_cons (site : Site) (w : Nat) (p : Pattern) (ps : List Pattern) (sw : SourceWidth)
    (sws : List SourceWidth) (paired : Option Nat) (s : State) :
    values site w (p :: ps) (sw :: sws) paired s =
      value site p (sourceWidth w paired sw) s >>= fun r =>
        (if sw = .paired then pairedWidth r.2.func paired r.1 else .ok paired) >>= fun next =>
          values site w ps sws next r.2 >>= fun q => .ok (r.1 :: q.1, q.2) := by
  rw [values]
  refine congrArg (value site p (sourceWidth w paired sw) s >>= ·) (funext fun r => ?_)
  obtain ⟨x, u⟩ := r
  dsimp only
  split <;> rfl

theorem values_cons_eq_ok {site : Site} {w : Nat} {p : Pattern} {ps : List Pattern}
    {sw : SourceWidth} {sws : List SourceWidth} {paired : Option Nat} {s s' : State}
    {xs : List ValueId} (h : values site w (p :: ps) (sw :: sws) paired s = .ok (xs, s')) :
    ∃ x t next ys, value site p (sourceWidth w paired sw) s = .ok (x, t) ∧
      (if sw = .paired then pairedWidth t.func paired x else .ok paired) = .ok next ∧
      values site w ps sws next t = .ok (ys, s') ∧ xs = x :: ys := by
  rw [values_cons] at h
  obtain ⟨⟨x, t⟩, hvalue, h⟩ := bind_eq_ok.mp h
  obtain ⟨next, hnext, h⟩ := bind_eq_ok.mp h
  obtain ⟨⟨ys, u⟩, hvalues, h⟩ := bind_eq_ok.mp h
  cases h
  exact ⟨x, t, next, ys, hvalue, hnext, hvalues, rfl⟩

/-- The width of the paired sources, once one of them is built. -/
theorem pairedWidth_eq_ok {paired next : Option Nat} {x : ValueId}
    (hx : (f.value? x).isSome) :
    pairedWidth f paired x = .ok next ↔ next = (paired <|> some (f.width x)) := by
  obtain ⟨d, hd⟩ := Option.isSome_iff_exists.mp hx
  simp only [pairedWidth, requireValue, hd, Option.elim_some, ok_bind, pure_eq_ok, Func.width,
    Except.ok.injEq]
  exact eq_comm

theorem paired_eq_of_ok {paired next : Option Nat} {sw : SourceWidth} {x : ValueId}
    (hx : (f.value? x).isSome)
    (h : (if sw = .paired then pairedWidth f paired x else .ok paired) = .ok next) :
    next = if sw = .paired then paired <|> some (f.width x) else paired := by
  split at h
  · next hsw => rw [if_pos hsw, (pairedWidth_eq_ok hx).mp h]
  · next hsw => rw [if_neg hsw, ← Except.ok.inj h]

theorem mem_of_built? {s : State} {slot w : Nat} {x : ValueId} (h : s.built? slot w = some x) :
    (slot, w, x) ∈ s.built := by
  obtain ⟨⟨k, n, y⟩, hfind, rfl⟩ := Option.map_eq_some_iff.mp h
  have hk := List.find?_some hfind
  simp only [Bool.and_eq_true, beq_iff_eq] at hk
  obtain ⟨rfl, rfl⟩ := hk
  exact List.mem_of_find?_eq_some hfind

/-! ### The invariant of building -/

/-- What holds of a state of building: the function is reachable and settled, the variables stand
for values that are available at the cursor, and what has been built before realizes its slot. -/
structure Sound (P : Array Pattern) (site : Site) (gone : List InstId) (s : State) : Prop where
  reachable : Reachable s.func gone
  settled : s.func.Settled gone
  cursor : site.cursor ∈ s.func.layout
  bound : ∀ {k x}, site.bindings k = some x →
    (s.func.value? x).isSome ∧ s.func.Available site.cursor x
  shared : ∀ {slot w x}, (slot, w, x) ∈ s.built →
    ∀ {e guard args}, P[slot]? = some (.expr slot e guard args) →
    ∀ {expected}, (e.width <|> e.op.fixedWidth <|> expected) = some w →
      Realized s.func site.bindings site.cursor (.expr slot e guard args) expected x

variable {P : Array Pattern} {site : Site} {gone : List InstId}

theorem Sound.extends {s s' : State} (hs : Sound P site gone s) (e : s.func.Extends s'.func)
    (hreach : Reachable s'.func gone) (hset : s'.func.Settled gone) (hb : s'.built = s.built) :
    Sound P site gone s' where
  reachable := hreach
  settled := hset
  cursor := e.sublist.subset hs.cursor
  bound hk := ⟨e.exists_value (hs.bound hk).1, e.available (hs.bound hk).2⟩
  shared hmem _ _ _ hP _ hw := (hs.shared (hb ▸ hmem) hP hw).extends e

theorem Sound.literal {s : State} {g : Func} {w : Nat} {bits : Word} {x : ValueId}
    (events : List Event) (hs : Sound P site gone s) (h : s.func.literal w bits = .ok (x, g)) :
    Sound P site gone { s with func := g, events := events } ∧ s.func.Extends g ∧
      g.literal? x = some (.of bits w) := by
  obtain ⟨hset, hext, -, -, hlit⟩ := hs.settled.literal h
  exact ⟨hs.extends hext (hs.reachable.edit (.literal h)) hset rfl, hext, hlit⟩

/-- A value that has been emitted on values that realize the sources. -/
theorem Sound.emit {s s' : State} {w : Nat} {e : ExpressionSlot} (slot : Nat)
    (guard : Option InstPredicate) {args : List Pattern} {op : Opcode} {exact : Bool}
    {vs : List ValueId} {x : ValueId} (hs : Sound P site gone s)
    (form : e.op.withWidth? w = some op)
    (sources : RealizedAll s.func site.bindings site.cursor w args op.info.sourceWidths none vs)
    (hknown : ∀ v ∈ vs, (s.func.value? v).isSome)
    (hav : ∀ v ∈ vs, s.func.Available site.cursor v)
    (h : s.emit site op w exact vs = .ok (x, s')) :
    Sound P site gone s' ∧ s.func.Extends s'.func ∧
      ∀ expected, (e.width <|> e.op.fixedWidth <|> expected) = some w →
        Realized s'.func site.bindings site.cursor (.expr slot e guard args) expected x := by
  obtain ⟨hb, ⟨ls, bits, hls, hval, hlit⟩ | ⟨i, g, g', hcreate, hexact, hinsert, hr⟩⟩ :=
    emit_eq_ok h
  · obtain ⟨hset, hext, -, -, hx⟩ := hs.settled.literal hlit
    exact ⟨hs.extends hext (hs.reachable.edit (.literal hlit)) hset hb, hext, fun _ width =>
      .folded width form (sources.extends hext) (hext.map_literal? hls) hval hx⟩
  · have em := emits_of_eq_ok hcreate hexact hinsert
    obtain ⟨blk, hi⟩ := em.inst?_self
    rw [result?, hi, Option.bind_some] at hr
    have hres : op.hasResult := by
      by_contra hres
      simp [hres] at hr
    have hext := em.extends hs.settled.coherent hres
    refine ⟨hs.extends hext (hs.reachable.emit hknown hcreate hexact hinsert)
      (hs.settled.emit hknown hav hres hcreate hexact hinsert) hb, hext, fun _ width => ?_⟩
    exact .emitted width form (sources.extends hext) em.precedes hi rfl rfl hr

mutual

/-- Building a pattern yields a value that realizes it. -/
theorem realized_of_value :
    ∀ (p : Pattern) (expected : Option Nat) (s s' : State) (x : ValueId), p.WellFormed P →
      Sound P site gone s → value site p expected s = .ok (x, s') →
      Sound P site gone s' ∧ s.func.Extends s'.func ∧
        Realized s'.func site.bindings site.cursor p expected x
  | .var v guard, expected, s, s', x, _, hs, h => by
    rw [value] at h
    split at h
    · next y hy =>
      cases h
      obtain ⟨hknown, hav⟩ := hs.bound hy
      exact ⟨hs, hs.settled.coherent.extends_refl, .var hy hknown hav⟩
    · cases h
  | .const slot k, expected, s, s', x, _, hs, h => by
    rw [value] at h
    split at h
    · cases h
    · next w hw =>
      obtain ⟨bits, hbits, h⟩ := bind_eq_ok.mp h
      obtain ⟨⟨y, g⟩, hlit, h⟩ := bind_eq_ok.mp h
      cases h
      obtain ⟨hs', hext, hx⟩ := hs.literal s.events hlit
      exact ⟨hs', hext, .const hw hbits hx⟩
  | .expr slot e guard args, expected, s, s', x, hp, hs, h => by
    cases hp with
    | expr resolved _ _ hargs =>
    obtain ⟨w, hw, ⟨hbuilt, rfl⟩ | ⟨-, op, xs, t, u, hop, hvalues, hemit, rfl⟩⟩ :=
      value_expr_eq_ok h
    · exact ⟨hs, hs.settled.coherent.extends_refl,
        hs.shared (mem_of_built? hbuilt) resolved hw⟩
    · obtain ⟨ht, hext, hsources, hknown, hav⟩ :=
        realizedAll_of_values args w op.info.sourceWidths none s t xs hargs hs hvalues
      obtain ⟨hu, hext', hreal⟩ := ht.emit slot guard hop hsources hknown hav hemit
      refine ⟨⟨hu.reachable, hu.settled, hu.cursor, hu.bound, ?_⟩, hext.trans hext',
        hreal expected hw⟩
      -- the value is shared from now on, and at every expected width that leads to the same width
      intro slot' w' y hmem e' guard' args' hP expected' hw'
      obtain hmem | hmem := List.mem_append.mp hmem
      · exact hu.shared hmem hP hw'
      · obtain ⟨rfl, rfl, rfl⟩ : slot' = slot ∧ w' = w ∧ y = x := by simpa using hmem
        rw [resolved] at hP
        cases hP
        exact hreal expected' hw'

theorem realizedAll_of_values :
    ∀ (ps : List Pattern) (w : Nat) (sws : List SourceWidth) (paired : Option Nat) (s s' : State)
      (xs : List ValueId), (∀ p ∈ ps, p.WellFormed P) → Sound P site gone s →
      values site w ps sws paired s = .ok (xs, s') →
      Sound P site gone s' ∧ s.func.Extends s'.func ∧
        RealizedAll s'.func site.bindings site.cursor w ps sws paired xs ∧
        (∀ x ∈ xs, (s'.func.value? x).isSome) ∧ ∀ x ∈ xs, s'.func.Available site.cursor x
  | [], w, sws, paired, s, s', xs, _, hs, h => by
    simp only [values] at h
    cases h
    exact ⟨hs, hs.settled.coherent.extends_refl, .nil (.inl rfl), by simp, by simp⟩
  | p :: ps, w, [], paired, s, s', xs, _, hs, h => by
    simp only [values] at h
    cases h
    exact ⟨hs, hs.settled.coherent.extends_refl, .nil (.inr rfl), by simp, by simp⟩
  | p :: ps, w, sw :: sws, paired, s, s', xs, hps, hs, h => by
    rw [List.forall_mem_cons] at hps
    obtain ⟨x, t, next, ys, hvalue, hnext, hvalues, rfl⟩ := values_cons_eq_ok h
    obtain ⟨ht, hext, hreal⟩ := realized_of_value p _ s t x hps.1 hs hvalue
    have hknown := hreal.known ht.settled.coherent
    have heq := paired_eq_of_ok hknown hnext
    obtain ⟨hu, hext', hreals, hknowns, hav⟩ :=
      realizedAll_of_values ps w sws next t s' ys hps.2 ht hvalues
    refine ⟨hu, hext.trans hext', .cons (hreal.extends hext') (hext'.exists_value hknown) ?_, ?_,
      ?_⟩
    · rw [hext'.width hknown, ← heq]
      exact hreals
    · exact List.forall_mem_cons.mpr ⟨hext'.exists_value hknown, hknowns⟩
    · exact List.forall_mem_cons.mpr ⟨hext'.available hreal.available, hav⟩

end

end Build

end Peephole

import Peephole.Proofs.Build.Forms
import Peephole.Proofs.Match

/-!
# Patterns that clash

When a replacement cannot be matched again. Two patterns **clash** when their operations differ
where both have one: no value that realizes the first one is matched by the second one,
`Realized.walk_eq_none`. A replacement may be folded into literals on the way, which no expression
matches.

Every instruction that is built realizes an expression of the replacement, `emerges_of_value`. So
none of them is matched if all these expressions clash with what is searched for.
-/

namespace Peephole

open Func

/-! ### Clashes -/

/-- Whether no operation is a form of one operation of a rule and covered by another one. -/
def Operation.isDisjoint : Operation → Operation → Bool
  | single op, o => !o.covers op
  | family f, single op => op.family? != some f
  | family f, family f' => f != f'

theorem Operation.not_covers_of_isDisjoint {o o' : Operation} (h : o.isDisjoint o') {w : Nat}
    {op : Opcode} (hop : o.withWidth? w = some op) : o'.covers op = false := by
  cases o with
  | single op' =>
    obtain rfl := eq_of_single hop
    simpa [isDisjoint] using h
  | family f =>
    obtain ⟨-, -, hcovers, -⟩ := form hop
    have hf : op.family? = some f := by simpa [covers] using hcovers
    cases o' with
    | single op' =>
      refine beq_eq_false_iff_ne.mpr fun heq => ?_
      simp [isDisjoint, heq, hf] at h
    | family f' =>
      simpa [isDisjoint, covers, hf] using h

namespace Pattern

mutual

/-- Whether a replacement and a search pattern **clash**: the operations of two expressions differ,
or a constant meets an expression. -/
def clashes : Pattern → Pattern → Bool
  | const .., expr .. => true
  | expr _ e _ args, expr _ e' _ args' =>
    e.op.isDisjoint e'.op || (!e'.commutative && clashAmong args args')
  | _, _ => false

/-- Whether two patterns clash that stand at the same position. -/
def clashAmong : List Pattern → List Pattern → Bool
  | p :: ps, q :: qs => clashes p q || clashAmong ps qs
  | _, _ => false

end

/-- An expression does not match a literal. -/
theorem walk_expr_of_literal? {f : Func} {x : ValueId} {l : Literal} (h : f.literal? x = some l)
    {swaps slot : Nat} {e : ExpressionSlot} {guard : Option InstPredicate} {args : List Pattern}
    {w : Walk} : (expr slot e guard args).walk f swaps x w = none := by
  rw [walk, definer?_of_literal? h]
  rfl

end Pattern

open Pattern

variable {f : Func} {b : Bindings} {c : InstId} {swaps : Nat}

mutual

/-- What realizes a pattern is not matched by a pattern that clashes with it. -/
theorem Realized.walk_eq_none (hf : f.Coherent) {p q : Pattern} {expected : Option Nat}
    {x : ValueId} {s : Walk} : Realized f b c p expected x → p.clashes q →
      q.walk f swaps x s = none
  | .var .., h => by simp [clashes] at h
  | .const _ _ literal, h => by
    cases q with
    | expr => exact walk_expr_of_literal? literal
    | _ => simp [clashes] at h
  | .folded _ _ _ _ _ literal, h => by
    cases q with
    | expr => exact walk_expr_of_literal? literal
    | _ => simp [clashes] at h
  | .emitted (i := i) (d := d) _ form sources _ inst opcode _ result, h => by
    cases q with
    | expr slot' e' guard' args' =>
      rw [clashes] at h
      have hdef : f.definer? x = some i :=
        hf.definer?_eq_some.mpr (by rw [result?, inst]; exact result)
      rw [walk, hdef, Option.bind_some, inst, Option.map_some]
      dsimp only
      obtain hop | h := (Bool.or_eq_true _ _).mp h
      · have hcovers : e'.op.covers d.opcode = false := by
          rw [opcode]
          exact Operation.not_covers_of_isDisjoint hop form
        rw [if_pos (by simp [ExpressionSlot.accepts, hcovers])]
      · simp only [Bool.and_eq_true, Bool.not_eq_true'] at h
        rw [h.1, if_neg Bool.false_ne_true, sources.walkAll_eq_none hf h.2, ite_self]
    | _ => simp [clashes] at h

theorem RealizedAll.walkAll_eq_none (hf : f.Coherent) {w : Nat} {ps qs : List Pattern}
    {sws : List SourceWidth} {paired : Option Nat} {xs : List ValueId} {s : Walk} :
    RealizedAll f b c w ps sws paired xs → clashAmong ps qs → walkAll f swaps qs xs s = none
  | .nil _, h => by
    unfold clashAmong at h
    split at h
    · rw [walkAll] <;> simp
    · cases h
  | .cons first _ others, h => by
    unfold clashAmong at h
    split at h
    · next p ps q qs heq =>
      cases heq
      rw [walkAll]
      obtain h | h := (Bool.or_eq_true _ _).mp h
      · rw [first.walk_eq_none hf h, Option.bind_none]
      · have hrest (s : Walk) := others.walkAll_eq_none (s := s) hf h
        simp only [hrest, Option.bind_fun_none]
    · cases h

end

/-- An instruction whose result realizes a pattern is not matched by a rule that searches for one
that clashes with it. -/
theorem Realized.matchInst_eq_none {p : Pattern} {expected : Option Nat} {r : Rule} {j : InstId}
    {x : ValueId} (h : Realized f b c p expected x) (hf : f.Coherent) (hclash : p.clashes r.search)
    (hx : f.result? j = some x) : r.matchInst f j = none := by
  rw [Rule.matchInst, hx, Option.bind_some]
  exact search_eq_none fun _ _ => h.walk_eq_none hf hclash

/-! ### What is built -/

namespace Pattern

mutual

/-- Whether every expression in a pattern has a property. -/
def EveryExpr (Q : Pattern → Prop) : Pattern → Prop
  | expr slot e guard args => Q (expr slot e guard args) ∧ EveryExprAmong Q args
  | _ => True

/-- Whether every expression in a list of patterns has a property. -/
def EveryExprAmong (Q : Pattern → Prop) : List Pattern → Prop
  | [] => True
  | p :: ps => EveryExpr Q p ∧ EveryExprAmong Q ps

end

end Pattern

mutual

theorem Pattern.EveryExpr.imp {Q Q' : Pattern → Prop} (h : ∀ p, Q p → Q' p) :
    ∀ {p : Pattern}, p.EveryExpr Q → p.EveryExpr Q'
  | .var .., _ => by simp [EveryExpr]
  | .const .., _ => by simp [EveryExpr]
  | .expr .., hp => by
    rw [EveryExpr] at hp ⊢
    exact ⟨h _ hp.1, EveryExprAmong.imp h hp.2⟩

theorem Pattern.EveryExprAmong.imp {Q Q' : Pattern → Prop} (h : ∀ p, Q p → Q' p) :
    ∀ {ps : List Pattern}, EveryExprAmong Q ps → EveryExprAmong Q' ps
  | [], _ => by simp [EveryExprAmong]
  | _ :: _, hps => by
    rw [EveryExprAmong] at hps ⊢
    exact ⟨hps.1.imp h, hps.2.imp h⟩

end

/-- Whether every instruction that one function has more than another one realizes a pattern with a
property before an instruction. -/
def Emerges (Q : Pattern → Prop) (b : Bindings) (c : InstId) (f g : Func) : Prop :=
  ∀ j ∈ g.layout, f.inst? j = none →
    ∃ p expected x, Q p ∧ Realized g b c p expected x ∧ g.result? j = some x

variable {Q : Pattern → Prop} {g h : Func}

theorem Emerges.of_layout (hf : f.Coherent) (hl : g.layout = f.layout) : Emerges Q b c f g := by
  intro j hj hnone
  have := hf.exists_of_mem_layout (hl ▸ hj)
  simp [hnone] at this

theorem Emerges.trans (e : g.Extends h) (hfg : Emerges Q b c f g) (hgh : Emerges Q b c g h) :
    Emerges Q b c f h := by
  intro j hj hnone
  cases hgj : g.inst? j with
  | none => exact hgh j hj hgj
  | some d =>
    have hjg : j ∈ g.layout := by
      rw [e.layout, List.mem_filter]
      exact ⟨hj, by rw [hgj]; rfl⟩
    obtain ⟨p, expected, x, hp, hreal, hres⟩ := hfg j hjg hnone
    exact ⟨p, expected, x, hp, hreal.extends e, e.result? hres⟩

namespace Build

variable {P : Array Pattern} {site : Site} {gone : List InstId}

theorem emerges_of_emit {s s' : State} {w : Nat} {op : Opcode} {exact : Bool} {vs : List ValueId}
    {p : Pattern} {expected : Option Nat} {x : ValueId} (hs : s.func.Settled gone) (hp : Q p)
    (hreal : Realized s'.func site.bindings site.cursor p expected x)
    (h : s.emit site op w exact vs = .ok (x, s')) :
    Emerges Q site.bindings site.cursor s.func s'.func := by
  obtain ⟨-, ⟨_, _, -, -, hlit⟩ | ⟨i, g, g', hcreate, hexact, hinsert, hres⟩⟩ := emit_eq_ok h
  · exact .of_layout hs.coherent (hs.literal hlit).2.2.1
  · have em := emits_of_eq_ok hcreate hexact hinsert
    intro j hj hnone
    by_cases hji : j = i
    · exact ⟨p, expected, x, hp, hreal, hji ▸ hres⟩
    · have := hs.coherent.exists_of_mem_layout (em.mem_layout hj hji)
      simp [hnone] at this

mutual

/-- Every instruction that is built realizes an expression of the pattern. -/
theorem emerges_of_value :
    ∀ (p : Pattern) (expected : Option Nat) (s s' : State) (x : ValueId), p.WellFormed P →
      Sound P site gone s → value site p expected s = .ok (x, s') → p.EveryExpr Q →
      Emerges Q site.bindings site.cursor s.func s'.func
  | .var v guard, expected, s, s', x, _, hs, h, _ => by
    rw [value] at h
    split at h
    · cases h
      exact .of_layout hs.settled.coherent rfl
    · cases h
  | .const slot k, expected, s, s', x, _, hs, h, _ => by
    rw [value] at h
    split at h
    · cases h
    · obtain ⟨bits, -, h⟩ := bind_eq_ok.mp h
      obtain ⟨⟨y, g⟩, hlit, h⟩ := bind_eq_ok.mp h
      cases h
      exact .of_layout hs.settled.coherent (hs.settled.literal hlit).2.2.1
  | .expr slot e guard args, expected, s, s', x, hp, hs, h, hQ => by
    rw [EveryExpr] at hQ
    have hreal := (realized_of_value _ _ s s' x hp hs h).2.2
    cases hp with
    | expr _ _ _ hargs =>
    obtain ⟨w, hw, ⟨-, rfl⟩ | ⟨-, op, xs, t, u, hop, hvalues, hemit, rfl⟩⟩ :=
      value_expr_eq_ok h
    · exact .of_layout hs.settled.coherent rfl
    · obtain ⟨ht, -, hsources, hknown, hav⟩ :=
        realizedAll_of_values args w op.info.sourceWidths none s t xs hargs hs hvalues
      obtain ⟨-, hext, -⟩ := ht.emit slot guard hop hsources hknown hav hemit
      have hnew : Emerges Q site.bindings site.cursor t.func u.func :=
        emerges_of_emit ht.settled hQ.1 hreal hemit
      exact (emergesAll_of_values args w op.info.sourceWidths none s t xs hargs hs hvalues
        hQ.2).trans hext hnew

theorem emergesAll_of_values :
    ∀ (ps : List Pattern) (w : Nat) (sws : List SourceWidth) (paired : Option Nat) (s s' : State)
      (xs : List ValueId), (∀ p ∈ ps, p.WellFormed P) → Sound P site gone s →
      values site w ps sws paired s = .ok (xs, s') → EveryExprAmong Q ps →
      Emerges Q site.bindings site.cursor s.func s'.func
  | [], w, sws, paired, s, s', xs, _, hs, h, _ => by
    simp only [values] at h
    cases h
    exact .of_layout hs.settled.coherent rfl
  | p :: ps, w, [], paired, s, s', xs, _, hs, h, _ => by
    simp only [values] at h
    cases h
    exact .of_layout hs.settled.coherent rfl
  | p :: ps, w, sw :: sws, paired, s, s', xs, hps, hs, h, hQ => by
    rw [List.forall_mem_cons] at hps
    rw [EveryExprAmong] at hQ
    obtain ⟨x, t, next, ys, hvalue, -, hvalues, rfl⟩ := values_cons_eq_ok h
    obtain ⟨ht, -, -⟩ := realized_of_value p _ s t x hps.1 hs hvalue
    obtain ⟨-, hext, -⟩ := realizedAll_of_values ps w sws next t s' ys hps.2 ht hvalues
    exact (emerges_of_value p _ s t x hps.1 hs hvalue hQ.1).trans hext
      (emergesAll_of_values ps w sws next t s' ys hps.2 ht hvalues hQ.2)

end

end Build

end Peephole

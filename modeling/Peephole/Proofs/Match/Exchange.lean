import Peephole.Proofs.Build.Clash
import Peephole.Proofs.Func.Chains
import Peephole.Proofs.Match.Search
import Peephole.Proofs.Rule.Survey
import Mathlib.Data.List.Count

/-!
# Exchanged operands

Instructions may have their operands in the other order without a rule noticing, if every expression
of its search pattern that speaks of their operation is commutative,
`RuleSet.matchTransform_exchange`. Where the operands of an instruction have changed places, the
expressions that sit on it have their bit of the swap mask flipped, and the pattern sits on the same
values as before, one occurrence of a variable after another.

The predicates of the library tell literals apart, and count uses. Neither depends on the order of
operands, which a predicate could look at.
-/

namespace Peephole

/-! ### Exchanging operands -/

namespace Func

/-- One function **exchanges** into another one at some instructions when these have their operands
in the other order, and all else that a match looks at is the same. Use-chains are as long as
before; where in them a position stands does not matter. -/
structure Exchanges (f : Func) (S : InstId → Prop) (g : Func) : Prop where
  value : ∀ v, g.value? v = f.value? v
  exchanged : ∀ i, S i → g.inst? i =
    (f.inst? i).map fun d => { d with operands := d.operands.reverse }
  kept : ∀ i, ¬ S i → g.inst? i = f.inst? i
  uses : ∀ v, (g.uses v).length = (f.uses v).length

namespace Exchanges

variable {f g : Func} {S : InstId → Prop}

/-- Operands that change places twice are where they were. -/
theorem symm (h : f.Exchanges S g) : g.Exchanges S f where
  value v := (h.value v).symm
  exchanged i hi := by
    rw [h.exchanged i hi, Option.map_map]
    cases f.inst? i with
    | none => rfl
    | some d => simp
  kept i hi := (h.kept i hi).symm
  uses v := (h.uses v).symm

/-- An instruction differs in its operands at most. -/
theorem inst?_eq (h : f.Exchanges S g) (i : InstId) : ∃ order : List ValueId → List ValueId,
    g.inst? i = (f.inst? i).map fun d => { d with operands := order d.operands } := by
  by_cases hi : S i
  · exact ⟨List.reverse, h.exchanged i hi⟩
  · exact ⟨id, by rw [h.kept i hi]; exact Option.map_id'.symm⟩

theorem width (h : f.Exchanges S g) (v : ValueId) : g.width v = f.width v := by
  rw [Func.width, h.value, Func.width]

theorem literal? (h : f.Exchanges S g) (v : ValueId) : g.literal? v = f.literal? v := by
  rw [Func.literal?, h.value, Func.literal?]

theorem isLiteral (h : f.Exchanges S g) (v : ValueId) : g.isLiteral v = f.isLiteral v := by
  rw [Func.isLiteral, h.literal?, Func.isLiteral]

theorem definer? (h : f.Exchanges S g) (v : ValueId) : g.definer? v = f.definer? v := by
  rw [Func.definer?, h.value, Func.definer?]

theorem result? (h : f.Exchanges S g) (i : InstId) : g.result? i = f.result? i := by
  obtain ⟨order, horder⟩ := h.inst?_eq i
  rw [Func.result?, horder, Func.result?]
  cases f.inst? i <;> rfl

theorem typeClass? (h : f.Exchanges S g) (v : ValueId) : g.typeClass? v = f.typeClass? v := by
  rw [Func.typeClass?, h.value, Func.typeClass?]
  split
  · rfl
  · next i _ =>
    obtain ⟨order, horder⟩ := h.inst?_eq i
    rw [horder]
    cases f.inst? i <;> rfl
  · rfl

end Exchanges

end Func

/-- The other one of two positions. -/
def otherPosition : Nat → Nat
  | 0 => 1
  | 1 => 0
  | k => k

theorem otherPosition_otherPosition (k : Nat) : otherPosition (otherPosition k) = k := by
  match k with
  | 0 => rfl
  | 1 => rfl
  | _ + 2 => rfl

/-- Two elements in the other order. -/
theorem getElem?_reverse_otherPosition {α : Type} {as : List α} (h : as.length = 2) (k : Nat) :
    as.reverse[otherPosition k]? = as[k]? := by
  obtain ⟨a, b, rfl⟩ := List.length_eq_two.mp h
  match k with
  | 0 => rfl
  | 1 => rfl
  | _ + 2 => rfl

/-- A use, when some instructions have their two operands exchanged. -/
def Use.exchanged (S : InstId → Bool) (u : Use) : Use :=
  if S u.user then { u with operand := otherPosition u.operand } else u

theorem Use.exchanged_exchanged (S : InstId → Bool) (u : Use) :
    (u.exchanged S).exchanged S = u := by
  by_cases hu : S u.user
  · simp [exchanged, hu, otherPosition_otherPosition]
  · simp [exchanged, hu]

namespace Func

/-- The function with the two operands of some instructions exchanged, in the instructions and in
the use-chains. -/
def exchanged (f : Func) (S : InstId → Bool) : Func :=
  { f with
    insts := f.insts.mapIdx fun k d =>
      if S ⟨k⟩ then { d with operands := d.operands.reverse } else d
    chains := f.chains.map (·.map (·.exchanged S)) }

variable {f : Func} {S : InstId → Bool}

theorem inst?_exchanged (i : InstId) : (f.exchanged S).inst? i = (f.inst? i).map fun d =>
    if S i then { d with operands := d.operands.reverse } else d := by
  simp [inst?, exchanged]

theorem uses_exchanged (v : ValueId) :
    (f.exchanged S).uses v = (f.uses v).map (·.exchanged S) := by
  simp only [uses, exchanged, Array.getElem?_map]
  cases f.chains[v.index]? <;> rfl

theorem exchanges_exchanged (f : Func) (S : InstId → Bool) :
    f.Exchanges (S ·) (f.exchanged S) where
  value _ := rfl
  exchanged i hi := by simp [inst?_exchanged, hi]
  kept i hi := by simp [inst?_exchanged, hi]
  uses v := by rw [uses_exchanged, List.length_map]

/-- The chains go with the operands. -/
theorem Mirrored.exchanged {gone : List InstId} (h : f.Mirrored gone)
    (htwo : ∀ i, S i → (f.inst? i).isSome → (f.operands i).length = 2) :
    (f.exchanged S).Mirrored gone where
  exist i hi := by
    rw [inst?_exchanged, Option.isSome_map]
    exact h.exist i hi
  count v u := by
    have hcount : (f.uses v).count (u.exchanged S) =
        ((f.exchanged S).uses v).count u := by
      have hinj : Function.Injective (Use.exchanged S) := fun a b hab => by
        rw [← a.exchanged_exchanged S, hab, b.exchanged_exchanged S]
      rw [uses_exchanged, ← List.count_map_of_injective _ _ hinj, Use.exchanged_exchanged]
    rw [← hcount, h.count]
    have huser : (u.exchanged S).user = u.user := by
      unfold Use.exchanged
      split <;> rfl
    have hplace : (f.operands u.user)[(u.exchanged S).operand]? =
        ((f.exchanged S).operands u.user)[u.operand]? := by
      rw [operands, operands, inst?_exchanged]
      cases hd : f.inst? u.user with
      | none => rfl
      | some d =>
        unfold Use.exchanged
        by_cases hu : S u.user
        · have hlen : d.operands.length = 2 := by
            have hlen := htwo _ hu (by rw [hd]; rfl)
            rwa [operands, hd] at hlen
          simp only [hu, if_true, Option.elim_some, Option.map_some]
          rw [← getElem?_reverse_otherPosition hlen, otherPosition_otherPosition]
        · simp [hu]
    rw [huser, hplace]

end Func

/-! ### Predicates of the library -/

/-- The conditions on values by name do not look at operands. -/
theorem ValuePredicate.eq_of_named {f g : Func} {S : InstId → Prop} (h : f.Exchanges S g)
    {q : ValuePredicate} (hq : q ∈ named.map Prod.snd) (v : ValueId) : q g v = q f v := by
  have honLiteral (p : Literal → Bool) : onLiteral p g v = onLiteral p f v := by
    rw [onLiteral, h.literal?, onLiteral]
  simp only [named, List.map_cons, List.map_nil, List.mem_cons, List.not_mem_nil, or_false] at hq
  obtain rfl | rfl | rfl | rfl | rfl | rfl | rfl := hq
  case inr.inr.inr.inr.inr.inr => rw [isNotConst, h.isLiteral, isNotConst]
  all_goals exact honLiteral _

/-- Nor do the conditions on instructions. -/
theorem InstPredicate.eq_of_named {f g : Func} {S : InstId → Prop} (h : f.Exchanges S g)
    {q : InstPredicate} (hq : q ∈ named.map Prod.snd) (i : InstId) : q g i = q f i := by
  simp only [named, List.map_cons, List.map_nil, List.mem_cons, List.not_mem_nil, or_false] at hq
  obtain rfl | rfl := hq
  · simp only [isUsedOnce, h.result?, h.uses]
  · simp only [isUsedMoreThanOnce, h.result?, h.uses]

namespace Pattern

/-- The predicates of a pattern are among some on values and some on instructions. -/
inductive GuardedBy (V : ValuePredicate → Prop) (I : InstPredicate → Prop) : Pattern → Prop
  | var {v guard} (value : ∀ q, guard = some q → V q) : GuardedBy V I (.var v guard)
  | const {slot c} : GuardedBy V I (.const slot c)
  | expr {slot e guard args} (inst : ∀ q, guard = some q → I q)
      (sources : ∀ p ∈ args, GuardedBy V I p) : GuardedBy V I (.expr slot e guard args)

/-- The patterns of a table have their predicates from the table. -/
theorem guardedBy_of_ofTable {t : RuleTable} (k : Nat) {p : Pattern}
    (hp : (ofTable t)[k]? = some p) :
    p.GuardedBy (· ∈ t.valuePredicates) (· ∈ t.instPredicates) := by
  induction k using Nat.strongRecOn generalizing p with
  | ind k ih =>
    have hlt : k < t.slots.size := RuleTable.size_ofTable ▸ (Array.getElem?_eq_some_iff.mp hp).1
    obtain ⟨done, rfl, hbefore, hlast⟩ :=
      (exists_of_foldl_push (ofSlot t) t.slots.toList).2 k t.slots[k] (by simp [hlt])
    rw [ofTable, ← Array.foldl_toList] at hp ih
    obtain rfl := Option.some.inj (hp.symm.trans hlast)
    cases t.slots[done.size] with
    | var v =>
      refine .var fun q hq => ?_
      obtain ⟨n, -, hn⟩ := Option.bind_eq_some_iff.mp hq
      exact Array.mem_of_getElem? hn
    | const c => exact .const
    | expr e =>
      refine .expr (fun q hq => ?_) fun q hq => ?_
      · obtain ⟨n, -, hn⟩ := Option.bind_eq_some_iff.mp hq
        exact Array.mem_of_getElem? hn
      · obtain ⟨j, -, hj⟩ := List.mem_filterMap.mp hq
        have hjlt := (Array.getElem?_eq_some_iff.mp hj).1
        exact ih j hjlt ((hbefore j hjlt).symm.trans hj)

/-! ### Placements -/

/-- Whether an expression that speaks of one of some operations takes its sources in either
order. -/
def CommutesOver (C : Opcode → Prop) : Pattern → Prop
  | .expr _ e _ _ => ∀ op, C op → e.op.covers op → e.commutative
  | _ => True

variable {f g : Func} {S : InstId → Prop} {V : ValuePredicate → Prop} {I : InstPredicate → Prop}

mutual

/-- What is asked of the value of an occurrence comes from the pattern. -/
theorem Placed.guard_of_mem {swapped : Nat → Bool} {n : Nat} {p : Pattern} {x : ValueId}
    {os : List Occurrence} : Placed f swapped n p x os → p.GuardedBy V I →
      ∀ o ∈ os, ∀ q, o.guard = some q → V q
  | .var, hp => by
    cases hp with
    | var value => simpa using value
  | .const _ _, _ => by simp
  | .expr _ _ _ sources, hp => by
    cases hp with
    | expr _ hargs => exact sources.guard_of_mem hargs

theorem PlacedAll.guard_of_mem {swapped : Nat → Bool} {n : Nat} {ps : List Pattern}
    {xs : List ValueId} {os : List Occurrence} : PlacedAll f swapped n ps xs os →
      (∀ p ∈ ps, p.GuardedBy V I) → ∀ o ∈ os, ∀ q, o.guard = some q → V q
  | .nil, _ => by simp
  | .cons first others, hps => by
    rw [List.forall_mem_cons] at hps
    rw [List.forall_mem_append]
    exact ⟨first.guard_of_mem hps.1, others.guard_of_mem hps.2⟩

end

/-- An expression accepts an instruction whatever the order of its operands is. -/
theorem accepts_exchange {e : ExpressionSlot} {guard : Option InstPredicate} {i : InstId} {d : Inst}
    (hguard : ∀ q, guard = some q → q g i = q f i) (ha : e.accepts guard f i d)
    (os : List ValueId) : e.accepts guard g i { d with operands := os } := by
  have hall : (guard.all fun q => q g i) = guard.all fun q => q f i := by
    cases guard with
    | none => rfl
    | some q => exact hguard q rfl
  rw [ExpressionSlot.accepts, hall]
  exact ha

variable {C : Opcode → Prop}

mutual

/-- A pattern sits on the same values when operands change places. Its expressions get an order of
their own, which other expressions do not matter to. -/
theorem Placed.exchange (h : f.Exchanges S g) (hS : ∀ i d, S i → f.inst? i = some d → C d.opcode)
    (hI : ∀ q, I q → ∀ i, q g i = q f i) {swapped : Nat → Bool} {n : Nat} {p : Pattern}
    {x : ValueId} {os : List Occurrence} :
    Placed f swapped n p x os → p.GuardedBy V I → p.EveryExpr (CommutesOver C) →
      ∃ order : Nat → Bool, ∀ swapped' : Nat → Bool,
        (∀ k, n ≤ k → k < n + p.commutativeCount → swapped' k = order k) →
          Placed g swapped' n p x os
  | .var, _, _ => ⟨swapped, fun _ _ => .var⟩
  | .const literal equal, _, _ =>
    ⟨swapped, fun _ _ => .const (by rw [h.literal?, literal]) equal⟩
  | @Placed.expr _ _ _ _ e guard args _ i d _ definer inst accepted sources, hp, hcomm => by
    cases hp with
    | expr hguard hargs =>
    rw [EveryExpr] at hcomm
    rw [commutativeCount]
    obtain ⟨order, hsources⟩ := sources.exchange h hS hI hargs hcomm.2
    -- the operands of the instruction are met in the order from before, by another bit if need be
    obtain ⟨xs, hinst, bit, hbit⟩ : ∃ xs, g.inst? i = some { d with operands := xs } ∧
        ∃ bit, (if e.commutative && bit then xs.reverse else xs) =
          if e.commutative && swapped n then d.operands.reverse else d.operands := by
      by_cases hi : S i
      · have hcovers : e.op.covers d.opcode := by
          simp only [ExpressionSlot.accepts, Bool.and_eq_true] at accepted
          exact accepted.1.1.1
        have he : e.commutative = true := hcomm.1 d.opcode (hS i d hi inst) hcovers
        refine ⟨d.operands.reverse, by rw [h.exchanged i hi, inst]; rfl, !swapped n, ?_⟩
        cases hn : swapped n <;> simp [he]
      · exact ⟨d.operands, by rw [h.kept i hi, inst], swapped n, rfl⟩
    refine ⟨fun k => if e.commutative ∧ k = n then bit else order k, fun swapped' hagrees => ?_⟩
    refine .expr (by rw [h.definer?, definer]) hinst
      (accepts_exchange (fun q hq => hI q (hguard q hq) i) accepted xs) ?_
    cases he : e.commutative with
    | true =>
      simp only [he, if_true, Bool.true_and, true_and] at hagrees hsources hbit ⊢
      have hfirst := hagrees n (Nat.le_refl n) (by omega)
      rw [if_pos rfl] at hfirst
      rw [hfirst, hbit]
      refine hsources swapped' fun k (hk : n + 1 ≤ k) (hlt : k < n + 1 + _) => ?_
      exact (hagrees k (by omega) (by omega)).trans (if_neg (by omega))
    | false =>
      simp only [he, Bool.false_eq_true, false_and, if_false, Bool.false_and, Nat.zero_add]
        at hagrees hsources hbit ⊢
      rw [hbit]
      exact hsources swapped' hagrees

theorem PlacedAll.exchange (h : f.Exchanges S g)
    (hS : ∀ i d, S i → f.inst? i = some d → C d.opcode) (hI : ∀ q, I q → ∀ i, q g i = q f i)
    {swapped : Nat → Bool} {n : Nat} {ps : List Pattern} {xs : List ValueId}
    {os : List Occurrence} :
    PlacedAll f swapped n ps xs os → (∀ p ∈ ps, p.GuardedBy V I) →
      EveryExprAmong (CommutesOver C) ps →
      ∃ order : Nat → Bool, ∀ swapped' : Nat → Bool,
        (∀ k, n ≤ k → k < n + commutativeCountAll ps → swapped' k = order k) →
          PlacedAll g swapped' n ps xs os
  | .nil, _, _ => ⟨swapped, fun _ _ => .nil⟩
  | @PlacedAll.cons _ _ _ p ps _ _ _ _ first others, hps, hcomm => by
    rw [List.forall_mem_cons] at hps
    rw [EveryExprAmong] at hcomm
    rw [commutativeCountAll]
    obtain ⟨order, hfirst⟩ := first.exchange h hS hI hps.1 hcomm.1
    obtain ⟨order', hothers⟩ := others.exchange h hS hI hps.2 hcomm.2
    -- each part looks at its own range of bits
    refine ⟨fun k => if k < n + p.commutativeCount then order k else order' k,
      fun swapped' hagrees => .cons (hfirst _ fun k hk hlt => ?_) (hothers _ fun k hk hlt => ?_)⟩
    · exact (hagrees k hk (by omega)).trans (if_pos hlt)
    · exact (hagrees k (by omega) (by omega)).trans (if_neg (by omega))

end

/-- Bindings fit in some order of the sources when operands change places. -/
theorem Fits.exchange {swapped : Nat → Bool} {p : Pattern} {x : ValueId} {given b : Bindings}
    {os : List Occurrence} (hfits : p.Fits f swapped x given b os) (h : f.Exchanges S g)
    (hS : ∀ i d, S i → f.inst? i = some d → C d.opcode) (hI : ∀ q, I q → ∀ i, q g i = q f i)
    (hV : ∀ q, V q → ∀ v, q g v = q f v) (hp : p.GuardedBy V I)
    (hcomm : p.EveryExpr (CommutesOver C)) : ∃ order, p.Fits g order x given b os := by
  obtain ⟨order, hplaced⟩ := hfits.placed.exchange h hS hI hp hcomm
  refine ⟨order, hplaced order fun _ _ _ => rfl, hfits.kept, hfits.bound, hfits.held,
    fun o ho hnone => ?_⟩
  have hguard : (o.guard.all fun q => q g o.value) = o.guard.all fun q => q f o.value := by
    cases hq : o.guard with
    | none => rfl
    | some q =>
      have hmem := List.mem_of_find?_eq_some ho
      exact hV q (hfits.placed.guard_of_mem hp o hmem q hq) o.value
  have ha := hfits.accepted o ho hnone
  rw [VariableSlot.accepts] at ha ⊢
  rwa [hguard, h.width, h.isLiteral, h.typeClass?]

end Pattern

/-! ### Matches -/

/-- A transform of a loaded rule set, with predicates of the library, matches an instruction exactly
if it does so after instructions of some operations have had their operands exchanged, where every
expression of its search pattern that speaks of one of these operations is commutative. -/
theorem RuleSet.matchTransform_exchange {t : RuleTable} {rs : RuleSet}
    (hload : RuleSet.load t = .ok rs)
    (hvalue : ∀ q ∈ t.valuePredicates, q ∈ ValuePredicate.named.map Prod.snd)
    (hinst : ∀ q ∈ t.instPredicates, q ∈ InstPredicate.named.map Prod.snd)
    {k : Nat} {x : Transform} (hx : t.transforms[k]? = some x) {p : Pattern}
    (hp : (Pattern.ofTable t)[x.search]? = some p) {C : Opcode → Prop}
    (hcomm : p.EveryExpr (Pattern.CommutesOver C)) {f g : Func} {S : InstId → Prop}
    (h : f.Exchanges S g) (hS : ∀ i d, S i → f.inst? i = some d → C d.opcode) (i : InstId) :
    (∃ b, rs.matchTransform f k i = .ok (some b)) ↔
      ∃ b, rs.matchTransform g k i = .ok (some b) := by
  obtain ⟨r, hr, hsearch, -, -⟩ := exists_rule_of_load hload hx
  obtain rfl : r.search = p := by
    rw [(check_of_load hload).2.1, hp] at hsearch
    exact (Option.some.inj hsearch).symm
  have hguards := Pattern.guardedBy_of_ofTable x.search hp
  have hcount := (admitted_of_load hload hr).commutative
  -- the same holds with the two functions the other way round
  have himp {f g : Func} (h : f.Exchanges S g)
      (hS : ∀ i d, S i → f.inst? i = some d → C d.opcode) :
      (∃ b, rs.matchTransform f k i = .ok (some b)) →
        ∃ b, rs.matchTransform g k i = .ok (some b) := by
    rintro ⟨b, hb⟩
    obtain ⟨v, swapped, os, hv, hfits⟩ :=
      Rule.fits_of_matchInst (matchInst_of_matchTransform hr hb)
    obtain ⟨order, hfits⟩ := hfits.exchange h hS
      (fun q hq => InstPredicate.eq_of_named h (hinst q hq))
      (fun q hq => ValuePredicate.eq_of_named h (hvalue q hq)) hguards hcomm
    have hsearch := Pattern.isSome_search_iff.mpr ⟨order, b, os, hfits⟩
    obtain ⟨b', hb'⟩ := Option.isSome_iff_exists.mp hsearch
    refine ⟨b', ?_⟩
    have hv' : g.result? i = some v := by rw [h.result?, hv]
    rw [matchTransform_eq hr hv', Rule.matchInst, hv', Option.bind_some, hcount, hb']
  refine ⟨himp h hS, himp h.symm fun i d hi hd => ?_⟩
  rw [h.exchanged i hi] at hd
  obtain ⟨d', hd', rfl⟩ := Option.map_eq_some_iff.mp hd
  exact hS i d' hi hd'

/-- The rule that a value and itself or another one is the value, where nothing else uses the
alternative and the other value is no literal. -/
def absorption : RuleTable where
  name := "absorption"
  slots := #[.var ⟨0, .any, false, none, none⟩, .var ⟨1, .any, false, none, some 0⟩,
    .expr ⟨.single .ior, none, [0, 1], true, false, false, some 0⟩,
    .expr ⟨.single .iand, none, [0, 2], true, false, false, none⟩]
  transforms := #[⟨3, 0, none⟩]
  runs := #[.empty, ⟨0, 1⟩]
  dispatch := [⟨.single .iand, none, [1]⟩]
  conditions := []
  valuePredicates := #[ValuePredicate.isNotConst]
  instPredicates := #[InstPredicate.isUsedOnce]

/-- A function that stores what its first parameter absorbs. -/
def storedAbsorption : Func where
  name := "f"
  params := [⟨0⟩, ⟨1⟩]
  values := #[⟨.parameter 0 none, 32⟩, ⟨.parameter 1 none, 32⟩, ⟨.result ⟨0⟩, 32⟩,
    ⟨.result ⟨1⟩, 32⟩]
  chains := #[[⟨⟨0⟩, 1⟩, ⟨⟨1⟩, 1⟩], [⟨⟨0⟩, 0⟩], [⟨⟨1⟩, 0⟩], [⟨⟨2⟩, 0⟩]]
  insts := #[⟨.ior, 32, false, [⟨1⟩, ⟨0⟩], some ⟨2⟩, some ⟨0⟩⟩,
    ⟨.iand, 32, false, [⟨2⟩, ⟨0⟩], some ⟨3⟩, some ⟨0⟩⟩, ⟨.store, 0, false, [⟨3⟩], none, some ⟨0⟩⟩]
  blocks := #[[⟨0⟩, ⟨1⟩, ⟨2⟩]]

theorem RuleSet.matchTransform_exchange_absorption : ∃ rs, RuleSet.load absorption = .ok rs ∧
    (∃ b, rs.matchTransform storedAbsorption 0 ⟨1⟩ = .ok (some b)) ∧
    ∃ b, rs.matchTransform (storedAbsorption.exchanged fun i => i.index < 2) 0 ⟨1⟩ =
      .ok (some b) := by
  have hrun : ((RuleSet.load absorption).toOption.any fun rs =>
      (rs.matchTransform storedAbsorption 0 ⟨1⟩).toOption.join.isSome) = true := by decide +kernel
  have hp : (Pattern.ofTable absorption)[3]? =
      some (.expr 3 ⟨.single .iand, none, [0, 2], true, false, false, none⟩ none
        [.var ⟨0, .any, false, none, none⟩ none,
          .expr 2 ⟨.single .ior, none, [0, 1], true, false, false, some 0⟩
            (some InstPredicate.isUsedOnce) [.var ⟨0, .any, false, none, none⟩ none,
              .var ⟨1, .any, false, none, some 0⟩ (some ValuePredicate.isNotConst)]]) := rfl
  have hops (i : InstId) (d : Inst) (hi : (i.index < 2 : Bool) = true)
      (hd : storedAbsorption.inst? i = some d) : d.opcode ∈ [.iand, .ior] := by
    obtain ⟨k⟩ := i
    obtain rfl | rfl : k = 0 ∨ k = 1 := by
      have := of_decide_eq_true hi
      dsimp only at this
      omega
    · cases hd
      decide
    · cases hd
      decide
  obtain ⟨rs, hload, hrun⟩ := (Option.any_eq_true ..).mp hrun
  obtain ⟨b, hb⟩ := Option.isSome_iff_exists.mp hrun
  have hload := toOption_eq_some.mp hload
  have hfound : ∃ b, rs.matchTransform storedAbsorption 0 ⟨1⟩ = .ok (some b) :=
    ⟨b, toOption_eq_some.mp (Option.join_eq_some_iff.mp hb)⟩
  have hiff := RuleSet.matchTransform_exchange hload
    (by simp [absorption, ValuePredicate.named]) (by simp [absorption, InstPredicate.named])
    (k := 0) rfl hp (C := (· ∈ [.iand, .ior]))
    (by simp [Pattern.EveryExpr, Pattern.EveryExprAmong, Pattern.CommutesOver])
    (storedAbsorption.exchanges_exchanged fun i => i.index < 2) hops ⟨1⟩
  exact ⟨rs, hload, hfound, hiff.mp hfound⟩

end Peephole

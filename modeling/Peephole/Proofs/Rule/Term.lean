import Peephole.Proofs.Rule.Load
import Peephole.Rule.Term
import Mathlib.Data.List.Basic
import Mathlib.Data.List.Forall2

/-!
# Tables of written rules

A table that is laid out from a list of rules holds these rules and no others: when it has been
loaded, every rule of it searches for and builds patterns that its terms denote,
`RuleSet.exists_termRule`. Slots are numbered and shared on the way, and patterns differ from terms
in these numbers only.

While terms are read, the list of slots only grows at its front. A slot that has been numbered keeps
its number in every longer list.
-/

namespace Peephole

/-! ### The patterns of terms -/

mutual

/-- Whether a term **denotes** a pattern: they agree in everything but the numbers of slots. -/
inductive Term.Denotes : Term → Pattern → Prop
  | var {v} : Denotes (.var v) (.var v none)
  | const {slot c} : Denotes (.const c) (.const slot c)
  | apply {slot op width commutative children ts args} (sources : DenotesAll ts args) :
      Denotes (.apply op width commutative ts)
        (.expr slot ⟨op, some width, children, commutative, false, false, none⟩ none args)

/-- Whether terms denote as many patterns. -/
inductive Term.DenotesAll : List Term → List Pattern → Prop
  | nil : DenotesAll [] []
  | cons {t ts p ps} (first : Term.Denotes t p) (others : DenotesAll ts ps) :
      DenotesAll (t :: ts) (p :: ps)

end

namespace Term.Denotes

variable {p : Pattern} {op : Operation} {w : Nat} {commutative : Bool} {x y : Term}

theorem eq_var {v : VariableSlot} (h : (Term.var v).Denotes p) : p = .var v none := by
  cases h
  rfl

theorem eq_const {c : ConstantSlot} (h : (Term.const c).Denotes p) : ∃ slot, p = .const slot c := by
  cases h
  exact ⟨_, rfl⟩

theorem eq_expr_one (h : (Term.apply op w commutative [x]).Denotes p) :
    ∃ slot children q, x.Denotes q ∧
      p = .expr slot ⟨op, some w, children, commutative, false, false, none⟩ none [q] := by
  obtain _ | _ | ⟨_ | ⟨first, others⟩⟩ := h
  cases others
  exact ⟨_, _, _, first, rfl⟩

/-- The pattern of an operation on one source. -/
theorem eq_op {o : Opcode} (h : (Term.op o w [x]).Denotes p) : ∃ slot children q, x.Denotes q ∧
    p = .expr slot ⟨.single o, some w, children, false, false, false, none⟩ none [q] :=
  h.eq_expr_one

theorem eq_expr_two (h : (Term.apply op w commutative [x, y]).Denotes p) :
    ∃ slot children q q', x.Denotes q ∧ y.Denotes q' ∧
      p = .expr slot ⟨op, some w, children, commutative, false, false, none⟩ none [q, q'] := by
  obtain _ | _ | ⟨_ | ⟨first, _ | ⟨second, others⟩⟩⟩ := h
  cases others
  exact ⟨_, _, _, _, first, second, rfl⟩

end Term.Denotes

/-! ### Numbers of slots -/

/-- An entry of a list is found from the end by the number of entries after it. -/
theorem getElem?_reverse_of_suffix {α : Type} {a : α} {earlier all : List α}
    (h : a :: earlier <:+ all) : all.reverse[earlier.length]? = some a := by
  obtain ⟨front, rfl⟩ := h
  simp

/-- A slot is found under its number, however the list grows. -/
theorem Slot.intern_spec (s : Slot) (slots : List Slot) :
    slots <:+ (s.intern slots).2 ∧
      ∀ all, (s.intern slots).2 <:+ all → all.reverse[(s.intern slots).1]? = some s := by
  unfold intern
  split
  · next s' earlier h =>
    obtain rfl : s' = s := by
      have := List.head?_dropWhile_not (· ≠ s) slots
      rw [h] at this
      simpa using this
    refine ⟨List.suffix_rfl, fun all hall => getElem?_reverse_of_suffix ?_⟩
    exact (h ▸ List.dropWhile_suffix _).trans hall
  · exact ⟨List.suffix_cons s slots, fun all hall => getElem?_reverse_of_suffix hall⟩

/-! ### Patterns of slots -/

namespace RuleTable

variable {t : RuleTable}

theorem patternsOf_append (t : RuleTable) (slots slots' : List Slot) {k : Nat}
    (hk : k < slots.length) :
    (t.patternsOf (slots ++ slots'))[k]? = (t.patternsOf slots)[k]? := by
  induction slots' using List.reverseRecOn with
  | nil => rw [List.append_nil]
  | append_singleton slots' s ih =>
    rw [← List.append_assoc, patternsOf_append_singleton, Array.getElem?_push, if_neg, ih]
    rw [size_patternsOf, List.length_append]
    omega

/-- The pattern of a slot is made of the patterns of the slots before it. -/
theorem getElem?_patternsOf (t : RuleTable) {slots : List Slot} {k : Nat} {s : Slot}
    (h : slots[k]? = some s) :
    (t.patternsOf slots)[k]? = some (Pattern.ofSlot t (t.patternsOf (slots.take k)) s) := by
  obtain ⟨hlt, rfl⟩ := List.getElem?_eq_some_iff.mp h
  have htake : (slots.take k).length = k := List.length_take_of_le (Nat.le_of_lt hlt)
  have hsplit : slots = (slots.take k ++ [slots[k]]) ++ slots.drop (k + 1) := by
    rw [List.take_append_getElem hlt, List.take_append_drop]
  have hself := patternsOf_append t (slots.take k ++ [slots[k]]) (slots.drop (k + 1)) (k := k)
    (by rw [List.length_append, htake]; exact Nat.lt_succ_self k)
  rw [← hsplit, patternsOf_append_singleton] at hself
  rw [hself, Array.getElem?_push, if_pos]
  rw [size_patternsOf, htake]

theorem getElem?_patternsOf_take (t : RuleTable) {slots : List Slot} {k c : Nat}
    (hk : k < slots.length) (hc : c < k) :
    (t.patternsOf (slots.take k))[c]? = (t.patternsOf slots)[c]? := by
  have h := patternsOf_append t (slots.take k) (slots.drop k) (k := c)
    (by rw [List.length_take_of_le (Nat.le_of_lt hk)]; exact hc)
  rw [List.take_append_drop] at h
  exact h.symm

end RuleTable

/-! ### Numbers of terms -/

variable {t : RuleTable} {all : List Slot}

mutual

/-- A term denotes the pattern under its number, however the list of slots grows. -/
theorem Term.intern_spec (hvalues : t.valuePredicates = #[])
    (horder : ∀ (k : Nat) e, all.reverse[k]? = some (.expr e) → ∀ c ∈ e.args, c < k) :
    ∀ (x : Term) (slots : List Slot),
    slots <:+ (x.intern slots).2 ∧
      ((x.intern slots).2 <:+ all →
        ∃ p, (t.patternsOf all.reverse)[(x.intern slots).1]? = some p ∧ x.Denotes p)
  | .var v, slots => by
    obtain ⟨hgrow, hfind⟩ := (Slot.var v).intern_spec slots
    refine ⟨hgrow, fun hall => ⟨_, t.getElem?_patternsOf (hfind all hall), ?_⟩⟩
    have hguard : (v.predicate.bind fun k => t.valuePredicates[k]?) = none := by
      rw [hvalues]
      cases v.predicate <;> rfl
    rw [Pattern.ofSlot, hguard]
    exact .var
  | .const c, slots => by
    obtain ⟨hgrow, hfind⟩ := (Slot.const c).intern_spec slots
    exact ⟨hgrow, fun hall => ⟨_, t.getElem?_patternsOf (hfind all hall), .const⟩⟩
  | .apply op width commutative args, slots => by
    obtain ⟨hgrow, hargs⟩ := internAll_spec hvalues horder args slots
    obtain ⟨hgrow', hfind⟩ := (Slot.expr ⟨op, some width, (internAll slots args).1, commutative,
      false, false, none⟩).intern_spec (internAll slots args).2
    refine ⟨hgrow.trans hgrow', fun hall => ?_⟩
    have hslot := hfind all hall
    obtain ⟨hlt, -⟩ := List.getElem?_eq_some_iff.mp hslot
    refine ⟨_, t.getElem?_patternsOf hslot, ?_⟩
    -- the sources are numbered before the expression, which is made of their final patterns
    have hsources : ((internAll slots args).1.filterMap fun c =>
        (t.patternsOf (all.reverse.take ((Term.apply op width commutative args).intern slots).1))[
          c]?) = (internAll slots args).1.filterMap fun c => (t.patternsOf all.reverse)[c]? :=
      List.filterMap_congr fun c hc =>
        t.getElem?_patternsOf_take hlt (horder _ _ hslot c hc)
    rw [Pattern.ofSlot]
    exact .apply (hsources ▸ hargs (hgrow'.trans hall))

theorem Term.internAll_spec (hvalues : t.valuePredicates = #[])
    (horder : ∀ (k : Nat) e, all.reverse[k]? = some (.expr e) → ∀ c ∈ e.args, c < k) :
    ∀ (xs : List Term) (slots : List Slot),
    slots <:+ (internAll slots xs).2 ∧
      ((internAll slots xs).2 <:+ all →
        DenotesAll xs ((internAll slots xs).1.filterMap fun k =>
          (t.patternsOf all.reverse)[k]?))
  | [], slots => ⟨List.suffix_rfl, fun _ => .nil⟩
  | x :: xs, slots => by
    obtain ⟨hgrow, hfirst⟩ := intern_spec hvalues horder x slots
    obtain ⟨hgrow', hothers⟩ := internAll_spec hvalues horder xs (x.intern slots).2
    refine ⟨hgrow.trans hgrow', fun hall => ?_⟩
    obtain ⟨p, hp, hx⟩ := hfirst (hgrow'.trans hall)
    rw [internAll, List.filterMap_cons_some hp]
    exact .cons hx (hothers hall)

end

/-- Whether a transform with its state is that of a written rule: its slots hold patterns that the
terms of the rule denote. -/
structure RuleTable.Lays (patterns : Array Pattern) (r : TermRule)
    (x : Option (Operation × Nat) × Transform) : Prop where
  state : x.1 = r.search.state?
  search : ∃ p, patterns[x.2.search]? = some p ∧ r.search.Denotes p
  replace : ∃ p, patterns[x.2.replace]? = some p ∧ r.replace.Denotes p
  condition : x.2.condition = none

/-- The transforms are those of the rules, in their order. -/
theorem RuleTable.internRules_spec (hvalues : t.valuePredicates = #[])
    (horder : ∀ (k : Nat) e, all.reverse[k]? = some (.expr e) → ∀ c ∈ e.args, c < k)
    (rules : List TermRule) (slots : List Slot) :
    slots <:+ (internRules slots rules).2 ∧
      ((internRules slots rules).2 <:+ all →
        List.Forall₂ (Lays (t.patternsOf all.reverse)) rules (internRules slots rules).1) := by
  induction rules generalizing slots with
  | nil => exact ⟨List.suffix_rfl, fun _ => .nil⟩
  | cons r rules ih =>
    obtain ⟨hgrow, hsearch⟩ := Term.intern_spec hvalues horder r.search slots
    obtain ⟨hgrow', hreplace⟩ :=
      Term.intern_spec hvalues horder r.replace (r.search.intern slots).2
    obtain ⟨hgrow'', hrest⟩ := ih (r.replace.intern (r.search.intern slots).2).2
    refine ⟨hgrow.trans (hgrow'.trans hgrow''), fun hall => .cons ?_ (hrest hall)⟩
    exact ⟨rfl, hsearch (hgrow'.trans (hgrow''.trans hall)), hreplace (hgrow''.trans hall), rfl⟩

/-! ### Rules of a table -/

/-- The transforms of a table are those of its rules, in another order. -/
theorem RuleTable.mem_transforms_ofRules {name : String} {rules : List TermRule} {x : Transform}
    (h : x ∈ (ofRules name rules).transforms) : ∃ s, (s, x) ∈ (internRules [] rules).1 := by
  simp only [ofRules, List.mem_toArray, List.mem_flatten, List.mem_map] at h
  obtain ⟨_, ⟨s, -, rfl⟩, hx⟩ := h
  obtain ⟨⟨s', x'⟩, hmem, rfl⟩ := List.mem_map.mp hx
  exact ⟨s', (List.mem_filter.mp hmem).1⟩

/-- What stands on the right of two related lists has a partner on the left. -/
theorem exists_of_forall₂ {α β : Type} {R : α → β → Prop} {as : List α} {bs : List β}
    (h : List.Forall₂ R as bs) {b : β} (hb : b ∈ bs) : ∃ a ∈ as, R a b := by
  induction h with
  | nil => cases hb
  | @cons a c as bs hac hrest ih =>
    obtain rfl | hb := List.mem_cons.mp hb
    · exact ⟨a, List.mem_cons_self, hac⟩
    · obtain ⟨a', ha', hR⟩ := ih hb
      exact ⟨a', List.mem_cons_of_mem a ha', hR⟩

/-- The transforms of a table that has been loaded are those of its rules. -/
theorem RuleSet.forall₂_lays {name : String} {rules : List TermRule} {rs : RuleSet}
    (h : RuleSet.load (.ofRules name rules) = .ok rs) :
    List.Forall₂ (RuleTable.Lays rs.patterns) rules (RuleTable.internRules [] rules).1 := by
  obtain ⟨-, hpatterns, hslots, -⟩ := check_of_load h
  have hlist : (RuleTable.ofRules name rules).slots.toList =
      (RuleTable.internRules [] rules).2.reverse := rfl
  rw [RuleTable.ofTable_eq, hlist] at hpatterns
  have horder : ∀ (k : Nat) e, (RuleTable.internRules [] rules).2.reverse[k]? = some (.expr e) →
      ∀ c ∈ e.args, c < k := by
    intro k e hk
    have hslot : (RuleTable.ofRules name rules).slots[k]? = some (.expr e) := by
      rw [← Array.getElem?_toList, hlist, hk]
    exact (RuleTable.checkSlot_expr_eq_ok (RuleTable.checkSlots_eq_ok hslots hslot)).2.2
  rw [hpatterns]
  exact (RuleTable.internRules_spec (t := .ofRules name rules) rfl horder rules []).2
    List.suffix_rfl

/-- The patterns of a rule of a table that has been loaded are those that the terms of a written
rule denote. -/
theorem RuleSet.exists_termRule {name : String} {rules : List TermRule} {rs : RuleSet}
    (h : RuleSet.load (.ofRules name rules) = .ok rs) {k : Nat} {r : Rule}
    (hr : rs.rules[k]? = some r) :
    ∃ x ∈ rules, x.search.Denotes r.search ∧ x.replace.Denotes r.replace := by
  obtain ⟨-, hpatterns, -, rs', hrules, heq⟩ := check_of_load h
  rw [heq] at hr
  have hmem : r ∈ rs' := List.mem_of_getElem? (by simpa using hr)
  obtain ⟨⟨x, n⟩, hx, hcheck⟩ := RuleTable.exists_of_mapM_eq_ok hrules hmem
  obtain ⟨hsearch, hreplace, -⟩ := RuleTable.checkTransform_eq_ok hcheck
  rw [← hpatterns] at hsearch hreplace
  obtain ⟨s, hs⟩ := RuleTable.mem_transforms_ofRules
    (Array.mem_toList_iff.mp (List.mem_of_getElem? (List.mem_zipIdx_iff_getElem?.mp hx)))
  obtain ⟨y, hy, hlays⟩ := exists_of_forall₂ (forall₂_lays h) hs
  obtain ⟨p, hp, hyp⟩ := hlays.search
  obtain ⟨q, hq, hyq⟩ := hlays.replace
  rw [hsearch] at hp
  rw [hreplace] at hq
  cases hp
  cases hq
  exact ⟨y, hy, hyp, hyq⟩

end Peephole

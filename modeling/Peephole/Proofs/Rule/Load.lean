import Peephole.Proofs.Outcome
import Peephole.Rule.Load
import Mathlib.Data.List.Induction
import Mathlib.Tactic.ByContra

/-!
# What loading checks

The patterns of a rule set that has been loaded are **well-formed**: declared widths are supported
and have a form, expressions have as many sources as their operation takes, and every node stands in
the array of patterns under its own slot. Its rules are **admitted**: they search for an expression
with a result, and build from variables that the search binds, at widths that something determines.
-/

namespace Peephole

namespace Pattern

/-- A pattern is **well-formed** when its nodes have passed the checks of slots. -/
inductive WellFormed (P : Array Pattern) : Pattern → Prop
  | var {v guard} (index : v.index < maxVariables) : WellFormed P (.var v guard)
  | const {slot c} (resolved : P[slot]? = some (.const slot c))
      (width : ∀ w, c.width = some w → supported w)
      (float : c.kind = .float → ∀ w, c.width = some w → isFloatWidth w) :
      WellFormed P (.const slot c)
  | expr {slot e guard args} (resolved : P[slot]? = some (.expr slot e guard args))
      (width : ∀ w, e.width = some w → supported w ∧ (e.op.withWidth? w).isSome)
      (arity : args.length = e.op.arity) (sources : ∀ p ∈ args, WellFormed P p) :
      WellFormed P (.expr slot e guard args)

/-- More patterns do not matter. -/
theorem WellFormed.mono {P Q : Array Pattern} {p : Pattern} (h : p.WellFormed P)
    (hPQ : ∀ (k : Nat) q, P[k]? = some q → Q[k]? = some q) : p.WellFormed Q := by
  induction h with
  | var index => exact .var index
  | const resolved width float => exact .const (hPQ _ _ resolved) width float
  | expr resolved width arity _ ih => exact .expr (hPQ _ _ resolved) width arity ih

end Pattern

/-- A rule is **admitted** when it has passed the checks of transforms. -/
structure Rule.Admitted (P : Array Pattern) (r : Rule) : Prop where
  search : r.search.WellFormed P
  replace : r.replace.WellFormed P
  root : ∃ op w, r.search.root? = some (op, w) ∧ op.fixedWidth ≠ some 0
  bound : ∀ k, r.replace.mentions k → r.search.mentions k
  sized : r.replace.unsized? true = none
  commutative : r.commutative = r.search.commutativeCount
  few : r.search.commutativeCount ≤ maxCommutative

namespace RuleTable

/-! ### Checks in a row -/

theorem forM_eq_ok {ε α : Type} {check : α → Except ε Unit} {as : List α} :
    as.forM check = .ok () ↔ ∀ a ∈ as, check a = .ok () := by
  induction as with
  | nil => simp
  | cons a as ih =>
    change (check a >>= fun _ => as.forM check) = .ok () ↔ _
    rw [List.forall_mem_cons, ← ih]
    cases check a with
    | error e => simp
    | ok u => simp

theorem getElem?_of_mapM_eq_ok {ε α β : Type} {check : α → Except ε β} {as : List α} {bs : List β}
    (h : as.mapM check = .ok bs) {k : Nat} {a : α} (ha : as[k]? = some a) :
    ∃ b, bs[k]? = some b ∧ check a = .ok b := by
  induction as generalizing bs k with
  | nil => cases ha
  | cons a' as ih =>
    rw [List.mapM_cons] at h
    obtain ⟨c, hc, h⟩ := bind_eq_ok.mp h
    obtain ⟨cs, hcs, h⟩ := bind_eq_ok.mp h
    cases h
    cases k with
    | zero =>
      cases ha
      exact ⟨c, rfl, hc⟩
    | succ k => exact ih hcs ha

theorem exists_of_mapM_eq_ok {ε α β : Type} {check : α → Except ε β} {as : List α} {bs : List β}
    (h : as.mapM check = .ok bs) {b : β} (hb : b ∈ bs) : ∃ a ∈ as, check a = .ok b := by
  induction as generalizing bs with
  | nil =>
    cases h
    cases hb
  | cons a as ih =>
    rw [List.mapM_cons] at h
    obtain ⟨c, hc, h⟩ := bind_eq_ok.mp h
    obtain ⟨cs, hcs, h⟩ := bind_eq_ok.mp h
    cases h
    obtain rfl | hb := List.mem_cons.mp hb
    · exact ⟨a, List.mem_cons_self, hc⟩
    · obtain ⟨a', ha', hb⟩ := ih hcs hb
      exact ⟨a', List.mem_cons_of_mem a ha', hb⟩

/-- A list is checked by one check as by another that accepts as much. -/
theorem mapM_eq_ok_of_imp {ε ε' α β : Type} {as : List α} {check : α → Except ε β}
    {check' : α → Except ε' β} (himp : ∀ a ∈ as, ∀ b, check a = .ok b → check' a = .ok b)
    {bs : List β} (h : as.mapM check = .ok bs) : as.mapM check' = .ok bs := by
  induction as generalizing bs with
  | nil => exact congrArg Except.ok (Except.ok.inj h)
  | cons a as ih =>
    rw [List.forall_mem_cons] at himp
    rw [List.mapM_cons] at h ⊢
    obtain ⟨b, hb, h⟩ := bind_eq_ok.mp h
    obtain ⟨bs', hbs, h⟩ := bind_eq_ok.mp h
    cases h
    rw [himp.1 b hb, ok_bind, ih himp.2 hbs]
    rfl

/-- A list fails a check where one of its elements does. -/
theorem exists_of_mapM_eq_error {ε α β : Type} {as : List α} {check : α → Except ε β} {e : ε}
    (h : as.mapM check = .error e) : ∃ a ∈ as, check a = .error e := by
  induction as with
  | nil => cases h
  | cons a as ih =>
    rw [List.mapM_cons] at h
    obtain h | ⟨b, -, h⟩ := bind_eq_error.mp h
    · exact ⟨a, List.mem_cons_self, h⟩
    · obtain h | ⟨bs, -, h⟩ := bind_eq_error.mp h
      · obtain ⟨a', ha', h⟩ := ih h
        exact ⟨a', List.mem_cons_of_mem a ha', h⟩
      · cases h

variable {t : RuleTable}

/-! ### Slots -/

/-- What the check of a constant looks at. -/
theorem checkSlot_const_eq_ok {k : Nat} {c : ConstantSlot}
    (h : t.checkSlot k (.const c) = .ok ()) :
    ∀ w, c.width = some w → supported w ∧ (c.kind = .float → isFloatWidth w) := by
  intro w hw
  obtain ⟨_, hwidth, h⟩ := bind_eq_ok.mp h
  refine ⟨?_, fun hc => ?_⟩
  · by_contra hs
    simp [checkWidth, hw, hs] at hwidth
  · by_contra hs
    simp [hw, hc, hs] at h

/-- What the check of an expression looks at. -/
theorem checkSlot_expr_eq_ok {k : Nat} {e : ExpressionSlot}
    (h : t.checkSlot k (.expr e) = .ok ()) :
    (∀ w, e.width = some w → supported w ∧ (e.op.withWidth? w).isSome) ∧
      e.args.length = e.op.arity ∧ ∀ child ∈ e.args, child < k := by
  obtain ⟨_, hwidth, h⟩ := bind_eq_ok.mp h
  have hform : ∀ w, e.width = some w → (e.op.withWidth? w).isSome := by
    intro w hw
    by_contra hs
    simp [hw, Option.not_isSome_iff_eq_none.mp hs] at h
  have hrest (hs : ¬ (e.args.length = e.op.arity ∧ e.args.find? (k ≤ ·) = none)) : False := by
    cases hw : e.width with
    | none =>
      by_cases ha : e.args.length = e.op.arity
      · obtain ⟨c, hc⟩ := Option.ne_none_iff_exists'.mp fun hc => hs ⟨ha, hc⟩
        simp [hw, ha, hc] at h
      · simp [hw, ha] at h
    | some w =>
      obtain ⟨op, hop⟩ := Option.isSome_iff_exists.mp (hform w hw)
      by_cases ha : e.args.length = e.op.arity
      · obtain ⟨c, hc⟩ := Option.ne_none_iff_exists'.mp fun hc => hs ⟨ha, hc⟩
        simp [hw, hop, ha, hc] at h
      · simp [hw, hop, ha] at h
  obtain ⟨ha, hc⟩ := not_not.mp hrest
  refine ⟨fun w hw => ⟨?_, hform w hw⟩, ha, fun child hchild => ?_⟩
  · by_contra hs
    simp [checkWidth, hw, hs] at hwidth
  · simpa using List.find?_eq_none.mp hc child hchild

theorem checkSlot_var_eq_ok {k : Nat} {v : VariableSlot} (h : t.checkSlot k (.var v) = .ok ()) :
    v.index < maxVariables := by
  by_contra hs
  simp [checkSlot, hs] at h

theorem checkSlots_eq_ok (h : t.checkSlots = .ok ()) {k : Nat} {s : Slot}
    (hs : t.slots[k]? = some s) : t.checkSlot k s = .ok () :=
  forM_eq_ok.mp h (s, k) (List.mem_zipIdx_iff_getElem?.mpr (by simpa using hs))

/-! ### Patterns -/

/-- The patterns of some slots, in order. -/
def patternsOf (t : RuleTable) (slots : List Slot) : Array Pattern :=
  slots.foldl (fun earlier s => earlier.push (Pattern.ofSlot t earlier s)) #[]

theorem patternsOf_append_singleton (t : RuleTable) (slots : List Slot) (s : Slot) :
    t.patternsOf (slots ++ [s]) =
      (t.patternsOf slots).push (Pattern.ofSlot t (t.patternsOf slots) s) := by
  simp [patternsOf]

theorem size_patternsOf (t : RuleTable) (slots : List Slot) :
    (t.patternsOf slots).size = slots.length := by
  induction slots using List.reverseRecOn with
  | nil => rfl
  | append_singleton slots s ih => simp [patternsOf_append_singleton, ih]

/-- Slots that pass their checks have well-formed patterns. -/
theorem wellFormed_patternsOf {slots : List Slot}
    (h : ∀ k s, slots[k]? = some s → t.checkSlot k s = .ok ()) :
    ∀ (k : Nat) p, (t.patternsOf slots)[k]? = some p → p.WellFormed (t.patternsOf slots) := by
  induction slots using List.reverseRecOn with
  | nil => simp [patternsOf]
  | append_singleton slots s ih =>
    have hcheck : t.checkSlot slots.length s = .ok () := h slots.length s (by simp)
    have hearlier : ∀ (k : Nat) p, (t.patternsOf slots)[k]? = some p →
        p.WellFormed (t.patternsOf slots) := by
      refine ih fun k s' hs => h k s' ?_
      obtain ⟨hlt, -⟩ := List.getElem?_eq_some_iff.mp hs
      rwa [List.getElem?_append_left hlt]
    rw [patternsOf_append_singleton]
    have hsize := t.size_patternsOf slots
    have hmono : ∀ (k : Nat) q, (t.patternsOf slots)[k]? = some q →
        ((t.patternsOf slots).push (Pattern.ofSlot t (t.patternsOf slots) s))[k]? = some q := by
      intro k q hk
      obtain ⟨hlt, -⟩ := Array.getElem?_eq_some_iff.mp hk
      rw [Array.getElem?_push, if_neg (Nat.ne_of_lt hlt)]
      exact hk
    intro k p hk
    rw [Array.getElem?_push] at hk
    split at hk
    · next hlast =>
      cases hk
      -- the new pattern stands in the array under its own slot
      have hself : ((t.patternsOf slots).push (Pattern.ofSlot t (t.patternsOf slots) s))[
          (t.patternsOf slots).size]? = some (Pattern.ofSlot t (t.patternsOf slots) s) :=
        Array.getElem?_push_size
      cases s with
      | var v => exact .var (checkSlot_var_eq_ok hcheck)
      | const c =>
        have hc := checkSlot_const_eq_ok hcheck
        exact .const hself (fun w hw => (hc w hw).1) fun hkind w hw => (hc w hw).2 hkind
      | expr e =>
        obtain ⟨hwidth, harity, horder⟩ := checkSlot_expr_eq_ok hcheck
        refine .expr hself hwidth ?_ fun q hq => ?_
        · rw [← harity]
          have hall : ∀ child ∈ e.args, ((t.patternsOf slots)[child]?).isSome := by
            intro child hchild
            simpa [hsize] using horder child hchild
          exact List.length_filterMap_eq_countP.trans (List.countP_eq_length.mpr hall)
        · obtain ⟨child, -, hq⟩ := List.mem_filterMap.mp hq
          exact (hearlier child q hq).mono hmono
    · exact (hearlier k p hk).mono hmono

theorem ofTable_eq (t : RuleTable) : Pattern.ofTable t = t.patternsOf t.slots.toList := by
  rw [Pattern.ofTable, patternsOf, Array.foldl_toList]

/-! ### Transforms -/

/-- What the check of a transform looks at, and the rule that it yields. -/
theorem checkTransform_eq_ok {patterns : Array Pattern} {k : Nat} {x : Transform} {r : Rule}
    (h : t.checkTransform patterns k x = .ok r) :
    patterns[x.search]? = some r.search ∧ patterns[x.replace]? = some r.replace ∧
      (∃ op w, r.search.root? = some (op, w) ∧ op.fixedWidth ≠ some 0) ∧
      unbound? r.search r.replace = none ∧ r.replace.unsized? true = none ∧
      r.commutative = r.search.commutativeCount ∧
      r.search.commutativeCount ≤ maxCommutative ∧ r.condition = x.condition := by
  unfold checkTransform at h
  cases hsearch : patterns[x.search]? with
  | none => simp [hsearch] at h
  | some search =>
  cases hreplace : patterns[x.replace]? with
  | none => simp [hsearch, hreplace] at h
  | some replace =>
  cases hroot : search.root? with
  | none => simp [hsearch, hreplace, hroot] at h
  | some root =>
  obtain ⟨op, w⟩ := root
  by_cases hop : op.fixedWidth = some 0
  · simp [hsearch, hreplace, hroot, hop] at h
  have hcond : ∀ c, x.condition = some c → c < t.conditions.length := by
    intro c hc
    by_contra hs
    simp [hsearch, hreplace, hroot, hop, hc, hs] at h
  -- past the condition, the checks do not depend on whether there is one
  have hrest : unbound? search replace = none ∧ replace.unsized? true = none ∧
      search.commutativeCount ≤ maxCommutative ∧
      r = ⟨search, replace, x.condition, search.commutativeCount⟩ := by
    cases hu : unbound? search replace with
    | some v =>
      cases hc : x.condition with
      | none => simp [hsearch, hreplace, hroot, hop, hc, hu] at h
      | some c => simp [hsearch, hreplace, hroot, hop, hc, hcond c hc, hu] at h
    | none =>
    cases hz : replace.unsized? true with
    | some slot =>
      cases hc : x.condition with
      | none => simp [hsearch, hreplace, hroot, hop, hc, hu, hz] at h
      | some c => simp [hsearch, hreplace, hroot, hop, hc, hcond c hc, hu, hz] at h
    | none =>
      by_cases hm : maxCommutative < search.commutativeCount
      · cases hc : x.condition with
        | none => simp [hsearch, hreplace, hroot, hop, hc, hu, hz, hm] at h
        | some c => simp [hsearch, hreplace, hroot, hop, hc, hcond c hc, hu, hz, hm] at h
      · cases hc : x.condition with
        | none =>
          simp [hsearch, hreplace, hroot, hop, hc, hu, hz, hm] at h
          exact ⟨rfl, rfl, Nat.le_of_not_lt hm, h.symm⟩
        | some c =>
          simp [hsearch, hreplace, hroot, hop, hc, hcond c hc, hu, hz, hm] at h
          exact ⟨rfl, rfl, Nat.le_of_not_lt hm, h.symm⟩
  obtain ⟨hu, hz, hm, rfl⟩ := hrest
  exact ⟨rfl, rfl, ⟨op, w, hroot, hop⟩, hu, hz, rfl, hm, rfl⟩

end RuleTable

/-! ### Rule sets -/

/-- The variables of a well-formed pattern are within the capacity. -/
theorem Pattern.WellFormed.lt_of_mentions {P : Array Pattern} {p : Pattern} (h : p.WellFormed P)
    {k : Nat} (hk : p.mentions k) : k < maxVariables := by
  induction h with
  | var index =>
    rw [mentions, beq_iff_eq] at hk
    exact hk ▸ index
  | const => cases hk
  | @expr slot e guard args _ _ _ _ ih =>
    rw [mentions] at hk
    clear * - ih hk
    induction args with
    | nil => cases hk
    | cons p ps ihps =>
      rw [List.forall_mem_cons] at ih
      rw [mentionsAny, Bool.or_eq_true] at hk
      exact hk.elim ih.1 (ihps ih.2)

namespace RuleSet

variable {t : RuleTable} {rs : RuleSet}

/-- Whether a table is accepted can be decided by loading it. -/
theorem exists_load (h : (load t).toOption.isSome) : ∃ rs, load t = .ok rs := by
  cases hl : load t with
  | ok rs => exact ⟨rs, rfl⟩
  | error e => simp [hl, Except.toOption] at h

theorem check_of_load (h : load t = .ok rs) :
    rs.table = t ∧ rs.patterns = Pattern.ofTable t ∧ t.checkSlots = .ok () ∧
      ∃ rules, t.checkTransforms (Pattern.ofTable t) = .ok rules ∧ rs.rules = rules.toArray := by
  unfold load at h
  cases hc : t.check with
  | error e =>
    rw [hc] at h
    cases h
  | ok rs' =>
    rw [hc] at h
    cases h
    obtain ⟨_, hslots, hc⟩ := bind_eq_ok.mp hc
    obtain ⟨rules, hrules, hc⟩ := bind_eq_ok.mp hc
    obtain ⟨_, -, hc⟩ := bind_eq_ok.mp hc
    obtain ⟨_, -, hc⟩ := bind_eq_ok.mp hc
    cases hc
    exact ⟨rfl, rfl, hslots, rules, hrules, rfl⟩

/-- Every transform of a rule set that has been loaded has its rule, with the patterns of its
slots. -/
theorem exists_rule_of_load (h : load t = .ok rs) {k : Nat} {x : Transform}
    (hx : t.transforms[k]? = some x) : ∃ r, rs.rules[k]? = some r ∧
      rs.patterns[x.search]? = some r.search ∧ rs.patterns[x.replace]? = some r.replace ∧
      r.condition = x.condition := by
  obtain ⟨-, hpatterns, -, rules, hrules, heq⟩ := check_of_load h
  have hzip : t.transforms.toList.zipIdx[k]? = some (x, k) := by
    rw [List.getElem?_zipIdx, Array.getElem?_toList, hx]
    simp
  obtain ⟨r, hr, hcheck⟩ := RuleTable.getElem?_of_mapM_eq_ok hrules hzip
  obtain ⟨hsearch, hreplace, -, -, -, -, -, hcond⟩ := RuleTable.checkTransform_eq_ok hcheck
  exact ⟨r, by rw [heq]; simpa using hr, by rwa [hpatterns], by rwa [hpatterns], hcond⟩

/-- The rules of a rule set that has been loaded are admitted. -/
theorem admitted_of_load (h : load t = .ok rs) {k : Nat} {r : Rule} (hr : rs.rules[k]? = some r) :
    r.Admitted rs.patterns := by
  obtain ⟨-, hpatterns, hslots, rules, hrules, heq⟩ := check_of_load h
  rw [heq] at hr
  have hmem : r ∈ rules := List.mem_of_getElem? (by simpa using hr)
  obtain ⟨⟨x, n⟩, -, hx⟩ := RuleTable.exists_of_mapM_eq_ok hrules hmem
  obtain ⟨hsearch, hreplace, hroot, hbound, hsized, hcomm, hfew, -⟩ :=
    RuleTable.checkTransform_eq_ok hx
  rw [RuleTable.ofTable_eq] at hpatterns hsearch hreplace
  have hcheck : ∀ (k : Nat) s, t.slots.toList[k]? = some s → t.checkSlot k s = .ok () :=
    fun k s hs => RuleTable.checkSlots_eq_ok hslots (by simpa using hs)
  have hwf := RuleTable.wellFormed_patternsOf hcheck
  rw [← hpatterns] at hsearch hreplace hwf
  refine ⟨hwf _ _ hsearch, hwf _ _ hreplace, hroot, fun k hk => ?_, hsized, hcomm, hfew⟩
  have hlt := (hwf _ _ hreplace).lt_of_mentions hk
  simpa [hk] using List.find?_eq_none.mp hbound k (List.mem_range.mpr hlt)

end RuleSet

end Peephole

import Peephole.Legalize.Boolean
import Peephole.Proofs.Legalize.Narrowing
import Peephole.Proofs.Pass.Converge

/-!
# Replacements that are not matched again

No replacement of the legalizing passes builds anything that their rules search for. The narrowing
rules look for a conversion of a conversion. What they build is no conversion of the kind that they
look for, or it converts the result of an operation that is no conversion, `isInert_narrowing`. The
rules for truth values build none of the operations that they look for, `isInert_booleans`.
-/

namespace Peephole

open Func Pattern

/-! ### Lists of inert rules -/

mutual

/-- Terms have no predicates. -/
theorem Term.Denotes.isBare : ∀ {x : Term} {p : Pattern}, x.Denotes p → p.isBare
  | _, _, .var => by rw [Pattern.isBare]; rfl
  | _, _, .const => by rw [Pattern.isBare]
  | _, _, .apply sources => by
    rw [Pattern.isBare, Bool.and_eq_true]
    exact ⟨rfl, sources.areBare⟩

theorem Term.DenotesAll.areBare : ∀ {xs : List Term} {ps : List Pattern},
    Term.DenotesAll xs ps → Pattern.areBare ps
  | _, _, .nil => by rw [Pattern.areBare]
  | _, _, .cons first others => by
    rw [Pattern.areBare, Bool.and_eq_true]
    exact ⟨first.isBare, others.areBare⟩

end

/-- Whether a pattern clashes with everything that a list of rules searches for. -/
def Pattern.ClashesWith (rules : List TermRule) (p : Pattern) : Prop :=
  ∀ y ∈ rules, ∀ q, y.search.Denotes q → p.clashes q

/-- A rule set is inert if the expressions of its replacements clash with what its rules search
for. -/
theorem RuleSet.isInert_of_rules {name : String} {rules : List TermRule} {rs : RuleSet}
    (hload : load (.ofRules name rules) = .ok rs)
    (h : ∀ x ∈ rules, ∀ p, x.replace.Denotes p → p.EveryExpr (ClashesWith rules)) :
    rs.IsInert where
  bare k r hr := by
    obtain ⟨x, -, hsearch, -⟩ := exists_termRule hload hr
    exact hsearch.isBare
  clash k r hr := by
    obtain ⟨x, hx, -, hreplace⟩ := exists_termRule hload hr
    refine (h x hx _ hreplace).imp fun p hp k' r' hr' => ?_
    obtain ⟨y, hy, hsearch, -⟩ := exists_termRule hload hr'
    exact hp y hy _ hsearch

/-! ### Clashes with operations -/

section Clash

variable {rules : List TermRule} {slot w : Nat} {o : Opcode} {children : List Nat}
  {commutative : Bool} {args : List Pattern} {p : Pattern}

/-- An operation clashes with rules that search for other operations. -/
theorem Pattern.clashesWith_of_op
    (h : ∀ y ∈ rules, ∃ op w x, op ≠ o ∧ y.search = .op op w [x]) :
    (expr slot ⟨.single o, some w, children, commutative, false, false, none⟩ none
      args).ClashesWith rules := by
  intro y hy q hq
  obtain ⟨op, n, x, hne, hsearch⟩ := h y hy
  rw [hsearch] at hq
  obtain ⟨_, _, _, -, rfl⟩ := hq.eq_op
  simp [clashes, Operation.isDisjoint, Operation.covers, hne]

/-- An operation on another one clashes with rules that search for operations on others. -/
theorem Pattern.clashesWith_of_source {e : ExpressionSlot} {slot' : Nat}
    (h : ∀ y ∈ rules, ∃ op op' w n x, op' ≠ o ∧ y.search = .op op w [.op op' n [x]]) :
    (expr slot' e none [expr slot ⟨.single o, some w, children, commutative, false, false, none⟩
      none args]).ClashesWith rules := by
  intro y hy q hq
  obtain ⟨op, op', n, n', x, hne, hsearch⟩ := h y hy
  rw [hsearch] at hq
  obtain ⟨_, _, q', hq', rfl⟩ := hq.eq_op
  obtain ⟨_, _, _, -, rfl⟩ := hq'.eq_op
  simp [clashes, clashAmong, Operation.isDisjoint, Operation.covers, hne]

end Clash

namespace Legalize

/-! ### The narrowing rules -/

/-- The rules for an outer conversion look for an integer conversion or a truncation of a float
inside. -/
theorem mem_narrowingTo_iff {n w : Nat} {outer : Family} {x : TermRule} :
    x ∈ narrowingTo n outer w ↔
      (∃ inner s, (inner = .u2u ∨ inner = .i2i) ∧ s ∈ wide n ∧
          x = ofInteger n outer w inner s) ∨
        (∃ inner, (inner = .f2u ∨ inner = .f2i) ∧ outer.result ≠ .float ∧
          x = ofFloat n outer w inner) ∨
        ∃ inner s, (inner = .f2u ∨ inner = .f2i) ∧ outer.result = .float ∧ s ∈ wide n ∧
          x = clamp n outer w inner s := by
  have hintegers : (x ∈ [Family.u2u, .i2i].flatMap fun inner =>
      (wide n).map (ofInteger n outer w inner)) ↔
      ∃ inner s, (inner = .u2u ∨ inner = .i2i) ∧ s ∈ wide n ∧ x = ofInteger n outer w inner s := by
    simp [eq_comm]
  rw [narrowingTo, List.mem_append, hintegers]
  refine or_congr Iff.rfl ?_
  cases hresult : outer.result <;> simp [eq_comm]

/-- The outer conversions read integers, and are wide. -/
theorem mem_narrowing_iff {n : Nat} {x : TermRule} : x ∈ narrowing n ↔
    ∃ outer w, outer.readsInteger ∧ w ∈ wide n ∧ x ∈ narrowingTo n outer w := by
  have houter (f : Family) : f ∈ [Family.u2u, .i2i, .u2f, .i2f] ↔ f.readsInteger := by
    cases f <;> decide
  simp only [narrowing, List.mem_flatMap, houter]
  constructor
  · rintro ⟨outer, hreads, w, hw, hx⟩
    exact ⟨outer, w, hreads, hw, hx⟩
  · rintro ⟨outer, w, hreads, hw, hx⟩
    exact ⟨outer, hreads, w, hw, hx⟩

/-- Whether an operation is a conversion that the narrowing rules look for. -/
def isOuter (op : Opcode) : Bool := op.family?.any fun f => f.readsInteger || f == .f2f

/-- Whether an operation is a conversion. -/
def isConversion (op : Opcode) : Bool := op.family?.isSome || op == .f2f16Rtz

/-- Whether a rule looks for a conversion of a conversion. -/
def ConvertsTwice (x : TermRule) : Prop :=
  ∃ op op' w n v, isOuter op ∧ isConversion op' ∧ x.search = .op op w [.op op' n [.var v]]

theorem convertsTwice_convert {outer inner : Family} {op op' : Opcode} {w n : Nat}
    {v : VariableSlot} {replace : Term} (hop : outer.withWidth? w = some op)
    (hop' : inner.withWidth? n = some op') (houter : outer.readsInteger || outer == .f2f) :
    ConvertsTwice ⟨.convert outer w (.convert inner n (.var v)), replace⟩ := by
  refine ⟨op, op', w, n, v, ?_, ?_, ?_⟩
  · rw [isOuter, (Family.spec_of_withWidth? hop).1, Option.any_some, houter]
  · rw [isConversion, (Family.spec_of_withWidth? hop').1]
    rfl
  · rw [Term.convert_eq_op hop', Term.convert_eq_op hop]

/-- The rules of the narrowing passes look for conversions of conversions. -/
theorem convertsTwice_narrowing {n : Nat} (hn : n = 8 ∨ n = 16) {x : TermRule}
    (hx : x ∈ narrowing n ++ halfPacking) : ConvertsTwice x := by
  obtain hx | hx := List.mem_append.mp hx
  · obtain ⟨outer, w, houter, hw, hx⟩ := mem_narrowing_iff.mp hx
    obtain ⟨op, hop⟩ := exists_withWidth? houter hw
    have hreads : (outer.readsInteger || outer == .f2f) = true := by
      rw [houter, Bool.true_or]
    obtain ⟨inner, s, hinner, -, rfl⟩ | ⟨inner, hinner, -, rfl⟩ |
      ⟨inner, s, hinner, -, -, rfl⟩ := mem_narrowingTo_iff.mp hx
    · obtain ⟨op', hop'⟩ := exists_narrow hn (hinner.imp id .inl)
      exact convertsTwice_convert hop hop' hreads
    · obtain ⟨op', hop'⟩ := exists_narrow hn (.inr (.inr hinner))
      exact convertsTwice_convert hop hop' hreads
    · obtain ⟨op', hop'⟩ := exists_narrow hn (.inr (.inr hinner))
      exact convertsTwice_convert hop hop' hreads
  · simp only [halfPacking, List.mem_cons, List.not_mem_nil, or_false] at hx
    obtain rfl | rfl := hx
    · have hop : Family.f2f.withWidth? 32 = some .f2f32 := rfl
      have hop' : Family.u2u.withWidth? 16 = some .u2u16 := rfl
      exact convertsTwice_convert hop hop' rfl
    · exact ⟨.u2u32, .f2f16Rtz, 32, 16, _, rfl, rfl, rfl⟩

/-! ### What is not matched -/

section Unmatched

variable {rules : List TermRule}

/-- Whether every expression that is built for a term clashes with rules. -/
def Unmatched (rules : List TermRule) (x : Term) : Prop :=
  ∀ p, x.Denotes p → p.EveryExpr (ClashesWith rules)

theorem unmatched_var (v : VariableSlot) : Unmatched rules (.var v) := by
  intro p hp
  obtain rfl := hp.eq_var
  simp [EveryExpr]

theorem unmatched_const (c : ConstantSlot) : Unmatched rules (.const c) := by
  intro p hp
  obtain ⟨_, rfl⟩ := hp.eq_const
  simp [EveryExpr]

theorem everyExprAmong_of_unmatched : ∀ {ts : List Term} {ps : List Pattern},
    Term.DenotesAll ts ps → (∀ x ∈ ts, Unmatched rules x) → EveryExprAmong (ClashesWith rules) ps
  | _, _, .nil, _ => by simp [EveryExprAmong]
  | _, _, .cons first others, hts => by
    rw [List.forall_mem_cons] at hts
    rw [EveryExprAmong]
    exact ⟨hts.1 _ first, everyExprAmong_of_unmatched others hts.2⟩

/-- An operation that no rule searches for is not matched. -/
theorem unmatched_apply {o : Opcode} {w : Nat} {commutative : Bool} {ts : List Term}
    (h : ∀ y ∈ rules, ∃ op w x, op ≠ o ∧ y.search = .op op w [x])
    (hts : ∀ x ∈ ts, Unmatched rules x) :
    Unmatched rules (.apply (.single o) w commutative ts) := by
  intro p hp
  obtain _ | _ | ⟨sources⟩ := hp
  rw [EveryExpr]
  exact ⟨clashesWith_of_op h, everyExprAmong_of_unmatched sources hts⟩

end Unmatched

/-! ### What the narrowing rules build -/

section Twice

variable {rules : List TermRule} (h : ∀ y ∈ rules, ConvertsTwice y) {o : Opcode} {w n : Nat}
  {commutative : Bool} {ts : List Term} {outer : Family}
include h

/-- What is no outer conversion is not matched. -/
theorem unmatched_of_not_isOuter (ho : isOuter o = false) (hts : ∀ x ∈ ts, Unmatched rules x) :
    Unmatched rules (.apply (.single o) w commutative ts) := by
  refine unmatched_apply (fun y hy => ?_) hts
  obtain ⟨op, op', n, n', v, hop, -, hsearch⟩ := h y hy
  refine ⟨op, n, _, ?_, hsearch⟩
  rintro rfl
  rw [ho] at hop
  cases hop

/-- The conversion of something that is no conversion is not matched. -/
theorem unmatched_convert {op : Opcode} (hop : outer.withWidth? n = some op)
    (ho : isConversion o = false) (hx : Unmatched rules (.apply (.single o) w commutative ts)) :
    Unmatched rules (.convert outer n (.apply (.single o) w commutative ts)) := by
  rw [Term.convert_eq_op hop]
  intro p hp
  obtain ⟨_, _, q, hq, rfl⟩ := hp.eq_op
  have hsource := hx q hq
  obtain _ | _ | ⟨sources⟩ := hq
  rw [EveryExpr, EveryExprAmong, EveryExprAmong]
  refine ⟨clashesWith_of_source fun y hy => ?_, hsource, trivial⟩
  obtain ⟨op, op', n, n', v, -, hop', hsearch⟩ := h y hy
  refine ⟨op, op', n, n', _, ?_, hsearch⟩
  rintro rfl
  rw [ho] at hop'
  cases hop'

/-- The low bits are taken by operations that are no conversions. -/
theorem exists_lowBits_eq (n w : Nat) (outer : Family) {x : Term} (hx : Unmatched rules x) :
    ∃ o commutative ts, isConversion o = false ∧
      lowBits n outer w x = .apply (.single o) w commutative ts ∧
      Unmatched rules (lowBits n outer w x) := by
  unfold lowBits
  split
  · refine ⟨.ishr, false, _, rfl, rfl, unmatched_of_not_isOuter h rfl ?_⟩
    rw [List.forall_mem_cons, List.forall_mem_singleton]
    refine ⟨unmatched_of_not_isOuter h rfl ?_, unmatched_const _⟩
    rw [List.forall_mem_cons, List.forall_mem_singleton]
    exact ⟨hx, unmatched_const _⟩
  · refine ⟨.iand, true, _, rfl, rfl, unmatched_of_not_isOuter h rfl ?_⟩
    rw [List.forall_mem_cons, List.forall_mem_singleton]
    exact ⟨hx, unmatched_const _⟩

theorem unmatched_ofInteger {inner : Family} {s : Nat} (houter : outer.readsInteger)
    (hw : w ∈ wide n) : Unmatched rules (ofInteger n outer w inner s).replace := by
  obtain ⟨op, hop⟩ := exists_withWidth? houter hw
  have hsource : Unmatched rules (source s) := unmatched_var _
  obtain ⟨o, commutative, ts, ho, heq, hlow⟩ := exists_lowBits_eq h n s outer hsource
  simp only [ofInteger]
  split
  · exact hlow
  · rw [heq] at hlow ⊢
    exact unmatched_convert h hop ho hlow

theorem unmatched_ofFloat {inner : Family} (hinner : inner = .f2u ∨ inner = .f2i)
    (hw : w ∈ wide n) : Unmatched rules (ofFloat n outer w inner).replace := by
  have hconvert : Unmatched rules (.convert inner w anySource) := by
    obtain ⟨op, hop⟩ := exists_withWidth?_inner hinner hw
    have ho : isOuter op = false := by
      rw [isOuter, (Family.spec_of_withWidth? hop).1]
      obtain rfl | rfl := hinner <;> rfl
    rw [Term.convert_eq_op hop]
    exact unmatched_of_not_isOuter h ho (List.forall_mem_singleton.mpr (unmatched_var _))
  obtain ⟨-, -, -, -, -, hlow⟩ := exists_lowBits_eq h n w outer hconvert
  exact hlow

theorem unmatched_clamp {inner : Family} {s : Nat} (hw : w ∈ wide n) :
    Unmatched rules (clamp n outer w inner s).replace := by
  obtain ⟨op, hop⟩ := exists_f2f hw
  have hclamped : Unmatched rules (.commuting .fmin s
      [.commuting .fmax s [source s, .float s (least n outer)], .float s (greatest n outer)]) := by
    refine unmatched_of_not_isOuter h rfl ?_
    rw [List.forall_mem_cons, List.forall_mem_singleton]
    refine ⟨unmatched_of_not_isOuter h rfl ?_, unmatched_const _⟩
    rw [List.forall_mem_cons, List.forall_mem_singleton]
    exact ⟨unmatched_var _, unmatched_const _⟩
  simp only [clamp]
  split
  · exact hclamped
  · exact unmatched_convert h hop rfl hclamped

end Twice

/-- What the narrowing rules build is no conversion of a conversion. -/
theorem unmatched_narrowing {rules : List TermRule} (h : ∀ y ∈ rules, ConvertsTwice y) {n : Nat}
    {x : TermRule} (hx : x ∈ narrowing n ++ halfPacking) : Unmatched rules x.replace := by
  obtain hx | hx := List.mem_append.mp hx
  · obtain ⟨outer, w, houter, hw, hx⟩ := mem_narrowing_iff.mp hx
    obtain ⟨inner, s, -, -, rfl⟩ | ⟨inner, hinner, -, rfl⟩ | ⟨inner, s, -, -, -, rfl⟩ :=
      mem_narrowingTo_iff.mp hx
    · exact unmatched_ofInteger h houter hw
    · exact unmatched_ofFloat h hinner hw
    · exact unmatched_clamp h hw
  · simp only [halfPacking, List.mem_cons, List.not_mem_nil, or_false] at hx
    obtain rfl | rfl := hx
    · exact unmatched_of_not_isOuter h rfl (List.forall_mem_singleton.mpr (unmatched_var _))
    · refine unmatched_of_not_isOuter h rfl ?_
      rw [List.forall_mem_cons, List.forall_mem_singleton]
      exact ⟨unmatched_var _, unmatched_const _⟩

/-- The narrowing rules do not match what they build. -/
theorem isInert_narrowing {n : Nat} (hn : n = 8 ∨ n = 16) {name : String} {rules : List TermRule}
    {rs : RuleSet} (hrules : ∀ x ∈ rules, x ∈ narrowing n ++ halfPacking)
    (hload : RuleSet.load (.ofRules name rules) = .ok rs) : rs.IsInert :=
  RuleSet.isInert_of_rules hload fun x hx =>
    unmatched_narrowing (fun y hy => convertsTwice_narrowing hn (hrules y hy)) (hrules x hx)

/-! ### The rules for truth values -/

theorem mem_booleans_iff {x : TermRule} : x ∈ booleans ↔
    x = ⟨.convert .b2b 32 (.value 0 .any), truthAsInt⟩ ∨
      x = ⟨.convert .b2b 1 (.value 0 .any), .commuting .ine 1 [truthAsInt, .int 32 0]⟩ := by
  simp [booleans]

/-- The rules for truth values search for the conversions between them. -/
theorem exists_search_of_booleans {x : TermRule} (hx : x ∈ booleans) :
    ∃ op w, (op = .b2b32 ∧ w = 32 ∨ op = .b2b1 ∧ w = 1) ∧
      x.search = .op op w [.value 0 .any] := by
  obtain rfl | rfl := mem_booleans_iff.mp hx
  · exact ⟨.b2b32, 32, .inl ⟨rfl, rfl⟩, rfl⟩
  · exact ⟨.b2b1, 1, .inr ⟨rfl, rfl⟩, rfl⟩

/-- What the rules for truth values build is not matched by rules that search for neither of the two
operations. -/
theorem unmatched_booleans {rules : List TermRule} (h : ∀ o, o = Opcode.b2i32 ∨ o = Opcode.ine →
    ∀ y ∈ rules, ∃ op w x, op ≠ o ∧ y.search = .op op w [x]) {x : TermRule} (hx : x ∈ booleans) :
    Unmatched rules x.replace := by
  have htruth : Unmatched rules truthAsInt :=
    unmatched_apply (h .b2i32 (.inl rfl)) (List.forall_mem_singleton.mpr (unmatched_var _))
  obtain rfl | rfl := mem_booleans_iff.mp hx
  · exact htruth
  · refine unmatched_apply (h .ine (.inr rfl)) ?_
    rw [List.forall_mem_cons, List.forall_mem_singleton]
    exact ⟨htruth, unmatched_const _⟩

/-- The rules for truth values do not match what they build. -/
theorem isInert_booleans {name : String} {rs : RuleSet}
    (hload : RuleSet.load (.ofRules name booleans) = .ok rs) : rs.IsInert := by
  refine RuleSet.isInert_of_rules hload fun x hx => unmatched_booleans (fun o ho y hy => ?_) hx
  obtain ⟨op, w, hop, hsearch⟩ := exists_search_of_booleans hy
  refine ⟨op, w, _, ?_, hsearch⟩
  rintro rfl
  obtain ⟨rfl, -⟩ | ⟨rfl, -⟩ := hop <;> obtain ho | ho := ho <;> cases ho

end Legalize

end Peephole

import Peephole.Proofs.Rule.ByNumber

/-!
# Loading by number

Loading by number does what loading does that carries what it has found along:
`RuleIndex.load_eq`. No look-up fails, and no case that has been ruled out is met.

The counts of commutative expressions are the exception. They are sums in a word, over patterns that
may be exponentially larger than the table, and a sum that does not fit traps or wraps. So what is
said of counts depends on that, `RuleIndex.load_counts`, and a table of a few lines shows that it
has to: `RuleIndex.load_tower_overflows`.
-/

namespace Peephole

namespace RuleIndex

variable {c : Counting} {t : RuleTable}

/-- Loading by number is loading, but for the counts. -/
theorem load_eq (c : Counting) (t : RuleTable) :
    load c t = (Halt.checked t.checkSlots >>= fun _ =>
      t.transforms.toList.zipIdx.mapM (fun (x, k) => t.checkTransformAt (t.survey c) k x) >>=
        fun rules => Halt.checked (do
          t.checkRuns
          t.checkDispatches rules.toArray [] t.dispatch
          return RuleSet.index ⟨t, Pattern.ofTable t, rules.toArray⟩)) := by
  unfold load
  cases hslots : t.checkSlots with
  | error e => rfl
  | ok u =>
    simp only [Halt.checked_ok, ok_bind]
    cases hrules : t.transforms.toList.zipIdx.mapM fun (x, k) =>
        t.checkTransformAt (t.survey c) k x with
    | error e => rfl
    | ok rules =>
      have hstands := RuleTable.standsFor_of_mapM hslots hrules
      cases hruns : t.checkRuns with
      | error e => rfl
      | ok v =>
        simp only [Halt.checked_ok, ok_bind, Halt.checked_bind]
        rw [hstands.foldlM_checkDispatchAt hruns RuleTable.Entries.holds_empty .nil]
        cases t.checkDispatches rules.toArray [] t.dispatch <;> rfl

theorem mem_of_mem_zipIdx {x : Transform} {k : Nat} (h : (x, k) ∈ t.transforms.toList.zipIdx) :
    x ∈ t.transforms := by
  have hx := List.mem_zipIdx_iff_getElem?.mp h
  exact Array.mem_of_getElem? (by simpa using hx)

/-- Where all counts fit, loading by number is loading. -/
theorem load_eq_checked (h : c = .exact ∨ t.CountsFit) :
    load c t = Halt.checked (t.check.map RuleSet.index) := by
  rw [load_eq, RuleTable.check]
  cases hslots : t.checkSlots with
  | error e => rfl
  | ok u =>
    have hrules : t.transforms.toList.zipIdx.mapM
          (fun (x, k) => t.checkTransformAt (t.survey c) k x) =
        Halt.checked (t.transforms.toList.zipIdx.mapM
          fun (x, k) => t.checkTransform (Pattern.ofTable t) k x) :=
      Halt.checked_mapM fun (x, k) hx =>
        RuleTable.checkTransformAt_eq hslots k (h.imp_right fun h => h x (mem_of_mem_zipIdx hx))
    simp only [Halt.checked_ok, ok_bind, hrules]
    rw [RuleTable.checkTransforms]
    cases t.transforms.toList.zipIdx.mapM fun (x, k) =>
        t.checkTransform (Pattern.ofTable t) k x with
    | error e => rfl
    | ok rules =>
      cases t.checkRuns with
      | error e => rfl
      | ok v => cases hds : t.checkDispatches rules.toArray [] t.dispatch <;> simp [hds, Except.map]

/-- A table that is loaded by number is loaded, unless sums wrap. -/
theorem check_eq_ok_of_load {x : RuleIndex} (hx : load c t = .ok x)
    (h : c ≠ .wrapping ∨ t.CountsFit) : t.check = .ok x.rules ∧ x = x.rules.index := by
  rcases h with h | h
  · rw [load_eq] at hx
    obtain ⟨_, hslots, hx⟩ := bind_eq_ok.mp hx
    obtain ⟨rules, hrules, hx⟩ := bind_eq_ok.mp hx
    rw [Halt.checked_eq_ok] at hslots hx
    have hchecked : t.checkTransforms (Pattern.ofTable t) = .ok rules :=
      RuleTable.mapM_eq_ok_of_imp (fun (x, k) _ r hr =>
        RuleTable.checkTransform_of_checkTransformAt hslots h hr) hrules
    obtain ⟨_, hruns, hx⟩ := bind_eq_ok.mp hx
    obtain ⟨_, hdispatch, hx⟩ := bind_eq_ok.mp hx
    cases hx
    exact ⟨by simp [RuleTable.check, hslots, hchecked, hruns, hdispatch, RuleSet.index], rfl⟩
  · rw [load_eq_checked (.inr h), Halt.checked_eq_ok] at hx
    cases hcheck : t.check with
    | error e => simp [hcheck, Except.map] at hx
    | ok rs =>
      obtain rfl : rs.index = x := by simpa [hcheck, Except.map] using hx
      exact ⟨rfl, rfl⟩

/-- Loading by number crashes only when sums trap and a count does not fit. -/
theorem of_load_eq_crashed {crash : Crash} (h : load c t = .error (.crashed crash)) :
    c = .trapping ∧ crash = .sumOverflow ∧ ¬ t.CountsFit := by
  rw [load_eq] at h
  obtain h | ⟨_, hslots, h⟩ := bind_eq_error.mp h
  · exact absurd h (Halt.checked_ne_crashed _ _)
  · obtain h | ⟨rules, -, h⟩ := bind_eq_error.mp h
    · obtain ⟨⟨x, k⟩, hx, h⟩ := RuleTable.exists_of_mapM_eq_error h
      obtain ⟨hc, he, p, hp, hn⟩ :=
        RuleTable.of_checkTransformAt_eq_crashed (Halt.checked_eq_ok.mp hslots) h
      exact ⟨hc, he, fun hfit => absurd (hfit x (mem_of_mem_zipIdx hx) p hp) (Nat.not_lt.mpr hn)⟩
    · exact absurd h (Halt.checked_ne_crashed _ _)

/-- **Loading is total, and the limit on commutative expressions is real**, as far as the counts
fit. Loading by number either yields a rule set or rejects the table for the reason that the checks
give; it crashes only where sums trap and some pattern has `2 ^ 32` commutative expressions or more.
Unless sums wrap there, the stored count of every transform is the number of commutative expressions
of the pattern it searches for, and within the limit. -/
theorem load_counts (c : Counting) (t : RuleTable) :
    (∀ crash, load c t = .error (.crashed crash) →
      c = .trapping ∧ crash = .sumOverflow ∧ ¬ t.CountsFit) ∧
    (c = .exact ∨ t.CountsFit → load c t = Halt.checked (t.check.map RuleSet.index)) ∧
    (c ≠ .wrapping ∨ t.CountsFit → ∀ x, load c t = .ok x →
      ∀ (k : Nat) r, t.transforms[k]? = some r → ∃ rule p, x.rules.rules[k]? = some rule ∧
        (Pattern.ofTable t)[r.search]? = some p ∧ rule.commutative = p.commutativeCount ∧
        p.commutativeCount ≤ maxCommutative) := by
  refine ⟨fun crash => of_load_eq_crashed, load_eq_checked, fun hc x hx k r hr => ?_⟩
  obtain ⟨hcheck, -⟩ := check_eq_ok_of_load hx hc
  have hload : RuleSet.load t = .ok x.rules := by rw [RuleSet.load, hcheck]; rfl
  obtain ⟨rule, hrule, hsearch, -, -⟩ := RuleSet.exists_rule_of_load hload hr
  have hadmitted := RuleSet.admitted_of_load hload hrule
  rw [(RuleSet.check_of_load hload).2.1] at hsearch
  exact ⟨rule, rule.search, hrule, hsearch, hadmitted.commutative, hadmitted.few⟩

/-! ### A count that does not fit -/

/-- A table of one rule, which searches for a tower of commutative sums. Every storey adds the one
below it to itself, so that the search pattern has `2 ^ storeys` commutative expressions. -/
def tower (storeys : Nat) : RuleTable where
  name := "tower"
  slots :=
    ((Slot.const ⟨some 32, .int, 0⟩ :: (List.range storeys).map fun k =>
      Slot.expr ⟨.single .iadd, some 32, [k, k], true, false, false, none⟩) ++
      [Slot.expr ⟨.single .isub, some 32, [storeys, 1], false, false, false, none⟩]).toArray
  transforms := #[⟨storeys + 1, 0, none⟩]
  runs := #[.empty]
  dispatch := []
  conditions := []
  valuePredicates := #[]
  instPredicates := #[]

set_option maxRecDepth 100000 in
/-- A tower of 32 storeys makes the sum of its counts overflow; one of 3 storeys is within the
limit, and only just. -/
theorem load_counts_tower :
    (load .trapping (tower 32) = .error (.crashed .sumOverflow) ∧ ¬ (tower 32).CountsFit) ∧
    load .exact (tower 32) = Halt.checked ((tower 32).check.map RuleSet.index) ∧
    ∃ x rule p, load .trapping (tower 3) = .ok x ∧ x.rules.rules[0]? = some rule ∧
      (Pattern.ofTable (tower 3))[4]? = some p ∧ rule.commutative = p.commutativeCount ∧
      p.commutativeCount ≤ maxCommutative ∧ rule.commutative = 8 := by
  have hcrash : (load .trapping (tower 32)).map (fun _ => ()) =
      .error (.crashed .sumOverflow) := by decide +kernel
  have hcount : (load .trapping (tower 3)).toOption.bind (·.rules.rules[0]?.map (·.commutative)) =
      some 8 := by decide +kernel
  refine ⟨?_, (load_counts .exact (tower 32)).2.1 (.inl rfl), ?_⟩
  · cases h : load .trapping (tower 32) with
    | ok x => simp [h, Except.map] at hcrash
    | error e =>
      obtain rfl : e = .crashed .sumOverflow := by simpa [h, Except.map] using hcrash
      exact ⟨rfl, ((load_counts .trapping (tower 32)).1 _ h).2.2⟩
  · cases h : load .trapping (tower 3) with
    | error e => simp [h, Except.toOption] at hcount
    | ok x =>
      obtain ⟨rule, p, hrule, hp, hstored, hfew⟩ :=
        (load_counts .trapping (tower 3)).2.2 (.inl (by decide)) x h 0 ⟨4, 0, none⟩ rfl
      refine ⟨x, rule, p, rfl, hrule, hp, hstored, hfew, ?_⟩
      simpa [h, Except.toOption, hrule] using hcount

set_option maxRecDepth 100000 in
/-- Where sums trap, loading a tower of 32 storeys crashes; where they wrap, it succeeds, and stores
that the rule has no commutative expressions although there are `2 ^ 32` of them. -/
theorem load_tower_overflows :
    load .trapping (tower 32) = .error (.crashed .sumOverflow) ∧
    ∃ x rule p, load .wrapping (tower 32) = .ok x ∧ x.rules.rules[0]? = some rule ∧
      (Pattern.ofTable (tower 32))[33]? = some p ∧ rule.commutative = 0 ∧
      p.commutativeCount = 4294967296 ∧ maxCommutative < p.commutativeCount := by
  have hcrash : (load .trapping (tower 32)).map (fun _ => ()) =
      .error (.crashed .sumOverflow) := by decide +kernel
  have hstored : (load .wrapping (tower 32)).toOption.bind
      (·.rules.rules[0]?.map (·.commutative)) = some 0 := by decide +kernel
  have htrue : (Pattern.ofTable (tower 32))[33]?.map Pattern.commutativeCount =
      some 4294967296 := by decide +kernel
  obtain ⟨x, hx, hrule⟩ := Option.bind_eq_some_iff.mp hstored
  obtain ⟨rule, hrule, hzero⟩ := Option.map_eq_some_iff.mp hrule
  obtain ⟨p, hp, hcount⟩ := Option.map_eq_some_iff.mp htrue
  refine ⟨?_, x, rule, p, ?_, hrule, hp, hzero, hcount, hcount ▸ by decide⟩
  · cases h : load .trapping (tower 32) with
    | ok x => simp [h, Except.map] at hcrash
    | error e => simpa [h, Except.map] using hcrash
  · cases h : load .wrapping (tower 32) with
    | error e => simp [h, Except.toOption] at hx
    | ok y => simpa [h, Except.toOption] using hx

end RuleIndex

end Peephole

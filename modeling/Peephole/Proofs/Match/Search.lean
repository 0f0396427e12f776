import Peephole.Proofs.Match
import Peephole.Proofs.Rule.Load
import Peephole.Rule.Term
import Mathlib.Data.Nat.Bitwise
import Mathlib.Data.Nat.Find

/-!
# What the search for a swap mask finds

A walk succeeds under a mask exactly if the pattern fits with the sources exchanged that the mask
says, `Pattern.walk_eq_some_iff`. Whatever order the sources of a pattern fit in, some mask of as
many bits as it has commutative expressions says so, `Pattern.exists_mask`. Hence the search finds
bindings exactly if some fit, and those of the smallest mask, `Pattern.search_eq_some_iff`.
-/

namespace Peephole

namespace Pattern

variable {f : Func}

/-! ### Occurrences in two parts -/

/-- Bindings that hold occurrences are determined by them. -/
theorem Holds.unique {os : List Occurrence} {given b b' : Bindings} (h : Holds f os given b)
    (h' : Holds f os given b') : b = b' := by
  funext k
  cases hk : b k with
  | some v =>
    obtain hgiven | ⟨o, ho, rfl⟩ := (h.bound k).mp (by rw [hk]; rfl)
    · obtain ⟨u, hu⟩ := Option.isSome_iff_exists.mp hgiven
      rw [h'.kept k u hu, ← hk, h.kept k u hu]
    · rw [h'.held o ho, ← hk, h.held o ho]
  | none =>
    have hnone : ¬ (b' k).isSome := by
      rw [h'.bound, ← h.bound, hk]
      exact Bool.false_ne_true
    exact (Option.not_isSome_iff_eq_none.mp hnone).symm

theorem Holds.eq_of_nil {given b : Bindings} (h : Holds f [] given b) : b = given :=
  h.unique (.nil given)

/-- What is bound after the occurrences to the left. -/
def heldBy (os : List Occurrence) (given b : Bindings) : Bindings := fun k =>
  if (given k).isSome || os.any (·.slot.index == k) then b k else none

theorem heldBy_eq_some {os : List Occurrence} {given b : Bindings} {k : Nat} {v : ValueId}
    (h : heldBy os given b k = some v) : b k = some v := by
  unfold heldBy at h
  split at h
  · exact h
  · cases h

theorem heldBy_eq {os : List Occurrence} {given b : Bindings} {k : Nat}
    (h : (given k).isSome ∨ ∃ o ∈ os, o.slot.index = k) : heldBy os given b k = b k := by
  rw [heldBy, if_pos]
  simpa using h

/-- Occurrences are bound from the left to the right. -/
theorem Holds.exists_of_append {os os' : List Occurrence} {given b : Bindings}
    (h : Holds f (os ++ os') given b) : ∃ c, Holds f os given c ∧ Holds f os' c b := by
  have hbound (k : Nat) : (b k).isSome ↔
      ((given k).isSome ∨ ∃ o ∈ os, o.slot.index = k) ∨ ∃ o ∈ os', o.slot.index = k := by
    rw [h.bound]
    simp only [List.mem_append, or_and_right, exists_or, or_assoc]
  have hheld (k : Nat) : (heldBy os given b k).isSome ↔
      (given k).isSome ∨ ∃ o ∈ os, o.slot.index = k := by
    by_cases hk : (given k).isSome ∨ ∃ o ∈ os, o.slot.index = k
    · rw [heldBy_eq hk, hbound]
      exact iff_of_true (.inl hk) hk
    · refine iff_of_false ?_ hk
      rw [heldBy, if_neg (by simpa using hk)]
      exact Bool.false_ne_true
  refine ⟨heldBy os given b, ⟨fun k v hk => ?_, hheld, fun o ho => ?_, fun o ho hnone => ?_⟩,
    ⟨fun k v hk => heldBy_eq_some hk, fun k => ?_, fun o ho => ?_, fun o ho hnone => ?_⟩⟩
  · rw [heldBy_eq (.inl (by rw [hk]; rfl)), h.kept k v hk]
  · rw [heldBy_eq (.inr ⟨o, ho, rfl⟩), h.held o (List.mem_append_left os' ho)]
  · exact h.accepted o (by rw [List.find?_append, ho]; rfl) hnone
  · rw [hbound, hheld]
  · exact h.held o (List.mem_append_right os ho)
  · -- the variable is new on the right, so that its first occurrence there is its first at all
    have hnew := (not_congr (hheld o.slot.index)).mp (by rw [hnone]; exact Bool.false_ne_true)
    obtain ⟨hgiven, hos⟩ := not_or.mp hnew
    refine h.accepted o ?_ (Option.not_isSome_iff_eq_none.mp hgiven)
    have hleft : os.find? (·.slot.index == o.slot.index) = none := by
      rw [List.find?_eq_none]
      intro o' ho' heq
      exact hos ⟨o', ho', by simpa using heq⟩
    rw [List.find?_append, hleft]
    exact ho

/-! ### Walks under a mask -/

/-- Whether a mask swaps the commutative expressions of a range the way an order of sources says. -/
def Agrees (swaps : Nat) (swapped : Nat → Bool) (n count : Nat) : Prop :=
  ∀ k, n ≤ k → k < n + count → swaps.testBit k = swapped k

theorem Agrees.left {swaps n c c' : Nat} {swapped : Nat → Bool}
    (h : Agrees swaps swapped n (c + c')) : Agrees swaps swapped n c :=
  fun k hn hk => h k hn (by omega)

theorem Agrees.right {swaps n c c' : Nat} {swapped : Nat → Bool}
    (h : Agrees swaps swapped n (c + c')) : Agrees swaps swapped (n + c) c' :=
  fun k hn hk => h k (by omega) (by omega)

mutual

/-- A pattern that is placed is walked to its end by a mask that agrees. -/
theorem Placed.walk_eq {swapped : Nat → Bool} {n : Nat} {p : Pattern} {x : ValueId}
    {os : List Occurrence} {swaps : Nat} {b b' : Bindings} :
    Placed f swapped n p x os → Agrees swaps swapped n p.commutativeCount → Holds f os b b' →
      p.walk f swaps x ⟨n, b⟩ = some ⟨n + p.commutativeCount, b'⟩
  | .var, _, hholds => by
    rw [walk]
    split
    · next bound hb =>
      have hheld := hholds.held _ List.mem_cons_self
      rw [hholds.kept _ _ hb, Option.some.injEq] at hheld
      subst hheld
      rw [if_pos rfl, hholds.unique (.again hb)]
      rfl
    · next hb =>
      have ha := hholds.accepted _ (List.find?_cons_of_pos (by simp)) hb
      rw [if_pos ha, hholds.unique (.first hb ha)]
      rfl
  | .const literal equal, _, hholds => by
    rw [walk, if_pos (by rw [literal]; exact equal), hholds.eq_of_nil]
    rfl
  | @Placed.expr _ _ _ _ e _ _ _ _ _ _ definer inst accepted sources, hagrees, hholds => by
    rw [walk, definer, Option.bind_some, inst, Option.map_some]
    dsimp only
    rw [if_neg (by simp [accepted])]
    rw [commutativeCount] at hagrees ⊢
    cases hc : e.commutative with
    | true =>
      simp only [hc, if_true, Bool.true_and] at sources hagrees ⊢
      -- the expression itself is counted first, and its own bit tells which order is tried
      have hbit : swaps.testBit n = swapped n := hagrees n (Nat.le_refl n) (by omega)
      rw [hbit, sources.walkAll_eq hagrees.right hholds, Nat.add_assoc]
    | false =>
      simp only [hc, Bool.false_and, Bool.false_eq_true, if_false, Nat.zero_add]
        at sources hagrees ⊢
      exact sources.walkAll_eq hagrees hholds

theorem PlacedAll.walkAll_eq {swapped : Nat → Bool} {n : Nat} {ps : List Pattern}
    {xs : List ValueId} {os : List Occurrence} {swaps : Nat} {b b' : Bindings} :
    PlacedAll f swapped n ps xs os → Agrees swaps swapped n (commutativeCountAll ps) →
      Holds f os b b' → walkAll f swaps ps xs ⟨n, b⟩ = some ⟨n + commutativeCountAll ps, b'⟩
  | .nil, _, hholds => by
    rw [walkAll, hholds.eq_of_nil]
    rfl
  | .cons first others, hagrees, hholds => by
    obtain ⟨c, hfirst, hothers⟩ := hholds.exists_of_append
    rw [commutativeCountAll] at hagrees ⊢
    rw [walkAll, first.walk_eq hagrees.left hfirst, Option.bind_some,
      others.walkAll_eq hagrees.right hothers, Nat.add_assoc]

end

/-- Bindings fit exactly if the pattern is placed and they hold its occurrences. -/
theorem fits_iff_holds {swapped : Nat → Bool} {p : Pattern} {x : ValueId} {given b : Bindings}
    {os : List Occurrence} :
    p.Fits f swapped x given b os ↔ Placed f swapped 0 p x os ∧ Holds f os given b := by
  constructor
  · intro h
    refine ⟨h.placed, h.kept, fun k => ?_, h.held, h.accepted⟩
    rw [← h.placed.mentions_iff k]
    exact h.bound k
  · rintro ⟨hplaced, hholds⟩
    refine ⟨hplaced, hholds.kept, fun k => ?_, hholds.held, hholds.accepted⟩
    rw [hplaced.mentions_iff k]
    exact hholds.bound k

/-- A walk succeeds exactly if its bindings fit with the sources exchanged that the mask says. -/
theorem walk_eq_some_iff {swaps : Nat} {p : Pattern} {x : ValueId} {given b : Bindings} :
    (p.walk f swaps x ⟨0, given⟩).map (·.bindings) = some b ↔
      ∃ os, p.Fits f swaps.testBit x given b os := by
  constructor
  · intro h
    obtain ⟨w, hw, rfl⟩ := Option.map_eq_some_iff.mp h
    exact fits_of_walk hw
  · rintro ⟨os, hfits⟩
    obtain ⟨hplaced, hholds⟩ := fits_iff_holds.mp hfits
    rw [hplaced.walk_eq (fun k _ _ => rfl) hholds]
    rfl

/-- A pattern that fits in some order of its sources fits in the order that a mask says. -/
theorem exists_mask {swapped : Nat → Bool} {p : Pattern} {x : ValueId} {given b : Bindings}
    {os : List Occurrence} (h : p.Fits f swapped x given b os) :
    ∃ swaps < 2 ^ p.commutativeCount, ∃ os, p.Fits f swaps.testBit x given b os := by
  obtain ⟨hplaced, hholds⟩ := fits_iff_holds.mp h
  let bits (k : Fin p.commutativeCount) : Bool := swapped k
  have hagrees : Agrees (Nat.ofBits bits) swapped 0 p.commutativeCount := by
    intro k _ hk
    rw [Nat.zero_add] at hk
    rw [Nat.testBit_ofBits_lt bits k hk]
  refine ⟨Nat.ofBits bits, Nat.ofBits_lt_two_pow bits, walk_eq_some_iff.mp ?_⟩
  rw [hplaced.walk_eq hagrees hholds]
  rfl

/-! ### The search -/

/-- The first mask with a result is the smallest one that has a result. -/
theorem firstMask_eq_some_iff {α : Type} {result : Nat → Option α} {n mask : Nat} {a : α} :
    firstMask result n mask = some a ↔ ∃ k, mask ≤ k ∧ k < mask + n ∧ result k = some a ∧
      ∀ j, mask ≤ j → j < k → result j = none := by
  induction n generalizing mask with
  | zero =>
    refine iff_of_false (by simp [firstMask]) ?_
    rintro ⟨k, hk, hlt, -⟩
    omega
  | succ n ih =>
    rw [firstMask]
    cases hm : result mask with
    | some b =>
      dsimp only
      constructor
      · rintro ⟨⟩
        exact ⟨mask, le_refl mask, by omega, hm, fun j hj hlt => by omega⟩
      · rintro ⟨k, hk, -, ha, hbelow⟩
        obtain rfl | hlt := Nat.eq_or_lt_of_le hk
        · rw [← hm, ha]
        · rw [hbelow mask (le_refl mask) hlt] at hm
          cases hm
    | none =>
      dsimp only
      rw [ih]
      constructor
      · rintro ⟨k, hk, hlt, ha, hbelow⟩
        refine ⟨k, by omega, by omega, ha, fun j hj hjk => ?_⟩
        obtain rfl | hj := Nat.eq_or_lt_of_le hj
        · exact hm
        · exact hbelow j hj hjk
      · rintro ⟨k, hk, hlt, ha, hbelow⟩
        have hne : k ≠ mask := by
          rintro rfl
          rw [hm] at ha
          cases ha
        exact ⟨k, by omega, by omega, ha, fun j hj hjk => hbelow j (by omega) hjk⟩

/-- The search finds the bindings of the smallest mask under which some fit. -/
theorem search_eq_some_iff {p : Pattern} {count : Nat} {x : ValueId} {given b : Bindings} :
    p.search f count x given = some b ↔ ∃ swaps < 2 ^ count,
      (∃ os, p.Fits f swaps.testBit x given b os) ∧
        ∀ smaller < swaps, ∀ b' os, ¬ p.Fits f smaller.testBit x given b' os := by
  have hnone (swaps : Nat) : (p.walk f swaps x ⟨0, given⟩).map (·.bindings) = none ↔
      ∀ b' os, ¬ p.Fits f swaps.testBit x given b' os := by
    rw [Option.eq_none_iff_forall_ne_some]
    exact forall_congr' fun b' => by rw [ne_eq, walk_eq_some_iff, not_exists]
  rw [search, firstMask_eq_some_iff]
  simp only [Nat.zero_le, true_and, Nat.zero_add, walk_eq_some_iff, hnone, forall_const]
  rfl

/-- The search finds bindings exactly if some fit in some order of the sources. -/
theorem isSome_search_iff {p : Pattern} {x : ValueId} {given : Bindings} :
    (p.search f p.commutativeCount x given).isSome ↔
      ∃ swapped b os, p.Fits f swapped x given b os := by
  constructor
  · intro h
    obtain ⟨b, hb⟩ := Option.isSome_iff_exists.mp h
    obtain ⟨swaps, -, ⟨os, hfits⟩, -⟩ := search_eq_some_iff.mp hb
    exact ⟨_, b, os, hfits⟩
  · rintro ⟨swapped, b, os, h⟩
    obtain ⟨swaps, hlt, hfits⟩ := exists_mask h
    -- below a mask that fits there is a smallest one
    let P (m : Nat) : Prop := ∃ b os, p.Fits f m.testBit x given b os
    have hP : ∃ m, P m := ⟨swaps, b, hfits⟩
    classical
    obtain ⟨b', os', hfits'⟩ := Nat.find_spec hP
    have hle : Nat.find hP ≤ swaps := Nat.find_min' hP ⟨b, hfits⟩
    refine Option.isSome_iff_exists.mpr ⟨b', search_eq_some_iff.mpr
      ⟨Nat.find hP, by omega, ⟨os', hfits'⟩, fun m hm c os hc => ?_⟩⟩
    exact Nat.find_min hP hm ⟨c, os, hc⟩

end Pattern

/-! ### Matches of slots -/

/-- A transform of a rule set that has been loaded searches for the pattern of its slot, which has
few commutative expressions, and starts without bindings. -/
theorem RuleSet.matchTransform_eq_matchValue {t : RuleTable} {rs : RuleSet}
    (hload : RuleSet.load t = .ok rs) {k : Nat} {x : Transform} {p : Pattern}
    (hx : rs.transform k = .ok x) (hp : rs.pattern x.search = .ok p) :
    p.commutativeCount ≤ maxCommutative ∧
      ∀ (f : Func) i v, f.result? i = some v → (f.value? v).isSome →
        rs.matchTransform f k i = p.matchValue f v .empty := by
  obtain ⟨htable, -⟩ := check_of_load hload
  have hx : t.transforms[k]? = some x := by
    unfold transform at hx
    rw [htable] at hx
    cases h : t.transforms[k]? <;> simp [h] at hx ⊢
    exact hx
  obtain ⟨r, hr, hsearch, -⟩ := exists_rule_of_load hload hx
  have hadm := admitted_of_load hload hr
  obtain rfl : r.search = p := by
    unfold pattern at hp
    rw [hsearch] at hp
    exact Except.ok.inj hp
  refine ⟨hadm.few, fun f i v hv hsome => ?_⟩
  rw [matchTransform_eq hr hv, Pattern.matchValue_eq hsome, Rule.matchInst, hv, Option.bind_some,
    hadm.commutative]

/-- A match of a slot against a value returns bindings exactly if some fit in some order of the
sources, and then those of the smallest swap mask: they keep the bindings from before, and bind the
variables of the pattern and nothing else. The pattern that a transform searches for has few enough
commutative expressions, and a match of the transform is a match of that pattern without bindings
from before. -/
theorem RuleSet.matchValue_iff_fits {t : RuleTable} {rs : RuleSet}
    (hload : RuleSet.load t = .ok rs) {slot : Nat} {p : Pattern} (hp : rs.pattern slot = .ok p)
    {f : Func} {x : ValueId} (hx : (f.value? x).isSome) :
    (p.commutativeCount ≤ 31 → ∀ given : Bindings, ∃ found, p.matchValue f x given = .ok found ∧
      (found.isSome ↔ ∃ swapped b os, p.Fits f swapped x given b os) ∧
      ∀ b, found = some b →
        (∀ k v, given k = some v → b k = some v) ∧
        (∀ k, (b k).isSome ↔ (given k).isSome ∨ p.mentions k) ∧
        ∃ swaps < 2 ^ p.commutativeCount, (∃ os, p.Fits f swaps.testBit x given b os) ∧
          ∀ smaller < swaps, ∀ b' os, ¬ p.Fits f smaller.testBit x given b' os) ∧
    ∀ k r, rs.transform k = .ok r → r.search = slot →
      p.commutativeCount ≤ maxCommutative ∧
        ∀ i, f.result? i = some x → rs.matchTransform f k i = p.matchValue f x .empty := by
  refine ⟨fun _ given => ⟨_, Pattern.matchValue_eq hx p given, Pattern.isSome_search_iff,
    fun b hb => ?_⟩, fun k r hr hslot => ?_⟩
  · obtain ⟨swaps, hlt, ⟨os, hfits⟩, hbelow⟩ := Pattern.search_eq_some_iff.mp hb
    exact ⟨hfits.kept, hfits.bound, swaps, hlt, ⟨os, hfits⟩, hbelow⟩
  · obtain ⟨hfew, hmatch⟩ := matchTransform_eq_matchValue hload hr (hslot ▸ hp)
    exact ⟨hfew, fun i hi => hmatch f i x hi hx⟩

/-- The rule that the sum of a value and its opposite is zero. -/
def opposites : RuleTable :=
  .ofRules "opposites"
    [{ search := .commuting .iadd 32 [.value 0 (.of 32), .op .ineg 32 [.value 0 (.of 32)]]
       replace := .int 32 0 }]

/-- A function that stores the sum of the opposite of its parameter and the parameter. -/
def oppositeSum : Func where
  name := "f"
  params := [⟨0⟩]
  values := #[⟨.parameter 0 none, 32⟩, ⟨.result ⟨0⟩, 32⟩, ⟨.result ⟨1⟩, 32⟩]
  chains := #[[⟨⟨0⟩, 0⟩, ⟨⟨1⟩, 1⟩], [⟨⟨1⟩, 0⟩], [⟨⟨2⟩, 0⟩]]
  insts := #[⟨.ineg, 32, false, [⟨0⟩], some ⟨1⟩, some ⟨0⟩⟩,
    ⟨.iadd, 32, false, [⟨1⟩, ⟨0⟩], some ⟨2⟩, some ⟨0⟩⟩, ⟨.store, 0, false, [⟨2⟩], none, some ⟨0⟩⟩]
  blocks := #[[⟨0⟩, ⟨1⟩, ⟨2⟩]]

set_option maxRecDepth 100000 in
/-- The sum matches with its sources exchanged only: as they stand, the variable would be bound to
the opposite. -/
theorem RuleSet.matchValue_oppositeSum : ∃ rs p b, RuleSet.load opposites = .ok rs ∧
    rs.pattern 2 = .ok p ∧ (oppositeSum.value? ⟨2⟩).isSome ∧ p.commutativeCount ≤ 31 ∧
    p.matchValue oppositeSum ⟨2⟩ .empty = .ok (some b) ∧ b 0 = some ⟨0⟩ ∧
    (∃ os, p.Fits oppositeSum (Nat.testBit 1) ⟨2⟩ .empty b os) ∧
    ∀ b' os, ¬ p.Fits oppositeSum (Nat.testBit 0) ⟨2⟩ .empty b' os := by
  have hrun : ((RuleSet.load opposites).toOption.any fun rs => (rs.pattern 2).toOption.any fun p =>
      p.commutativeCount == 1 && (p.walk oppositeSum 0 ⟨2⟩ ⟨0, .empty⟩).isNone &&
        (p.search oppositeSum p.commutativeCount ⟨2⟩ .empty).any fun b =>
          b 0 == some ⟨0⟩) = true := by
    decide +kernel
  have hx : (oppositeSum.value? ⟨2⟩).isSome := rfl
  cases hload : RuleSet.load opposites with
  | error e => simp [hload, Except.toOption] at hrun
  | ok rs =>
    cases hp : rs.pattern 2 with
    | error e => simp [hload, hp, Except.toOption] at hrun
    | ok p =>
      simp only [hload, hp, Except.toOption, Option.any_some, Bool.and_eq_true, beq_iff_eq,
        Option.isNone_iff_eq_none, Option.any_eq_true] at hrun
      obtain ⟨⟨hcount, hnone⟩, b, hb, hzero⟩ := hrun
      have hfew : p.commutativeCount ≤ 31 := by omega
      obtain ⟨found, hfound, -, hmask⟩ := (matchValue_iff_fits hload hp hx).1 hfew .empty
      have hok := Pattern.matchValue_eq hx p .empty
      rw [hb] at hok
      rw [hok, Except.ok.injEq] at hfound
      obtain ⟨-, -, swaps, hlt, ⟨os, hfits⟩, -⟩ := hmask b hfound.symm
      have hzeroth (b' : Bindings) (os : List Pattern.Occurrence) :
          ¬ p.Fits oppositeSum (Nat.testBit 0) ⟨2⟩ .empty b' os := by
        intro h
        have hwalk := Pattern.walk_eq_some_iff.mpr ⟨os, h⟩
        rw [hnone] at hwalk
        cases hwalk
      obtain rfl | rfl : swaps = 0 ∨ swaps = 1 := by
        rw [hcount] at hlt
        omega
      · exact (hzeroth b os hfits).elim
      · exact ⟨rs, p, b, rfl, hp, hx, hfew, hok, hzero, ⟨os, hfits⟩, hzeroth⟩

end Peephole

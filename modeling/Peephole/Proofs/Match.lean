import Peephole.Match.Fits
import Peephole.Proofs.Func.Order

/-!
# What a match tells

A walk that succeeds leaves bindings that fit the pattern, `Pattern.fits_of_walk`: the pattern is
placed on the value, and every variable holds the value that its occurrences sit on. The swap mask
that the search has found says which sources are exchanged.

What a placed pattern sits on comes before the instruction that the root of it sits on,
`Pattern.Fits.available`.
-/

namespace Peephole

namespace Pattern

variable {f : Func}

/-! ### Occurrences -/

mutual

/-- A variable is mentioned exactly if it occurs. -/
theorem Placed.mentions_iff {swapped : Nat → Bool} {n : Nat} {p : Pattern} {x : ValueId}
    {os : List Occurrence} (k : Nat) :
    Placed f swapped n p x os → (p.mentions k ↔ ∃ o ∈ os, o.slot.index = k)
  | .var => by simp [mentions]
  | .const _ _ => by simp [mentions]
  | .expr _ _ _ sources => by
    rw [mentions]
    exact sources.mentionsAny_iff k

theorem PlacedAll.mentionsAny_iff {swapped : Nat → Bool} {n : Nat} {ps : List Pattern}
    {xs : List ValueId} {os : List Occurrence} (k : Nat) :
    PlacedAll f swapped n ps xs os → (mentionsAny k ps ↔ ∃ o ∈ os, o.slot.index = k)
  | .nil => by simp [mentionsAny]
  | .cons first others => by
    rw [mentionsAny, Bool.or_eq_true, first.mentions_iff k, others.mentionsAny_iff k]
    simp only [List.mem_append, or_and_right, exists_or]

end

/-! ### Bindings of occurrences -/

/-- Bindings **hold** occurrences, given the bindings from before. -/
structure Holds (f : Func) (os : List Occurrence) (given b : Bindings) : Prop where
  kept : ∀ k v, given k = some v → b k = some v
  bound : ∀ k, (b k).isSome ↔ (given k).isSome ∨ ∃ o ∈ os, o.slot.index = k
  held : ∀ o ∈ os, b o.slot.index = some o.value
  accepted : ∀ o, os.find? (·.slot.index == o.slot.index) = some o →
    given o.slot.index = none → o.slot.accepts o.guard f o.value

theorem Holds.nil (b : Bindings) : Holds f [] b b := by
  constructor <;> simp

/-- An occurrence of a variable that is bound to the value already. -/
theorem Holds.again {v : VariableSlot} {guard : Option ValuePredicate} {x : ValueId} {b : Bindings}
    (h : b v.index = some x) : Holds f [⟨v, guard, x⟩] b b where
  kept _ _ hk := hk
  bound k := by
    simp only [List.mem_singleton, exists_eq_left]
    refine ⟨.inl, ?_⟩
    rintro (hk | rfl)
    · exact hk
    · rw [h]
      rfl
  held := by simpa using h
  accepted := by
    intro o ho hnone
    obtain rfl : o = ⟨v, guard, x⟩ := by simpa using List.mem_of_find?_eq_some ho
    rw [h] at hnone
    cases hnone

/-- The first occurrence of a variable, which binds it. -/
theorem Holds.first {v : VariableSlot} {guard : Option ValuePredicate} {x : ValueId} {b : Bindings}
    (h : b v.index = none) (ha : v.accepts guard f x) :
    Holds f [⟨v, guard, x⟩] b (b.set v.index x) where
  kept k y hk := by
    rw [Bindings.set, if_neg]
    · exact hk
    · rintro rfl
      rw [h] at hk
      cases hk
  bound k := by
    simp only [List.mem_singleton, exists_eq_left, Bindings.set]
    by_cases hk : k = v.index
    · simp [hk]
    · simp [hk, Ne.symm hk]
  held := by simp [Bindings.set]
  accepted := by
    intro o ho _
    obtain rfl : o = ⟨v, guard, x⟩ := by simpa using List.mem_of_find?_eq_some ho
    exact ha

/-- Occurrences to the left are bound first. -/
theorem Holds.append {os os' : List Occurrence} {given b b' : Bindings}
    (h : Holds f os given b) (h' : Holds f os' b b') : Holds f (os ++ os') given b' where
  kept k v hk := h'.kept k v (h.kept k v hk)
  bound k := by
    rw [h'.bound, h.bound]
    simp only [List.mem_append, or_and_right, exists_or, or_assoc]
  held o ho := by
    obtain ho | ho := List.mem_append.mp ho
    · exact h'.kept _ _ (h.held o ho)
    · exact h'.held o ho
  accepted o ho hnone := by
    rw [List.find?_append] at ho
    cases hos : os.find? (·.slot.index == o.slot.index) with
    | some o' =>
      rw [hos] at ho
      cases ho
      exact h.accepted o hos hnone
    | none =>
      rw [hos] at ho
      -- the occurrences to the left have not bound the variable
      refine h'.accepted o ho ?_
      rw [← Option.not_isSome_iff_eq_none, h.bound, hnone]
      rintro (hfalse | ⟨o', ho', hk⟩)
      · cases hfalse
      · exact List.find?_eq_none.mp hos o' ho' (by simpa using hk)

/-! ### Walks -/

mutual

/-- A walk that succeeds has placed the pattern, and its bindings hold the occurrences. -/
theorem placed_of_walk (f : Func) (swaps : Nat) :
    ∀ (p : Pattern) (x : ValueId) (w w' : Walk), p.walk f swaps x w = some w' →
      w'.visited = w.visited + p.commutativeCount ∧
        ∃ os, Placed f swaps.testBit w.visited p x os ∧ Holds f os w.bindings w'.bindings
  | var v guard, x, w, w', h => by
    rw [walk] at h
    split at h
    · next bound hb =>
      split at h
      · next hx =>
        cases h
        exact ⟨rfl, _, .var, .again (hx ▸ hb)⟩
      · cases h
    · next hb =>
      split at h
      · next ha =>
        cases h
        exact ⟨rfl, _, .var, .first hb ha⟩
      · cases h
  | const slot c, x, w, w', h => by
    rw [walk] at h
    split at h
    · next hl =>
      cases h
      obtain ⟨l, hl, hc⟩ := Option.any_eq_true _ _ |>.mp hl
      exact ⟨rfl, [], .const hl hc, .nil _⟩
    · cases h
  | expr slot e guard args, x, w, w', h => by
    rw [walk] at h
    split at h
    · cases h
    · next i d hdef =>
      obtain ⟨j, hj, hd⟩ := Option.bind_eq_some_iff.mp hdef
      obtain ⟨d', hd, heq⟩ := Option.map_eq_some_iff.mp hd
      cases heq
      split at h
      · cases h
      · next ha =>
        have ha : e.accepts guard f i d := by simpa using ha
        -- a commutative expression is counted before its sources, and its bit of the mask is tested
        split at h
        · next hc =>
          obtain ⟨hv, os, hplaced, hholds⟩ := placedAll_of_walkAll f swaps args _ _ w' h
          refine ⟨?_, os, .expr hj hd ha ?_, hholds⟩
          · rw [hv, commutativeCount, if_pos hc, Nat.add_assoc]
          · simpa [hc] using hplaced
        · next hc =>
          obtain ⟨hv, os, hplaced, hholds⟩ := placedAll_of_walkAll f swaps args _ _ w' h
          refine ⟨?_, os, .expr hj hd ha ?_, hholds⟩
          · rw [hv, commutativeCount, if_neg hc, Nat.zero_add]
          · simpa [hc] using hplaced

theorem placedAll_of_walkAll (f : Func) (swaps : Nat) :
    ∀ (ps : List Pattern) (xs : List ValueId) (w w' : Walk), walkAll f swaps ps xs w = some w' →
      w'.visited = w.visited + commutativeCountAll ps ∧
        ∃ os, PlacedAll f swaps.testBit w.visited ps xs os ∧ Holds f os w.bindings w'.bindings
  | [], [], w, w', h => by
    rw [walkAll] at h
    cases h
    exact ⟨rfl, [], .nil, .nil _⟩
  | p :: ps, x :: xs, w, w', h => by
    rw [walkAll] at h
    obtain ⟨u, hu, h⟩ := Option.bind_eq_some_iff.mp h
    obtain ⟨hv, os, hplaced, hholds⟩ := placed_of_walk f swaps p x w u hu
    obtain ⟨hv', os', hplaced', hholds'⟩ := placedAll_of_walkAll f swaps ps xs u w' h
    refine ⟨?_, os ++ os', .cons hplaced (hv ▸ hplaced'), hholds.append hholds'⟩
    rw [hv', hv, commutativeCountAll, Nat.add_assoc]
  | [], _ :: _, _, _, h => by simp [walkAll] at h
  | _ :: _, [], _, _, h => by simp [walkAll] at h

end

/-- A walk that succeeds leaves bindings that fit. -/
theorem fits_of_walk {swaps : Nat} {p : Pattern} {x : ValueId} {given : Bindings} {w : Walk}
    (h : p.walk f swaps x ⟨0, given⟩ = some w) :
    ∃ os, p.Fits f swaps.testBit x given w.bindings os := by
  obtain ⟨-, os, hplaced, hholds⟩ := placed_of_walk f swaps p x _ w h
  refine ⟨os, hplaced, hholds.kept, fun k => ?_, hholds.held, hholds.accepted⟩
  rw [hplaced.mentions_iff k]
  exact hholds.bound k

theorem exists_of_firstMask {α : Type} {result : Nat → Option α} {n mask : Nat} {a : α}
    (h : firstMask result n mask = some a) : ∃ k, result k = some a := by
  induction n generalizing mask with
  | zero => cases h
  | succ n ih =>
    rw [firstMask] at h
    split at h
    · next b hb =>
      cases h
      exact ⟨mask, hb⟩
    · exact ih h

theorem fits_of_search {p : Pattern} {count : Nat} {x : ValueId} {given b : Bindings}
    (h : p.search f count x given = some b) : ∃ swapped os, p.Fits f swapped x given b os := by
  obtain ⟨swaps, h⟩ := exists_of_firstMask h
  obtain ⟨w, hw, rfl⟩ := Option.map_eq_some_iff.mp h
  obtain ⟨os, hfits⟩ := fits_of_walk hw
  exact ⟨swaps.testBit, os, hfits⟩

/-- A pattern that no walk gets through is not found. -/
theorem search_eq_none {p : Pattern} {count : Nat} {x : ValueId} {b : Bindings}
    (h : ∀ swaps w, p.walk f swaps x w = none) : p.search f count x b = none := by
  cases hsearch : p.search f count x b with
  | none => rfl
  | some b' =>
    obtain ⟨swaps, hwalk⟩ := exists_of_firstMask hsearch
    rw [h] at hwalk
    cases hwalk

/-- What a fresh match binds a variable to has been accepted by an occurrence of it. -/
theorem Fits.exists_occurrence {swapped : Nat → Bool} {p : Pattern} {x : ValueId} {b : Bindings}
    {os : List Occurrence} (h : p.Fits f swapped x .empty b os) {k : Nat} {v : ValueId}
    (hk : b k = some v) :
    ∃ o ∈ os, o.slot.index = k ∧ o.value = v ∧ o.slot.accepts o.guard f v := by
  have hm : p.mentions k := by simpa [hk, Bindings.empty] using h.bound k
  obtain ⟨o, ho, hok⟩ := (h.placed.mentions_iff k).mp hm
  -- only the first occurrence has been asked, and the variable holds one value at all of them
  have hfind : (os.find? (·.slot.index == k)).isSome :=
    List.find?_isSome.mpr ⟨o, ho, by simpa using hok⟩
  obtain ⟨o', ho'⟩ := Option.isSome_iff_exists.mp hfind
  obtain rfl : o'.slot.index = k := by simpa using List.find?_some ho'
  have hheld := h.held o' (List.mem_of_find?_eq_some ho')
  rw [hk, Option.some.injEq] at hheld
  exact ⟨o', List.mem_of_find?_eq_some ho', rfl, hheld.symm,
    hheld ▸ h.accepted o' ho' rfl⟩

/-! ### Where placed patterns sit -/

/-- Sources are operands, exchanged or not. -/
theorem mem_operands_of_exchanged {c : Prop} [Decidable c] {i : InstId} {d : Inst} {x : ValueId}
    (hd : f.inst? i = some d) (hx : x ∈ if c then d.operands.reverse else d.operands) :
    x ∈ f.operands i := by
  rw [Func.operands, hd]
  split at hx
  · exact List.mem_reverse.mp hx
  · exact hx

/-- A single pattern is placed on a single value. -/
theorem PlacedAll.eq_singleton {swapped : Nat → Bool} {n : Nat} {p : Pattern} {xs : List ValueId}
    {os : List Occurrence} (h : PlacedAll f swapped n [p] xs os) :
    ∃ x, xs = [x] ∧ Placed f swapped n p x os := by
  obtain _ | ⟨first, others⟩ := h
  cases others
  exact ⟨_, rfl, by rwa [List.append_nil]⟩

mutual

/-- What a pattern sits on is available where its root is. -/
theorem Placed.available (hf : f.Coherent) (hd : f.Defined) {c : InstId} {swapped : Nat → Bool}
    {n : Nat} {p : Pattern} {x : ValueId} {os : List Occurrence} :
    Placed f swapped n p x os → f.Available c x → ∀ o ∈ os, f.Available c o.value
  | .var, hx => by simpa using hx
  | .const _ _, _ => by simp
  | .expr definer inst _ sources, hx =>
    sources.available hf hd fun y hy => by
      have hprec := hf.definer_precedes hx definer
      exact hf.available_of_precedes
        (hd _ hprec.mem_left y (mem_operands_of_exchanged inst hy)) hprec

theorem PlacedAll.available (hf : f.Coherent) (hd : f.Defined) {c : InstId}
    {swapped : Nat → Bool} {n : Nat} {ps : List Pattern} {xs : List ValueId}
    {os : List Occurrence} : PlacedAll f swapped n ps xs os →
      (∀ x ∈ xs, f.Available c x) → ∀ o ∈ os, f.Available c o.value
  | .nil, _ => by simp
  | .cons first others, hxs => by
    rw [List.forall_mem_append]
    exact ⟨first.available hf hd (hxs _ List.mem_cons_self),
      others.available hf hd fun x hx => hxs x (List.mem_cons_of_mem _ hx)⟩

end

end Pattern

/-! ### Matching rules -/

/-- A mask for one width accepts no other. -/
theorem WidthMask.eq_of_allows {s w : Nat} (h : (WidthMask.of s).allows w) : w = s := by
  simp only [allows, WidthMask.of] at h
  cases hw : WidthClass.ofBits? w with
  | none => cases hs : WidthClass.ofBits? s <;> simp [hw, hs] at h
  | some c =>
    cases hs : WidthClass.ofBits? s with
    | none => simp [hw, hs] at h
    | some c' =>
      have hc : c = c' := by
        simp only [hw, hs] at h
        revert h
        cases c <;> cases c' <;> decide
      rw [← WidthClass.bits_of_ofBits? hw, ← WidthClass.bits_of_ofBits? hs, hc]

/-- A match of a rule places its search pattern on the result of the instruction. -/
theorem Rule.fits_of_matchInst {f : Func} {r : Rule} {i : InstId} {b : Bindings}
    (h : r.matchInst f i = some b) :
    ∃ x swapped os, f.result? i = some x ∧ r.search.Fits f swapped x .empty b os := by
  obtain ⟨x, hx, h⟩ := Option.bind_eq_some_iff.mp h
  obtain ⟨swapped, os, hfits⟩ := Pattern.fits_of_search h
  exact ⟨x, swapped, os, hx, hfits⟩

/-- A match of an instruction with a result is a match of the transform. -/
theorem RuleSet.matchTransform_eq {rs : RuleSet} {f : Func} {i : InstId} {k : Nat} {r : Rule}
    {result : ValueId} (hr : rs.rules[k]? = some r) (hres : f.result? i = some result) :
    rs.matchTransform f k i = .ok (r.matchInst f i) := by
  obtain ⟨d, hd, hv⟩ := Option.bind_eq_some_iff.mp hres
  simp [matchTransform, Func.requireInst, hd, hv, hr]

/-- A match of a transform is a match of its rule. -/
theorem RuleSet.matchInst_of_matchTransform {rs : RuleSet} {f : Func} {i : InstId} {k : Nat}
    {r : Rule} {b : Bindings} (hr : rs.rules[k]? = some r)
    (hm : rs.matchTransform f k i = .ok (some b)) : r.matchInst f i = some b := by
  cases hres : f.result? i with
  | some v => exact Except.ok.inj ((matchTransform_eq hr hres).symm.trans hm)
  | none =>
    -- an instruction without a result matches nothing, and neither does one that does not exist
    rw [matchTransform] at hm
    cases hd : f.inst? i with
    | none => simp [Func.requireInst, hd] at hm
    | some d =>
      rw [Func.result?, hd, Option.bind_some] at hres
      simp [Func.requireInst, hd, hres] at hm

/-- A match of a value that exists is a search. -/
theorem Pattern.matchValue_eq {f : Func} {x : ValueId} (hx : (f.value? x).isSome) (p : Pattern)
    (b : Bindings) : p.matchValue f x b = .ok (p.search f p.commutativeCount x b) := by
  obtain ⟨d, hd⟩ := Option.isSome_iff_exists.mp hx
  unfold matchValue
  split <;> simp [Func.requireValue, hd]

end Peephole

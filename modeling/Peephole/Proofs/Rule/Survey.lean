import Peephole.Proofs.Rule.Load
import Peephole.Rule.Indexed
import Mathlib.Data.List.Find
import Mathlib.Data.List.Forall2

/-!
# What a survey finds

A survey visits every slot once and remembers what it has found; analyses of patterns walk the tree
that a slot stands for, which may be far larger. When the slots of a table have passed their checks,
a survey finds of a slot what an analysis finds of its pattern: `RuleTable.analyse_of_ofTable` is
the induction, and the counts, the variables and the missing widths are three cases of it.

Only the counts have to be looked at with care. Sums in a word agree with the number of commutative
expressions as far as the word goes: a sum that traps does so because the number does not fit, and a
sum that wraps is the number up to a multiple of `2 ^ 32`.
-/

namespace Peephole

/-! ### Sums in a word -/

namespace Counting

@[simp] theorem keep_zero (c : Counting) : c.keep 0 = .ok 0 := by
  cases c <;> rfl

/-- Numbers that fit into a word are kept. -/
theorem keep_eq_ok {c : Counting} {n : Nat} (h : c = .exact ∨ n < twoPow countBits) :
    c.keep n = .ok n := by
  cases c with
  | exact => rfl
  | trapping => simp [keep, h.resolve_left (by simp)]
  | wrapping => simp [keep, Nat.mod_eq_of_lt (h.resolve_left (by simp))]

/-- What is kept is what was there, unless sums wrap. -/
theorem eq_of_keep_eq_ok {c : Counting} {m n : Nat} (h : c.keep m = .ok n)
    (hc : c ≠ .wrapping) : n = m := by
  cases c with
  | exact => exact (Except.ok.inj h).symm
  | trapping =>
    by_cases hm : m < twoPow countBits
    · exact (Except.ok.inj ((keep_eq_ok (.inr hm)).symm.trans h)).symm
    · simp [keep, hm] at h
  | wrapping => exact absurd rfl hc

/-- A sum crashes only when it traps and does not fit. -/
theorem of_keep_eq_error {c : Counting} {n : Nat} {crash : Crash} (h : c.keep n = .error crash) :
    c = .trapping ∧ crash = .sumOverflow ∧ twoPow countBits ≤ n := by
  cases c with
  | exact => cases h
  | trapping =>
    by_cases hn : n < twoPow countBits
    · simp [keep, hn] at h
    · rw [keep, if_neg hn] at h
      exact ⟨rfl, (Except.error.inj h).symm, Nat.le_of_not_lt hn⟩
  | wrapping => cases h

/-- Summands may be kept before they are added. -/
theorem keep_bind_add (c : Counting) (m n : Nat) :
    (c.keep m >>= fun a => c.keep n >>= fun b => c.add a b) = c.keep (m + n) := by
  cases c with
  | exact => rfl
  | trapping =>
    by_cases hm : m < twoPow countBits
    · by_cases hn : n < twoPow countBits
      · rw [keep_eq_ok (.inr hm), keep_eq_ok (.inr hn)]
        rfl
      · have hmn : ¬ m + n < twoPow countBits := by omega
        simp [keep, hm, hn, hmn]
    · have hmn : ¬ m + n < twoPow countBits := by omega
      simp [keep, hm, hmn]
  | wrapping => simp [keep, add]

end Counting

/-! ### Visiting slots -/

/-- The results of a walk over a list, each of which may depend on those before it. -/
theorem exists_of_foldl_push {α β : Type} (visit : Array β → α → β) (as : List α) :
    (as.foldl (fun done a => done.push (visit done a)) #[]).size = as.length ∧
      ∀ k a, as[k]? = some a → ∃ done, done.size = k ∧
        (∀ j < k, done[j]? =
          (as.foldl (fun done a => done.push (visit done a)) #[])[j]?) ∧
        (as.foldl (fun done a => done.push (visit done a)) #[])[k]? = some (visit done a) := by
  induction as using List.reverseRecOn with
  | nil => simp
  | append_singleton as b ih =>
    obtain ⟨hsize, ih⟩ := ih
    rw [List.foldl_append, List.foldl_cons, List.foldl_nil]
    set all := as.foldl (fun done a => done.push (visit done a)) #[] with hall
    have hpush (j : Nat) (hj : j < all.size) : (all.push (visit all b))[j]? = all[j]? := by
      rw [Array.getElem?_push, if_neg (Nat.ne_of_lt hj)]
    refine ⟨by simp [hsize], fun k a hk => ?_⟩
    rcases Nat.lt_or_ge k as.length with hlt | hge
    · rw [List.getElem?_append_left hlt] at hk
      obtain ⟨done, hdone, hbefore, hlast⟩ := ih k a hk
      refine ⟨done, hdone, fun j hj => ?_, ?_⟩
      · rw [hbefore j hj, hpush j (by omega)]
      · rw [hpush k (by omega), hlast]
    · rw [List.getElem?_append_right hge, List.getElem?_singleton] at hk
      split at hk
      · next hzero =>
        cases hk
        obtain rfl : k = all.size := by omega
        exact ⟨all, rfl, fun j hj => (hpush j hj).symm, Array.getElem?_push_size⟩
      · cases hk

/-- Where a partial map has a result for every element of a list, it has one result for each. -/
theorem forall₂_filterMap {α β : Type} {f : α → Option β} {as : List α}
    (h : ∀ a ∈ as, (f a).isSome) : List.Forall₂ (fun a b => f a = some b) as (as.filterMap f) := by
  induction as with
  | nil => exact .nil
  | cons a as ih =>
    obtain ⟨b, hb⟩ := Option.isSome_iff_exists.mp (h a List.mem_cons_self)
    rw [List.filterMap_cons_some hb]
    exact .cons hb (ih fun a' ha' => h a' (List.mem_cons_of_mem a ha'))

namespace RuleTable

variable {t : RuleTable} {β : Type} (missing : β) (visit : (Nat → β) → Nat → Slot → β)

theorem size_ofTable : (Pattern.ofTable t).size = t.slots.size := by
  rw [ofTable_eq, size_patternsOf, Array.length_toList]

/-- What is found of a slot follows from what is found of the slots before it. -/
theorem analyse_of_slot {k : Nat} {s : Slot} (hs : t.slots[k]? = some s) :
    ∃ below, (t.analyse missing visit)[k]? = some (visit below k s) ∧
      ∀ j < k, (t.analyse missing visit)[j]? = some (below j) := by
  rw [analyse, ← Array.foldl_toList]
  obtain ⟨done, rfl, hbefore, hlast⟩ :=
    (exists_of_foldl_push (fun earlier : Array β =>
      visit (fun k => earlier[k]?.getD missing) earlier.size) t.slots.toList).2 k s (by simpa)
  refine ⟨fun j => done[j]?.getD missing, hlast, fun j hj => ?_⟩
  rw [← hbefore j hj]
  simp [hj]

theorem ofTable_of_var {k : Nat} {v : VariableSlot} (hs : t.slots[k]? = some (.var v)) :
    ∃ guard, (Pattern.ofTable t)[k]? = some (.var v guard) := by
  rw [Pattern.ofTable, ← Array.foldl_toList]
  obtain ⟨done, rfl, -, hlast⟩ :=
    (exists_of_foldl_push (Pattern.ofSlot t) t.slots.toList).2 k (.var v) (by simpa)
  exact ⟨_, hlast⟩

theorem ofTable_of_const {k : Nat} {c : ConstantSlot} (hs : t.slots[k]? = some (.const c)) :
    (Pattern.ofTable t)[k]? = some (.const k c) := by
  rw [Pattern.ofTable, ← Array.foldl_toList]
  obtain ⟨done, rfl, -, hlast⟩ :=
    (exists_of_foldl_push (Pattern.ofSlot t) t.slots.toList).2 k (.const c) (by simpa)
  exact hlast

/-- The pattern of an expression has the patterns of its sources as arguments. -/
theorem ofTable_of_expr (h : t.checkSlots = .ok ()) {k : Nat} {e : ExpressionSlot}
    (hs : t.slots[k]? = some (.expr e)) : ∃ guard args,
      (Pattern.ofTable t)[k]? = some (.expr k e guard args) ∧
        List.Forall₂ (fun j p => j < k ∧ (Pattern.ofTable t)[j]? = some p) e.args args := by
  have hsources := (checkSlot_expr_eq_ok (checkSlots_eq_ok h hs)).2.2
  rw [Pattern.ofTable, ← Array.foldl_toList]
  obtain ⟨done, rfl, hbefore, hlast⟩ :=
    (exists_of_foldl_push (Pattern.ofSlot t) t.slots.toList).2 k (.expr e) (by simpa)
  refine ⟨_, _, hlast, ?_⟩
  have hresolved : ∀ j ∈ e.args, (done[j]?).isSome := fun j hj => by
    simpa using hsources j hj
  refine (forall₂_filterMap hresolved).imp fun j p hp => ?_
  have hj : j < done.size := (Array.getElem?_eq_some_iff.mp hp).1
  exact ⟨hj, (hbefore j hj).symm.trans hp⟩

/-- The patterns of a table whose slots have passed their checks are well-formed. -/
theorem wellFormed_ofTable (h : t.checkSlots = .ok ()) {k : Nat} {p : Pattern}
    (hp : (Pattern.ofTable t)[k]? = some p) : p.WellFormed (Pattern.ofTable t) := by
  rw [ofTable_eq] at hp ⊢
  exact wellFormed_patternsOf (fun k s hs => checkSlots_eq_ok h (by simpa using hs)) k p hp

/-- An analysis by slots agrees with one of patterns when it does so for every kind of node, given
that it does so for its sources. -/
theorem analyse_of_ofTable (h : t.checkSlots = .ok ()) (agrees : Pattern → β → Prop)
    (hvar : ∀ below k v guard, v.index < maxVariables →
      agrees (.var v guard) (visit below k (.var v)))
    (hconst : ∀ below k c, agrees (.const k c) (visit below k (.const c)))
    (hexpr : ∀ below k e guard args, List.Forall₂ (fun j p => agrees p (below j)) e.args args →
      agrees (.expr k e guard args) (visit below k (.expr e)))
    (k : Nat) {p : Pattern} (hp : (Pattern.ofTable t)[k]? = some p) :
    ∃ b, (t.analyse missing visit)[k]? = some b ∧ agrees p b := by
  induction k using Nat.strongRecOn generalizing p with
  | ind k ih =>
    have hlt : k < t.slots.size := size_ofTable ▸ (Array.getElem?_eq_some_iff.mp hp).1
    have hs : t.slots[k]? = some t.slots[k] := Array.getElem?_eq_getElem hlt
    obtain ⟨below, hk, hbelow⟩ := analyse_of_slot missing visit hs
    refine ⟨_, hk, ?_⟩
    cases hslot : t.slots[k] with
    | var v =>
      rw [hslot] at hs
      obtain ⟨guard, hvarp⟩ := ofTable_of_var hs
      obtain rfl := Option.some.inj (hp.symm.trans hvarp)
      exact hvar _ _ _ _ (checkSlot_var_eq_ok (checkSlots_eq_ok h hs))
    | const c =>
      rw [hslot] at hs
      obtain rfl := Option.some.inj (hp.symm.trans (ofTable_of_const hs))
      exact hconst _ _ _
    | expr e =>
      rw [hslot] at hs
      obtain ⟨guard, args, hexprp, hargs⟩ := ofTable_of_expr h hs
      obtain rfl := Option.some.inj (hp.symm.trans hexprp)
      refine hexpr _ _ _ _ _ (hargs.imp fun j q hq => ?_)
      obtain ⟨b, hb, hagrees⟩ := ih j hq.1 hq.2
      rwa [Option.some.inj (hb.symm.trans (hbelow j hq.1))] at hagrees

/-! ### Counts -/

/-- A sum over sources is a sum over their patterns, as far as the word goes. -/
theorem foldlM_add {c : Counting} {below : Nat → Except Crash Nat} {js : List Nat}
    {ps : List Pattern} (h : List.Forall₂ (fun j p => below j = c.keep p.commutativeCount) js ps)
    (start : Nat) :
    (c.keep start >>= fun sum => js.foldlM (fun sum j => do c.add sum (← below j)) sum) =
      c.keep (start + Pattern.commutativeCountAll ps) := by
  induction h generalizing start with
  | nil => cases hs : c.keep start <;> simp [Pattern.commutativeCountAll, hs]
  | @cons j p js ps hj _ ih =>
    calc (c.keep start >>= fun sum => (j :: js).foldlM (fun sum j => do c.add sum (← below j)) sum)
      _ = ((c.keep start >>= fun a => c.keep p.commutativeCount >>= fun b => c.add a b) >>=
            fun sum => js.foldlM (fun sum j => do c.add sum (← below j)) sum) := by
          simp only [List.foldlM_cons, hj, bind_assoc]
      _ = (c.keep (start + p.commutativeCount) >>=
            fun sum => js.foldlM (fun sum j => do c.add sum (← below j)) sum) := by
          rw [Counting.keep_bind_add]
      _ = c.keep (start + Pattern.commutativeCountAll (p :: ps)) := by
          rw [ih, Pattern.commutativeCountAll, Nat.add_assoc]

/-- The count of a slot is the number of commutative expressions of its pattern, as far as the word
goes. -/
theorem counts_of_ofTable (h : t.checkSlots = .ok ()) (c : Counting) {k : Nat} {p : Pattern}
    (hp : (Pattern.ofTable t)[k]? = some p) :
    (t.counts c)[k]? = some (c.keep p.commutativeCount) := by
  have hall : ∃ b, (t.counts c)[k]? = some b ∧ b = c.keep p.commutativeCount := by
    refine analyse_of_ofTable _ _ h (fun p b => b = c.keep p.commutativeCount)
      (fun _ _ _ _ _ => c.keep_zero.symm) (fun _ _ _ => c.keep_zero.symm)
      (fun below k e guard args hargs => ?_) k hp
    have hsum := foldlM_add hargs 0
    rw [c.keep_zero, ok_bind, Nat.zero_add] at hsum
    have hself : c.keep (if e.commutative then 1 else 0) = .ok (if e.commutative then 1 else 0) :=
      Counting.keep_eq_ok (.inr (by split <;> decide))
    rw [countVisit, hsum, Pattern.commutativeCount, ← c.keep_bind_add, hself, ok_bind]
  obtain ⟨b, hb, rfl⟩ := hall
  exact hb

/-! ### Variables -/

/-- Whether a set of bits, if one has been found, is the set of variables of a pattern. -/
def Collected (p : Pattern) (bits : Except Crash (BitVec countBits)) : Prop :=
  ∃ w, bits = .ok w ∧ ∀ i < countBits, w.getLsbD i = p.mentions i

/-- The variables of sources are those of their patterns. -/
theorem foldlM_or {below : Nat → Except Crash (BitVec countBits)} {js : List Nat}
    {ps : List Pattern} (h : List.Forall₂ (fun j p => Collected p (below j)) js ps)
    (seen : BitVec countBits) :
    ∃ w, js.foldlM (fun seen j => do return seen ||| (← below j)) seen = .ok w ∧
      ∀ i < countBits, w.getLsbD i = (seen.getLsbD i || Pattern.mentionsAny i ps) := by
  induction h generalizing seen with
  | nil => exact ⟨seen, rfl, fun i _ => by simp [Pattern.mentionsAny]⟩
  | @cons j p js ps hj _ ih =>
    obtain ⟨w, hw, hbits⟩ := hj
    obtain ⟨all, hall, hrest⟩ := ih (seen ||| w)
    refine ⟨all, ?_, fun i hi => ?_⟩
    · rw [List.foldlM_cons, hw]
      exact hall
    · rw [hrest i hi, BitVec.getLsbD_or, hbits i hi, Pattern.mentionsAny, Bool.or_assoc]

/-- The variables of a slot are those of its pattern. -/
theorem variables_of_ofTable (h : t.checkSlots = .ok ()) {k : Nat} {p : Pattern}
    (hp : (Pattern.ofTable t)[k]? = some p) :
    ∃ w, t.variableSets[k]? = some (.ok w) ∧ ∀ i < countBits, w.getLsbD i = p.mentions i := by
  have hall : ∃ bits, t.variableSets[k]? = some bits ∧ Collected p bits := by
    refine analyse_of_ofTable _ _ h Collected (fun below k v guard hv => ?_)
      (fun _ _ _ => ⟨0, rfl, fun i _ => ?_⟩) (fun below k e guard args hargs => ?_) k hp
    · have hlt : v.index < countBits := Nat.lt_trans hv (by decide)
      refine ⟨BitVec.twoPow countBits v.index, by rw [variableVisit, if_pos hlt], fun i hi => ?_⟩
      rw [BitVec.getLsbD_twoPow, Pattern.mentions, decide_eq_true hlt, Bool.true_and]
      rfl
    · simp [Pattern.mentions]
    · obtain ⟨w, hw, hbits⟩ := foldlM_or hargs 0
      exact ⟨w, hw, fun i hi => by simp [hbits i hi, Pattern.mentions]⟩
  obtain ⟨_, hb, w, rfl, hw⟩ := hall
  exact ⟨w, hb, hw⟩

/-- The lowest variable of one slot that is not one of another, as a bit. -/
theorem lowestBit?_eq_unbound? {search replace : Pattern} {bound used : BitVec countBits}
    (hbound : ∀ i < countBits, bound.getLsbD i = search.mentions i)
    (hused : ∀ i < countBits, used.getLsbD i = replace.mentions i)
    (hlow : ∀ i, replace.mentions i → i < maxVariables) :
    lowestBit? (used &&& ~~~bound) = unbound? search replace := by
  have hbits (i : Nat) (hi : i < countBits) :
      (used &&& ~~~bound).getLsbD i = (replace.mentions i && !search.mentions i) := by
    rw [BitVec.getLsbD_and, BitVec.getLsbD_not, hbound i hi, hused i hi, decide_eq_true hi,
      Bool.true_and]
  have hrange : List.range countBits =
      List.range maxVariables ++ List.range' maxVariables (countBits - maxVariables) := by
    decide
  have hhigh : (List.range' maxVariables (countBits - maxVariables)).find?
      ((used &&& ~~~bound).getLsbD ·) = none := by
    refine List.find?_eq_none.mpr fun i hi => ?_
    obtain ⟨hge, hlt⟩ := List.mem_range'_1.mp hi
    have hno : replace.mentions i = false := by
      by_contra hm
      exact absurd (hlow i (by simpa using hm)) (Nat.not_lt.mpr hge)
    rw [hbits i (by simpa [countBits, maxVariables] using hlt), hno]
    simp
  rw [lowestBit?, hrange, List.find?_append, hhigh, Option.or_none, unbound?]
  exact List.find?_congr fun i hi => hbits i (Nat.lt_trans (List.mem_range.mp hi) (by decide))

/-! ### Missing widths -/

/-- Whether a search for a slot without a width finds what there is in a pattern. -/
def FindsUnsized (p : Pattern) (find : Bool → Except Crash (Option Nat)) : Prop :=
  ∀ inherited, find inherited = .ok (p.unsized? inherited)

/-- The first source without a width is the first among the patterns of the sources. -/
theorem unsizedSources_eq {below : Nat → Bool → Except Crash (Option Nat)} {js : List Nat}
    {ps : List Pattern} (h : List.Forall₂ (fun j p => FindsUnsized p (below j)) js ps)
    (paired : Bool) (ws : List SourceWidth) :
    unsizedSources below paired js ws = .ok (Pattern.unsizedAmong? paired ps ws) := by
  induction h generalizing paired ws with
  | nil => rfl
  | @cons j p js ps hj _ ih =>
    cases ws with
    | nil => rfl
    | cons w ws =>
      rw [unsizedSources, hj _, Pattern.unsizedAmong?]
      cases p.unsized? (Pattern.isSized paired w) with
      | none => exact ih _ ws
      | some slot => rfl

/-- The first slot without a width below a slot is the first one of its pattern. -/
theorem unsizedSlots_of_ofTable (h : t.checkSlots = .ok ()) {k : Nat} {p : Pattern}
    (hp : (Pattern.ofTable t)[k]? = some p) :
    ∃ find, t.unsizedSlots[k]? = some find ∧ FindsUnsized p find := by
  refine analyse_of_ofTable _ _ h FindsUnsized (fun _ _ _ _ _ _ => rfl) (fun _ _ _ _ => rfl)
    (fun below k e guard args hargs inherited => ?_) k hp
  rw [unsizedVisit, Pattern.unsized?, unsizedSources_eq hargs]
  split <;> rfl

end RuleTable

end Peephole

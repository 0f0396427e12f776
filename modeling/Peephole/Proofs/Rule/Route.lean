import Peephole.Proofs.Func.Effect
import Peephole.Proofs.Opcode
import Peephole.Proofs.Rule.Index

/-!
# Where dispatch leads

An instruction is dispatched by its operation and its width. In a table that has been loaded, every
look-up on the way finds something, and the run at its end consists of rules that search for an
expression of the same dispatch key. Where the dispatch entry has a filter, the rules pass the
matcher's tests of operations and of widths as well: a conversion is determined by its family and
the width that it produces.
-/

namespace Peephole

/-! ### Keys and widths -/

namespace Operation

/-- An operation of a rule covers every operation that has its dispatch key, and the width that it
fixes if it fixes one. -/
theorem covers_of_dispatchKey {o : Operation} {op : Opcode} {w n : Nat}
    (hkey : o.dispatchKey = ofOpcode op) (hc : Func.checkInst op w n = .ok ())
    (hfixed : ∀ fixed, o.fixedWidth = some fixed → fixed = w) : o.covers op := by
  cases o with
  | single op' =>
    have hkey : ofOpcode op' = ofOpcode op := hkey
    have heq : op'.family? = op.family? := by
      unfold ofOpcode at hkey
      split at hkey <;> split at hkey <;> simp_all
    cases hfamily : op.family? with
    | none =>
      rw [ofOpcode, ofOpcode, heq, hfamily] at hkey
      simpa [covers] using hkey
    | some f =>
      -- both are the member of one family at the width of the instruction
      obtain ⟨w', hfixed', hform'⟩ := withWidth?_of_family? (heq.trans hfamily)
      obtain rfl := hfixed w' hfixed'
      obtain ⟨w'', hfixed'', hform⟩ := withWidth?_of_family? hfamily
      obtain rfl := Opcode.fixedWidth_of_checkInst hc hfixed''
      simp [covers, Option.some.inj (hform'.symm.trans hform)]
  | family f =>
    have hkey : family f = ofOpcode op := hkey
    unfold ofOpcode at hkey
    split at hkey <;> simp_all [covers]

end Operation

namespace RuleTable

variable {t : RuleTable} {rules : Array Rule}

/-! ### What has been checked -/

/-- What the check of a dispatch entry looks at. -/
theorem checkDispatch_eq_ok {seen : List Operation} {d : Dispatch}
    (h : t.checkDispatch rules seen d = .ok ()) :
    d.key ∉ seen ∧ checkFilter d = .ok () ∧
      (∀ state ∈ d.states, t.checkState rules d.key state = .ok ()) ∧
      ∀ filter, d.filter = some filter → ∀ c,
        ∀ k ∈ (t.runAt d (filter.get c.index)).indices,
          checkWidthRouted rules d.key c k = .ok () := by
  rw [checkDispatch_eq] at h
  by_cases hseen : d.key ∈ seen
  · simp [hseen] at h
  · rw [if_neg (by simpa using hseen)] at h
    obtain ⟨_, hfilter, h⟩ := bind_eq_ok.mp h
    obtain ⟨_, hstates, h⟩ := bind_eq_ok.mp h
    refine ⟨hseen, hfilter, forM_eq_ok.mp hstates, fun filter hf c k hk => ?_⟩
    rw [hf] at h
    exact forM_eq_ok.mp (forM_eq_ok.mp h c (by cases c <;> decide)) k hk

/-- Every dispatch entry has been checked, and is in its place. -/
theorem checkDispatches_eq_ok {entries : Entries} {before : List Dispatch}
    (hentries : entries.Holds before) {seen : List Operation} (hseen : AreKeysOf seen before)
    {ds : List Dispatch} (h : t.checkDispatches rules seen ds = .ok ()) :
    (ds.foldl Entries.put entries).Holds (before ++ ds) ∧
      ∀ d ∈ ds, ∃ seen, t.checkDispatch rules seen d = .ok () := by
  induction ds generalizing entries before seen with
  | nil => exact ⟨by simpa using hentries, by simp⟩
  | cons d ds ih =>
    obtain ⟨_, hd, h⟩ := bind_eq_ok.mp h
    have hnew : before.find? (·.key = d.key) = none := find?_eq_none_of_checkDispatch hseen hd
    obtain ⟨hholds, hrest⟩ := ih (hentries.put hnew) (hseen.cons d) h
    refine ⟨by simpa using hholds, fun d' hd' => ?_⟩
    obtain rfl | hd' := List.mem_cons.mp hd'
    · exact ⟨seen, hd⟩
    · exact hrest d' hd'

/-- A run that a dispatch entry leads to consists of transforms that are rooted under its key. -/
theorem checkState_eq_ok {key : Operation} {state : Nat}
    (h : t.checkState rules key state = .ok ()) :
    ∃ run, t.runs[state]? = some run ∧ ∀ k ∈ run.indices, checkRouted rules key k = .ok () := by
  have hstate := lt_of_checkState h
  rw [checkState, if_pos hstate, run, Array.getElem?_eq_getElem hstate] at h
  exact ⟨_, Array.getElem?_eq_getElem hstate, forM_eq_ok.mp h⟩

theorem StandsFor.dispatchKey_eq (h : t.StandsFor rules) {key : Operation} {k : Nat}
    (hk : k < t.transforms.size) (hcheck : checkRouted rules key k = .ok ()) :
    ∃ x r e guard args, t.transforms[k]? = some x ∧ rules[k]? = some r ∧
      t.slots[x.search]? = some (.expr e) ∧ r.search = .expr x.search e guard args ∧
      e.op.dispatchKey = key := by
  have hx := Array.getElem?_eq_getElem hk
  obtain ⟨r, e, guard, args, hr, hs, hsearch⟩ := h k _ hx
  refine ⟨_, r, e, guard, args, hx, hr, hs, hsearch, ?_⟩
  by_contra hkey
  simp [checkRouted, hr, hsearch, Pattern.root?, hkey] at hcheck

/-- The width that a rule asks of what it matches is that of the class it is tried at. -/
theorem bits_of_checkWidthRouted {key : Operation} {c : WidthClass} {k n slot : Nat} {r : Rule}
    {e : ExpressionSlot} {guard : Option InstPredicate} {args : List Pattern}
    (hr : rules[k]? = some r) (hsearch : r.search = .expr slot e guard args)
    (hcheck : checkWidthRouted rules key c k = .ok ())
    (hn : (e.width <|> e.op.fixedWidth) = some n) : n = c.bits := by
  by_contra hw
  rw [checkWidthRouted, hr, Option.bind_some, hsearch, Pattern.root?, hn] at hcheck
  simp [hw] at hcheck

end RuleTable

/-! ### Routes -/

namespace RuleIndex

variable {c : Counting} {t : RuleTable} {x : RuleIndex}

/-- What holds of the index of a rule set whose table has passed its checks. -/
structure Loads (x : RuleIndex) (t : RuleTable) : Prop where
  table : x.rules.table = t
  slots : t.checkSlots = .ok ()
  rules : t.StandsFor x.rules.rules
  runs : t.checkRuns = .ok ()
  entries : x.entries.Holds t.dispatch
  dispatch : ∀ d ∈ t.dispatch, ∃ seen, t.checkDispatch x.rules.rules seen d = .ok ()

theorem loads_of_load (h : load c t = .ok x) : x.Loads t := by
  rw [load_eq] at h
  obtain ⟨_, hslots, h⟩ := bind_eq_ok.mp h
  obtain ⟨rules, hrules, h⟩ := bind_eq_ok.mp h
  rw [Halt.checked_eq_ok] at hslots h
  obtain ⟨_, hruns, h⟩ := bind_eq_ok.mp h
  obtain ⟨_, hdispatch, h⟩ := bind_eq_ok.mp h
  cases h
  obtain ⟨hholds, hchecked⟩ :=
    RuleTable.checkDispatches_eq_ok RuleTable.Entries.holds_empty .nil hdispatch
  exact ⟨rfl, hslots, RuleTable.standsFor_of_mapM hslots hrules, hruns, hholds, hchecked⟩

/-- The run of a compact index that has a state is found. -/
theorem Loads.runOf_eq (h : x.Loads t) {d : Dispatch} {compact : Nat}
    (hcompact : compact < d.states.length) (hstates : ∀ state ∈ d.states, state < t.runs.size) :
    ∃ state ∈ d.states, ∃ run, t.runs[state]? = some run ∧ route.runOf x d compact = .ok run ∧
      t.runAt d compact = run := by
  have hstate := List.getElem?_eq_getElem hcompact
  have hmem := List.getElem_mem hcompact
  have hrun := Array.getElem?_eq_getElem (hstates _ hmem)
  refine ⟨_, hmem, _, hrun, ?_, ?_⟩
  · simp only [route.runOf, h.table, hstate, hrun, found_some, ok_bind]
  · simp only [RuleTable.runAt, RuleTable.run, hstate, hrun, Option.elim_some, Option.getD_some]

/-- A route either ends early, with no candidates, or leads through an entry and a compact index
that has a state. -/
theorem Loads.route_cases (h : x.Loads t) (op : Opcode) (w : Nat) :
    (x.route op w = .ok .empty ∧ x.rules.candidates op w = .empty) ∨
    ∃ d ∈ t.dispatch, d.key = .ofOpcode op ∧
      x.entries[(Operation.ofOpcode op).index]? = some (some d) ∧
      ∃ compact < d.states.length, x.route op w = route.runOf x d compact ∧
        x.rules.candidates op w = t.runAt d compact ∧
        ∀ filter, d.filter = some filter → ∃ c : WidthClass, c.bits = w ∧
          compact = filter.get c.index := by
  have hentry := h.entries.entry (.ofOpcode op)
  cases hfind : t.dispatch.find? (·.key = .ofOpcode op) with
  | none => exact .inl ⟨by simp [route, hentry, hfind], by simp [RuleSet.candidates, h.table, hfind]⟩
  | some d =>
  have hmem := List.mem_of_find?_eq_some hfind
  obtain ⟨seen, hd⟩ := h.dispatch d hmem
  have hfilter := (RuleTable.checkDispatch_eq_ok hd).2.1
  cases hf : d.filter with
  | none =>
    have hlength : 0 < d.states.length := by
      by_contra hzero
      simp [RuleTable.checkFilter, hf, Nat.eq_zero_of_not_pos hzero] at hfilter
    exact .inr ⟨d, hmem, by simpa using List.find?_some hfind, hentry.trans (by rw [hfind]), 0,
      hlength, by simp [route, hentry, hfind, hf], by simp [RuleSet.candidates, h.table, hfind, hf],
      fun _ hno => by cases hf.symm.trans hno⟩
  | some filter =>
    cases hc : WidthClass.ofBits? w with
    | none =>
      exact .inl ⟨by simp [route, hentry, hfind, hf, hc],
        by simp [RuleSet.candidates, h.table, hfind, hf, hc]⟩
    | some width =>
      exact .inr ⟨d, hmem, by simpa using List.find?_some hfind, hentry.trans (by rw [hfind]),
        filter.get width.index, RuleTable.lt_of_checkFilter hfilter hf _,
        by simp [route, hentry, hfind, hf, hc],
        by simp [RuleSet.candidates, h.table, hfind, hf, hc],
        fun _ hsome => ⟨width, WidthClass.bits_of_ofBits? hc, by
          obtain rfl := Option.some.inj (hf.symm.trans hsome); rfl⟩⟩

/-- **Dispatch routes exactly.** In a table that has been loaded, the route of an operation and a
width is found and leads to the candidates, which exist and search for expressions with the key of
the operation. Candidates of an entry with a filter pass the matcher's tests of the operation and of
the declared width, on every instruction that can be created with the operation and the width. -/
theorem route_exact (h : load c t = .ok x) (op : Opcode) (w : Nat) :
    ∃ run, x.route op w = .ok run ∧ run = x.rules.candidates op w ∧
      ∀ k ∈ run.indices, ∃ r rule e guard args, t.transforms[k]? = some r ∧
        x.rules.rules[k]? = some rule ∧ rule.search = .expr r.search e guard args ∧
        e.op.dispatchKey = .ofOpcode op ∧
        ∀ d, x.entries[(Operation.ofOpcode op).index]? = some (some d) → d.filter.isSome →
          ∀ f operands i g, Func.createInst f op w operands = .ok (i, g) →
            ∃ inst, g.inst? i = some inst ∧ e.op.covers inst.opcode ∧
              e.width.all (· == inst.width) := by
  have hloads := loads_of_load h
  obtain ⟨hroute, hcandidates⟩ | ⟨d, hmem, hkey, hentry, compact, hcompact, hroute, hcandidates,
    hclass⟩ := hloads.route_cases op w
  · exact ⟨.empty, hroute, hcandidates.symm, by simp [Run.indices, Run.empty]⟩
  obtain ⟨seen, hd⟩ := hloads.dispatch d hmem
  obtain ⟨-, -, hstates, hwidths⟩ := RuleTable.checkDispatch_eq_ok hd
  obtain ⟨state, hstate, run, hrun, hof, hat⟩ := hloads.runOf_eq hcompact
    fun state hstate => RuleTable.lt_of_checkState (hstates state hstate)
  refine ⟨run, hroute.trans hof, (hcandidates.trans hat).symm, fun k hk => ?_⟩
  obtain ⟨run', hrun', hrouted⟩ := RuleTable.checkState_eq_ok (hstates state hstate)
  obtain rfl := Option.some.inj (hrun.symm.trans hrun')
  obtain ⟨r, rule, e, guard, args, hr, hrule, hs, hsearch, hroot⟩ :=
    hloads.rules.dispatchKey_eq (RuleTable.lt_of_mem_indices hloads.runs hrun hk) (hrouted k hk)
  refine ⟨r, rule, e, guard, args, hr, hrule, hsearch, hroot.trans hkey, ?_⟩
  intro d' hentry' hsome f operands i g hcreate
  obtain rfl : d = d' := by simpa using hentry.symm.trans hentry'
  have hcreates := Func.createInst_eq_ok hcreate
  obtain ⟨filter, hfilter⟩ := Option.isSome_iff_exists.mp hsome
  obtain ⟨width, rfl, rfl⟩ := hclass filter hfilter
  have hexpected (n : Nat) (hn : (e.width <|> e.op.fixedWidth) = some n) : n = width.bits :=
    RuleTable.bits_of_checkWidthRouted hrule hsearch
      (hwidths filter hfilter width k (hat ▸ hk)) hn
  refine ⟨_, (hcreates.inst? i).trans (if_pos rfl), ?_, ?_⟩
  · refine Operation.covers_of_dispatchKey (hroot.trans hkey) hcreates.checked
      fun fixed hfixed => ?_
    cases hw : e.width with
    | none => exact hexpected fixed (by rw [hw]; exact hfixed)
    | some n =>
      obtain rfl := hexpected n (by rw [hw]; rfl)
      obtain ⟨form, hform⟩ := Option.isSome_iff_exists.mp
        ((RuleTable.checkSlot_expr_eq_ok (RuleTable.checkSlots_eq_ok hloads.slots hs)).1 _ hw).2
      exact (Operation.form hform).2.2.2 fixed (Operation.fixedWidth_of_form hform hfixed)
  · cases hw : e.width with
    | none => rfl
    | some n =>
      obtain rfl := hexpected n (by rw [hw]; rfl)
      simp

/-- The table of one rule: taking the low byte of a low byte changes nothing. -/
def lowByteTwice : RuleTable where
  name := "bytes"
  slots := #[.var ⟨0, .any, false, none, none⟩,
    .expr ⟨.single .u2u8, none, [0], false, false, false, none⟩,
    .expr ⟨.single .u2u8, none, [1], false, false, false, none⟩]
  transforms := #[⟨2, 1, none⟩]
  runs := #[.empty, ⟨0, 1⟩]
  dispatch := [⟨.family .u2u, some #v[0, 1, 0, 0, 0], [0, 1]⟩]
  conditions := []
  valuePredicates := #[]
  instPredicates := #[]

/-- Conversions to bytes are led to the rule for low bytes, and other conversions of the family are
not. -/
theorem route_exact_lowByteTwice : ∃ x f g, load .trapping lowByteTwice = .ok x ∧
    x.route .u2u16 16 = .ok .empty ∧ x.route .u2u8 8 = .ok ⟨0, 1⟩ ∧
    (Func.empty "f").addParam 32 none = .ok (⟨0⟩, f) ∧
    f.createInst .u2u8 8 [⟨0⟩] = .ok (⟨0⟩, g) ∧
    ∃ r rule e guard args inst, lowByteTwice.transforms[0]? = some r ∧
      x.rules.rules[0]? = some rule ∧ rule.search = .expr r.search e guard args ∧
      g.inst? ⟨0⟩ = some inst ∧ e.op.covers inst.opcode ∧ e.width.all (· == inst.width) := by
  obtain ⟨f, g, hparam, hcreate⟩ : ∃ f g, (Func.empty "f").addParam 32 none = .ok (⟨0⟩, f) ∧
      f.createInst .u2u8 8 [⟨0⟩] = .ok (⟨0⟩, g) := ⟨_, _, rfl, rfl⟩
  have hroutes : (load .trapping lowByteTwice).toOption.any (fun x =>
      decide (x.route .u2u16 16 = .ok .empty ∧ x.route .u2u8 8 = .ok ⟨0, 1⟩ ∧
        (x.entries[(Operation.ofOpcode .u2u8).index]?.bind id).any (·.filter.isSome))) = true := by
    decide +kernel
  cases h : load .trapping lowByteTwice with
  | error e => simp [h, Except.toOption] at hroutes
  | ok x =>
    simp only [h, Except.toOption, Option.any_some, decide_eq_true_eq] at hroutes
    obtain ⟨hother, hroute, hentry⟩ := hroutes
    obtain ⟨d, hd, hsome⟩ := Option.any_eq_true _ _ |>.mp hentry
    obtain ⟨_, hplace, rfl⟩ := Option.bind_eq_some_iff.mp hd
    obtain ⟨run, hrun, -, hall⟩ := route_exact h .u2u8 8
    obtain rfl : run = ⟨0, 1⟩ := Except.ok.inj (hrun.symm.trans hroute)
    obtain ⟨r, rule, e, guard, args, hr, hrule, hsearch, -, hpasses⟩ := hall 0 (by decide)
    obtain ⟨inst, hinst, hcovers, hwidth⟩ := hpasses d hplace hsome f [⟨0⟩] ⟨0⟩ g hcreate
    exact ⟨x, f, g, rfl, hother, hroute, hparam, hcreate, r, rule, e, guard, args, inst, hr, hrule,
      hsearch, hinst, hcovers, hwidth⟩

end RuleIndex

end Peephole

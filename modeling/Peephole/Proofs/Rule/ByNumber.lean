import Peephole.Proofs.Rule.Survey

/-!
# Checks by number

Loading looks things up by their numbers where it needs them, and relies on earlier checks that they
are there. It comes to the same as checks that carry what they have found along. A transform is
**checked alike**, `RuleTable.checksAlike`: it is rejected for the same cause, or left to the count
of its commutative expressions. The rules that come out of it **stand for** their transforms, so that
the checks of runs and of dispatch entries find their roots by number as well,
`RuleTable.StandsFor.foldlM_checkDispatchAt`.
-/

namespace Peephole

variable {α β : Type}

/-! ### Crashes and rejections -/

@[simp] theorem found_some (a : α) : found (some a) = .ok a := rfl

@[simp] theorem found_none : found (none : Option α) = .error .outOfRange := rfl

namespace Halt

@[simp] theorem guard_ok (a : α) : Halt.guard (.ok a) = .ok a := rfl

@[simp] theorem guard_error (e : Crash) :
    Halt.guard (.error e : Except Crash α) = .error (.crashed e) := rfl

@[simp] theorem checked_ok (a : α) : Halt.checked (.ok a) = .ok a := rfl

@[simp] theorem checked_error (e : TableError.Cause) :
    Halt.checked (.error e : RuleTable.Checked α) = .error (.rejected e) := rfl

@[simp] theorem checked_eq_ok {x : RuleTable.Checked α} {a : α} :
    Halt.checked x = .ok a ↔ x = .ok a := by
  cases x <;> simp

/-- A check never crashes. -/
@[simp] theorem checked_ne_crashed (x : RuleTable.Checked α) (crash : Crash) :
    Halt.checked x ≠ .error (.crashed crash) := by
  cases x <;> simp

/-- Checks in a row. -/
theorem checked_bind (x : RuleTable.Checked α) (k : α → RuleTable.Checked β) :
    Halt.checked (x >>= k) = (Halt.checked x >>= fun a => Halt.checked (k a)) := by
  cases x <;> rfl

/-- A list is checked by number as it is checked when each of its elements is. -/
theorem checked_mapM {as : List α} {check : α → RuleTable.Checked β}
    {checkAt : α → Except Halt β} (h : ∀ a ∈ as, checkAt a = Halt.checked (check a)) :
    as.mapM checkAt = Halt.checked (as.mapM check) := by
  induction as with
  | nil => rfl
  | cons a as ih =>
    rw [List.forall_mem_cons] at h
    simp only [List.mapM_cons, h.1, ih h.2, checked_bind]
    rfl

theorem checked_forM {as : List α} {check : α → RuleTable.Checked Unit}
    {checkAt : α → Except Halt Unit} (h : ∀ a ∈ as, checkAt a = Halt.checked (check a)) :
    as.forM checkAt = Halt.checked (as.forM check) := by
  induction as with
  | nil => rfl
  | cons a as ih =>
    rw [List.forall_mem_cons] at h
    change (checkAt a >>= fun _ => as.forM checkAt) =
      Halt.checked (check a >>= fun _ => as.forM check)
    rw [h.1, ih h.2, checked_bind]

end Halt

namespace RuleTable

variable {t : RuleTable}

/-! ### Transforms -/

/-- The root of a pattern is the one of its slot. -/
theorem root?_of_expr (h : t.checkSlots = .ok ()) {k : Nat} {e : ExpressionSlot} {p : Pattern}
    (hs : t.slots[k]? = some (.expr e)) (hp : (Pattern.ofTable t)[k]? = some p) :
    p.root? = some (e.op, e.width <|> e.op.fixedWidth) := by
  obtain ⟨guard, args, he, -⟩ := ofTable_of_expr h hs
  obtain rfl := Option.some.inj (hp.symm.trans he)
  rfl

/-- Only expressions have a root. -/
theorem root?_of_not_expr {k : Nat} {s : Slot} {p : Pattern} (hs : t.slots[k]? = some s)
    (hp : (Pattern.ofTable t)[k]? = some p) (he : ∀ e, s ≠ .expr e) : p.root? = none := by
  cases s with
  | var v =>
    obtain ⟨guard, hv⟩ := ofTable_of_var hs
    obtain rfl := Option.some.inj (hp.symm.trans hv)
    rfl
  | const c =>
    obtain rfl := Option.some.inj (hp.symm.trans (ofTable_of_const hs))
    rfl
  | expr e => exact absurd rfl (he e)

/-- The checks of a transform that look into its patterns, all but the count. -/
def checkPatterns (k : Nat) (search replace : Pattern) : Checked Unit := do
  match unbound? search replace with
  | some index => throw (.unboundVariable k index)
  | none => pure ()
  match replace.unsized? true with
  | some slot => throw (.unknownWidth k slot)
  | none => pure ()

/-- Whether a transform is **checked alike** by number: it is rejected for the same cause, or it is
left to the count of its commutative expressions, and by number to the count in a word. -/
inductive ChecksAlike (t : RuleTable) (c : Counting) (k : Nat) (x : Transform) : Prop
  | rejected (cause : TableError.Cause)
      (byNumber : t.checkTransformAt (t.survey c) k x = .error (.rejected cause))
      (check : t.checkTransform (Pattern.ofTable t) k x = .error cause)
  | counted {search replace e} (pattern : (Pattern.ofTable t)[x.search]? = some search)
      (slot : t.slots[x.search]? = some (.expr e))
      (byNumber : t.checkTransformAt (t.survey c) k x =
        (Halt.guard (c.keep search.commutativeCount) >>= fun count =>
          if maxCommutative < count then
            .error (.rejected (.tooManyCommutative k count maxCommutative))
          else .ok ⟨search, replace, x.condition, count⟩))
      (check : t.checkTransform (Pattern.ofTable t) k x =
        if maxCommutative < search.commutativeCount then
          .error (.tooManyCommutative k search.commutativeCount maxCommutative)
        else .ok ⟨search, replace, x.condition, search.commutativeCount⟩)

/-- Past its condition, a transform is checked alike. -/
theorem checksAlike_of_condition (h : t.checkSlots = .ok ()) (c : Counting) (k : Nat)
    {x : Transform} {e : ExpressionSlot} {search replace : Pattern}
    (hs : t.slots[x.search]? = some (.expr e))
    (hsearch : (Pattern.ofTable t)[x.search]? = some search)
    (hreplace : (Pattern.ofTable t)[x.replace]? = some replace) (hop : e.op.fixedWidth ≠ some 0)
    (hcondition : ∀ n, x.condition = some n → n < t.conditions.length) : t.ChecksAlike c k x := by
  obtain ⟨hslot, hget⟩ := Array.getElem?_eq_some_iff.mp hs
  have hr : x.replace < t.slots.size :=
    t.size_ofTable ▸ (Array.getElem?_eq_some_iff.mp hreplace).1
  have hroot := root?_of_expr h hs hsearch
  obtain ⟨bound, hbound, hboundBits⟩ := variables_of_ofTable h hsearch
  obtain ⟨used, hused, husedBits⟩ := variables_of_ofTable h hreplace
  have hlow := lowestBit?_eq_unbound? hboundBits husedBits
    fun i hi => (wellFormed_ofTable h hreplace).lt_of_mentions hi
  obtain ⟨find, hfind, hsized⟩ := unsizedSlots_of_ofTable h hreplace
  have hfound := hsized true
  have hat : t.resolveAt (t.survey c) k x =
      (Halt.checked (checkPatterns k search replace) >>= fun _ => .ok (search, replace)) := by
    cases hc : x.condition <;> cases hu : unbound? search replace <;>
      cases hz : replace.unsized? true <;>
      simp_all [resolveAt, survey, checkPatterns]
  have hcheck : t.checkTransform (Pattern.ofTable t) k x =
      (checkPatterns k search replace >>= fun _ =>
        if maxCommutative < search.commutativeCount then
          .error (.tooManyCommutative k search.commutativeCount maxCommutative)
        else .ok ⟨search, replace, x.condition, search.commutativeCount⟩) := by
    cases hc : x.condition <;> cases hu : unbound? search replace <;>
      cases hz : replace.unsized? true <;>
      simp_all [checkTransform, checkPatterns]
  cases hpatterns : checkPatterns k search replace with
  | error cause =>
    rw [hpatterns] at hat hcheck
    exact .rejected cause (by rw [checkTransformAt, hat]; rfl) hcheck
  | ok u =>
    rw [hpatterns] at hat hcheck
    refine .counted hsearch hs ?_ hcheck
    rw [checkTransformAt, hat]
    simp only [survey, counts_of_ofTable h c hsearch, Halt.checked_ok, ok_bind, found_some, id]
    rfl

/-- Transforms are checked alike. -/
theorem checksAlike (h : t.checkSlots = .ok ()) (c : Counting) (k : Nat) (x : Transform) :
    t.ChecksAlike c k x := by
  have hsize := t.size_ofTable
  by_cases hs : x.search < t.slots.size
  swap
  · have hp : (Pattern.ofTable t)[x.search]? = none := by simp; omega
    exact .rejected (.slotIndex k x.search) (by simp [checkTransformAt, resolveAt, hs])
      (by simp [checkTransform, hp])
  obtain ⟨search, hsearch⟩ : ∃ p, (Pattern.ofTable t)[x.search]? = some p :=
    ⟨_, Array.getElem?_eq_getElem (by omega)⟩
  by_cases hr : x.replace < t.slots.size
  swap
  · have hp : (Pattern.ofTable t)[x.replace]? = none := by simp; omega
    exact .rejected (.slotIndex k x.replace) (by simp [checkTransformAt, resolveAt, hs, hr])
      (by simp [checkTransform, hsearch, hp])
  obtain ⟨replace, hreplace⟩ : ∃ p, (Pattern.ofTable t)[x.replace]? = some p :=
    ⟨_, Array.getElem?_eq_getElem (by omega)⟩
  have hslot : t.slots[x.search]? = some t.slots[x.search] := Array.getElem?_eq_getElem hs
  cases hx : t.slots[x.search] with
  | var v =>
    have hroot := root?_of_not_expr (hx ▸ hslot) hsearch (by simp)
    exact .rejected (.searchRoot k x.search) (by simp [checkTransformAt, resolveAt, hs, hr, hx])
      (by simp [checkTransform, hsearch, hreplace, hroot])
  | const v =>
    have hroot := root?_of_not_expr (hx ▸ hslot) hsearch (by simp)
    exact .rejected (.searchRoot k x.search) (by simp [checkTransformAt, resolveAt, hs, hr, hx])
      (by simp [checkTransform, hsearch, hreplace, hroot])
  | expr e =>
  have hroot := root?_of_expr h (hx ▸ hslot) hsearch
  by_cases hop : e.op.fixedWidth = some 0
  · exact .rejected (.searchRoot k x.search)
      (by simp [checkTransformAt, resolveAt, hs, hr, hx, hop])
      (by simp [checkTransform, hsearch, hreplace, hroot, hop])
  by_cases hcondition : ∀ n, x.condition = some n → n < t.conditions.length
  · exact checksAlike_of_condition h c k (hx ▸ hslot) hsearch hreplace hop hcondition
  · push Not at hcondition
    obtain ⟨n, hn, hle⟩ := hcondition
    have hno : ¬ n < t.conditions.length := by omega
    exact .rejected (.condition k n)
      (by simp [checkTransformAt, resolveAt, hs, hr, hx, hop, hn, hno])
      (by simp [checkTransform, hsearch, hreplace, hroot, hop, hn, hno])

/-- The patterns of a table have counts that **fit** when a word can hold the number of commutative
expressions of every one that is searched for. -/
def CountsFit (t : RuleTable) : Prop :=
  ∀ x ∈ t.transforms, ∀ p, (Pattern.ofTable t)[x.search]? = some p →
    p.commutativeCount < twoPow countBits

/-- Where its count fits, a transform is checked by number as it is checked. -/
theorem checkTransformAt_eq (h : t.checkSlots = .ok ()) {c : Counting} (k : Nat) {x : Transform}
    (hx : c = .exact ∨ ∀ p, (Pattern.ofTable t)[x.search]? = some p →
      p.commutativeCount < twoPow countBits) :
    t.checkTransformAt (t.survey c) k x =
      Halt.checked (t.checkTransform (Pattern.ofTable t) k x) := by
  cases checksAlike h c k x with
  | rejected cause hat hcheck => rw [hat, hcheck, Halt.checked_error]
  | counted hp _ hat hcheck =>
    rw [hat, hcheck, Counting.keep_eq_ok (hx.imp_right fun hx => hx _ hp)]
    split <;> simp_all

/-- The check of a transform crashes only when its count does not fit. -/
theorem of_checkTransformAt_eq_crashed (h : t.checkSlots = .ok ()) {c : Counting} {k : Nat}
    {x : Transform} {crash : Crash}
    (hx : t.checkTransformAt (t.survey c) k x = .error (.crashed crash)) :
    c = .trapping ∧ crash = .sumOverflow ∧ ∃ p, (Pattern.ofTable t)[x.search]? = some p ∧
      twoPow countBits ≤ p.commutativeCount := by
  cases checksAlike h c k x with
  | rejected cause hat => cases hat.symm.trans hx
  | @counted search _ _ hp _ hat _ =>
    rw [hat] at hx
    cases hkeep : c.keep search.commutativeCount with
    | ok n =>
      rw [hkeep, Halt.guard_ok, ok_bind] at hx
      split at hx <;> cases hx
    | error e =>
      rw [hkeep] at hx
      cases hx
      obtain ⟨hc, he, hn⟩ := Counting.of_keep_eq_error hkeep
      exact ⟨hc, he, search, hp, hn⟩

/-- A transform that passes its check by number has passed its check, unless sums wrap. -/
theorem checkTransform_of_checkTransformAt (h : t.checkSlots = .ok ()) {c : Counting} {k : Nat}
    {x : Transform} {r : Rule} (hc : c ≠ .wrapping)
    (hx : t.checkTransformAt (t.survey c) k x = .ok r) :
    t.checkTransform (Pattern.ofTable t) k x = .ok r := by
  cases checksAlike h c k x with
  | rejected cause hat => cases hat.symm.trans hx
  | @counted search _ _ hp _ hat hcheck =>
    rw [hat] at hx
    cases hkeep : c.keep search.commutativeCount with
    | error e =>
      rw [hkeep] at hx
      cases hx
    | ok n =>
      obtain rfl := Counting.eq_of_keep_eq_ok hkeep hc
      rw [hkeep, Halt.guard_ok, ok_bind] at hx
      rw [hcheck]
      split at hx
      · cases hx
      · next hn => rw [if_neg hn, Except.ok.inj hx]

/-! ### Roots and runs -/

/-- Rules **stand for** the transforms of a table when each searches for what its transform searches
for, an expression. -/
def StandsFor (t : RuleTable) (rules : Array Rule) : Prop :=
  ∀ (k : Nat) x, t.transforms[k]? = some x → ∃ r e guard args, rules[k]? = some r ∧
    t.slots[x.search]? = some (.expr e) ∧ r.search = .expr x.search e guard args

/-- The rules of transforms that pass their checks stand for them. -/
theorem standsFor_of_mapM (h : t.checkSlots = .ok ()) {c : Counting} {rules : List Rule}
    (hrules : t.transforms.toList.zipIdx.mapM
      (fun (x, k) => t.checkTransformAt (t.survey c) k x) = .ok rules) :
    t.StandsFor rules.toArray := by
  intro k x hx
  have hzip : t.transforms.toList.zipIdx[k]? = some (x, k) := by
    rw [List.getElem?_zipIdx, Array.getElem?_toList, hx]
    simp
  obtain ⟨r, hr, hcheck⟩ := getElem?_of_mapM_eq_ok hrules hzip
  cases checksAlike h c k x with
  | rejected cause hat => cases hat.symm.trans hcheck
  | @counted search replace e hp hs hat _ =>
    obtain ⟨n, -, hn⟩ := bind_eq_ok.mp (hat.symm.trans hcheck)
    split at hn
    · cases hn
    · cases hn
      obtain ⟨guard, args, hexpr, -⟩ := ofTable_of_expr h hs
      exact ⟨_, e, guard, args, by simpa using hr, hs, Option.some.inj (hp.symm.trans hexpr)⟩

variable {rules : Array Rule}

theorem StandsFor.rootAt (h : t.StandsFor rules) {k : Nat} (hk : k < t.transforms.size) :
    ∃ root, t.rootAt k = .ok root ∧ rules[k]?.bind (·.search.root?) = some root := by
  obtain ⟨r, e, guard, args, hr, hs, hsearch⟩ := h k _ (Array.getElem?_eq_getElem hk)
  refine ⟨(e.op, e.width <|> e.op.fixedWidth), ?_, ?_⟩
  · simp [RuleTable.rootAt, hk, hs]
  · rw [hr, Option.bind_some, hsearch, Pattern.root?]

theorem StandsFor.checkRoutedAt (h : t.StandsFor rules) {k : Nat} (hk : k < t.transforms.size)
    (key : Operation) : t.checkRoutedAt key k = Halt.checked (checkRouted rules key k) := by
  obtain ⟨⟨root, w⟩, hat, hroot⟩ := h.rootAt hk
  simp only [RuleTable.checkRoutedAt, checkRouted, hat, hroot, Halt.guard_ok, ok_bind]
  split <;> rfl

theorem StandsFor.checkWidthRoutedAt (h : t.StandsFor rules) {k : Nat}
    (hk : k < t.transforms.size) (key : Operation) (c : WidthClass) :
    t.checkWidthRoutedAt key c k = Halt.checked (checkWidthRouted rules key c k) := by
  obtain ⟨⟨root, w⟩, hat, hroot⟩ := h.rootAt hk
  simp only [RuleTable.checkWidthRoutedAt, checkWidthRouted, hat, hroot, Halt.guard_ok, ok_bind]
  cases w with
  | none => rfl
  | some expected => by_cases hw : expected = c.bits <;> simp [hw]

/-- The transforms of a run exist when the runs have passed their check. -/
theorem lt_of_mem_indices (h : t.checkRuns = .ok ()) {state k : Nat} {run : Run}
    (hrun : t.runs[state]? = some run) (hk : k ∈ run.indices) : k < t.transforms.size := by
  unfold checkRuns at h
  split at h
  swap
  · cases h
  have hcheck := forM_eq_ok.mp h (run, state)
    (List.mem_zipIdx_iff_getElem?.mpr (by simpa using hrun))
  have hstop : run.stop ≤ t.transforms.size := by
    by_contra hlt
    simp [Nat.lt_of_not_le hlt] at hcheck
  obtain ⟨-, hlt⟩ := List.mem_range'_1.mp hk
  exact Nat.lt_of_lt_of_le hlt hstop

end RuleTable

/-! ### Entries by position -/

namespace Operation

/-- Every key has its own place. -/
theorem getElem?_index (key : Operation) :
    (Opcode.all.map single ++ Family.all.map family)[key.index]? = some key := by
  cases key with
  | single op => cases op <;> rfl
  | family f => cases f <;> rfl

theorem index_lt (key : Operation) : key.index < keyCount := by
  have h := (List.getElem?_eq_some_iff.mp key.getElem?_index).1
  simpa [keyCount] using h

theorem index_inj {key key' : Operation} : key.index = key'.index ↔ key = key' := by
  refine ⟨fun h => ?_, fun h => h ▸ rfl⟩
  have hkey := key.getElem?_index
  rw [h, key'.getElem?_index] at hkey
  exact (Option.some.inj hkey).symm

end Operation

namespace RuleTable

/-- Places **hold** some dispatch entries when the entry of every key is in its place. -/
structure Entries.Holds (entries : Entries) (ds : List Dispatch) : Prop where
  size : entries.size = Operation.keyCount
  entry : ∀ key : Operation, entries[key.index]? = some (ds.find? (·.key = key))

namespace Entries

variable {entries : Entries} {ds : List Dispatch} {d : Dispatch}

theorem holds_empty : empty.Holds [] where
  size := Array.size_replicate
  entry key := by simp [empty, key.index_lt]

theorem Holds.put (h : entries.Holds ds) (hd : ds.find? (·.key = d.key) = none) :
    (entries.put d).Holds (ds ++ [d]) where
  size := by simp [Entries.put, h.size]
  entry key := by
    have hlt : d.key.index < entries.size := h.size ▸ d.key.index_lt
    rw [Entries.put, Array.getElem?_setIfInBounds, List.find?_append]
    by_cases hkey : d.key = key
    · subst hkey
      simp [hlt, hd]
    · have hindex : d.key.index ≠ key.index := fun hi => hkey (Operation.index_inj.mp hi)
      rw [if_neg hindex, h.entry key]
      simp [hkey]

end Entries

/-- Whether some keys are those of some dispatch entries. -/
def AreKeysOf (keys : List Operation) (ds : List Dispatch) : Prop :=
  ∀ key, key ∈ keys ↔ ∃ d ∈ ds, d.key = key

theorem AreKeysOf.nil : AreKeysOf [] [] := by simp [AreKeysOf]

theorem AreKeysOf.cons {keys : List Operation} {ds : List Dispatch} (h : AreKeysOf keys ds)
    (d : Dispatch) : AreKeysOf (d.key :: keys) (ds ++ [d]) := by
  intro key
  rw [List.mem_cons, h key]
  simp only [List.mem_append, List.mem_singleton, or_and_right, exists_or, exists_eq_left]
  exact or_comm.trans (or_congr_right eq_comm)

/-! ### Dispatch -/

variable {t : RuleTable} {rules : Array Rule}

/-- What the check of a dispatch entry asks of a state. -/
def checkState (t : RuleTable) (rules : Array Rule) (key : Operation) (state : Nat) :
    Checked Unit := do
  unless state < t.runs.size do throw (.stateIndex key state)
  (t.run state).indices.forM (checkRouted rules key)

theorem checkDispatch_eq (t : RuleTable) (rules : Array Rule) (seen : List Operation)
    (d : Dispatch) :
    t.checkDispatch rules seen d = (do
      if seen.contains d.key then throw (.duplicateKey d.key)
      checkFilter d
      d.states.forM (t.checkState rules d.key)
      match d.filter with
      | some filter =>
        WidthClass.all.forM fun c =>
          (t.runAt d (filter.get c.index)).indices.forM (checkWidthRouted rules d.key c)
      | none => pure ()) :=
  rfl

/-- The states of a dispatch entry that has passed its checks exist. -/
theorem lt_of_checkState {key : Operation} {state : Nat}
    (h : t.checkState rules key state = .ok ()) : state < t.runs.size := by
  by_contra hlt
  simp [checkState, hlt] at h

/-- A state is checked by number as it is checked. -/
theorem StandsFor.checkStateAt (h : t.StandsFor rules) (hruns : t.checkRuns = .ok ())
    (key : Operation) (state : Nat) :
    t.checkStateAt key state = Halt.checked (t.checkState rules key state) := by
  by_cases hstate : state < t.runs.size
  · have hrun := Array.getElem?_eq_getElem hstate
    rw [RuleTable.checkStateAt, checkState, if_pos hstate, run, hrun]
    exact Halt.checked_forM fun k hk => h.checkRoutedAt (lt_of_mem_indices hruns hrun hk) key
  · rw [RuleTable.checkStateAt, checkState, if_neg hstate,
      Array.getElem?_eq_none (Nat.le_of_not_lt hstate)]
    rfl

/-- The compact indices of a filter that has passed its check have states. -/
theorem lt_of_checkFilter {d : Dispatch} {filter : Vector Nat 5} (h : checkFilter d = .ok ())
    (hfilter : d.filter = some filter) (k : Fin 5) : filter.get k < d.states.length := by
  unfold checkFilter at h
  rw [hfilter] at h
  cases hfind : filter.toList.find? (d.states.length ≤ ·) with
  | some index => simp [hfind] at h
  | none =>
    have hmem : filter.get k ∈ filter.toList := by
      rw [Vector.mem_toList_iff]
      exact Vector.getElem_mem k.isLt
    simpa using List.find?_eq_none.mp hfind _ hmem

/-- A width class is checked by number as it is checked. -/
theorem StandsFor.checkClassAt (h : t.StandsFor rules) (hruns : t.checkRuns = .ok ())
    {d : Dispatch} {filter : Vector Nat 5} (hfilter : d.filter = some filter)
    (hcheck : checkFilter d = .ok ()) (hstates : ∀ state ∈ d.states, state < t.runs.size)
    (c : WidthClass) :
    t.checkClassAt d filter c = Halt.checked
      ((t.runAt d (filter.get c.index)).indices.forM (checkWidthRouted rules d.key c)) := by
  have hcompact := lt_of_checkFilter hcheck hfilter c.index
  have hstate := List.getElem?_eq_getElem hcompact
  have hrun := Array.getElem?_eq_getElem (hstates _ (List.getElem_mem hcompact))
  simp only [RuleTable.checkClassAt, hstate, hrun, found_some, Halt.guard_ok, ok_bind, runAt, run,
    Option.elim_some, Option.getD_some]
  exact Halt.checked_forM fun k hk => h.checkWidthRoutedAt (lt_of_mem_indices hruns hrun hk) d.key c

/-- A dispatch entry is checked by number as it is checked, and put in its place. -/
theorem StandsFor.checkDispatchAt (h : t.StandsFor rules) (hruns : t.checkRuns = .ok ())
    {entries : Entries} {ds : List Dispatch} (hentries : entries.Holds ds)
    {seen : List Operation} (hseen : AreKeysOf seen ds) (d : Dispatch) :
    t.checkDispatchAt entries d =
      (Halt.checked (t.checkDispatch rules seen d) >>= fun _ => .ok (entries.put d)) := by
  have hstates : d.states.forM (t.checkStateAt d.key) =
      Halt.checked (d.states.forM (t.checkState rules d.key)) :=
    Halt.checked_forM fun state _ => h.checkStateAt hruns d.key state
  rw [checkDispatch_eq, RuleTable.checkDispatchAt, hentries.entry d.key, hstates]
  cases hfind : ds.find? (·.key = d.key) with
  | some other =>
    have hmem : d.key ∈ seen := (hseen d.key).mpr
      ⟨other, List.mem_of_find?_eq_some hfind, by simpa using List.find?_some hfind⟩
    simp [hmem]
  | none =>
  have hmem : d.key ∉ seen := by
    rintro hmem
    obtain ⟨other, hother, hkey⟩ := (hseen d.key).mp hmem
    simpa [hkey] using List.find?_eq_none.mp hfind other hother
  cases hcheck : checkFilter d with
  | error e => simp [hmem]
  | ok u =>
  cases hok : d.states.forM (t.checkState rules d.key) with
  | error e => simp [hmem]
  | ok v =>
  cases hfilter : d.filter with
  | none => simp [hmem]
  | some filter =>
    have hclasses : WidthClass.all.forM (t.checkClassAt d filter) =
        Halt.checked (WidthClass.all.forM fun c =>
          (t.runAt d (filter.get c.index)).indices.forM (checkWidthRouted rules d.key c)) :=
      Halt.checked_forM fun c _ => h.checkClassAt hruns hfilter hcheck
        (fun state hstate => lt_of_checkState (forM_eq_ok.mp hok state hstate)) c
    simp [hmem, hclasses]

/-- A dispatch entry that has passed its checks has a key of its own. -/
theorem find?_eq_none_of_checkDispatch {before : List Dispatch} {seen : List Operation}
    (hseen : AreKeysOf seen before) {d : Dispatch}
    (h : t.checkDispatch rules seen d = .ok ()) : before.find? (·.key = d.key) = none := by
  refine List.find?_eq_none.mpr fun other hother hkey => ?_
  have hmem : d.key ∈ seen := (hseen d.key).mpr ⟨other, hother, by simpa using hkey⟩
  simp [checkDispatch_eq, hmem] at h

/-- Dispatch entries are checked by number as they are checked, and put in their places. -/
theorem StandsFor.foldlM_checkDispatchAt (h : t.StandsFor rules) (hruns : t.checkRuns = .ok ())
    {entries : Entries} {before : List Dispatch} (hentries : entries.Holds before)
    {seen : List Operation} (hseen : AreKeysOf seen before) (ds : List Dispatch) :
    ds.foldlM t.checkDispatchAt entries =
      (Halt.checked (t.checkDispatches rules seen ds) >>= fun _ =>
        .ok (ds.foldl .put entries)) := by
  induction ds generalizing entries before seen with
  | nil => rfl
  | cons d ds ih =>
    rw [List.foldlM_cons, h.checkDispatchAt hruns hentries hseen, checkDispatches]
    cases hcheck : t.checkDispatch rules seen d with
    | error e => rfl
    | ok u =>
      have hnew : before.find? (·.key = d.key) = none := find?_eq_none_of_checkDispatch hseen hcheck
      simp only [Halt.checked_ok, ok_bind]
      exact ih (hentries.put hnew) (hseen.cons d)

end RuleTable

end Peephole

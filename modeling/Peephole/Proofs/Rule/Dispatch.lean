import Peephole.Proofs.Rule.Term
import Mathlib.Algebra.GroupWithZero.Nat

/-!
# Dispatch of written rules

A table that is laid out from a list of rules leaves none of them out: every rule is among the
candidates of the operations and of the width that its search pattern matches,
`RuleSet.exists_candidate`. On the way, the rule is followed through its state, the run of the
state, and the dispatch entry of its key.
-/

namespace Peephole

namespace RuleTable

/-! ### Runs -/

/-- A run begins where the runs before it end. -/
theorem getElem?_consecutive {ns : List Nat} {offset m n : Nat} (h : ns[m]? = some n) :
    (consecutive offset ns)[m]? = some ⟨offset + (ns.take m).sum, n⟩ := by
  induction ns generalizing offset m with
  | nil => simp at h
  | cons k ns ih =>
    rw [consecutive]
    obtain _ | m := m
    · simpa using h
    · rw [List.getElem?_cons_succ] at h ⊢
      rw [ih h, List.take_succ_cons, List.sum_cons, Nat.add_assoc]

/-- An entry of a list of lists stands behind all entries of the lists before. -/
theorem getElem?_flatten {α : Type} {groups : List (List α)} {group : List α} {m k : Nat} {a : α}
    (hm : groups[m]? = some group) (hk : group[k]? = some a) :
    groups.flatten[((groups.map List.length).take m).sum + k]? = some a := by
  obtain ⟨hlt, rfl⟩ := List.getElem?_eq_some_iff.mp hm
  have hsplit : groups.flatten =
      (groups.take m).flatten ++ (groups[m] ++ (groups.drop (m + 1)).flatten) := by
    rw [← List.flatten_cons, List.getElem_cons_drop hlt, ← List.flatten_append,
      List.take_append_drop]
  have hlen : ((groups.map List.length).take m).sum = (groups.take m).flatten.length := by
    rw [← List.map_take, List.length_flatten]
  rw [hsplit, hlen, List.getElem?_append_right (Nat.le_add_right _ _), Nat.add_sub_cancel_left,
    List.getElem?_append_left (List.getElem?_eq_some_iff.mp hk).1, hk]

/-- The transforms of a state. -/
def groupOf (transforms : List (Option (Operation × Nat) × Transform))
    (s : Option (Operation × Nat)) : List Transform :=
  (transforms.filter (·.1 == s)).map (·.2)

/-- The states of a list of rules, in the order in which they are numbered. -/
def statesOf (rules : List TermRule) : List (Option (Operation × Nat)) :=
  ((internRules [] rules).1.map (·.1)).eraseDups

variable {name : String} {rules : List TermRule} {s : Option (Operation × Nat)} {x : Transform}

theorem mem_statesOf (h : (s, x) ∈ (internRules [] rules).1) : s ∈ statesOf rules :=
  List.mem_eraseDups.mpr (List.mem_map.mpr ⟨(s, x), h, rfl⟩)

/-- The run of a state holds the transforms of the state. -/
theorem exists_mem_run (h : (s, x) ∈ (internRules [] rules).1) :
    ∃ k ∈ ((ofRules name rules).run ((statesOf rules).idxOf s + 1)).indices,
      (ofRules name rules).transforms[k]? = some x := by
  let groups := (statesOf rules).map (groupOf (internRules [] rules).1)
  let m := (statesOf rules).idxOf s
  have hgroup : groups[m]? = some (groupOf (internRules [] rules).1 s) := by
    rw [List.getElem?_map, List.getElem?_idxOf (mem_statesOf h), Option.map_some]
  obtain ⟨n, hn⟩ : ∃ n, (groupOf (internRules [] rules).1 s)[n]? = some x :=
    List.mem_iff_getElem?.mp
      (List.mem_map.mpr ⟨(s, x), List.mem_filter.mpr ⟨h, beq_self_eq_true s⟩, rfl⟩)
  have hlength : (groups.map List.length)[m]? =
      some (groupOf (internRules [] rules).1 s).length := by
    rw [List.getElem?_map, hgroup, Option.map_some]
  have hrun : (ofRules name rules).runs[m + 1]? =
      some ⟨0 + ((groups.map List.length).take m).sum,
        (groupOf (internRules [] rules).1 s).length⟩ := by
    have hruns : (ofRules name rules).runs =
        (.empty :: consecutive 0 (groups.map List.length)).toArray := rfl
    rw [hruns, List.getElem?_toArray, List.getElem?_cons_succ, getElem?_consecutive hlength]
  have htransforms : (ofRules name rules).transforms = groups.flatten.toArray := rfl
  refine ⟨((groups.map List.length).take m).sum + n, ?_, ?_⟩
  · have hlt := (List.getElem?_eq_some_iff.mp hn).1
    rw [run, hrun, Option.getD_some, Run.indices, List.mem_range'_1]
    dsimp only
    omega
  · rw [htransforms, List.getElem?_toArray]
    exact getElem?_flatten hgroup hn

/-! ### Dispatch entries -/

/-- The filter of a dispatch entry has one place for each width class. -/
theorem get_map_all {α : Type} (value : WidthClass → α) (c : WidthClass) :
    ((Vector.ofFn fun k => WidthClass.all[k]).map value).get c.index = value c := by
  have hget (k : Fin 5) : ((Vector.ofFn fun k => WidthClass.all[k]).map value).get k =
      value WidthClass.all[k] := by
    show ((Vector.ofFn fun k => WidthClass.all[k]).map value)[k.val] = _
    simp
  rw [hget]
  cases c <;> rfl

/-- A dispatch entry leads a width with a state to that state. -/
theorem runAt_dispatchOf (t : RuleTable) {states : List (Option (Operation × Nat))}
    {key : Operation} {c : WidthClass} (h : some (key, c.bits) ∈ states) :
    ∃ filter, (dispatchOf states key).filter = some filter ∧
      t.runAt (dispatchOf states key) (filter.get c.index) =
        t.run (states.idxOf (some (key, c.bits)) + 1) := by
  let classes := WidthClass.all.filter fun c => states.contains (some (key, c.bits))
  have hmem : c ∈ classes := by
    refine List.mem_filter.mpr ⟨by cases c <;> decide, ?_⟩
    simpa using h
  have hstate : (dispatchOf states key).states[classes.idxOf c + 1]? =
      some (states.idxOf (some (key, c.bits)) + 1) := by
    have hstates : (dispatchOf states key).states =
        0 :: classes.map fun c => states.idxOf (some (key, c.bits)) + 1 := rfl
    rw [hstates, List.getElem?_cons_succ, List.getElem?_map, List.getElem?_idxOf hmem,
      Option.map_some]
  refine ⟨_, rfl, ?_⟩
  have hget := get_map_all (fun c => if classes.contains c then classes.idxOf c + 1 else 0) c
  rw [if_pos (by simpa using hmem)] at hget
  rw [runAt, hget, hstate]
  rfl

end RuleTable

namespace RuleSet

variable {name : String} {rules : List TermRule} {rs : RuleSet}

/-- The candidates of an operation and a width that have a state are those of the state. -/
theorem candidates_eq (h : rs.table = .ofRules name rules) {op : Opcode} {w : Nat}
    (hw : supported w) (hs : some (.ofOpcode op, w) ∈ RuleTable.statesOf rules) :
    rs.candidates op w =
      rs.table.run ((RuleTable.statesOf rules).idxOf (some (.ofOpcode op, w)) + 1) := by
  obtain ⟨c, hc⟩ := Option.isSome_iff_exists.mp hw
  obtain rfl := WidthClass.bits_of_ofBits? hc
  have hdispatch : rs.table.dispatch =
      (((RuleTable.statesOf rules).filterMap fun s => s.map (·.1)).eraseDups).map
        (RuleTable.dispatchOf (RuleTable.statesOf rules)) := by
    rw [h]
    rfl
  have hmem : RuleTable.dispatchOf (RuleTable.statesOf rules) (.ofOpcode op) ∈
      rs.table.dispatch := by
    rw [hdispatch]
    refine List.mem_map_of_mem (List.mem_eraseDups.mpr (List.mem_filterMap.mpr ⟨_, hs, rfl⟩))
  have hfind : rs.table.dispatch.find? (·.key = .ofOpcode op) =
      some (RuleTable.dispatchOf (RuleTable.statesOf rules) (.ofOpcode op)) := by
    have hsome : (rs.table.dispatch.find? (·.key = .ofOpcode op)).isSome :=
      List.find?_isSome.mpr ⟨_, hmem, decide_eq_true rfl⟩
    obtain ⟨d, hd⟩ := Option.isSome_iff_exists.mp hsome
    have hkey := List.find?_some hd
    rw [decide_eq_true_iff] at hkey
    have hd' := List.mem_of_find?_eq_some hd
    rw [hdispatch] at hd'
    obtain ⟨key, -, rfl⟩ := List.mem_map.mp hd'
    obtain rfl : key = .ofOpcode op := hkey
    exact hd
  obtain ⟨filter, hfilter, hrun⟩ := rs.table.runAt_dispatchOf hs
  rw [candidates, hfind, hc]
  dsimp only
  rw [hfilter]
  exact hrun

/-- A written rule is among the candidates of the operations and the width that it matches. -/
theorem exists_candidate (hload : load (.ofRules name rules) = .ok rs) {x : TermRule}
    (hx : x ∈ rules) {op : Opcode} {w : Nat} (hs : x.search.state? = some (.ofOpcode op, w))
    (hw : supported w) : ∃ k ∈ (rs.candidates op w).indices, ∃ r, rs.rules[k]? = some r ∧
      r.condition = none ∧ x.search.Denotes r.search := by
  obtain ⟨htable, -⟩ := check_of_load hload
  obtain ⟨⟨s, y⟩, hy, hlays⟩ := exists_of_forall₂ (forall₂_lays hload).flip hx
  obtain ⟨k, hk, htransform⟩ :
      ∃ k ∈ ((RuleTable.ofRules name rules).run
          ((RuleTable.statesOf rules).idxOf s + 1)).indices,
        (RuleTable.ofRules name rules).transforms[k]? = some y := RuleTable.exists_mem_run hy
  have hstate : s = some (.ofOpcode op, w) := hlays.state.trans hs
  rw [hstate] at hy hk
  refine ⟨k, ?_, ?_⟩
  · rwa [candidates_eq htable hw (RuleTable.mem_statesOf hy), htable]
  · obtain ⟨r, hr, hsearch, -, hcond⟩ := exists_rule_of_load hload htransform
    obtain ⟨p, hp, hdenotes⟩ := hlays.search
    rw [hsearch] at hp
    cases hp
    exact ⟨r, hr, hcond.trans hlays.condition, hdenotes⟩

end RuleSet

end Peephole

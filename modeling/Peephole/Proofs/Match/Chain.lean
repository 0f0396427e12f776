import Peephole.Proofs.Match
import Peephole.Proofs.Rule.Term

/-!
# Matches of chains

Patterns of one source, and of one source of a source, have no order of sources to search for: they
match exactly if the instructions are there and the variable accepts the value at the end,
`Term.Denotes.matchInst_iff_one` and `Term.Denotes.matchInst_iff_two`.
-/

namespace Peephole

open Func

/-- Whether a value is the result of an operation of a width on one other value. -/
def Func.Yields (f : Func) (x : ValueId) (op : Opcode) (w : Nat) (y : ValueId) : Prop :=
  ∃ i d, f.definer? x = some i ∧ f.inst? i = some d ∧ d.opcode = op ∧ d.width = w ∧
    d.operands = [y]

/-- The result of an instruction is the result of an operation if that is what the instruction
does. -/
theorem Func.Coherent.yields_iff {f : Func} (hf : f.Coherent) {i : InstId} {d : Inst}
    {x y : ValueId} (hd : f.inst? i = some d) (hx : f.result? i = some x) {op : Opcode} {w : Nat} :
    f.Yields x op w y ↔ d.opcode = op ∧ d.width = w ∧ d.operands = [y] := by
  have hdef : f.definer? x = some i := hf.definer?_eq_some.mpr hx
  constructor
  · rintro ⟨j, d', hj, hd', h⟩
    obtain rfl := Option.some.inj (hdef.symm.trans hj)
    obtain rfl := Option.some.inj (hd.symm.trans hd')
    exact h
  · intro h
    exact ⟨i, d, hdef, hd, h⟩

namespace Pattern

variable {f : Func} {swaps : Nat} {x : ValueId}

/-- Without commutative expressions there is one walk to try. -/
theorem search_zero (f : Func) (p : Pattern) (x : ValueId) (b : Bindings) :
    p.search f 0 x b = (p.walk f 0 x ⟨0, b⟩).map (·.bindings) := by
  have hone : twoPow 0 = 1 := rfl
  rw [search, hone, firstMask]
  cases p.walk f 0 x ⟨0, b⟩ <;> rfl

/-- A free variable is bound to a value that it accepts. -/
theorem walk_var_iff {v : VariableSlot} {n : Nat} {s : Walk} :
    (var v none).walk f swaps x ⟨n, .empty⟩ = some s ↔
      v.accepts none f x ∧ s = ⟨n, Bindings.empty.set v.index x⟩ := by
  rw [walk]
  simp only [Bindings.empty]
  cases v.accepts none f x <;> simp [eq_comm]

/-- An operation on one source matches what it yields from something that the source matches. -/
theorem walk_unary_iff {slot w : Nat} {op : Opcode} {children : List Nat} {q : Pattern}
    {s s' : Walk} :
    (expr slot ⟨.single op, some w, children, false, false, false, none⟩ none [q]).walk f swaps x s
        = some s' ↔ ∃ y, f.Yields x op w y ∧ q.walk f swaps y s = some s' := by
  rw [walk]
  cases hdef : f.definer? x with
  | none => simp [Yields, hdef]
  | some i =>
  cases hd : f.inst? i with
  | none => simp [Yields, hdef, hd]
  | some d =>
    have hyields (y : ValueId) :
        f.Yields x op w y ↔ d.opcode = op ∧ d.width = w ∧ d.operands = [y] := by
      simp [Yields, hdef, hd]
    have haccepts : (ExpressionSlot.accepts ⟨.single op, some w, children, false, false, false,
        none⟩ none f i d) = true ↔ d.opcode = op ∧ d.width = w := by
      have h : ExpressionSlot.accepts ⟨.single op, some w, children, false, false, false, none⟩
          none f i d = (op == d.opcode && w == d.width) := by
        simp [ExpressionSlot.accepts, Operation.covers]
      rw [h, Bool.and_eq_true, beq_iff_eq, beq_iff_eq]
      exact and_congr eq_comm eq_comm
    simp only [hd, Option.bind_some, Option.map_some, hyields]
    by_cases h : d.opcode = op ∧ d.width = w
    · have hiff (y : ValueId) : (d.opcode = op ∧ d.width = w ∧ d.operands = [y]) ↔
          d.operands = [y] := ⟨fun h' => h'.2.2, fun h' => ⟨h.1, h.2, h'⟩⟩
      rw [haccepts.mpr h, Bool.not_true, if_neg Bool.false_ne_true, if_neg Bool.false_ne_true]
      simp only [hiff]
      rcases d.operands with _ | ⟨y, _ | ⟨z, zs⟩⟩
      · simp [walkAll]
      · cases q.walk f swaps y s <;> simp [walkAll]
      · cases q.walk f swaps y s <;> simp [walkAll]
    · rw [Bool.eq_false_iff.mpr (mt haccepts.mp h)]
      simp only [Bool.not_false, if_true, reduceCtorEq, false_iff, not_exists]
      rintro y ⟨⟨hop, hw, -⟩, -⟩
      exact h ⟨hop, hw⟩

end Pattern

namespace Term.Denotes

variable {f : Func} {P : Array Pattern} {r : Rule} {i : InstId} {b : Bindings} {v : VariableSlot}
  {op op' : Opcode} {w n : Nat}

/-- The matches of an operation on a variable. -/
theorem matchInst_iff_one (hr : r.Admitted P) (h : (Term.op op w [.var v]).Denotes r.search) :
    r.matchInst f i = some b ↔ ∃ x u, f.result? i = some x ∧ f.Yields x op w u ∧
      v.accepts none f u ∧ b = Bindings.empty.set v.index u := by
  obtain ⟨_, _, q, hq, hsearch⟩ := h.eq_op
  obtain rfl := hq.eq_var
  have hcount : r.commutative = 0 := by
    rw [hr.commutative, hsearch]
    rfl
  simp only [Rule.matchInst, hcount, Pattern.search_zero, Option.bind_eq_some_iff,
    Option.map_eq_some_iff, hsearch, Pattern.walk_unary_iff, Pattern.walk_var_iff]
  constructor
  · rintro ⟨x, hx, s, ⟨u, hu, haccepts, rfl⟩, rfl⟩
    exact ⟨x, u, hx, hu, haccepts, rfl⟩
  · rintro ⟨x, u, hx, hu, haccepts, rfl⟩
    exact ⟨x, hx, _, ⟨u, hu, haccepts, rfl⟩, rfl⟩

/-- The matches of an operation on an operation on a variable. -/
theorem matchInst_iff_two (hr : r.Admitted P)
    (h : (Term.op op w [.op op' n [.var v]]).Denotes r.search) :
    r.matchInst f i = some b ↔ ∃ x y u, f.result? i = some x ∧ f.Yields x op w y ∧
      f.Yields y op' n u ∧ v.accepts none f u ∧ b = Bindings.empty.set v.index u := by
  obtain ⟨_, _, q, hq, hsearch⟩ := h.eq_op
  obtain ⟨_, _, q', hq', rfl⟩ := hq.eq_op
  obtain rfl := hq'.eq_var
  have hcount : r.commutative = 0 := by
    rw [hr.commutative, hsearch]
    rfl
  simp only [Rule.matchInst, hcount, Pattern.search_zero, Option.bind_eq_some_iff,
    Option.map_eq_some_iff, hsearch, Pattern.walk_unary_iff, Pattern.walk_var_iff]
  constructor
  · rintro ⟨x, hx, s, ⟨y, hy, u, hu, haccepts, rfl⟩, rfl⟩
    exact ⟨x, y, u, hx, hy, hu, haccepts, rfl⟩
  · rintro ⟨x, y, u, hx, hy, hu, haccepts, rfl⟩
    exact ⟨x, hx, _, ⟨y, hy, u, hu, haccepts, rfl⟩, rfl⟩

end Term.Denotes

end Peephole

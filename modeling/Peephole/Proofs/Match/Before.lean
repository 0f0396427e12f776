import Peephole.Proofs.Func.Replace
import Peephole.Proofs.Match

/-!
# Matches do not look ahead

A match looks at the value that it starts from and at what that value is computed from, all of
which comes before the instruction that it is about. So two functions that are the **same before**
an instruction have the same matches there, `Rule.matchInst_congr`. Only predicates may look at
anything else, which is why the pattern has to be **bare**.

Building leaves the function the same before the instruction that is replaced, `Extends.sameBefore`,
and so does redirecting the uses of its result and erasing what is dead,
`Settled.sameBefore_of_erases`: nothing before an instruction uses its result.
-/

namespace Peephole

namespace Func

/-- Whether two functions are the **same before** an instruction of the first one: they agree on the
values that the instruction may use and on the instructions that come before it, their blocks
aside. -/
structure SameBefore (f : Func) (c : InstId) (g : Func) : Prop where
  value? : ∀ {v}, f.Available c v → g.value? v = f.value? v
  inst? : ∀ {j d}, f.Precedes j c → f.inst? j = some d →
    ∃ b, g.inst? j = some { d with block := b }

variable {f g : Func} {gone : List InstId} {c : InstId}

theorem Extends.sameBefore (hf : f.Coherent) (e : f.Extends g) : f.SameBefore c g where
  value? hv := by
    obtain ⟨d, hd⟩ := Option.isSome_iff_exists.mp (hf.known_of_available hv)
    rw [e.value? hd, hd]
  inst? {j d} _ hd := ⟨d.block, e.inst? hd⟩

/-- What comes before an instruction does not use its result, so that it stays the same when the
result is replaced. -/
theorem Settled.sameBefore_of_erases (hf : f.Settled gone) {result x : ValueId}
    {is : List InstId} (hres : f.result? c = some result) (hx : f.Available c x)
    (e : Erases (f.replaceAllUses result x) is g) : f.SameBefore c g where
  value? hv := by rw [e.value?, value?_replaceAllUses]
  inst? {j d} hj hd := by
    have hne : result ≠ x := (hf.coherent.ne_of_available hres hx).symm
    have hoperands : (f.replaceAllUses result x).operands j = d.operands := by
      have hd' : f.operands j = d.operands := by rw [operands, hd]; rfl
      rw [hf.operands_replaceAllUses hj.mem_left, hd']
      refine List.map_congr_left (fun v hv => ?_) |>.trans (List.map_id _)
      have hav := hf.coherent.available_of_precedes (hf.defined j hj.mem_left v (hd' ▸ hv)) hj
      exact if_neg (hf.coherent.ne_of_available hres hav)
    rw [operands, inst?_replaceAllUses f hne, hd] at hoperands
    have hredirect : redirect (f.uses result) x j d = d := by
      have h : (redirect (f.uses result) x j d).operands = d.operands := hoperands
      calc redirect (f.uses result) x j d
          = { d with operands := (redirect (f.uses result) x j d).operands } := rfl
        _ = d := by rw [h]
    rw [e.inst?, inst?_replaceAllUses f hne, hd, Option.map_some, Option.map_some, hredirect]
    by_cases hji : j ∈ is
    · exact ⟨none, by rw [if_pos hji]⟩
    · exact ⟨d.block, by rw [if_neg hji]⟩

namespace SameBefore

variable (e : f.SameBefore c g) {x : ValueId} (hx : f.Available c x)
include e hx

theorem width : g.width x = f.width x := by
  rw [Func.width, Func.width, e.value? hx]

theorem literal? : g.literal? x = f.literal? x := by
  unfold Func.literal?
  rw [e.value? hx]

theorem definer? : g.definer? x = f.definer? x := by
  unfold Func.definer?
  rw [e.value? hx]

theorem typeClass? (hf : f.Coherent) : g.typeClass? x = f.typeClass? x := by
  unfold Func.typeClass?
  rw [e.value? hx]
  split
  · rfl
  · next i hi =>
    have hdef : f.definer? x = some i := by rw [Func.definer?, hi]
    obtain ⟨d, hd, -⟩ := Option.bind_eq_some_iff.mp (hf.definer?_eq_some.mp hdef)
    obtain ⟨b, hb⟩ := e.inst? (hf.definer_precedes hx hdef) hd
    rw [hd, hb]
    rfl
  · rfl

theorem accepts (hf : f.Coherent) (v : VariableSlot) :
    v.accepts none g x = v.accepts none f x := by
  unfold VariableSlot.accepts
  rw [e.width hx, isLiteral, isLiteral, e.literal? hx, e.typeClass? hx hf]
  rfl

end SameBefore

end Func

open Func

namespace Pattern

/-! ### Bare patterns -/

mutual

/-- Whether a pattern is **bare**: it has no predicates. -/
def isBare : Pattern → Bool
  | var _ guard => guard.isNone
  | const .. => true
  | expr _ _ guard args => guard.isNone && areBare args

/-- Whether patterns are bare. -/
def areBare : List Pattern → Bool
  | [] => true
  | p :: ps => isBare p && areBare ps

end

/-! ### Walks -/

variable {f g : Func} {c : InstId}

mutual

/-- A walk through a bare pattern looks at nothing but what comes before. -/
theorem walk_congr (hf : f.Coherent) (hd : f.Defined) (e : f.SameBefore c g) (swaps : Nat) :
    ∀ (p : Pattern) (x : ValueId) (w : Walk), p.isBare → f.Available c x →
      p.walk g swaps x w = p.walk f swaps x w
  | .var v guard, x, w, hbare, hx => by
    obtain rfl : guard = none := by simpa [isBare] using hbare
    rw [walk, walk, e.accepts hx hf]
  | .const _ k, x, w, _, hx => by rw [walk, walk, e.literal? hx]
  | .expr _ k guard args, x, w, hbare, hx => by
    simp only [isBare, Bool.and_eq_true, Option.isNone_iff_eq_none] at hbare
    obtain ⟨rfl, hargs⟩ := hbare
    rw [walk, walk, e.definer? hx]
    cases hdef : f.definer? x with
    | none => rfl
    | some j =>
      have hj := hf.definer_precedes hx hdef
      obtain ⟨d, hinst, -⟩ := Option.bind_eq_some_iff.mp (hf.definer?_eq_some.mp hdef)
      obtain ⟨b, hinst'⟩ := e.inst? hj hinst
      have hav (v : ValueId) (hv : v ∈ d.operands) : f.Available c v :=
        hf.available_of_precedes (hd j hj.mem_left v (by rw [operands, hinst]; exact hv)) hj
      have hwalk (xs : List ValueId) (w : Walk) (hxs : ∀ v ∈ xs, v ∈ d.operands) :
          walkAll g swaps args xs w = walkAll f swaps args xs w :=
        walkAll_congr hf hd e swaps args xs w hargs fun v hv => hav v (hxs v hv)
      simp only [Option.bind_some, hinst, hinst', Option.map_some]
      rw [show k.accepts none g j { d with block := b } = k.accepts none f j d from rfl]
      rw [hwalk _ _ fun v hv => hv]
      refine if_congr Iff.rfl rfl (if_congr Iff.rfl (hwalk _ _ fun v hv => ?_) rfl)
      split at hv
      · exact List.mem_reverse.mp hv
      · exact hv

theorem walkAll_congr (hf : f.Coherent) (hd : f.Defined) (e : f.SameBefore c g) (swaps : Nat) :
    ∀ (ps : List Pattern) (xs : List ValueId) (w : Walk), areBare ps →
      (∀ x ∈ xs, f.Available c x) → walkAll g swaps ps xs w = walkAll f swaps ps xs w
  | [], [], _, _, _ => by rw [walkAll, walkAll]
  | [], _ :: _, _, _, _ => by rw [walkAll, walkAll] <;> simp
  | _ :: _, [], _, _, _ => by rw [walkAll, walkAll] <;> simp
  | p :: ps, x :: xs, w, hbare, hxs => by
    rw [areBare, Bool.and_eq_true] at hbare
    rw [List.forall_mem_cons] at hxs
    rw [walkAll, walkAll, walk_congr hf hd e swaps p x w hbare.1 hxs.1]
    exact congrArg _ (funext fun w => walkAll_congr hf hd e swaps ps xs w hbare.2 hxs.2)

end

end Pattern

/-- Functions that are the same before an instruction have the same matches on what comes before
it. -/
theorem Rule.matchInst_congr {f g : Func} {c i : InstId} {r : Rule} (hf : f.Coherent)
    (hd : f.Defined) (e : f.SameBefore c g) (hbare : r.search.isBare) (hi : f.Precedes i c) :
    r.matchInst g i = r.matchInst f i := by
  obtain ⟨d, hinst⟩ := Option.isSome_iff_exists.mp (hf.exists_of_mem_layout hi.mem_left)
  obtain ⟨b, hinst'⟩ := e.inst? hi hinst
  have hres : g.result? i = f.result? i := by rw [result?, result?, hinst, hinst']; rfl
  rw [matchInst, matchInst, hres]
  cases hx : f.result? i with
  | none => rfl
  | some x =>
    have hav : f.Available c x := .inr (.inr ⟨i, hx, hi⟩)
    simp only [Option.bind_some, Pattern.search, Pattern.walk_congr hf hd e _ _ x _ hbare hav]

end Peephole

import Peephole.Proofs.Build.Realized

/-!
# What is built is used

Sources are built for the sake of the expression around them: when the instruction of an expression
is added, the results of its sources are operands of it, and when an expression is folded, its
sources are literals, which nothing has been added for. Expressions that are found among those built
before add nothing either. So whatever is built is used, but for the value of the whole replacement:
`employs_of_value`.
-/

namespace Peephole

namespace Func

/-- Whether the result of every instruction that one function has more than another one is an
operand of an attached instruction, or else one of some values. -/
def Employs (f g : Func) (xs : List ValueId) : Prop :=
  ∀ j ∈ g.layout, f.inst? j = none → ∀ v, g.result? j = some v →
    v ∈ xs ∨ ∃ k ∈ g.layout, v ∈ g.operands k

variable {f g h : Func} {xs ys : List ValueId}

/-- Operands stay operands. -/
theorem Extends.mem_operands (e : f.Extends g) {k : InstId} {v : ValueId} (hv : v ∈ f.operands k) :
    v ∈ g.operands k := by
  cases hk : f.inst? k with
  | none =>
    rw [operands, hk] at hv
    cases hv
  | some d => rwa [operands, e.inst? hk, ← hk]

theorem Employs.of_layout (hf : f.Coherent) (hl : g.layout = f.layout) : f.Employs g xs := by
  intro j hj hnone
  have := hf.exists_of_mem_layout (hl ▸ hj)
  simp [hnone] at this

/-- What is built after the rest, with the values that are still to be used. -/
theorem Employs.trans (e : g.Extends h) (hfg : f.Employs g xs) (hgh : g.Employs h ys) :
    f.Employs h (xs ++ ys) := by
  intro j hj hnone v hv
  cases hgj : g.inst? j with
  | none => exact (hgh j hj hgj v hv).imp_left (List.mem_append_right xs)
  | some d =>
    have hjg : j ∈ g.layout := by
      rw [e.layout, List.mem_filter]
      exact ⟨hj, by rw [hgj]; rfl⟩
    have hvg : g.result? j = some v := by
      rwa [result?, hgj, ← e.inst? hgj]
    obtain hv | ⟨k, hk, hvk⟩ := hfg j hjg hnone v hvg
    · exact .inl (List.mem_append_left ys hv)
    · exact .inr ⟨k, e.sublist.subset hk, e.mem_operands hvk⟩

end Func

open Func

namespace Build

variable {P : Array Pattern} {site : Site} {gone : List InstId}

/-- An expression uses the values of its sources, unless they are literals. -/
theorem employs_of_emit {s t u : State} {w : Nat} {op : Opcode} {exact : Bool} {xs : List ValueId}
    {x : ValueId} (ht : t.func.Settled gone) (hext : t.func.Extends u.func)
    (h : t.emit site op w exact xs = .ok (x, u)) (hxs : s.func.Employs t.func xs) :
    s.func.Employs u.func [x] := by
  intro j hj hnone v hv
  have hemit := emit_eq_ok h
  cases htj : t.func.inst? j with
  | some d =>
    have hjt : j ∈ t.func.layout := by
      rw [hext.layout, List.mem_filter]
      exact ⟨hj, by rw [htj]; rfl⟩
    have hvt : t.func.result? j = some v := by rwa [result?, htj, ← hext.inst? htj]
    obtain hmem | ⟨k, hk, hvk⟩ := hxs j hjt hnone v hvt
    · obtain ⟨-, ⟨ls, _, hls, -, -⟩ | ⟨i, _, _, hcreate, hexact, hinsert, -⟩⟩ := hemit
      · -- the sources are literals, and no literal is a result
        have hliteral : t.func.literal? v ∈ ls.map some := hls ▸ List.mem_map_of_mem hmem
        obtain ⟨l, -, hl⟩ := List.mem_map.mp hliteral
        have hdefiner := definer?_of_literal? hl.symm
        rw [ht.coherent.definer?_eq_some.mpr hvt] at hdefiner
        cases hdefiner
      · have em := emits_of_eq_ok hcreate hexact hinsert
        exact .inr ⟨i, em.precedes.mem_left, by rwa [em.operands, if_pos rfl]⟩
    · exact .inr ⟨k, hext.sublist.subset hk, hext.mem_operands hvk⟩
  | none =>
    have hnot : j ∉ t.func.layout := fun hjt => by
      have := ht.coherent.exists_of_mem_layout hjt
      simp [htj] at this
    obtain ⟨-, ⟨_, _, -, -, hlit⟩ | ⟨i, _, _, hcreate, hexact, hinsert, hres⟩⟩ := hemit
    · exact (hnot ((ht.literal hlit).2.2.1 ▸ hj)).elim
    · have em := emits_of_eq_ok hcreate hexact hinsert
      obtain rfl : j = i := by
        by_contra hji
        exact hnot (em.mem_layout hj hji)
      exact .inl (List.mem_singleton.mpr (Option.some.inj (hv.symm.trans hres)))

mutual

/-- Whatever is built for a pattern is used, but for the value of the pattern. -/
theorem employs_of_value :
    ∀ (p : Pattern) (expected : Option Nat) (s s' : State) (x : ValueId), p.WellFormed P →
      Sound P site gone s → value site p expected s = .ok (x, s') → s.func.Employs s'.func [x]
  | .var v guard, expected, s, s', x, _, hs, h => by
    rw [value] at h
    split at h
    · cases h
      exact .of_layout hs.settled.coherent rfl
    · cases h
  | .const slot k, expected, s, s', x, _, hs, h => by
    rw [value] at h
    split at h
    · cases h
    · obtain ⟨bits, -, h⟩ := bind_eq_ok.mp h
      obtain ⟨⟨y, g⟩, hlit, h⟩ := bind_eq_ok.mp h
      cases h
      exact .of_layout hs.settled.coherent (hs.settled.literal hlit).2.2.1
  | .expr slot e guard args, expected, s, s', x, hp, hs, h => by
    cases hp with
    | expr _ _ _ hargs =>
    obtain ⟨w, hw, ⟨-, rfl⟩ | ⟨-, op, xs, t, u, hop, hvalues, hemit, rfl⟩⟩ :=
      value_expr_eq_ok h
    · exact .of_layout hs.settled.coherent rfl
    · obtain ⟨ht, -, hsources, hknown, hav⟩ :=
        realizedAll_of_values args w op.info.sourceWidths none s t xs hargs hs hvalues
      obtain ⟨-, hext, -⟩ := ht.emit slot guard hop hsources hknown hav hemit
      have hemployed : s.func.Employs u.func [x] := employs_of_emit ht.settled hext hemit
        (employs_of_values args w op.info.sourceWidths none s t xs hargs hs hvalues)
      exact hemployed

theorem employs_of_values :
    ∀ (ps : List Pattern) (w : Nat) (sws : List SourceWidth) (paired : Option Nat) (s s' : State)
      (xs : List ValueId), (∀ p ∈ ps, p.WellFormed P) → Sound P site gone s →
      values site w ps sws paired s = .ok (xs, s') → s.func.Employs s'.func xs
  | [], w, sws, paired, s, s', xs, _, hs, h => by
    simp only [values] at h
    cases h
    exact .of_layout hs.settled.coherent rfl
  | p :: ps, w, [], paired, s, s', xs, _, hs, h => by
    simp only [values] at h
    cases h
    exact .of_layout hs.settled.coherent rfl
  | p :: ps, w, sw :: sws, paired, s, s', xs, hps, hs, h => by
    rw [List.forall_mem_cons] at hps
    obtain ⟨x, t, next, ys, hvalue, -, hvalues, rfl⟩ := values_cons_eq_ok h
    obtain ⟨ht, -, -⟩ := realized_of_value p _ s t x hps.1 hs hvalue
    obtain ⟨-, hext, -⟩ := realizedAll_of_values ps w sws next t s' ys hps.2 ht hvalues
    exact (employs_of_value p _ s t x hps.1 hs hvalue).trans hext
      (employs_of_values ps w sws next t s' ys hps.2 ht hvalues)

end

end Build

end Peephole

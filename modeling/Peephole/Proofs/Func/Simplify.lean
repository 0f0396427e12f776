import Peephole.Proofs.Func.Replace
import Peephole.Proofs.Func.Valuation

/-!
# Functions with fewer instructions

A function **simplifies** another one when it lacks some instructions with results, and names other
values as operands. This is what becomes of a function when uses are redirected and dead
instructions erased, `Settled.simplifies`; and a function simplifies whatever extends it.

A model of a function models what simplifies it, if it is **blind** to the renaming: no result and
nothing that is stored tells operands from what they are renamed to. Then the same literals are
stored: `Simplifies.models` and `Simplifies.observed`.
-/

namespace Peephole

namespace Func

/-- A function **simplifies** another one, under a renaming of operands, when it has the
instructions of the other one but for some with results. -/
structure Simplifies (f : Func) (σ : ValueId → ValueId) (g : Func) : Prop where
  params : g.params = f.params
  value? : ∀ {v d}, g.value? v = some d → f.value? v = some d
  layout : ∃ keep : InstId → Bool, g.layout = f.layout.filter keep ∧
    ∀ i ∈ f.layout, keep i = false → (f.result? i).isSome
  inst? : ∀ {i d}, i ∈ g.layout → g.inst? i = some d →
    ∃ e, f.inst? i = some e ∧ d.opcode = e.opcode ∧ d.width = e.width ∧ d.result = e.result ∧
      d.operands = e.operands.map σ

variable {f g : Func} {gone : List InstId} {σ : ValueId → ValueId} {args : List Word}
  {ρ : Valuation}

/-- Whether a valuation is **blind** to a renaming: instructions have the same results on what their
operands are renamed to, and store the same. -/
structure Blind (f : Func) (σ : ValueId → ValueId) (ρ : Valuation) : Prop where
  result : ∀ {i d}, i ∈ f.layout → f.inst? i = some d → d.result.isSome →
    evaluate d.opcode d.width ((d.operands.map σ).map ρ) =
      evaluate d.opcode d.width (d.operands.map ρ)
  stored : ∀ {i d}, i ∈ f.layout → f.inst? i = some d → d.result = none →
    (d.operands.map σ).map ρ = d.operands.map ρ

/-- A valuation is blind to a renaming of values to values with the same literal. -/
theorem blind_of_eq (hσ : ∀ v, ρ (σ v) = ρ v) : f.Blind σ ρ where
  result _ _ _ := by simp only [List.map_map, Function.comp_def, hσ]
  stored _ _ _ := by simp only [List.map_map, Function.comp_def, hσ]

namespace Simplifies

theorem mem_layout (e : f.Simplifies σ g) {i : InstId} (hi : i ∈ g.layout) : i ∈ f.layout := by
  obtain ⟨keep, hl, -⟩ := e.layout
  rw [hl] at hi
  exact (List.mem_filter.mp hi).1

theorem width (e : f.Simplifies σ g) {v : ValueId} (hv : (g.value? v).isSome) :
    g.width v = f.width v := by
  obtain ⟨d, hd⟩ := Option.isSome_iff_exists.mp hv
  rw [Func.width, Func.width, hd, e.value? hd]

theorem literal? (e : f.Simplifies σ g) {v : ValueId} {l : Literal}
    (h : g.literal? v = some l) : f.literal? v = some l := by
  unfold Func.literal? at h ⊢
  split at h
  · next hv => rw [e.value? hv]; exact h
  · cases h

/-- A model that is blind to the renaming remains one. -/
theorem models (e : f.Simplifies σ g) (hg : g.Coherent) (hσ : f.Blind σ ρ)
    (h : f.Models args f.layout ρ) : g.Models args g.layout ρ where
  literal hl := h.literal (e.literal? hl)
  param {k v bits} hv hb := by
    obtain ⟨_, _, hvalue⟩ := hg.parameter.mp hv
    rw [h.param (e.params ▸ hv) hb, e.width (by rw [hvalue]; rfl)]
  result {i d v} hi hd hr := by
    obtain ⟨d', hd', hop, hw, hres, hoperands⟩ := e.inst? hi hd
    obtain ⟨bits, hbits, hρ⟩ := h.result (e.mem_layout hi) hd' (hres ▸ hr)
    refine ⟨bits, ?_, by rw [hρ, hw]⟩
    rw [hop, hw, hoperands, hσ.result (e.mem_layout hi) hd' (by rw [← hres, hr]; rfl), hbits]

/-- What a function lacks has not stored anything. -/
theorem observed (e : f.Simplifies σ g) (hg : g.Coherent) (hσ : f.Blind σ ρ) :
    g.observed ρ = f.observed ρ := by
  obtain ⟨keep, hl, hlost⟩ := e.layout
  have hstored {i : InstId} (hi : i ∈ g.layout) : g.storedBy ρ i = f.storedBy ρ i := by
    obtain ⟨d, hd⟩ := Option.isSome_iff_exists.mp (hg.exists_of_mem_layout hi)
    obtain ⟨d', hd', -, -, hres, hoperands⟩ := e.inst? hi hd
    simp only [storedBy, result?, Func.operands, hd, hd', Option.bind_some, Option.elim_some, hres,
      hoperands]
    split
    · next hnone => exact hσ.stored (e.mem_layout hi) hd' (Option.isNone_iff_eq_none.mp hnone)
    · rfl
  -- what is lost has a result, so that it stores nothing
  have hfilter (is : List InstId) (his : ∀ i ∈ is, i ∈ f.layout) :
      (is.filter keep).flatMap (f.storedBy ρ) = is.flatMap (f.storedBy ρ) := by
    induction is with
    | nil => rfl
    | cons i is ih =>
      rw [List.forall_mem_cons] at his
      rw [List.flatMap_cons, ← ih his.2]
      cases hk : keep i with
      | true => rw [List.filter_cons_of_pos hk, List.flatMap_cons]
      | false =>
        have hsome := hlost i his.1 hk
        rw [List.filter_cons_of_neg (by simp [hk]), storedBy, if_neg, List.nil_append]
        simpa [Option.isSome_iff_ne_none] using hsome
  have hcongr : g.layout.flatMap (g.storedBy ρ) = g.layout.flatMap (f.storedBy ρ) :=
    List.flatMap_congr fun i hi => hstored hi
  rw [Func.observed, Func.observed, hcongr, hl]
  exact hfilter f.layout fun i hi => hi

/-- Instructions still accept the widths of their operands if renaming keeps widths. -/
theorem fitting (e : f.Simplifies σ g) (hg : g.Coherent) (hσ : ∀ v, f.width (σ v) = f.width v)
    (h : f.Fitting) : g.Fitting := by
  intro i hi d hd
  obtain ⟨d', hd', hop, hw, -, hoperands⟩ := e.inst? hi hd
  have hwidths : d.operands.map g.width = d'.operands.map f.width := by
    have : d.operands.map g.width = d.operands.map f.width :=
      List.map_congr_left fun v hv => e.width (hg.known hd hv)
    rw [this, hoperands, List.map_map]
    simp only [Function.comp_def, hσ]
  rw [hop, hw, hwidths]
  exact h i (e.mem_layout hi) d' hd'

/-- Functions of which one simplifies the other store the same. -/
theorem stores_eq {gone' : List InstId} (e : f.Simplifies σ g) (hf : f.Settled gone)
    (hg : g.Settled gone') (hargs : args.length = f.params.length) (hσ : f.Blind σ ρ)
    (h : f.Models args f.layout ρ) :
    f.stores args = some (f.observed ρ) ∧ g.stores args = some (f.observed ρ) := by
  refine ⟨hf.stores_eq hargs h, ?_⟩
  rw [hg.stores_eq (hargs.trans (by rw [e.params])) (e.models hg.coherent hσ h),
    e.observed hg.coherent hσ]

end Simplifies

/-! ### What simplifies a function -/

/-- A function simplifies what extends it. -/
theorem Extends.simplifies (e : f.Extends g) : g.Simplifies id f where
  params := e.params.symm
  value? := e.value?
  layout := by
    refine ⟨fun i => (f.inst? i).isSome, e.layout, fun i hi hnone => e.fresh i hi ?_⟩
    simpa using hnone
  inst? _ hd := ⟨_, e.inst? hd, rfl, rfl, rfl, (List.map_id _).symm⟩

/-- The renaming of one value to another one. -/
def rename (old new v : ValueId) : ValueId := if v = old then new else v

/-- Redirecting uses and erasing simplifies a function. -/
theorem Settled.simplifies {old new : ValueId} {is : List InstId} (hf : f.Settled gone)
    (hnew : (f.value? new).isSome) (e : Erases (f.replaceAllUses old new) is g) :
    f.Simplifies (rename old new) g where
  params := by rw [e.params, (frame_replaceAllUses f old new).2.1]
  value? hv := by rwa [e.value?, value?_replaceAllUses] at hv
  layout := by
    refine ⟨fun i => decide (i ∉ is), ?_, fun i _ hi => ?_⟩
    · rw [(hf.coherent.replaceAllUses hnew).layout_erases e, layout_replaceAllUses]
    · rw [← result?_replaceAllUses f old new]
      exact e.result_isSome (by simpa using hi)
  inst? {i d} hi hd := by
    have hi : i ∈ f.layout := by
      rw [(hf.coherent.replaceAllUses hnew).layout_erases e, layout_replaceAllUses] at hi
      exact (List.mem_filter.mp hi).1
    have hoperands : d.operands = (f.operands i).map (rename old new) := by
      have h : (f.replaceAllUses old new).operands i = (f.operands i).map (rename old new) :=
        hf.operands_replaceAllUses hi
      rwa [← e.operands, operands, hd] at h
    rw [e.inst?] at hd
    obtain ⟨d', hd', rfl⟩ := Option.map_eq_some_iff.mp hd
    have hkept : ∃ d, f.inst? i = some d ∧ d'.opcode = d.opcode ∧ d'.width = d.width ∧
        d'.result = d.result := by
      by_cases hne : old = new
      · rw [Func.replaceAllUses, if_pos hne] at hd'
        exact ⟨d', hd', rfl, rfl, rfl⟩
      · rw [inst?_replaceAllUses f hne] at hd'
        obtain ⟨d, hfd, rfl⟩ := Option.map_eq_some_iff.mp hd'
        exact ⟨d, hfd, rfl, rfl, rfl⟩
    obtain ⟨d, hd, hop, hw, hr⟩ := hkept
    rw [operands, hd] at hoperands
    refine ⟨d, hd, ?_, ?_, ?_, hoperands⟩
    · rw [← hop]
      split <;> rfl
    · rw [← hw]
      split <;> rfl
    · rw [← hr]
      split <;> rfl

end Func

end Peephole

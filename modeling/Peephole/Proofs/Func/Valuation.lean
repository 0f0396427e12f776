import Peephole.Func.Execute
import Peephole.Proofs.Func.Fitting
import Mathlib.Data.List.Induction

/-!
# Valuations

A **valuation** gives every value a literal. It **models** instructions when literals stand for
themselves, parameters for their arguments, and results for what the instructions come to on it. A
valid function has a model for every list of arguments, `Settled.exists_models`, and executing the
function computes it, `Settled.execute_eq`: the literals that are stored can be read off the model,
`observed`.
-/

namespace Peephole

/-- Whether a literal has no bits above its width. -/
def Literal.IsMasked (l : Literal) : Prop := l.bits &&& mask l.width = l.bits

@[simp] theorem Literal.isMasked_of (bits : Word) (w : Nat) : (Literal.of bits w).IsMasked := by
  simp [IsMasked, of, BitVec.and_assoc]

/-- A literal for every value. -/
abbrev Valuation := ValueId → Literal

namespace Func

/-- Whether a valuation gives literals, parameters and the results of some instructions what they
stand for. -/
structure Models (f : Func) (args : List Word) (is : List InstId) (ρ : Valuation) : Prop where
  literal : ∀ {v l}, f.literal? v = some l → ρ v = l
  param : ∀ {k : Nat} {v bits}, f.params[k]? = some v → args[k]? = some bits →
    ρ v = .of bits (f.width v)
  result : ∀ {i d v}, i ∈ is → f.inst? i = some d → d.result = some v →
    ∃ bits, evaluate d.opcode d.width (d.operands.map ρ) = .ok (some bits) ∧ ρ v = .of bits d.width

/-- The literals that an instruction stores under a valuation. -/
def storedBy (f : Func) (ρ : Valuation) (i : InstId) : List Literal :=
  if (f.result? i).isNone then (f.operands i).map ρ else []

/-- The literals that a function stores under a valuation, in order. -/
def observed (f : Func) (ρ : Valuation) : List Literal := f.layout.flatMap (f.storedBy ρ)

/-- Whether a value is a literal, a parameter or the result of one of some instructions. -/
def Determined (f : Func) (is : List InstId) (v : ValueId) : Prop :=
  f.isLiteral v ∨ v ∈ f.params ∨ ∃ j ∈ is, f.result? j = some v

variable {f : Func} {gone : List InstId} {args : List Word} {ρ : Valuation}

/-- What an instruction may use is determined by the instructions before it. -/
theorem Coherent.available_iff_determined (hf : f.Coherent) {front back : List InstId} {i : InstId}
    (h : f.layout = front ++ i :: back) {v : ValueId} :
    f.Available i v ↔ f.Determined front v := by
  simp only [Available, Determined, hf.precedes_iff h]
  refine or_congr_right (or_congr_right (exists_congr fun j => ?_))
  exact and_comm

/-- An instruction determines its result. -/
theorem determined_append_singleton {is : List InstId} {i : InstId} {v : ValueId} :
    f.Determined (is ++ [i]) v ↔ f.Determined is v ∨ f.result? i = some v := by
  simp only [Determined, List.mem_append, List.mem_singleton, or_and_right, exists_or,
    exists_eq_left, or_assoc]

theorem Available.determined {i : InstId} {v : ValueId} (h : f.Available i v) :
    f.Determined f.layout v := by
  obtain h | h | ⟨j, hj, hji⟩ := h
  · exact .inl h
  · exact .inr (.inl h)
  · exact .inr (.inr ⟨j, hji.mem_left, hj⟩)

/-- What holds of no instructions, and of an instruction after those before it, holds of every part
of the layout from the start. -/
theorem layout_induction {motive : List InstId → Prop} (nil : motive [])
    (step : ∀ front i back, f.layout = front ++ i :: back → motive front → motive (front ++ [i]))
    {front back : List InstId} (hl : f.layout = front ++ back) : motive front := by
  induction front using List.reverseRecOn generalizing back with
  | nil => exact nil
  | append_singleton front i ih =>
    have hl : f.layout = front ++ i :: back := by simpa using hl
    exact step front i back hl (ih hl)

theorem Models.mono {is js : List InstId} (h : f.Models args is ρ) (hsub : ∀ i ∈ js, i ∈ is) :
    f.Models args js ρ :=
  ⟨h.literal, h.param, fun hj => h.result (hsub _ hj)⟩

/-! ### What a model says of literals -/

/-- The literal of what is determined has the width of the value. -/
theorem Models.width {is : List InstId} (h : f.Models args is ρ) (hf : f.Coherent)
    (hargs : args.length = f.params.length) {v : ValueId} (hv : f.Determined is v) :
    (ρ v).width = f.width v := by
  obtain hv | hv | ⟨i, hi, hv⟩ := hv
  · obtain ⟨l, hl⟩ := Option.isSome_iff_exists.mp hv
    rw [h.literal hl, width_of_literal? hl]
  · obtain ⟨k, hk⟩ := List.mem_iff_getElem?.mp hv
    obtain ⟨hlt, -⟩ := List.getElem?_eq_some_iff.mp hk
    rw [h.param hk (List.getElem?_eq_getElem (hargs ▸ hlt))]
    rfl
  · obtain ⟨d, hd, hr⟩ := Option.bind_eq_some_iff.mp hv
    obtain ⟨bits, -, hρ⟩ := h.result hi hd hr
    rw [hρ, Func.width, hf.produced hd hr]
    rfl

/-- What is determined has a masked literal. -/
theorem Models.isMasked {is : List InstId} (h : f.Models args is ρ)
    (hargs : args.length = f.params.length) {v : ValueId} (hv : f.Determined is v) :
    (ρ v).IsMasked := by
  obtain hv | hv | ⟨i, hi, hv⟩ := hv
  · obtain ⟨l, hl⟩ := Option.isSome_iff_exists.mp hv
    rw [h.literal hl]
    unfold literal? at hl
    split at hl
    · cases hl
      exact Literal.isMasked_of _ _
    · cases hl
  · obtain ⟨k, hk⟩ := List.mem_iff_getElem?.mp hv
    obtain ⟨hlt, -⟩ := List.getElem?_eq_some_iff.mp hk
    rw [h.param hk (List.getElem?_eq_getElem (hargs ▸ hlt))]
    exact Literal.isMasked_of _ _
  · obtain ⟨d, hd, hr⟩ := Option.bind_eq_some_iff.mp hv
    obtain ⟨bits, -, hρ⟩ := h.result hi hd hr
    rw [hρ]
    exact Literal.isMasked_of _ _

/-! ### Entering a function -/

/-- Looking up in pairs of keys and values finds the value at the position of the key. -/
theorem lookup_zip {vs : List ValueId} {bs : List Word} {k : Nat} {v : ValueId} {bits : Word}
    (hn : vs.Nodup) (hv : vs[k]? = some v) (hb : bs[k]? = some bits) :
    (vs.zip bs).lookup v = some bits := by
  induction vs generalizing bs k with
  | nil => cases hv
  | cons u vs ih =>
    rw [List.nodup_cons] at hn
    cases bs with
    | nil => cases hb
    | cons b bs =>
      cases k with
      | zero =>
        obtain rfl : u = v := by simpa using hv
        obtain rfl : b = bits := by simpa using hb
        simp
      | succ k =>
        have hv : vs[k]? = some v := by simpa using hv
        have hne : v ≠ u := fun h => hn.1 (h ▸ List.mem_of_getElem? hv)
        rw [List.zip_cons_cons, List.lookup_cons, beq_false_of_ne hne]
        exact ih hn.2 hv (by simpa using hb)

theorem Coherent.nodup_params (hf : f.Coherent) : f.params.Nodup := by
  refine List.nodup_iff_getElem?_ne_getElem?.mpr fun j k hjk hk heq => ?_
  have hv := List.getElem?_eq_getElem hk
  obtain ⟨_, _, h⟩ := hf.parameter.mp hv
  obtain ⟨_, _, h'⟩ := hf.parameter.mp (heq.trans hv)
  rw [h] at h'
  cases h'
  exact Nat.lt_irrefl _ hjk

/-- Entering a function gives every parameter its argument. -/
theorem Coherent.env_enter (hf : f.Coherent) {k : Nat} {v : ValueId} {bits : Word}
    (hv : f.params[k]? = some v) (hbits : args[k]? = some bits) :
    (f.enter args).env v = some (.of bits (f.width v)) := by
  simp [enter, lookup_zip hf.nodup_params hv hbits]

theorem Coherent.literal?_of_param (hf : f.Coherent) {k : Nat} {v : ValueId}
    (hv : f.params[k]? = some v) : f.literal? v = none := by
  obtain ⟨_, _, h⟩ := hf.parameter.mp hv
  rw [literal?, h]

theorem Coherent.literal?_of_result (hf : f.Coherent) {i : InstId} {v : ValueId}
    (hv : f.result? i = some v) : f.literal? v = none := by
  obtain ⟨d, hd, hr⟩ := Option.bind_eq_some_iff.mp hv
  rw [literal?, hf.produced hd hr]

/-- Before anything is executed, literals and parameters have the literals that they stand for. -/
theorem Coherent.models_enter (hf : f.Coherent) (args : List Word) :
    f.Models args [] fun v => (f.literalIn? (f.enter args).env v).getD (.of 0 0) where
  literal hl := by simp [literalIn?, hl]
  param hv hbits := by
    simp [literalIn?, hf.literal?_of_param hv, hf.env_enter hv hbits]
  result hi := by cases hi

/-! ### Existence -/

/-- The result of an attached instruction is no operand of an instruction before it, nor of
itself. -/
theorem Settled.notMem_operands (hf : f.Settled gone) {front back : List InstId} {i j : InstId}
    {v : ValueId} (hl : f.layout = front ++ i :: back) (hv : f.result? i = some v)
    (hj : j ∈ front ∨ j = i) : v ∉ f.operands j := by
  intro hmem
  have hmem' : j ∈ f.layout := by
    rw [hl]
    obtain hj | rfl := hj
    · exact List.mem_append_left _ hj
    · simp
  have hij := hf.coherent.definer_precedes (hf.defined j hmem' v hmem)
    (hf.coherent.definer?_eq_some.mpr hv)
  obtain hj | rfl := hj
  · exact hf.coherent.not_precedes_self i
      (hf.coherent.precedes_trans hij ((hf.coherent.precedes_iff hl).mpr hj))
  · exact hf.coherent.not_precedes_self j hij

/-- The next instruction has a value on what a model of the instructions before it says, if it
accepts the widths of its operands. -/
theorem Settled.exists_evaluate (hf : f.Settled gone) (hargs : args.length = f.params.length)
    {front back : List InstId} {i : InstId} (hl : f.layout = front ++ i :: back)
    (h : f.Models args front ρ) {d : Inst} (hd : f.inst? i = some d) (hr : d.opcode.hasResult)
    (hfits : d.opcode.fits d.width (d.operands.map f.width)) :
    ∃ bits, evaluate d.opcode d.width (d.operands.map ρ) = .ok (some bits) := by
  have hi : i ∈ f.layout := by simp [hl]
  have hlen : (d.operands.map ρ).length = d.opcode.arity := by
    rw [List.length_map, hf.coherent.length_operands hd]
  have hwidths : (d.operands.map ρ).map (·.width) = d.operands.map f.width := by
    rw [List.map_map]
    refine List.map_congr_left fun x hx => h.width hf.coherent hargs ?_
    rw [← hf.coherent.available_iff_determined hl]
    exact hf.defined i hi x (by rwa [operands, hd])
  exact evaluate_ok_of_fits hr hlen (hwidths ▸ hfits)

/-- Whether every instruction has a value on what a model of the instructions before it says. -/
def Evaluates (f : Func) (args : List Word) : Prop :=
  ∀ front i back ρ d, f.layout = front ++ i :: back → f.Models args front ρ →
    f.inst? i = some d → d.opcode.hasResult →
    ∃ bits, evaluate d.opcode d.width (d.operands.map ρ) = .ok (some bits)

theorem Settled.evaluates (hf : f.Settled gone) (hfit : f.Fitting)
    (hargs : args.length = f.params.length) : f.Evaluates args :=
  fun front i back _ d hl h hd hr =>
    hf.exists_evaluate hargs hl h hd hr (hfit i (by simp [hl]) d hd)

/-- A model of some instructions can be changed to be one of the next instruction as well. -/
theorem Settled.models_step (hf : f.Settled gone) (heval : f.Evaluates args)
    {front back : List InstId} {i : InstId} (hl : f.layout = front ++ i :: back)
    (h : f.Models args front ρ) : ∃ ρ', f.Models args (front ++ [i]) ρ' := by
  have hi : i ∈ f.layout := by simp [hl]
  obtain ⟨d, hd⟩ := Option.isSome_iff_exists.mp (hf.coherent.exists_of_mem_layout hi)
  cases hr : d.result with
  | none =>
    refine ⟨ρ, h.literal, h.param, fun {j e v} hj he hv => ?_⟩
    obtain hj | hj := List.mem_append.mp hj
    · exact h.result hj he hv
    · obtain rfl := List.mem_singleton.mp hj
      rw [hd] at he
      cases he
      rw [hr] at hv
      cases hv
  | some v =>
    have hv : f.result? i = some v := by rw [result?, hd, Option.bind_some, hr]
    obtain ⟨bits, hbits⟩ := heval front i back ρ d hl h hd
      (by rw [← hf.coherent.produces hd, hr]; rfl)
    let ρ' : Valuation := fun u => if u = v then .of bits d.width else ρ u
    -- neither what comes before nor the operands look at the result
    have hkeep {u : ValueId} (hu : u ≠ v) : ρ' u = ρ u := if_neg hu
    have hoperands {j : InstId} {e : Inst} (hj : j ∈ front ∨ j = i) (he : f.inst? j = some e) :
        e.operands.map ρ' = e.operands.map ρ := by
      refine List.map_congr_left fun u hu => hkeep ?_
      rintro rfl
      exact hf.notMem_operands hl hv hj (by rwa [operands, he])
    refine ⟨ρ', fun {u l} hlit => ?_, fun {_ u _} hu hb => ?_, fun {j e u} hj he hu => ?_⟩
    · rw [hkeep, h.literal hlit]
      rintro rfl
      rw [hf.coherent.literal?_of_result hv] at hlit
      cases hlit
    · rw [hkeep, h.param hu hb]
      rintro rfl
      obtain ⟨_, _, hparam⟩ := hf.coherent.parameter.mp hu
      rw [hf.coherent.produced hd hr] at hparam
      cases hparam
    · have hju : f.result? j = some u := by rw [result?, he, Option.bind_some, hu]
      obtain hj | hj := List.mem_append.mp hj
      · obtain ⟨bits', hev, hρ⟩ := h.result hj he hu
        refine ⟨bits', by rw [hoperands (.inl hj) he, hev], ?_⟩
        rw [hkeep, hρ]
        -- an instruction has one place in the layout
        rintro rfl
        have hji := hf.coherent.result_inj hju hv
        have hnodup := hf.coherent.nodup_layout
        rw [hl, List.nodup_append', List.disjoint_cons_right] at hnodup
        exact hnodup.2.2.1 (hji ▸ hj)
      · obtain rfl := List.mem_singleton.mp hj
        rw [hd] at he
        cases he
        rw [hr] at hu
        cases hu
        exact ⟨bits, by rw [hoperands (.inr rfl) hd, hbits], if_pos rfl⟩

/-- A function has a model on arguments on which every instruction has a value. -/
theorem Settled.exists_models_of_evaluates (hf : f.Settled gone) (heval : f.Evaluates args) :
    ∃ ρ, f.Models args f.layout ρ := by
  refine layout_induction (motive := fun is => ∃ ρ, f.Models args is ρ)
    ⟨_, hf.coherent.models_enter args⟩ (fun front i back hl h => ?_) (List.append_nil _).symm
  obtain ⟨ρ, hρ⟩ := h
  exact hf.models_step heval hl hρ

/-- A valid function has a model for every list of arguments. -/
theorem Settled.exists_models (hf : f.Settled gone) (hfit : f.Fitting)
    (hargs : args.length = f.params.length) : ∃ ρ, f.Models args f.layout ρ :=
  hf.exists_models_of_evaluates (hf.evaluates hfit hargs)

/-! ### Execution -/

theorem mapM_eq_some_map {α β : Type} {g : α → Option β} {h : α → β} {as : List α}
    (hg : ∀ a ∈ as, g a = some (h a)) : as.mapM g = some (as.map h) := by
  induction as with
  | nil => rfl
  | cons a as ih =>
    rw [List.forall_mem_cons] at hg
    rw [List.mapM_cons, hg.1, ih hg.2]
    rfl

/-- Executing an instruction on what a model says keeps to the model. -/
theorem Settled.step_eq (hf : f.Settled gone) {is : List InstId} {i : InstId} {s : Execution}
    (h : f.Models args (is ++ [i]) ρ) (hi : i ∈ f.layout)
    (hs : ∀ v, f.Determined is v → f.literalIn? s.env v = some (ρ v))
    (hav : ∀ v ∈ f.operands i, f.Determined is v) :
    ∃ t, f.step s i = some t ∧ t.stored = s.stored ++ f.storedBy ρ i ∧
      ∀ v, f.Determined (is ++ [i]) v → f.literalIn? t.env v = some (ρ v) := by
  obtain ⟨d, hd⟩ := Option.isSome_iff_exists.mp (hf.coherent.exists_of_mem_layout hi)
  have hops : f.operands i = d.operands := by rw [operands, hd]; rfl
  rw [hops] at hav
  have hsources : d.operands.mapM (f.literalIn? s.env) = some (d.operands.map ρ) :=
    mapM_eq_some_map fun v hv => hs v (hav v hv)
  cases hr : d.result with
  | none =>
    refine ⟨{ s with stored := s.stored ++ d.operands.map ρ }, ?_, ?_, fun v hv => hs v ?_⟩
    · simp [step, hd, hsources, hr]
    · simp [storedBy, result?, hd, hr, hops]
    · refine (determined_append_singleton.mp hv).resolve_right fun hv => ?_
      simp [result?, hd, hr] at hv
  | some v =>
    have hv : f.result? i = some v := by rw [result?, hd, Option.bind_some, hr]
    obtain ⟨bits, hbits, hρ⟩ := h.result (by simp) hd hr
    refine ⟨{ s with env := fun u => if u = v then some (.of bits d.width) else s.env u }, ?_, ?_,
      fun u hu => ?_⟩
    · simp [step, hd, hsources, hr, hbits, Except.toOption]
    · simp [storedBy, hv]
    · by_cases huv : u = v
      · rw [literalIn?, huv, hf.coherent.literal?_of_result hv, hρ]
        simp
      · have hu := (determined_append_singleton.mp hu).resolve_right fun hres =>
          huv (Option.some.inj (hres.symm.trans hv))
        have := hs u hu
        simpa [literalIn?, huv] using this

/-- Executing instructions from the start of the layout computes what a model of them says. -/
theorem Settled.exists_foldlM_step_of_models (hf : f.Settled gone)
    (hargs : args.length = f.params.length) {front back : List InstId}
    (hl : f.layout = front ++ back) (h : f.Models args front ρ) :
    ∃ s, front.foldlM f.step (f.enter args) = some s ∧ s.stored = front.flatMap (f.storedBy ρ) ∧
      ∀ v, f.Determined front v → f.literalIn? s.env v = some (ρ v) := by
  refine layout_induction (motive := fun is => f.Models args is ρ →
    ∃ s, is.foldlM f.step (f.enter args) = some s ∧ s.stored = is.flatMap (f.storedBy ρ) ∧
      ∀ v, f.Determined is v → f.literalIn? s.env v = some (ρ v)) (fun h => ?_)
    (fun front i back hl ih h => ?_) hl h
  · refine ⟨f.enter args, rfl, rfl, fun v hv => ?_⟩
    obtain hv | hv | ⟨_, hj, -⟩ := hv
    · obtain ⟨l, hl⟩ := Option.isSome_iff_exists.mp hv
      rw [literalIn?, hl, h.literal hl]
      rfl
    · obtain ⟨k, hk⟩ := List.mem_iff_getElem?.mp hv
      obtain ⟨hlt, -⟩ := List.getElem?_eq_some_iff.mp hk
      have harg := List.getElem?_eq_getElem (hargs ▸ hlt)
      rw [literalIn?, hf.coherent.literal?_of_param hk, hf.coherent.env_enter hk harg,
        h.param hk harg]
      rfl
    · cases hj
  · obtain ⟨s, hs, hstored, henv⟩ := ih (h.mono fun j hj => List.mem_append_left _ hj)
    have hi : i ∈ f.layout := by simp [hl]
    obtain ⟨t, ht, hstored', henv'⟩ := hf.step_eq h hi henv fun v hv => by
      rw [← hf.coherent.available_iff_determined hl]
      exact hf.defined i hi v hv
    refine ⟨t, ?_, ?_, henv'⟩
    · rw [List.foldlM_append, hs]
      simpa using ht
    · rw [hstored', hstored, List.flatMap_append]
      simp

theorem Settled.exists_foldlM_step (hf : f.Settled gone) (hargs : args.length = f.params.length)
    (h : f.Models args f.layout ρ) {front back : List InstId} (hl : f.layout = front ++ back) :
    ∃ s, front.foldlM f.step (f.enter args) = some s ∧ s.stored = front.flatMap (f.storedBy ρ) ∧
      ∀ v, f.Determined front v → f.literalIn? s.env v = some (ρ v) :=
  hf.exists_foldlM_step_of_models hargs hl (h.mono fun _ hi => hl ▸ List.mem_append_left back hi)

/-- Executing a function computes its model. -/
theorem Settled.execute_eq (hf : f.Settled gone) (hargs : args.length = f.params.length)
    (h : f.Models args f.layout ρ) :
    ∃ s, f.execute args = some s ∧ s.stored = f.observed ρ ∧
      ∀ v, f.Determined f.layout v → f.literalIn? s.env v = some (ρ v) :=
  hf.exists_foldlM_step hargs h (List.append_nil _).symm

/-- A valid function stores what its model says. -/
theorem Settled.stores_eq (hf : f.Settled gone) (hargs : args.length = f.params.length)
    (h : f.Models args f.layout ρ) : f.stores args = some (f.observed ρ) := by
  obtain ⟨s, hs, hstored, -⟩ := hf.execute_eq hargs h
  rw [stores, hs, Option.map_some, hstored]

/-- What is determined has the literal that the model gives it. -/
theorem Settled.finally?_eq (hf : f.Settled gone) (hargs : args.length = f.params.length)
    (h : f.Models args f.layout ρ) {v : ValueId} (hv : f.Determined f.layout v) :
    f.finally? args v = some (ρ v) := by
  obtain ⟨s, hs, -, henv⟩ := hf.execute_eq hargs h
  rw [finally?, hs, Option.bind_some, henv v hv]

end Func

end Peephole

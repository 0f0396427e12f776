import Peephole.Proofs.Evaluate
import Peephole.Proofs.Func.Settled

/-!
# Widths that fit

Whether operands have the widths that an instruction asks for, and floats have formats, depends on
nothing but the operation and the widths: `Opcode.fits`. A settled function is valid exactly if all
its instructions fit, `Settled.isValid_iff_fitting`, and operations that fit have a value,
`evaluate_ok_of_fits`.
-/

namespace Peephole

/-- Whether an operation of a width accepts sources of given widths. -/
def Opcode.fits (op : Opcode) (w : Nat) (ws : List Nat) : Bool :=
  let sources := ws.zip op.info.sourceWidths
  (sources.all fun (n, sw) =>
    match sw with
    | .dest => n == w
    | .fixed bits => n == bits
    | .paired => sources.all fun (m, sw') => sw' != .paired || m == n
    | .any => true) &&
  ((ws.zip op.info.sourceClasses).all fun (n, c) => c != .float || isFloatWidth n) &&
  (!op.hasResult || op.info.resultClass != .float || isFloatWidth w)

/-- What holds of all pairs of two lists holds of what stands at one position. -/
theorem forall_mem_zip {α β : Type} {as : List α} {bs : List β} {p : α × β → Prop} :
    (∀ x ∈ as.zip bs, p x) ↔
      ∀ (k : Nat) (a : α) (b : β), as[k]? = some a → bs[k]? = some b → p (a, b) := by
  constructor
  · intro h k a b ha hb
    exact h (a, b) (List.mem_iff_getElem?.mpr ⟨k, List.getElem?_zip_eq_some.mpr ⟨ha, hb⟩⟩)
  · rintro h ⟨a, b⟩ hmem
    obtain ⟨k, hk⟩ := List.mem_iff_getElem?.mp hmem
    obtain ⟨ha, hb⟩ := List.getElem?_zip_eq_some.mp hk
    exact h k a b ha hb

section Fits

variable {op : Opcode} {w k n : Nat} {ws : List Nat} (h : op.fits w ws) (hn : ws[k]? = some n)
include h hn

theorem Opcode.eq_of_fits_dest (hs : op.info.sourceWidths[k]? = some .dest) : n = w := by
  simp only [fits, Bool.and_eq_true] at h
  exact beq_iff_eq.mp (forall_mem_zip.mp (List.all_eq_true.mp h.1.1) k n .dest hn hs)

theorem Opcode.eq_of_fits_fixed {bits : Nat} (hs : op.info.sourceWidths[k]? = some (.fixed bits)) :
    n = bits := by
  simp only [fits, Bool.and_eq_true] at h
  exact beq_iff_eq.mp (forall_mem_zip.mp (List.all_eq_true.mp h.1.1) k n (.fixed bits) hn hs)

theorem Opcode.eq_of_fits_paired {j m : Nat} (hm : ws[j]? = some m)
    (hs : op.info.sourceWidths[k]? = some .paired)
    (hs' : op.info.sourceWidths[j]? = some .paired) : m = n := by
  simp only [fits, Bool.and_eq_true] at h
  have hall := forall_mem_zip.mp (List.all_eq_true.mp h.1.1) k n .paired hn hs
  simpa using forall_mem_zip.mp (List.all_eq_true.mp hall) j m .paired hm hs'

end Fits

/-- An operation that accepts the widths of literals has formats for the floats among them. -/
theorem hasFormats_of_fits {op : Opcode} {w : Nat} {ls : List Literal} (hr : op.hasResult)
    (hfits : op.fits w (ls.map (·.width))) : hasFormats op w ls := by
  simp only [Opcode.fits, Bool.and_eq_true] at hfits
  obtain ⟨⟨-, hsource⟩, hresult⟩ := hfits
  refine hasFormats_iff.mpr ⟨fun hc => ?_, fun k l hk hc => ?_⟩
  · simpa [hr, hc] using hresult
  · have h := forall_mem_zip.mp (List.all_eq_true.mp hsource) k l.width .float
      (by rw [List.getElem?_map, hk]; rfl) hc
    simpa [Literal.isFloatWidth] using h

/-- An operation that accepts the widths of literals has a value on them. -/
theorem evaluate_ok_of_fits {op : Opcode} {w : Nat} {ls : List Literal} (hr : op.hasResult)
    (hl : ls.length = op.arity) (hfits : op.fits w (ls.map (·.width))) :
    ∃ bits, evaluate op w ls = .ok (some bits) :=
  evaluate_ok hr hl (hasFormats_of_fits hr hfits)

namespace Func

/-- Whether every attached instruction accepts the widths of its operands. -/
def Fitting (f : Func) : Prop :=
  ∀ i ∈ f.layout, ∀ d, f.inst? i = some d → d.opcode.fits d.width (d.operands.map f.width)

variable {f : Func} {gone : List InstId}

/-- Operands have the widths that an instruction asks for exactly if the operation accepts them. -/
theorem fits_iff {d : Inst} (hr : d.result.isSome = d.opcode.hasResult) :
    d.opcode.fits d.width (d.operands.map f.width) ↔
      (∀ (k : Nat) (v : ValueId) (w : SourceWidth), d.operands[k]? = some v →
        d.opcode.info.sourceWidths[k]? = some w → f.Suits d v w) ∧
      (∀ (k : Nat) (v : ValueId), d.operands[k]? = some v →
        d.opcode.info.sourceClasses[k]? = some .float → isFloatWidth (f.width v)) ∧
      (d.result.isSome → d.opcode.info.resultClass = .float → isFloatWidth d.width) := by
  have hmap (k n : Nat) : (d.operands.map f.width)[k]? = some n ↔
      ∃ v, d.operands[k]? = some v ∧ f.width v = n := by
    rw [List.getElem?_map, Option.map_eq_some_iff]
  -- that all paired operands are n bits wide, on the list of widths and on the operands
  have hpaired (n : Nat) : ((d.operands.map f.width).zip d.opcode.info.sourceWidths).all
      (fun (m, sw) => sw != .paired || m == n) ↔
      ∀ (k : Nat) (w : ValueId), d.operands[k]? = some w →
        d.opcode.info.sourceWidths[k]? = some .paired → f.width w = n := by
    rw [List.all_eq_true, forall_mem_zip]
    constructor
    · intro h k w hk hw
      simpa using h k (f.width w) .paired ((hmap k _).mpr ⟨w, hk, rfl⟩) hw
    · intro h k m sw hm hw
      obtain ⟨v, hv, rfl⟩ := (hmap k m).mp hm
      by_cases hsw : sw = .paired
      · simp [h k v hv (hsw ▸ hw)]
      · simp [hsw]
  simp only [Opcode.fits, Bool.and_eq_true, and_assoc, List.all_eq_true]
  refine and_congr ?_ (and_congr ?_ ?_)
  · rw [forall_mem_zip]
    constructor
    · intro h k v sw hk hw
      have := h k (f.width v) sw ((hmap k _).mpr ⟨v, hk, rfl⟩) hw
      cases sw with
      | dest => simpa [Suits] using this
      | fixed bits => simpa [Suits] using this
      | any => trivial
      | paired => exact (hpaired (f.width v)).mp this
    · intro h k n sw hn hw
      obtain ⟨v, hv, rfl⟩ := (hmap k n).mp hn
      have := h k v sw hv hw
      cases sw with
      | dest => simpa [Suits] using this
      | fixed bits => simpa [Suits] using this
      | any => rfl
      | paired => exact (hpaired (f.width v)).mpr this
  · rw [forall_mem_zip]
    constructor
    · intro h k v hk hc
      simpa using h k (f.width v) .float ((hmap k _).mpr ⟨v, hk, rfl⟩) hc
    · intro h k n c hn hc
      obtain ⟨v, hv, rfl⟩ := (hmap k n).mp hn
      by_cases hfloat : c = .float
      · simp [h k v hv (hfloat ▸ hc)]
      · simp [hfloat]
  · rw [hr]
    cases d.opcode.hasResult <;> by_cases hc : d.opcode.info.resultClass = .float <;> simp [hc]

theorem Coherent.fitting_iff (hf : f.Coherent) : f.Fitting ↔ f.Sized ∧ f.Formatted := by
  constructor
  · intro h
    exact ⟨fun i hi d hd => ((fits_iff (hf.produces hd)).mp (h i hi d hd)).1,
      fun i hi d hd => ((fits_iff (hf.produces hd)).mp (h i hi d hd)).2⟩
  · rintro ⟨hs, hw⟩ i hi d hd
    exact (fits_iff (hf.produces hd)).mpr ⟨hs i hi d hd, hw i hi d hd⟩

/-- A settled function is valid exactly if its instructions accept the widths of their operands. -/
theorem Settled.isValid_iff_fitting (hf : f.Settled gone) : f.isValid ↔ f.Fitting := by
  rw [hf.coherent.fitting_iff]
  constructor
  · intro hv
    have hv := (hf.coherent.isValid_iff hf.mirrored).mp hv
    exact ⟨hv.sized, hv.formatted⟩
  · rintro ⟨hs, hw⟩
    exact hf.isValid hs hw

end Func

end Peephole

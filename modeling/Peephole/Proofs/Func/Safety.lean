import Peephole.Proofs.Func.Valuation
import Peephole.Proofs.Width

/-!
# Executions that are never stuck

On the way to its result an evaluation takes steps that are not defined everywhere. It takes one
from a width, and from the bits of a half; it moves by distances that have to stay below the 64 bits
of a word, also where it extends a sign; and it reads and writes floats at widths that need a
format. An evaluation is **regular** when every such step of it is defined.

In a valid function every operand has a literal when its instruction is executed, and evaluation on
these literals is regular and has a value that fits the width of the result:
`Reachable.execute_progress`.
-/

namespace Peephole

/-! ### Regular evaluations -/

namespace Evaluate

/-- Whether every step in the evaluation of an operation on literals is defined. -/
structure Regular (op : Opcode) (w : Nat) (ls : List Literal) : Prop where
  /-- There are as many literals as the operation has sources. -/
  count : ls.length = op.arity
  /-- The result has a sign bit, at `w - 1`, within a word. -/
  width : 0 < w ∧ w ≤ 64
  /-- The sign of a source is extended by shifts of `64 - l.width`. -/
  signs : ∀ l ∈ ls, 0 < l.width ∧ 64 - l.width < 64 ∧ l.width ≤ 64
  /-- Floats are read and written at widths with a format. -/
  formats : hasFormats op w ls
  /-- A shift by a source, whose low bits count, stays below the width of the result. -/
  distances : ∀ l ∈ ls, (l.bits.toNat % twoPow 32 &&& (w - 1)) < w
  /-- Where the half nearest to a source is not the one toward zero, the latter is one step down,
  which does not lead below the lowest pattern. -/
  halves : ∀ l ∈ ls, ∀ x, l.datum? = some x →
    binary16.encode .nearestEven x ≠ binary16.encode .towardZero x →
      1 ≤ binary16.encode .nearestEven x ∧
        binary16.encode .nearestEven x - 1 = binary16.encode .towardZero x

/-- Rounding to the nearest integer goes at most one above rounding toward zero. -/
theorem quotient_nearestEven (num den : Nat) :
    Rounding.nearestEven.quotient num den = Rounding.towardZero.quotient num den ∨
      Rounding.nearestEven.quotient num den = Rounding.towardZero.quotient num den + 1 := by
  simp only [Rounding.quotient]
  have hparity := Nat.mod_two_eq_zero_or_one (num / den)
  split
  · exact .inl rfl
  · split
    · exact .inr rfl
    · omega

/-- The half nearest to a datum is the one toward zero, or the next one in magnitude. -/
theorem encode_nearestEven (x : Datum) :
    binary16.encode .nearestEven x = binary16.encode .towardZero x ∨
      binary16.encode .nearestEven x = binary16.encode .towardZero x + 1 := by
  have hinfinity : 0 < binary16.infinity := by decide
  cases x with
  | nan negative payload => exact .inl rfl
  | infinite negative => exact .inl rfl
  | finite negative magnitude =>
    simp only [FloatFormat.encode, FloatFormat.encodeRatio]
    have hquotient := quotient_nearestEven magnitude (1 * twoPow binary16.scale *
      twoPow ((magnitude / (1 * twoPow binary16.scale)).log2 + 1 - binary16.precision))
    omega

/-- Evaluation is regular at supported widths once floats have formats. -/
theorem regular_of_hasFormats {op : Opcode} {w : Nat} {ls : List Literal} (hw : supported w)
    (hl : ls.length = op.arity) (hls : ∀ l ∈ ls, supported l.width)
    (hf : hasFormats op w ls) : Regular op w ls := by
  refine ⟨hl, Integer.width_bounds hw, fun l hmem => ?_, hf, fun l _ => ?_, fun l _ x _ hne => ?_⟩
  · have := Integer.width_bounds (hls l hmem)
    omega
  · have hle := Nat.and_le_right (n := l.bits.toNat % twoPow 32) (m := w - 1)
    have := Integer.width_bounds hw
    omega
  · have := (encode_nearestEven x).resolve_left hne
    omega

/-- The distance of a regular shift is what it is before it is reduced to the width of a word. -/
theorem Regular.distance_eq {op : Opcode} {w : Nat} {ls : List Literal} (h : Regular op w ls)
    {l : Literal} (hl : l ∈ ls) : distance w l = l.bits.toNat % twoPow 32 &&& (w - 1) :=
  Nat.mod_eq_of_lt (Nat.lt_of_lt_of_le (h.distances l hl) h.width.2)

end Evaluate

/-- A word that is kept to a width is a number below the power of that width. -/
theorem toNat_lt_of_evaluate {op : Opcode} {w : Nat} {ls : List Literal} {raw : Word} (hw : w ≤ 64)
    (h : evaluate op w ls = .ok (some raw)) : raw.toNat < twoPow w := by
  unfold evaluate at h
  split at h
  · cases h
  · split at h
    · cases h
    · obtain ⟨bits, -, rfl⟩ := Option.map_eq_some_iff.mp (Except.ok.inj h)
      rw [toNat_and_mask bits hw]
      exact Nat.mod_lt _ (Nat.two_pow_pos w)

namespace Func

variable {f : Func} {gone : List InstId} {args : List Word} {ρ : Valuation}

/-! ### Executions -/

/-- A valid function is never stuck. On arguments for its parameters it is executed to the end. Each
of its instructions finds a literal for every operand; evaluation on these literals is regular and
has a value unless the instruction is a store, and the value fits the width of the result. -/
theorem Reachable.execute_progress (hf : Reachable f gone) (hv : f.isValid)
    (hargs : args.length = f.params.length) :
    (∃ s, f.execute args = some s) ∧
      ∀ front i back, f.layout = front ++ i :: back → ∃ s d ls,
        front.foldlM f.step (f.enter args) = some s ∧ f.inst? i = some d ∧
        d.operands.mapM (f.literalIn? s.env) = some ls ∧ ls.length = d.opcode.arity ∧
        (d.opcode ≠ .store → Evaluate.Regular d.opcode d.width ls ∧
          ∃ raw v, evaluate d.opcode d.width ls = .ok (some raw) ∧ raw.toNat < twoPow d.width ∧
            d.result = some v ∧ f.width v = d.width) := by
  have hs := hf.settled_of_isValid hv
  have hfit := hs.isValid_iff_fitting.mp hv
  obtain ⟨ρ, hρ⟩ := hs.exists_models hfit hargs
  refine ⟨?_, fun front i back hl => ?_⟩
  · obtain ⟨s, hs, -⟩ := hs.execute_eq hargs hρ
    exact ⟨s, hs⟩
  obtain ⟨s, hrun, -, henv⟩ := hs.exists_foldlM_step hargs hρ hl
  have hi : i ∈ f.layout := by simp [hl]
  obtain ⟨d, hd⟩ := Option.isSome_iff_exists.mp (hs.coherent.exists_of_mem_layout hi)
  -- the operands are determined by what has been executed, and have literals of their widths
  have havailable (v : ValueId) (hmem : v ∈ d.operands) : f.Available i v :=
    hs.defined i hi v (by rwa [operands, hd])
  have hdetermined (v : ValueId) (hmem : v ∈ d.operands) : f.Determined front v :=
    (hs.coherent.available_iff_determined hl).mp (havailable v hmem)
  have hwidth (v : ValueId) (hmem : v ∈ d.operands) : (ρ v).width = f.width v :=
    hρ.width hs.coherent hargs (havailable v hmem).determined
  have hcount : (d.operands.map ρ).length = d.opcode.arity := by
    rw [List.length_map, hs.coherent.length_operands hd]
  refine ⟨s, d, d.operands.map ρ, hrun, hd,
    mapM_eq_some_map fun v hmem => henv v (hdetermined v hmem), hcount, fun hstore => ?_⟩
  have hresult : d.opcode.hasResult := Opcode.hasResult_of_ne_store hstore
  obtain ⟨v, hres⟩ : ∃ v, d.result = some v := by
    rw [← Option.isSome_iff_exists, hs.coherent.produces hd, hresult]
  have hproduced := hs.coherent.produced hd hres
  have hsupported : supported d.width := hs.coherent.supported hproduced
  have hsources : ∀ l ∈ d.operands.map ρ, supported l.width := by
    intro l hl
    obtain ⟨u, hu, rfl⟩ := List.mem_map.mp hl
    obtain ⟨x, hx⟩ := Option.isSome_iff_exists.mp (hs.coherent.known hd hu)
    rw [hwidth u hu, Func.width, hx]
    exact hs.coherent.supported hx
  have hfits : d.opcode.fits d.width ((d.operands.map ρ).map (·.width)) := by
    have hwidths : (d.operands.map ρ).map (·.width) = d.operands.map f.width := by
      rw [List.map_map]
      exact List.map_congr_left hwidth
    rw [hwidths]
    exact hfit i hi d hd
  have hregular := Evaluate.regular_of_hasFormats hsupported hcount hsources
    (hasFormats_of_fits hresult hfits)
  obtain ⟨raw, hraw⟩ := evaluate_ok_of_fits hresult hcount hfits
  refine ⟨hregular, raw, v, hraw, toNat_lt_of_evaluate hregular.width.2 hraw, hres, ?_⟩
  rw [Func.width, hproduced]
  rfl

/-- A function that stores a number shifted by one of its parameters, and the other one as a
half. -/
def shiftedHalf : Func where
  name := "f"
  params := [⟨0⟩, ⟨1⟩]
  values := #[⟨.parameter 0 (some .float), 32⟩, ⟨.parameter 1 none, 32⟩, ⟨.literal 7, 32⟩,
    ⟨.result ⟨0⟩, 32⟩, ⟨.result ⟨1⟩, 16⟩]
  chains := #[[⟨⟨1⟩, 0⟩], [⟨⟨0⟩, 1⟩], [⟨⟨0⟩, 0⟩], [⟨⟨2⟩, 0⟩], [⟨⟨3⟩, 0⟩]]
  insts := #[⟨.ishl, 32, false, [⟨2⟩, ⟨1⟩], some ⟨3⟩, some ⟨0⟩⟩,
    ⟨.f2f16Rtz, 16, false, [⟨0⟩], some ⟨4⟩, some ⟨0⟩⟩,
    ⟨.store, 0, false, [⟨3⟩], none, some ⟨0⟩⟩, ⟨.store, 0, false, [⟨4⟩], none, some ⟨0⟩⟩]
  blocks := #[[⟨0⟩, ⟨1⟩, ⟨2⟩, ⟨3⟩]]

theorem reachable_shiftedHalf : Reachable shiftedHalf [] := by
  have hblock := (Reachable.empty "f").edit (.createBlock rfl)
  have hparams : Reachable ⟨"f", [⟨0⟩, ⟨1⟩], #[⟨.parameter 0 (some .float), 32⟩,
      ⟨.parameter 1 none, 32⟩], #[[], []], #[], #[[]]⟩ [] :=
    (hblock.addParam 32 (some .float) rfl).addParam 32 none rfl
  have hseven : literal ⟨"f", [⟨0⟩, ⟨1⟩], #[⟨.parameter 0 (some .float), 32⟩,
      ⟨.parameter 1 none, 32⟩], #[[], []], #[], #[[]]⟩ 32 7 =
      .ok (⟨2⟩, ⟨"f", [⟨0⟩, ⟨1⟩], #[⟨.parameter 0 (some .float), 32⟩,
        ⟨.parameter 1 none, 32⟩, ⟨.literal 7, 32⟩], #[[], [], []], #[], #[[]]⟩) := by decide +kernel
  have hshift : Reachable ⟨"f", [⟨0⟩, ⟨1⟩], #[⟨.parameter 0 (some .float), 32⟩,
      ⟨.parameter 1 none, 32⟩, ⟨.literal 7, 32⟩, ⟨.result ⟨0⟩, 32⟩],
      #[[], [⟨⟨0⟩, 1⟩], [⟨⟨0⟩, 0⟩], []],
      #[⟨.ishl, 32, false, [⟨2⟩, ⟨1⟩], some ⟨3⟩, some ⟨0⟩⟩], #[[⟨0⟩]]⟩ [] :=
    (hparams.edit (.literal hseven)).append ⟨0⟩ .ishl 32 [⟨2⟩, ⟨1⟩] (by decide) rfl
  have hhalf := hshift.append ⟨0⟩ .f2f16Rtz 16 [⟨0⟩] (by decide) rfl
  have hstore := hhalf.append ⟨0⟩ .store 0 [⟨3⟩] (by decide) rfl
  exact hstore.append ⟨0⟩ .store 0 [⟨4⟩] (by decide) rfl

theorem execute_progress_shiftedHalf : Reachable shiftedHalf [] ∧ shiftedHalf.isValid ∧
    (∃ s, shiftedHalf.execute [0x40490fdb, 33] = some s) ∧
    ∃ ls raw, Evaluate.Regular .ishl 32 ls ∧ evaluate .ishl 32 ls = .ok (some raw) ∧
      raw.toNat < twoPow 32 := by
  have hv : shiftedHalf.isValid := by decide +kernel
  have hargs : ([0x40490fdb, 33] : List Word).length = shiftedHalf.params.length := rfl
  obtain ⟨hrun, hprogress⟩ := reachable_shiftedHalf.execute_progress hv hargs
  obtain ⟨s, d, ls, -, hd, -, -, hvalue⟩ := hprogress [] ⟨0⟩ [⟨1⟩, ⟨2⟩, ⟨3⟩] rfl
  cases hd
  obtain ⟨hregular, raw, v, hraw, hlt, -⟩ := hvalue (by decide)
  exact ⟨reachable_shiftedHalf, hv, hrun, ls, raw, hregular, hraw, hlt⟩

end Func

end Peephole

import Peephole.Proofs.Legalize.Inert
import Peephole.Proofs.Legalize.Soundness
import Peephole.Proofs.Rule.Dispatch

/-!
# Floats through narrow integers

The rules that take a float to an integer by way of a narrow one convert it to the outer width at
once and take the low bits of that. Where the narrow conversion saturates, the low bits are others:
a rule is sound **in range**, for floats that are truncated to something that the narrow width
holds. There both conversions yield the same integer, `convert_eq_of_truncatesWithin`.

* An unsigned conversion clamps what is below zero to zero at every width, so that its range has no
  lower bound, and has the negative infinity in it.
* A NaN is converted to zero, whatever the width.
-/

namespace Peephole

open Pattern

/-! ### Truncations in range -/

/-- Whether the integer that a datum is truncated to is within bounds, of which the lower one may be
missing. A NaN, which is not truncated, passes. -/
def Datum.truncatesWithin (low : Option Int) (high : Int) : Datum → Bool
  | nan .. => true
  | infinite negative => negative && low.isNone
  | finite negative magnitude =>
    let t := units negative (magnitude / twoPow unitsLog)
    low.all (· ≤ t) && t ≤ high

/-- Datums that are truncated to something within bounds are clamped to it, however much wider the
bounds are. -/
theorem Datum.clamp_eq_of_truncatesWithin {d : Datum} {low : Option Int}
    {least least' high high' : Int} (h : d.truncatesWithin low high)
    (hleast : least' = least ∨ low = some least ∧ least' ≤ least) (hhigh : high ≤ high') :
    d.clamp least' high' = d.clamp least high := by
  cases d with
  | nan => rfl
  | infinite negative =>
    simp only [truncatesWithin, Bool.and_eq_true, Option.isNone_iff_eq_none] at h
    obtain ⟨rfl, rfl⟩ := h
    obtain rfl | ⟨hlow, -⟩ := hleast
    · rfl
    · cases hlow
  | finite negative magnitude =>
    simp only [truncatesWithin, Bool.and_eq_true, decide_eq_true_eq] at h
    obtain ⟨hlow, hle⟩ := h
    rw [clamp, clamp, Int.min_eq_right hle, Int.min_eq_right (Int.le_trans hle hhigh)]
    obtain rfl | ⟨rfl, hleast⟩ := hleast
    · rfl
    · have hlow : least ≤ units negative (magnitude / twoPow unitsLog) := by simpa using hlow
      rw [Int.max_eq_right hlow, Int.max_eq_right (Int.le_trans hleast hlow)]

/-- An unsigned conversion that does not overflow at a width has the same result at wider ones. -/
theorem Datum.toUnsigned_of_le {d : Datum} {n m : Nat} (hnm : n ≤ m)
    (h : d.truncatesWithin none (twoPow n - 1)) : d.toUnsigned m = d.toUnsigned n := by
  have hpow : twoPow n ≤ twoPow m := Nat.pow_le_pow_right (by decide) hnm
  rw [toUnsigned, clamp_eq_of_truncatesWithin h (.inl rfl) (by omega), ← toUnsigned]

/-- A signed conversion that does not overflow at a width has the same result at wider ones. -/
theorem Datum.toSigned_of_le {d : Datum} {n m : Nat} (hnm : n ≤ m)
    (h : d.truncatesWithin (some (-twoPow (n - 1))) (twoPow (n - 1) - 1)) :
    d.toSigned m = d.toSigned n := by
  have hpow : twoPow (n - 1) ≤ twoPow (m - 1) :=
    Nat.pow_le_pow_right (by decide) (Nat.sub_le_sub_right hnm 1)
  rw [toSigned, clamp_eq_of_truncatesWithin h (.inr ⟨rfl, by omega⟩) (by omega), ← toSigned]

/-! ### Conversions in range -/

namespace Legalize

/-- The bounds within which an operation truncates floats to narrow integers without overflow. -/
def truncationBounds? : Opcode → Option (Option Int × Int)
  | .f2u8 => some (none, 255)
  | .f2i8 => some (some (-128), 127)
  | .f2u16 => some (none, 65535)
  | .f2i16 => some (some (-32768), 32767)
  | _ => none

variable {n w : Nat} {outer inner : Family} {op : Opcode} {a : Literal} {d : Datum}
  {low : Option Int} {high : Int}

/-- Operations with bounds convert floats to integers. -/
theorem family_of_truncationBounds? (h : truncationBounds? op = some (low, high)) :
    op.family? = some .f2u ∨ op.family? = some .f2i := by
  cases op <;> first | exact .inl rfl | exact .inr rfl | cases h

/-- In range, a float is converted to the same integer at a narrow width and at the wide ones. -/
theorem convert_eq_of_truncatesWithin (hn : n = 8 ∨ n = 16) (hw : w ∈ wide n)
    (hop : inner.withWidth? n = some op) (hb : truncationBounds? op = some (low, high))
    (ha : a.datum? = some d) (hd : d.truncatesWithin low high) :
    Evaluate.convert inner w a = Evaluate.convert inner n a := by
  obtain ⟨hfamily, hwidth, -⟩ := Family.spec_of_withWidth? hop
  obtain ⟨hwide, hlt⟩ := mem_wide.mp hw
  have hsat : Evaluate.saturation w = w := by
    obtain rfl | rfl | rfl := hwide <;> rfl
  cases op <;> cases hb <;> cases hfamily <;> cases hwidth <;>
    simp only [Evaluate.convert, ha, Option.map_some, hsat] <;> refine congrArg some ?_
  case f2u8 | f2u16 => exact d.toUnsigned_of_le (Nat.le_of_lt hlt) hd
  case f2i8 | f2i16 => exact d.toSigned_of_le (Nat.le_of_lt hlt) hd

variable {σ : Nat → Option Literal} {p q : Pattern} {bits : Word}

/-- Where the variable of the rules is converted to a word, the pattern for the conversion denotes
the low bits of that word. -/
theorem meaning_truncation (hop : inner.withWidth? n = some op)
    (hinner : inner = .f2u ∨ inner = .f2i) (hσ : σ 0 = some a) (ha : a.isFloatWidth)
    (hbits : Evaluate.convert inner n a = some bits)
    (h : (Term.convert inner n anySource).Denotes p) (expected : Option Nat) :
    p.meaning σ expected = some (.of bits n) := by
  have hresult : inner.result ≠ .float := by
    obtain rfl | rfl := hinner <;> decide
  rw [Term.convert_eq_op hop] at h
  obtain ⟨_, _, x, hx, rfl⟩ := h.eq_op
  have hvalue := meaning_value hx hσ none
  have hwidth (b : Literal) (hb : x.meaning σ none = some b) : b.isFloatWidth := by
    obtain rfl : a = b := Option.some.inj (hvalue.symm.trans hb)
    exact ha
  rw [meaning_convert hop (fun b hb _ => hwidth b hb) (fun hf => absurd hf hresult) rfl rfl, hvalue,
    Option.bind_some, hbits, Option.map_some]

/-- The low bits of a word are widened to what the word at the outer width has them extended to. -/
theorem convert_widen_of (hn : n = 8 ∨ n = 16) (hw : w ∈ wide n)
    (houter : outer = .u2u ∨ outer = .i2i) (bits : Word) :
    (Evaluate.convert outer w (.of bits n)).map (Literal.of · w) =
      some ((Literal.of bits w).extendLow n outer) := by
  obtain ⟨hwide, hlt⟩ := mem_wide.mp hw
  have hlow : Literal.of (Literal.of bits w).bits n = .of bits n := by
    simp [Literal.of, BitVec.and_assoc, BitVec.and_comm (mask w), mask_and_mask (Nat.le_of_lt hlt)]
  rw [← hlow]
  exact convert_widen (a := .of bits w) (by omega) (by simp; omega) (by simp; omega) houter

/-- In range, what goes through a narrow integer denotes the same before and after. -/
theorem meaning_ofFloat (hn : n = 8 ∨ n = 16) (hw : w ∈ wide n)
    (houter : outer = .u2u ∨ outer = .i2i) (hop : inner.withWidth? n = some op)
    (hb : truncationBounds? op = some (low, high)) (hσ : σ 0 = some a) (ha : a.datum? = some d)
    (hd : d.truncatesWithin low high) (hsearch : (ofFloat n outer w inner).search.Denotes p)
    (hreplace : (ofFloat n outer w inner).replace.Denotes q) :
    ∃ l, ∀ expected, p.meaning σ expected = some l ∧ q.meaning σ expected = some l := by
  have hinner : inner = .f2u ∨ inner = .f2i := by
    have := family_of_truncationBounds? hb
    simpa [(Family.spec_of_withWidth? hop).1] using this
  have hreads := Family.readsInteger_of_integer houter
  have hwidth := Evaluate.isFloatWidth_of_datum? ha
  -- at either width, the inner conversion denotes the low bits of the same word
  obtain ⟨bits, hbits⟩ : ∃ bits, Evaluate.convert inner w a = some bits := by
    obtain rfl | rfl := hinner <;> rw [Evaluate.convert, ha] <;> exact ⟨_, rfl⟩
  have hnarrow : Evaluate.convert inner n a = some bits :=
    (convert_eq_of_truncatesWithin hn hw hop hb ha hd).symm.trans hbits
  obtain ⟨opOuter, hopOuter⟩ := exists_withWidth? hreads hw
  obtain ⟨opWide, hopWide⟩ := exists_withWidth?_inner hinner hw
  refine ⟨(Literal.of bits w).extendLow n outer, fun expected => ⟨?_, ?_⟩⟩
  · rw [ofFloat, Term.convert_eq_op hopOuter] at hsearch
    obtain ⟨_, _, x, hx, rfl⟩ := hsearch.eq_op
    rw [meaning_outer hreads hw hopOuter, meaning_truncation hop hinner hσ hwidth hnarrow hx,
      Option.bind_some, convert_widen_of hn hw houter]
  · exact meaning_lowBits hn hw hreplace
      (fun _ hx => meaning_truncation hopWide hinner hσ hwidth hbits hx) rfl expected

end Legalize

/-! ### The rules in range -/

/-- Whether a pattern widens the integer that an operation results in. -/
def Pattern.Widens (op : Opcode) : Pattern → Prop
  | .expr _ e _ [.expr _ e' _ _] =>
    (e.op.dispatchKey = .family .u2u ∨ e.op.dispatchKey = .family .i2i) ∧ e'.op = .single op
  | _ => False

namespace Legalize

variable {n w : Nat} {outer inner : Family} {op op' : Opcode} {a : Literal} {d : Datum}
  {low : Option Int} {high : Int} {p : Pattern} {t : RuleTable} {rs : RuleSet} {k : Nat} {r : Rule}

/-- The conversion of an operation widens it if the conversion extends integers. -/
theorem widens_convert_iff {x : Term} (houter : outer.withWidth? w = some op)
    (h : (Term.convert outer w (.op op' n [x])).Denotes p) {o : Opcode} :
    p.Widens o ↔ (outer = .u2u ∨ outer = .i2i) ∧ op' = o := by
  rw [Term.convert_eq_op houter] at h
  obtain ⟨_, _, q, hq, rfl⟩ := h.eq_op
  obtain ⟨_, _, _, -, rfl⟩ := hq.eq_op
  simp [Widens, Operation.dispatchKey, Operation.ofOpcode, (Family.spec_of_withWidth? houter).1]

/-- The search pattern of a rule that takes floats through narrow integers widens what they are
converted to. -/
theorem widens_ofFloat (houter : outer = .u2u ∨ outer = .i2i) (hw : w ∈ wide n)
    (hop : inner.withWidth? n = some op) (h : (ofFloat n outer w inner).search.Denotes p) :
    p.Widens op := by
  have hreads := Family.readsInteger_of_integer houter
  obtain ⟨opOuter, hopOuter⟩ := exists_withWidth? hreads hw
  rw [ofFloat, Term.convert_eq_op hop] at h
  exact (widens_convert_iff hopOuter h).mpr ⟨houter, rfl⟩

/-- The rules that widen the result of an operation with bounds are those that take floats through
narrow integers. -/
theorem exists_ofFloat (hn : n = 8 ∨ n = 16) {x : TermRule} (hx : x ∈ narrowing n ++ halfPacking)
    (hsearch : x.search.Denotes p) (hwidens : p.Widens op)
    (hb : truncationBounds? op = some (low, high)) :
    ∃ outer w inner, (outer = .u2u ∨ outer = .i2i) ∧ w ∈ wide n ∧
      inner.withWidth? n = some op ∧ x = ofFloat n outer w inner := by
  have hfamily := family_of_truncationBounds? hb
  obtain hx | hx := List.mem_append.mp hx
  · obtain ⟨outer, w, houter, hw, hx⟩ := mem_narrowing_iff.mp hx
    obtain ⟨opOuter, hopOuter⟩ := exists_withWidth? houter hw
    obtain ⟨inner, s, hinner, -, rfl⟩ | ⟨inner, hinner, -, rfl⟩ |
      ⟨inner, s, hinner, hresult, -, rfl⟩ := mem_narrowingTo_iff.mp hx
    · -- what is widened has been an integer before
      obtain ⟨op', hop'⟩ := exists_narrow hn (hinner.imp id .inl)
      rw [ofInteger, Term.convert_eq_op hop'] at hsearch
      obtain ⟨-, rfl⟩ := (widens_convert_iff hopOuter hsearch).mp hwidens
      rw [(Family.spec_of_withWidth? hop').1] at hfamily
      obtain rfl | rfl := hinner <;> simp at hfamily
    · obtain ⟨op', hop'⟩ := exists_narrow hn (.inr (.inr hinner))
      rw [ofFloat, Term.convert_eq_op hop'] at hsearch
      obtain ⟨hextends, rfl⟩ := (widens_convert_iff hopOuter hsearch).mp hwidens
      exact ⟨outer, w, inner, hextends, hw, hop', rfl⟩
    · -- the result is a float
      obtain ⟨op', hop'⟩ := exists_narrow hn (.inr (.inr hinner))
      rw [clamp, Term.convert_eq_op hop'] at hsearch
      obtain ⟨rfl | rfl, -⟩ := (widens_convert_iff hopOuter hsearch).mp hwidens <;> cases hresult
  · simp only [halfPacking, List.mem_cons, List.not_mem_nil, or_false] at hx
    obtain rfl | rfl := hx
    · have hopOuter : Family.f2f.withWidth? 32 = some .f2f32 := rfl
      have hop' : Family.u2u.withWidth? 16 = some .u2u16 := rfl
      rw [Term.convert_eq_op hop'] at hsearch
      obtain ⟨hextends, -⟩ := (widens_convert_iff hopOuter hsearch).mp hwidens
      simp at hextends
    · have hopOuter : Family.u2u.withWidth? 32 = some .u2u32 := rfl
      obtain ⟨-, rfl⟩ := (widens_convert_iff hopOuter hsearch).mp hwidens
      cases hb

/-- The rules of the narrowing tables. -/
theorem exists_termRule_of_narrowing (ht : t = lowering8 ∨ t = lowering16)
    (hload : RuleSet.load t = .ok rs) (hr : rs.rules[k]? = some r) :
    ∃ n, (n = 8 ∨ n = 16) ∧ ∃ x ∈ narrowing n ++ halfPacking,
      x.search.Denotes r.search ∧ x.replace.Denotes r.replace := by
  obtain ht | ht := ht
  · rw [ht, lowering8] at hload
    obtain ⟨x, hx, hdenotes⟩ := RuleSet.exists_termRule hload hr
    exact ⟨8, .inl rfl, x, List.mem_append_left _ hx, hdenotes⟩
  · rw [ht, lowering16] at hload
    obtain ⟨x, hx, hdenotes⟩ := RuleSet.exists_termRule hload hr
    exact ⟨16, .inr rfl, x, hx, hdenotes⟩

/-- A table with the rules for conversions through `n` bits has one for every way to take a float
through them. -/
theorem exists_rule_of_ofFloat {name : String} {rules : List TermRule}
    (hload : RuleSet.load (.ofRules name rules) = .ok rs) (hrules : ∀ x ∈ narrowing n, x ∈ rules)
    (houter : outer = .u2u ∨ outer = .i2i) (hw : w ∈ wide n)
    (hinner : inner = .f2u ∨ inner = .f2i) (hop : inner.withWidth? n = some op) :
    ∃ (k : Nat) (r : Rule), rs.rules[k]? = some r ∧ r.search.Widens op := by
  have hreads := Family.readsInteger_of_integer houter
  have hresult : outer.result ≠ .float := by
    obtain rfl | rfl := houter <;> decide
  obtain ⟨opOuter, hopOuter⟩ := exists_withWidth? hreads hw
  have hmem : ofFloat n outer w inner ∈ narrowing n := mem_narrowing_iff.mpr
    ⟨outer, w, hreads, hw, mem_narrowingTo_iff.mpr (.inr (.inl ⟨inner, hinner, hresult, rfl⟩))⟩
  have hstate : (ofFloat n outer w inner).search.state? = some (.ofOpcode opOuter, w) := by
    rw [ofFloat, Term.convert_eq_op hopOuter]
    rfl
  have hwidth : supported w := supported_of_isFloatWidth (isFloatWidth_of_mem_wide hw)
  obtain ⟨k, -, r, hr, -, hsearch⟩ := RuleSet.exists_candidate hload (hrules _ hmem) hstate hwidth
  exact ⟨k, r, hr, widens_ofFloat houter hw hop hsearch⟩

/-- The rules of the narrowing tables that widen an integer which a float has been converted to are
**sound in range**: where the float is a NaN or is truncated to something within the bounds of the
narrow conversion, both sides of the rule denote the same literal. -/
theorem widened_truncation_sound (ht : t = lowering8 ∨ t = lowering16)
    (hload : RuleSet.load t = .ok rs) (hr : rs.rules[k]? = some r) (hwidens : r.search.Widens op)
    (hb : truncationBounds? op = some (low, high)) (ha : a.datum? = some d)
    (hd : d.truncatesWithin low high) :
    ∃ l, ∀ expected, r.search.meaning (fun _ => some a) expected = some l ∧
      r.replace.meaning (fun _ => some a) expected = some l := by
  obtain ⟨n, hn, x, hx, hsearch, hreplace⟩ := exists_termRule_of_narrowing ht hload hr
  obtain ⟨outer, w, inner, houter, hw, hop, rfl⟩ := exists_ofFloat hn hx hsearch hwidens hb
  exact meaning_ofFloat hn hw houter hop hb rfl ha hd hsearch hreplace

/-- Three and a half below zero goes through eight signed bits. -/
theorem widened_truncation_sound_belowZero :
    ∃ (rs : RuleSet) (k : Nat) (r : Rule), RuleSet.load lowering8 = .ok rs ∧
      rs.rules[k]? = some r ∧ r.search.Widens .f2i8 ∧
      ∃ l, ∀ expected, r.search.meaning (fun _ => some ⟨0xc0600000, 32⟩) expected = some l ∧
        r.replace.meaning (fun _ => some ⟨0xc0600000, 32⟩) expected = some l := by
  obtain ⟨rs, hload⟩ := load_lowering8
  have hrules := hload
  rw [lowering8] at hrules
  have hop : Family.f2i.withWidth? 8 = some .f2i8 := rfl
  obtain ⟨k, r, hr, hwidens⟩ := exists_rule_of_ofFloat (w := 32) hrules (fun _ hx => hx)
    (.inr rfl) (by decide) (.inr rfl) hop
  have hdatum : (⟨0xc0600000, 32⟩ : Literal).datum? = some (.finite true (7 * twoPow 1073)) := by
    decide +kernel
  exact ⟨rs, k, r, hload, hr, hwidens,
    widened_truncation_sound (.inl rfl) hload hr hwidens rfl hdatum (by decide +kernel)⟩

end Legalize

end Peephole

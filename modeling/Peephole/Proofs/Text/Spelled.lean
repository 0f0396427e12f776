import Peephole.Proofs.Text.Spelling
import Mathlib.Algebra.Group.Int.Defs
import Mathlib.Data.List.Induction

/-!
# Integers in a text

An integer is **spelled** in base ten without superfluous zeros, with a sign if it is negative, or
in base sixteen with at most sixteen digits. In front of a colon and a width a spelling is read as
the word of the integer, in two's complement if it is negative, where the integer has a word,
`Written.operand_spells`. No other integer is read, `Written.operand_spells_of_not`.
-/

namespace Peephole

/-! ### Spellings -/

namespace Numeral

theorem digitValue_lt_of_isHexDigit {c : Char} (h : Written.isHexDigit c) : digitValue c < 16 := by
  simp only [Written.isHexDigit, Char.isDigit, Bool.or_eq_true, Bool.and_eq_true,
    decide_eq_true_eq, Char.le_def, UInt32.le_iff_toNat_le] at h
  simp only [UInt32.reduceToNat, Char.reduceVal] at h
  rw [digitValue, Char.toNat]
  split
  · omega
  · split <;> omega

/-- A number in base sixteen is below the power that its digits say. -/
theorem value_lt {ds : List Char} (h : ∀ c ∈ ds, digitValue c < 16) :
    value 16 ds < 16 ^ ds.length := by
  induction ds using List.reverseRecOn with
  | nil => simp [value]
  | append_singleton ds c ih =>
    rw [List.forall_mem_append, List.forall_mem_singleton] at h
    have hds := ih h.1
    have hc := h.2
    simp only [value, List.foldl_append, List.foldl_cons, List.foldl_nil, List.length_append,
      List.length_singleton, Nat.pow_succ] at hds ⊢
    omega

/-- The spellings of an integer: in base ten without superfluous zeros, or in base sixteen with at
most sixteen digits. -/
inductive Spells : List Char → Int → Prop
  | decimal (n : Nat) : Spells (digits 10 n) n
  | negative {n : Nat} (positive : 0 < n) : Spells ('-' :: digits 10 n) (-n)
  | hexadecimal {ds : List Char} (nonempty : ds ≠ []) (few : ds.length ≤ 16)
      (hex : ∀ c ∈ ds, Written.isHexDigit c) : Spells ('0' :: 'x' :: ds) (value 16 ds)

end Numeral

namespace Written

open Numeral Reader

variable {t cs : List Char} {z : Int} {n : Nat}

/-- A number in base ten begins with a digit, behind which there is no letter. -/
theorem exists_digits_append_eq (n : Nat) (cs : List Char) :
    ∃ c d rest, digits 10 n ++ ':' :: cs = c :: d :: rest ∧ c.isDigit ∧ (d.isDigit ∨ d = ':') := by
  obtain ⟨c, ds, hdigits, hc⟩ := exists_digits_eq n
  rw [hdigits]
  cases ds with
  | nil => exact ⟨c, ':', cs, rfl, hc, .inr rfl⟩
  | cons d ds =>
    have hd : d ∈ digits 10 n := by simp [hdigits]
    exact ⟨c, d, ds ++ ':' :: cs, rfl, hc, .inl (isDigit_of_mem_digits hd)⟩

theorem hexNatural_digits (n : Nat) (cs : List Char) :
    hexNatural (digits 10 n ++ ':' :: cs) = .error (digits 10 n ++ ':' :: cs) := by
  obtain ⟨c, d, rest, heq, -, hd⟩ := exists_digits_append_eq n cs
  have hx : d ≠ 'x' := by
    rintro rfl
    obtain hd | hd := hd
    · cases hd
    · cases hd
  rw [heq]
  refine bind_of_error _ (word_of_absent fun h => ?_)
  obtain ⟨-, h⟩ := List.cons_prefix_cons.mp h
  exact hx (List.cons_prefix_cons.mp h).1.symm

/-- There is no sign in front of a digit. -/
theorem attempt_sign_digits (n : Nat) (cs : List Char) :
    attempt (Reader.char '-') (digits 10 n ++ ':' :: cs) =
      .ok (none, digits 10 n ++ ':' :: cs) := by
  obtain ⟨c, d, rest, heq, hc, -⟩ := exists_digits_append_eq n cs
  rw [heq]
  refine attempt_of_error (char_of_ne ?_)
  rintro rfl
  cases hc

theorem attempt_sign (cs : List Char) : attempt (Reader.char '-') ('-' :: cs) = .ok (some (), cs) :=
  attempt_of_ok (char_cons _ _)

theorem stops_colon (cs : List Char) : Stops Char.isDigit (':' :: cs) := stops_cons rfl

theorem integer_digits (hn : n < 2 ^ 64) (cs : List Char) :
    integer (digits 10 n ++ ':' :: cs) = .ok (n, ':' :: cs) := by
  have hle : n ≤ twoPow 64 - 1 := Nat.le_sub_one_of_lt hn
  rw [integer, bind_of_ok _ (attempt_sign_digits n cs),
    bind_of_ok _ (natural_digits hle (stops_colon cs))]
  rfl

theorem integer_digits_of_le (hn : 2 ^ 64 ≤ n) (cs : List Char) :
    ∃ stopped, integer (digits 10 n ++ ':' :: cs) = .error stopped := by
  have hlt : twoPow 64 - 1 < n := Nat.sub_one_lt_of_le (by decide) hn
  have hnatural := natural_digits_eq (n := n) (twoPow 64 - 1) (stops_colon cs)
  rw [if_pos hlt] at hnatural
  rw [integer, bind_of_ok _ (attempt_sign_digits n cs), bind_of_error _ hnatural]
  exact ⟨_, rfl⟩

theorem integer_negative (hn : n ≤ 2 ^ 63) (cs : List Char) :
    integer ('-' :: (digits 10 n ++ ':' :: cs)) = .ok ((2 ^ 64 - n) % 2 ^ 64, ':' :: cs) := by
  have hle : n ≤ twoPow 64 - 1 := Nat.le_trans hn (by decide)
  have hroom : ¬ twoPow 63 < n := Nat.not_lt.mpr hn
  rw [integer, bind_of_ok _ (attempt_sign _), bind_of_ok _ (natural_digits hle (stops_colon cs))]
  dsimp only [Option.isSome_some]
  rw [if_pos rfl, if_neg hroom]
  rfl

theorem integer_negative_of_lt (hn : 2 ^ 63 < n) (cs : List Char) :
    ∃ stopped, integer ('-' :: (digits 10 n ++ ':' :: cs)) = .error stopped := by
  have hnatural := natural_digits_eq (n := n) (twoPow 64 - 1) (stops_colon cs)
  have hlarge : twoPow 63 < n := hn
  rw [integer, bind_of_ok _ (attempt_sign _)]
  split at hnatural
  · exact ⟨_, bind_of_error _ hnatural⟩
  · refine ⟨':' :: cs, (bind_of_ok _ hnatural).trans ?_⟩
    dsimp only [Option.isSome_some]
    rw [if_pos rfl, if_pos hlarge]
    rfl

/-- An integer that fits into a word is read as that word, a negative one in two's complement. -/
theorem word_spells (h : Spells t z) (hlow : -2 ^ 63 ≤ z) (hhigh : z < 2 ^ 64) (cs : List Char) :
    orElse hexNatural integer (t ++ ':' :: cs) =
      .ok ((BitVec.ofInt 64 z).toNat, ':' :: cs) := by
  rw [BitVec.toNat_ofInt]
  cases h with
  | decimal n =>
    have hn : n < 2 ^ 64 := by omega
    rw [orElse_of_error (hexNatural_digits n cs), integer_digits hn]
    congr 2
    omega
  | @negative n positive =>
    have hn : n ≤ 2 ^ 63 := by omega
    have hhex : hexNatural ('-' :: (digits 10 n ++ ':' :: cs)) =
        .error ('-' :: (digits 10 n ++ ':' :: cs)) := rfl
    rw [List.cons_append, orElse_of_error hhex, integer_negative hn]
    congr 2
    omega
  | @hexadecimal ds nonempty few hex =>
    rw [List.cons_append, List.cons_append,
      orElse_of_ok (hexNatural_append nonempty few hex (stops_cons rfl))]
    congr 2
    omega

/-- No other integer is read. -/
theorem word_spells_of_not (h : Spells t z) (hz : ¬ (-2 ^ 63 ≤ z ∧ z < 2 ^ 64)) (cs : List Char) :
    ∃ stopped, orElse hexNatural integer (t ++ ':' :: cs) = .error stopped := by
  cases h with
  | decimal n =>
    rw [orElse_of_error (hexNatural_digits n cs)]
    exact integer_digits_of_le (by omega) cs
  | @negative n positive =>
    have hhex : hexNatural ('-' :: (digits 10 n ++ ':' :: cs)) =
        .error ('-' :: (digits 10 n ++ ':' :: cs)) := rfl
    rw [List.cons_append, orElse_of_error hhex]
    exact integer_negative_of_lt (by omega) cs
  | @hexadecimal ds nonempty few hex =>
    have hlt := value_lt fun c hc => digitValue_lt_of_isHexDigit (hex c hc)
    have hle : 16 ^ ds.length ≤ 16 ^ 16 := Nat.pow_le_pow_right (by decide) few
    omega

/-- What spells an integer, in front of its width, is no decimal fraction, since there is no point
behind its digits. -/
theorem fraction_of_spells (h : Spells t z) (cs : List Char) :
    ∃ stopped, fraction (t ++ ':' :: cs) = .error stopped := by
  have hdigits (n : Nat) : run1 Char.isDigit (digits 10 n ++ ':' :: cs) =
      .ok (digits 10 n, ':' :: cs) :=
    run1_append (fun _ => isDigit_of_mem_digits) (digits_ne_nil 10 n) (stops_colon cs)
  have hpoint : Reader.char '.' (':' :: cs) = .error (':' :: cs) := rfl
  cases h with
  | decimal n =>
    rw [fraction, bind_of_ok _ (attempt_sign_digits n cs), bind_of_ok _ (hdigits n)]
    exact ⟨_, bind_of_error _ hpoint⟩
  | @negative n positive =>
    rw [List.cons_append, fraction, bind_of_ok _ (attempt_sign _), bind_of_ok _ (hdigits n)]
    exact ⟨_, bind_of_error _ hpoint⟩
  | @hexadecimal ds nonempty few hex => exact ⟨'x' :: (ds ++ ':' :: cs), rfl⟩

/-- Nor is it one of the words that stand for other floats. -/
theorem not_prefix_of_spells (h : Spells t z) (cs : List Char) :
    ¬ "nan".toList <+: t ++ ':' :: cs ∧ ¬ "inf".toList <+: t ++ ':' :: cs ∧
      ¬ "-inf".toList <+: t ++ ':' :: cs := by
  have hfirst {a b : Char} {as bs : List Char} (hne : a ≠ b) : ¬ a :: as <+: b :: bs :=
    fun hp => hne (List.cons_prefix_cons.mp hp).1
  have hdigit {a c : Char} (ha : a.isDigit = false) (hc : c.isDigit) : a ≠ c := by
    rintro rfl
    rw [hc] at ha
    cases ha
  cases h with
  | decimal n =>
    obtain ⟨c, d, rest, heq, hc, -⟩ := exists_digits_append_eq n cs
    rw [heq]
    exact ⟨hfirst (hdigit rfl hc), hfirst (hdigit rfl hc), hfirst (hdigit rfl hc)⟩
  | @negative n positive =>
    obtain ⟨c, d, rest, heq, hc, -⟩ := exists_digits_append_eq n cs
    rw [List.cons_append, heq]
    exact ⟨hfirst (by decide), hfirst (by decide),
      fun hp => hfirst (hdigit rfl hc) (List.cons_prefix_cons.mp hp).2⟩
  | hexadecimal => exact ⟨hfirst (by decide), hfirst (by decide), hfirst (by decide)⟩

theorem floatOperand_of_spells (h : Spells t z) (cs : List Char) :
    ∃ stopped, floatOperand (t ++ ':' :: cs) = .error stopped := by
  obtain ⟨stopped, hfraction⟩ := fraction_of_spells h cs
  obtain ⟨hnan, hinf, hneg⟩ := not_prefix_of_spells h cs
  have hdatum : datum (t ++ ':' :: cs) = .error stopped := by
    rw [datum, orElse_of_error (bind_of_error _ (word_of_absent hnan)),
      orElse_of_error (bind_of_error _ (word_of_absent hinf)),
      orElse_of_error (bind_of_error _ (word_of_absent hneg)), hfraction]
  exact ⟨stopped, bind_of_error _ hdatum⟩

/-- A spelling begins with a digit or a sign. -/
theorem exists_spells_eq (h : Spells t z) :
    ∃ c rest, t = c :: rest ∧ (c.isDigit ∨ c = '-') := by
  cases h with
  | decimal n =>
    obtain ⟨c, ds, hdigits, hc⟩ := exists_digits_eq n
    exact ⟨c, ds, hdigits, .inl hc⟩
  | negative => exact ⟨_, _, rfl, .inr rfl⟩
  | hexadecimal => exact ⟨_, _, rfl, .inl rfl⟩

theorem dropBlank_spells (h : Spells t z) (cs : List Char) :
    dropBlank false (t ++ ':' :: cs) = t ++ ':' :: cs := by
  obtain ⟨c, rest, rfl, hc⟩ := exists_spells_eq h
  obtain hc | rfl := hc
  · have hname := isNameChar_of_isDigit hc
    exact dropBlank_cons (isBlank_of_isNameChar hname) (ne_of_isNameChar hname rfl)
  · exact dropBlank_cons rfl (by decide)

/-- What spells an integer is read as an integer or not at all. -/
theorem operand_of_spells (h : Spells t z) (cs : List Char) :
    operand (t ++ ':' :: cs) = integerOperand (t ++ ':' :: cs) := by
  obtain ⟨c, rest, ht, hc⟩ := exists_spells_eq h
  have hsign : Reader.char '%' (t ++ ':' :: cs) = .error (t ++ ':' :: cs) := by
    rw [ht]
    refine char_of_ne ?_
    rintro rfl
    obtain hc | hc := hc <;> cases hc
  have hvalue : (Operand.value <$> valueName) (t ++ ':' :: cs) = .error (t ++ ':' :: cs) :=
    map_of_error Operand.value (bind_of_error _ hsign)
  obtain ⟨stopped, hfloat⟩ := floatOperand_of_spells h cs
  rw [operand, orElse_of_error hvalue, orElse_of_error hfloat]

variable {w : Nat}

/-- An integer in front of its width is read as the word that it is. -/
theorem operand_spells (h : Spells t z) (hlow : -2 ^ 63 ≤ z) (hhigh : z < 2 ^ 64) (hw : w ≤ 255)
    (hs : Stops Char.isDigit cs) : operand (t ++ ':' :: (digits 10 w ++ cs)) =
      .ok (.integer (BitVec.ofInt 64 z).toNat w, cs) := by
  rw [operand_of_spells h, integerOperand, bind_of_ok _ (word_spells h hlow hhigh _),
    bind_of_ok _ (char_cons _ _), bind_of_ok _ (width_digits hw hs)]
  rfl

theorem operand_spells_of_not (h : Spells t z) (hz : ¬ (-2 ^ 63 ≤ z ∧ z < 2 ^ 64))
    (cs : List Char) : ∃ stopped, operand (t ++ ':' :: cs) = .error stopped := by
  obtain ⟨stopped, hword⟩ := word_spells_of_not h hz cs
  rw [operand_of_spells h]
  exact ⟨stopped, bind_of_error _ hword⟩

end Written

end Peephole

import Peephole.Proofs.Text.Reader
import Mathlib.Algebra.Group.Nat.Defs

/-!
# Numerals read back

The readers of numbers take what `Numeral.digits` writes. In base ten that is a number without
superfluous zeros, `natural_digits_eq`; in base sixteen it has at most sixteen digits for a word,
`hexNatural_hexadecimal`.
-/

namespace Peephole

namespace Numeral

variable {base n : Nat}

/-! ### Digits -/

/-- Digits are digits of the base. -/
theorem exists_of_mem_digits (hb : 2 ≤ base) {c : Char} (h : c ∈ digits base n) :
    ∃ k < base, c = digitChar k := by
  induction n using Nat.strongRecOn with
  | ind n ih =>
    rw [digits] at h
    split at h
    · next hn =>
      obtain rfl := List.mem_singleton.mp h
      exact ⟨n, by omega, rfl⟩
    · obtain h | h := List.mem_append.mp h
      · exact ih _ (Nat.div_lt_self (by omega) (by omega)) h
      · obtain rfl := List.mem_singleton.mp h
        exact ⟨n % base, Nat.mod_lt n (by omega), rfl⟩

theorem digits_ne_nil (base n : Nat) : digits base n ≠ [] := by
  rw [digits]
  split <;> simp

/-- The first digit of a number is not a superfluous zero. -/
theorem head_digits_ne (hb : 2 ≤ base) (hs : base ≤ 16) (hn : n ≠ 0) :
    (digits base n).head (digits_ne_nil base n) ≠ '0' := by
  induction n using Nat.strongRecOn with
  | ind n ih =>
    by_cases hlt : n < base ∨ base < 2
    · intro hzero
      have hdigits : digits base n = [digitChar n] := by rw [digits, dif_pos hlt]
      simp only [hdigits, List.head_cons] at hzero
      have hvalue := digitValue_digitChar (n := n) (by omega)
      rw [hzero] at hvalue
      exact hn hvalue.symm
    · have hdigits : digits base n = digits base (n / base) ++ [digitChar (n % base)] := by
        rw [digits, dif_neg hlt]
      have hpos : n / base ≠ 0 := by
        have := Nat.div_pos (a := n) (b := base) (by omega) (by omega)
        omega
      have hhead := ih (n / base) (Nat.div_lt_self (by omega) (by omega)) hpos
      simpa only [hdigits, List.head_append_of_ne_nil (digits_ne_nil base (n / base))] using hhead

/-- A number below a power of the base has at most as many digits as the exponent says. -/
theorem length_digits_le (hb : 2 ≤ base) {k : Nat} (h : n < base ^ (k + 1)) :
    (digits base n).length ≤ k + 1 := by
  induction k generalizing n with
  | zero =>
    rw [digits, dif_pos (.inl (by simpa using h))]
    exact Nat.le_refl 1
  | succ k ih =>
    rw [digits]
    split
    · simp
    · have hdiv : n / base < base ^ (k + 1) := by
        rw [Nat.div_lt_iff_lt_mul (by omega), ← Nat.pow_succ]
        exact h
      have := ih hdiv
      rw [List.length_append, List.length_singleton]
      omega

/-- Numbers are told by their digits. -/
theorem decimal_inj {m n : Nat} : decimal m = decimal n ↔ m = n := by
  constructor
  · intro h
    have hdigits : digits 10 m = digits 10 n := String.ofList_injective h
    have hvalue := congrArg (value 10) hdigits
    rwa [value_digits (by decide) (by decide), value_digits (by decide) (by decide)] at hvalue
  · rintro rfl
    rfl

end Numeral

namespace Written

open Numeral Reader

variable {n : Nat} {cs : List Char}

/-! ### Classes of digits -/

theorem isDigit_of_mem_digits {c : Char} (h : c ∈ digits 10 n) : c.isDigit := by
  obtain ⟨k, hk, rfl⟩ := exists_of_mem_digits (by decide) h
  have : ∀ k : Fin 10, (digitChar k).isDigit := by decide
  exact this ⟨k, hk⟩

theorem isHexDigit_of_mem_digits {c : Char} (h : c ∈ digits 16 n) : isHexDigit c := by
  obtain ⟨k, hk, rfl⟩ := exists_of_mem_digits (by decide) h
  have : ∀ k : Fin 16, isHexDigit (digitChar k) := by decide
  exact this ⟨k, hk⟩

/-! ### Readers of numbers -/

/-- A number in base ten is taken up to the limit. -/
theorem natural_digits_eq (limit : Nat) (hs : Stops Char.isDigit cs) :
    natural limit (digits 10 n ++ cs) =
      if limit < n then .error (digits 10 n ++ cs) else .ok (n, cs) := by
  have htake : (digits 10 n ++ cs).takeWhile Char.isDigit = digits 10 n :=
    takeWhile_append (fun _ => isDigit_of_mem_digits) hs
  have hdrop : (digits 10 n ++ cs).dropWhile Char.isDigit = cs :=
    dropWhile_append (fun _ => isDigit_of_mem_digits) hs
  have hvalue : value 10 (digits 10 n) = n := value_digits (by decide) (by decide)
  obtain ⟨c, ds, hdigits⟩ := List.exists_cons_of_ne_nil (digits_ne_nil 10 n)
  unfold natural
  split
  · next rest heq =>
    -- a number that begins with a zero is zero
    obtain rfl : c = '0' := by
      rw [hdigits] at heq
      exact (List.cons.inj heq).1
    obtain rfl : n = 0 := by
      by_contra hne
      have hhead := head_digits_ne (by decide : 2 ≤ 10) (by decide) hne
      simp [hdigits] at hhead
    have hzero : digits 10 0 = ['0'] := by
      rw [digits]
      rfl
    rw [hzero] at heq
    obtain rfl : cs = rest := (List.cons.inj heq).2
    rfl
  · dsimp only
    rw [htake, hdrop, hvalue]
    simp [digits_ne_nil]

/-- A number is read back in base ten. -/
theorem natural_digits {limit : Nat} (hn : n ≤ limit) (hs : Stops Char.isDigit cs) :
    natural limit (digits 10 n ++ cs) = .ok (n, cs) := by
  rw [natural_digits_eq limit hs, if_neg (Nat.not_lt.mpr hn)]

/-- A width is read back. -/
theorem width_digits (hn : n ≤ 255) (hs : Stops Char.isDigit cs) :
    width (digits 10 n ++ cs) = .ok (n, cs) :=
  natural_digits hn hs

/-- Digits in base sixteen are read as the number that they stand for, unless they are too many. -/
theorem hexNatural_append {ds : List Char} (hne : ds ≠ []) (hfew : ds.length ≤ 16)
    (hhex : ∀ c ∈ ds, isHexDigit c) (hs : Stops isHexDigit cs) :
    hexNatural ('0' :: 'x' :: (ds ++ cs)) = .ok (value 16 ds, cs) := by
  have htext : '0' :: 'x' :: (ds ++ cs) = "0x".toList ++ (ds ++ cs) := rfl
  rw [htext, hexNatural, bind_of_ok _ (word_append _ _)]
  dsimp only
  rw [takeWhile_append hhex hs, dropWhile_append hhex hs, if_neg]
  simp [hne, Nat.not_lt.mpr hfew]

/-- The bits of a word are read back in base sixteen. -/
theorem hexNatural_hexadecimal (hn : n < twoPow 64) (hs : Stops isHexDigit cs) :
    hexNatural ((hexadecimal n).toList ++ cs) = .ok (n, cs) := by
  have hlength : (digits 16 n).length ≤ 16 := length_digits_le (k := 15) (by decide) hn
  have hvalue : value 16 (digits 16 n) = n := value_digits (by decide) (by decide)
  have htext : (hexadecimal n).toList ++ cs = '0' :: 'x' :: (digits 16 n ++ cs) := by
    simp [hexadecimal]
  rw [htext, hexNatural_append (digits_ne_nil 16 n) hlength (fun _ => isHexDigit_of_mem_digits) hs,
    hvalue]

end Written

end Peephole

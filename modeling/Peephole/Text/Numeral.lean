/-!
# Numerals

Numbers written in positional notation, in base ten or sixteen with lower-case letters. `value`
reads back what `digits` writes.
-/

namespace Peephole

namespace Numeral

/-- The digit of a number below sixteen. -/
def digitChar (n : Nat) : Char := if n < 10 then Char.ofNat (48 + n) else Char.ofNat (87 + n)

/-- The number of a digit, of either case. -/
def digitValue (c : Char) : Nat :=
  if c.toNat < 65 then c.toNat - 48 else if c.toNat < 97 then c.toNat - 55 else c.toNat - 87

/-- The digits of a number in a base, without leading zeros. -/
def digits (base n : Nat) : List Char :=
  if _h : n < base ∨ base < 2 then [digitChar n]
  else digits base (n / base) ++ [digitChar (n % base)]
termination_by n
decreasing_by exact Nat.div_lt_self (by omega) (by omega)

/-- The number that a list of digits stands for. -/
def value (base : Nat) (cs : List Char) : Nat :=
  cs.foldl (fun n c => base * n + digitValue c) 0

/-- A number in base ten. -/
def decimal (n : Nat) : String := String.ofList (digits 10 n)

/-- A number in base sixteen, marked as such. -/
def hexadecimal (n : Nat) : String := "0x" ++ String.ofList (digits 16 n)

/-- A digit reads back as its number. -/
theorem digitValue_digitChar {n : Nat} (h : n < 16) : digitValue (digitChar n) = n := by
  have : ∀ k : Fin 16, digitValue (digitChar k) = k := by decide
  exact this ⟨n, h⟩

/-- What is written reads back as the number. -/
theorem value_digits {base n : Nat} (hb : 2 ≤ base) (hs : base ≤ 16) :
    value base (digits base n) = n := by
  induction n using Nat.strongRecOn with
  | ind n ih =>
    rw [digits]
    split
    · have hn : n < 16 := by omega
      simp [value, digitValue_digitChar hn]
    · have hlt : n / base < n := Nat.div_lt_self (by omega) (by omega)
      have hd : n % base < 16 := Nat.lt_of_lt_of_le (Nat.mod_lt _ (by omega)) hs
      have hv := ih _ hlt
      simp only [value] at hv
      simp only [value, List.foldl_append, List.foldl_cons, List.foldl_nil, hv,
        digitValue_digitChar hd]
      exact Nat.div_add_mod n base

end Numeral

end Peephole

/-!
# Widths

Every value of the language has a **width**, its number of bits. Five widths are supported, and
three of them carry a floating-point format. A word of the machine is always 64 bits wide; a value
of width `w` occupies its low `w` bits.

* `WidthClass` enumerates the supported widths; `WidthClass.ofBits?` recognises them.
* `mask w` keeps the low `w` bits of a word, `signed` reads them as a two's complement integer.
-/

namespace Peephole

/-- A machine word. -/
abbrev Word := BitVec 64

/-! ### Supported widths -/

/-- A **width class**: one of the supported widths. -/
inductive WidthClass
  | b1 | b8 | b16 | b32 | b64
  deriving DecidableEq, Repr

namespace WidthClass

/-- Every class, narrowest first. -/
def all : List WidthClass := [b1, b8, b16, b32, b64]

/-- The number of bits of a class. -/
def bits : WidthClass → Nat
  | b1 => 1
  | b8 => 8
  | b16 => 16
  | b32 => 32
  | b64 => 64

/-- The position of a class in `all`. -/
def index : WidthClass → Fin 5
  | b1 => 0
  | b8 => 1
  | b16 => 2
  | b32 => 3
  | b64 => 4

/-- The class of a width, if the width is supported. -/
def ofBits? : Nat → Option WidthClass
  | 1 => some b1
  | 8 => some b8
  | 16 => some b16
  | 32 => some b32
  | 64 => some b64
  | _ => none

@[simp] theorem ofBits?_bits (c : WidthClass) : ofBits? c.bits = some c := by
  cases c <;> rfl

theorem bits_of_ofBits? {w : Nat} {c : WidthClass} (h : ofBits? w = some c) : c.bits = w := by
  unfold ofBits? at h
  split at h <;> first | (cases h; rfl) | cases h

end WidthClass

/-- A width is **supported** when it has a class. -/
def supported (w : Nat) : Bool := (WidthClass.ofBits? w).isSome

/-- A width is a **float width** when it has a floating-point format. -/
def isFloatWidth (w : Nat) : Bool := w == 16 || w == 32 || w == 64

theorem supported_of_isFloatWidth {w : Nat} (h : isFloatWidth w) : supported w := by
  simp only [isFloatWidth, Bool.or_eq_true, beq_iff_eq] at h
  rcases h with (rfl | rfl) | rfl <;> rfl

/-! ### The low bits of a word -/

/-- The power of two of an exponent. -/
def twoPow (n : Nat) : Nat := Nat.pow 2 n

/-- The word whose low `w` bits are set and whose other bits are clear. -/
def mask (w : Nat) : Word := BitVec.ofNat 64 (twoPow w - 1)

/-- The low `w` bits of a word as a two's complement integer. Widths count modulo 64, so that
width 64 reads the whole word. -/
def signed (b : Word) (w : Nat) : Int :=
  (b.setWidth ((w + 63) % 64 + 1)).toInt

end Peephole

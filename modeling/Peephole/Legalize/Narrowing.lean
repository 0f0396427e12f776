import Peephole.Rule.Term

/-!
# Conversions through narrow integers

A conversion of a value that has just been converted to `n` bits, `n` being 8 or 16, is replaced, so
that the `n`-bit integer never exists.

* Only the low `n` bits of an integer matter. They are taken by a mask where the outer conversion
  reads an unsigned source, and by a pair of shifts, which extends the sign, where it reads a signed
  one.
* A float that becomes an integer by way of `n` bits is converted to the outer width at once, and
  the low bits of that are taken.
* A float that becomes a float by way of `n` bits is clamped to the range of `n`-bit integers.
-/

namespace Peephole

namespace Legalize

/-- The widths that remain when `n` bits are too few. -/
def wide (n : Nat) : List Nat := [16, 32, 64].filter (n < ·)

/-- The variable of the rules, for values of one width. -/
def source (width : Nat) : Term := .value 0 (.of width)

/-- The variable of the rules, for values of any width. -/
def anySource : Term := .value 0 .any

/-- The low `n` bits of a term of some width, extended to that width the way a family reads its
source. -/
def lowBits (n : Nat) (outer : Family) (width : Nat) (x : Term) : Term :=
  match outer.source with
  | .int =>
    let distance := Term.int 32 (BitVec.ofNat 64 (width - n))
    .op .ishr width [.op .ishl width [x, distance], distance]
  | _ => .commuting .iand width [x, .int width (mask n)]

/-- The least number that a family reads in `n` bits. -/
def least (n : Nat) (outer : Family) : Int :=
  match outer.source with
  | .int => -twoPow (n - 1)
  | _ => 0

/-- The greatest number that a family reads in `n` bits. -/
def greatest (n : Nat) (outer : Family) : Int :=
  match outer.source with
  | .int => twoPow (n - 1) - 1
  | _ => twoPow n - 1

/-- Two integer conversions in a row. -/
def ofInteger (n : Nat) (outer : Family) (width : Nat) (inner : Family) (s : Nat) : TermRule :=
  let low := lowBits n outer s (source s)
  { search := .convert outer width (.convert inner n (source s))
    replace := if inner = outer ∧ s = width then low else .convert outer width low }

/-- A float to an integer by way of a narrow one. -/
def ofFloat (n : Nat) (outer : Family) (width : Nat) (inner : Family) : TermRule :=
  { search := .convert outer width (.convert inner n anySource)
    replace := lowBits n outer width (.convert inner width anySource) }

/-- A float to a float by way of a narrow integer. -/
def clamp (n : Nat) (outer : Family) (width : Nat) (inner : Family) (s : Nat) : TermRule :=
  let atLeast := Term.commuting .fmax s [source s, .float s (least n outer)]
  let clamped := Term.commuting .fmin s [atLeast, .float s (greatest n outer)]
  { search := .convert outer width (.convert inner n (source s))
    replace := if s = width then clamped else .convert .f2f width clamped }

/-- The rules for one outer conversion. -/
def narrowingTo (n : Nat) (outer : Family) (width : Nat) : List TermRule :=
  let integers := [Family.u2u, .i2i].flatMap fun inner =>
    (wide n).map (ofInteger n outer width inner)
  let floats := [Family.f2u, .f2i].flatMap fun inner =>
    match outer.result with
    | .float => (wide n).map (clamp n outer width inner)
    | _ => [ofFloat n outer width inner]
  integers ++ floats

/-- The rules for conversions through `n` bits. -/
def narrowing (n : Nat) : List TermRule :=
  [Family.u2u, .i2i, .u2f, .i2f].flatMap fun outer => (wide n).flatMap (narrowingTo n outer)

/-- Half-precision numbers in the low half of a word are read and written there. -/
def halfPacking : List TermRule :=
  [ { search := .convert .f2f 32 (.convert .u2u 16 (source 32))
      replace := .op .unpackHalf2x16SplitX 32 [source 32] },
    { search := .convert .u2u 32 (.op .f2f16Rtz 16 [source 32])
      replace := .op .packHalf2x16Split 32 [source 32, .int 32 0] } ]

end Legalize

end Peephole

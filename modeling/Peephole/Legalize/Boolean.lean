import Peephole.Rule.Term

/-!
# Truth values of 32 bits

Truth values live in one bit. A truth value widened to 32 bits becomes the integer 0 or 1, and one
narrowed to a bit becomes a comparison of that integer with 0.
-/

namespace Peephole

namespace Legalize

/-- The integer that a truth value becomes. -/
def truthAsInt : Term := .op .b2i32 32 [.value 0 .any]

/-- The rules for conversions between truth values. -/
def booleans : List TermRule :=
  [ { search := .convert .b2b 32 (.value 0 .any), replace := truthAsInt },
    { search := .convert .b2b 1 (.value 0 .any),
      replace := .commuting .ine 1 [truthAsInt, .int 32 0] } ]

end Legalize

end Peephole

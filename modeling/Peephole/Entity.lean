/-!
# Entities

Instructions, values and blocks of a function are referred to by number. Each kind has a type of its
own, so that a reference to one is never mistaken for a reference to another.
-/

namespace Peephole

/-- A reference to a value. -/
structure ValueId where
  /-- The number of the value, in order of creation. -/
  index : Nat
  deriving DecidableEq, Repr, Inhabited

/-- A reference to an instruction. -/
structure InstId where
  /-- The number of the instruction, in order of creation. -/
  index : Nat
  deriving DecidableEq, Repr, Inhabited

/-- A reference to a block. -/
structure BlockId where
  /-- The number of the block, in order of creation. -/
  index : Nat
  deriving DecidableEq, Repr, Inhabited

/-- The name of a value in messages. -/
def ValueId.name (v : ValueId) : String := s!"v{v.index}"

/-- The name of an instruction in messages. -/
def InstId.name (i : InstId) : String := s!"inst{i.index}"

/-- The name of a block in messages. -/
def BlockId.name (b : BlockId) : String := s!"block{b.index}"

end Peephole

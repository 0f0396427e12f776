import Peephole.Func.Basic

/-!
# Legalized functions

What the three passes leave behind in a function. The first two look at conversions of conversions:
an instruction **feeds** another one when its result is an operand of it. The third one looks at
single instructions, and keeps what a function stores only where truth values of 32 bits are not
read as words.
-/

namespace Peephole

namespace Legalize

/-- Whether an attached instruction takes the result of another instruction. -/
def Feeds (f : Func) (e d : Inst) : Prop :=
  ∃ i ∈ f.layout, f.inst? i = some d ∧
    ∃ v ∈ d.operands, ∃ j, f.definer? v = some j ∧ f.inst? j = some e

/-- Whether truth values of 32 bits are read by conversions of truth values only. -/
def BoolsConverted (f : Func) : Prop :=
  ∀ e d, Feeds f e d → e.opcode = .b2b32 →
    ∃ family ∈ [Family.b2b, .b2i, .b2f], d.opcode.family? = some family

instance (f : Func) : Decidable (BoolsConverted f) :=
  decidable_of_iff (∀ i ∈ f.layout, ∀ d ∈ f.inst? i, ∀ v ∈ d.operands, ∀ j ∈ f.definer? v,
      ∀ e ∈ f.inst? j, e.opcode = .b2b32 →
        ∃ family ∈ [Family.b2b, .b2i, .b2f], d.opcode.family? = some family) <| by
    constructor
    · rintro h e d ⟨i, hi, hd, v, hv, j, hj, he⟩ hop
      exact h i hi d hd v hv j hj e he hop
    · intro h i hi d hd v hv j hj e he hop
      exact h e d ⟨i, hi, hd, v, hv, j, hj, he⟩ hop

end Legalize

end Peephole

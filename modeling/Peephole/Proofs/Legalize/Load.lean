import Peephole.Legalize.Program
import Peephole.Proofs.Rule.Load

/-!
# The tables of the narrowing passes

Loading checks a table as a whole, and the checks are run once for each of the two tables.
-/

namespace Peephole

namespace Legalize

set_option maxRecDepth 100000 in
theorem load_lowering8 : ∃ rs, RuleSet.load lowering8 = .ok rs :=
  RuleSet.exists_load (by decide +kernel)

set_option maxRecDepth 100000 in
theorem load_lowering16 : ∃ rs, RuleSet.load lowering16 = .ok rs :=
  RuleSet.exists_load (by decide +kernel)

end Legalize

end Peephole

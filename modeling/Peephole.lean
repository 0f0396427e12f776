import Peephole.Func.Arena
import Peephole.Func.Execute
import Peephole.Func.Reachable
import Peephole.Func.Shape
import Peephole.Func.Valid
import Peephole.Func.Validate
import Peephole.Legalize.Legal
import Peephole.Legalize.Program
import Peephole.Match.Fits
import Peephole.Proofs.Build.Sized
import Peephole.Proofs.Func.Arena
import Peephole.Proofs.Func.Renaming
import Peephole.Proofs.Func.Safety
import Peephole.Proofs.Integer
import Peephole.Proofs.Legalize.Converge
import Peephole.Proofs.Legalize.Fixpoint
import Peephole.Proofs.Legalize.Saturation
import Peephole.Proofs.Legalize.Soundness
import Peephole.Proofs.Legalize.Truth
import Peephole.Proofs.Match.Exchange
import Peephole.Proofs.Match.Search
import Peephole.Proofs.Pass.Caps
import Peephole.Proofs.Pass.Dead
import Peephole.Proofs.Pass.Naive
import Peephole.Proofs.Pass.Structure
import Peephole.Proofs.Pass.Widths
import Peephole.Proofs.Predicate
import Peephole.Proofs.Rule.Route
import Peephole.Proofs.Text.Located
import Peephole.Proofs.Text.Operand
import Peephole.Proofs.Text.Reread
import Peephole.Proofs.Text.WellFormed
import Peephole.Rule.Meaning

import Peephole.Entity
import Peephole.Opcode
import Peephole.Text.Numeral

/-!
# Events

What a pass reports while it works, in the order in which it happens.
-/

namespace Peephole

/-- An event of a pass. -/
inductive Event
  /-- An operation on literals that became a literal. -/
  | folded (op : Opcode) (bits width : Nat)
  /-- An instruction for which a table has no rules. -/
  | noRules (table : String) (op : Opcode) (inst : InstId)
  /-- A rule that replaced an instruction. -/
  | applied (table : String) (rule : Nat) (op : Opcode) (inst : InstId)
  /-- A function that was still changing when the sweeps were used up. -/
  | stillChanging (table func : String) (iterations : Nat)
  /-- A program that a pass has been over. -/
  | finished (table program : String) (changed : Bool)
  deriving DecidableEq, Repr

/-- The text of an event, its level first. -/
def Event.message : Event → String
  | folded op bits width =>
    s!"TRACE build: folded {op.name} to {Numeral.hexadecimal bits}:{width}"
  | noRules table op inst => s!"TRACE {table}: no rules for {op.name} ({inst.name})"
  | applied table rule op inst =>
    s!"DEBUG {table}: rule {rule} rewrote {op.name} ({inst.name})"
  | stillChanging table func iterations =>
    s!"WARN {table}: @{func} still changing after {iterations} iterations"
  | finished table program changed => s!"DEBUG {table}: module {program} changed = {changed}"

end Peephole

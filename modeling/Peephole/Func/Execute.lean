import Peephole.Evaluate
import Peephole.Func.Basic

/-!
# Execution

What a function computes. The attached instructions are executed in layout order; what can be
observed are the literals that they **store**. An execution that meets an operand without a literal,
or an operation without a value, is **stuck**.
-/

namespace Peephole

/-- The literals that parameters and results have been given. -/
abbrev Env := ValueId → Option Literal

/-- The state of an execution. -/
structure Execution where
  /-- The literals of parameters and results so far. -/
  env : Env
  /-- The literals stored so far. -/
  stored : List Literal

namespace Func

/-- The literal that a value stands for: the value itself, or what it has been given. -/
def literalIn? (f : Func) (env : Env) (v : ValueId) : Option Literal := f.literal? v <|> env v

/-- The start of an execution: every parameter is given the low bits of its argument. -/
def enter (f : Func) (args : List Word) : Execution where
  env v := ((f.params.zip args).lookup v).map fun bits => .of bits (f.width v)
  stored := []

/-- Executes an instruction. One without a result stores its operand. -/
def step (f : Func) (s : Execution) (i : InstId) : Option Execution := do
  let d ← f.inst? i
  let sources ← d.operands.mapM (f.literalIn? s.env)
  match d.result with
  | none => return { s with stored := s.stored ++ sources }
  | some v =>
    let bits ← (evaluate d.opcode d.width sources).toOption.join
    return { s with env := fun u => if u = v then some (.of bits d.width) else s.env u }

/-- Executes a function on a list of arguments; `none` if it is stuck. -/
def execute (f : Func) (args : List Word) : Option Execution :=
  f.layout.foldlM f.step (f.enter args)

/-- The literals that a function stores, in order; `none` if it is stuck. -/
def stores (f : Func) (args : List Word) : Option (List Literal) := (f.execute args).map (·.stored)

/-- The literal that a value has at the end of an execution. -/
def finally? (f : Func) (args : List Word) (v : ValueId) : Option Literal :=
  (f.execute args).bind fun s => f.literalIn? s.env v

end Func

end Peephole

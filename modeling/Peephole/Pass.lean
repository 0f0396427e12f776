import Peephole.Build
import Peephole.Func.Dead

/-!
# Passes

A **pass** applies the rules of a rule set to a function until nothing changes. It goes over the
function in **sweeps**: a sweep visits every block, and every instruction that the block has when it
is entered, and replaces an instruction by the first rule that matches. What a replacement leaves
dead is erased. Instructions that an earlier replacement has detached are passed over, and
instructions that a replacement has inserted wait for the next sweep.

A pass has a cap on its sweeps, and a flag for each condition of its rules.
-/

namespace Peephole

/-! ### Passes and their settings -/

/-- The cap on sweeps that a pass has unless it is told otherwise. -/
def defaultIterations : Nat := 64

/-- The settings of a pass. -/
structure PassConfig where
  /-- The cap on sweeps; 0 stands for the default. -/
  maxIterations : Nat
  /-- Condition flags by name. Conditions that are not listed are off. -/
  conditions : List (String × Bool)
  deriving DecidableEq, Repr

/-- The settings of a pass that says nothing. -/
def PassConfig.default : PassConfig := ⟨defaultIterations, []⟩

/-- Settings that do not fit a rule set. -/
inductive ConfigError
  | unknownCondition (table name : String)
  deriving DecidableEq, Repr

/-- The text of an error. -/
def ConfigError.message : ConfigError → String
  | unknownCondition table name => s!"rule set `{table}` has no condition named `{name}`"

/-- A rule set with its condition flags and a cap on sweeps. -/
structure Pass where
  /-- The rules. -/
  rules : RuleSet
  /-- The flag of each condition. -/
  conditions : List Bool
  /-- The cap on sweeps. -/
  maxIterations : Nat

namespace Pass

/-- The pass of a rule set with every condition off. -/
def new (rs : RuleSet) : Pass :=
  ⟨rs, List.replicate rs.table.conditions.length false, defaultIterations⟩

/-- Sets the cap on sweeps; 0 restores the default. -/
def withMaxIterations (p : Pass) (n : Nat) : Pass :=
  { p with maxIterations := if n = 0 then defaultIterations else n }

/-- Sets a condition by name. -/
def withCondition (p : Pass) (name : String) (enabled : Bool) : Except ConfigError Pass :=
  match p.rules.conditionIndex? name with
  | some k => .ok { p with conditions := p.conditions.set k enabled }
  | none => .error (.unknownCondition p.rules.name name)

/-- Sets a condition by number, which must exist. -/
def setCondition (p : Pass) (k : Nat) (enabled : Bool) : Except Fault Pass :=
  if k < p.conditions.length then .ok { p with conditions := p.conditions.set k enabled }
  else .error .outOfBounds

/-- The pass of a rule set with given settings. Conditions are set in the order of their names. -/
def ofConfig (rs : RuleSet) (c : PassConfig) : Except ConfigError Pass :=
  (c.conditions.mergeSort fun a b => a.1 ≤ b.1).foldlM
    (fun p (name, enabled) => p.withCondition name enabled)
    ((new rs).withMaxIterations c.maxIterations)

/-- Whether a rule is tried at all. -/
def isEnabled (p : Pass) (r : Rule) : Bool :=
  match r.condition with
  | some k => p.conditions[k]?.getD false
  | none => true

/-! ### Sweeps -/

/-- What a part of a run has come to. -/
structure Progress where
  /-- The function so far. -/
  func : Func
  /-- The number of instructions replaced so far. -/
  replaced : Nat
  /-- The events so far. -/
  events : List Event

/-- The first rule of a run that is enabled and matches an instruction: its number, the rule, and
the bindings. -/
def firstMatch (p : Pass) (f : Func) (i : InstId) (run : Run) : Option (Nat × Rule × Bindings) :=
  run.indices.findSome? fun k =>
    match p.rules.rules[k]? with
    | some r => if p.isEnabled r then (r.matchInst f i).map (k, r, ·) else none
    | none => none

/-- Puts the replacement of a rule in the place of the result of an instruction, and erases the
instruction and what dies with it. A replacement that nothing uses is erased as well. -/
def commit (f : Func) (i : InstId) (result : ValueId) (r : Rule) (b : Bindings) :
    Except Fault (Func × List Event) := do
  let (x, f, events) ← r.replace.build f b i
  let (_, f) ← ((f.replaceAllUses result x).eraseDead i).toExcept
  match f.definer? x with
  | some j =>
    let (_, f) ← (f.eraseDead j).toExcept
    return (f, events)
  | none => return (f, events)

/-- Replaces an instruction by the first rule that matches it. An instruction that no rule matches
stays. -/
def visit (p : Pass) (s : Progress) (i : InstId) : Except Fault Progress := do
  let d ← s.func.requireInst i
  match d.result with
  | none => return s
  | some result =>
    let run := p.rules.candidates d.opcode d.width
    if run.length = 0 then
      return { s with events := s.events ++ [.noRules p.rules.name d.opcode i] }
    else
      match p.firstMatch s.func i run with
      | none => return s
      | some (k, r, b) =>
        let (f, events) ← commit s.func i result r b
        return ⟨f, s.replaced + 1, s.events ++ events ++ [.applied p.rules.name k d.opcode i]⟩

/-- Goes over the instructions that a block has on entry. -/
def sweepBlock (p : Pass) (s : Progress) (b : BlockId) : Except Fault Progress :=
  (s.func.blockInsts b).foldlM
    (fun s i => if s.func.isAttached i then p.visit s i else .ok s) s

/-- Goes over every block once. -/
def sweep (p : Pass) (f : Func) : Except Fault Progress :=
  f.blockIds.foldlM p.sweepBlock ⟨f, 0, []⟩

/-! ### Runs -/

/-- The outcome of a run. -/
structure Outcome where
  /-- The function at the end. -/
  func : Func
  /-- The number of sweeps. -/
  iterations : Nat
  /-- The number of instructions replaced. -/
  replaced : Nat
  /-- Whether the last sweep changed nothing. -/
  fixpoint : Bool
  /-- What was reported. -/
  events : List Event

/-- Whether a run has changed its function. -/
def Outcome.changed (o : Outcome) : Bool := 0 < o.replaced

/-- Sweeps a function until nothing changes, a given number of times at most. -/
def runFor (p : Pass) : Nat → Func → Except Fault Outcome
  | 0, f => .ok ⟨f, 0, 0, false, [.stillChanging p.rules.name f.name p.maxIterations]⟩
  | n + 1, f => do
    let s ← p.sweep f
    if s.replaced = 0 then return ⟨s.func, 1, 0, true, s.events⟩
    let o ← p.runFor n s.func
    return ⟨o.func, o.iterations + 1, s.replaced + o.replaced, o.fixpoint, s.events ++ o.events⟩

/-- Sweeps a function until nothing changes or the cap is reached. -/
def run (p : Pass) (f : Func) : Except Fault Outcome := p.runFor p.maxIterations f

/-- The outcome for every function of a program, in order. -/
def runAll (p : Pass) (m : Program) : Except Fault (List Outcome) := m.functions.mapM p.run

/-- Runs over every function of a program. Yields whether any has changed, the program and what was
reported. -/
def runProgram (p : Pass) (m : Program) : Except Fault (Bool × Program × List Event) := do
  let outcomes ← p.runAll m
  return (outcomes.any (·.changed), ⟨m.name, outcomes.map (·.func)⟩,
    outcomes.flatMap (·.events))

end Pass

/-- Applies a rule set to a function, with every condition off. -/
def RuleSet.optimize (rs : RuleSet) (f : Func) : Except Fault Pass.Outcome := (Pass.new rs).run f

end Peephole

import SplLang.Code.Program
import SplLang.Declaring
import SplLang.Frame.Placement
import SplLang.Typing

/-! Whole compilations: the stages in their order, up to the one that is asked for.
The first failure of a stage is the failure of the compilation. -/
namespace SplLang
open Machine

/-- What a compilation has built. -/
structure Compilation where
  context : Context
  /-- Present if code was generated. -/
  assembly : Option Assembly
  /-- The last stage that ran. -/
  completed : Stage

/-- Run the stages of a program up to `last`. -/
def Program.runStages (program : Program) (last : Stage) : Phase Compilation := do
  let _ ← program.declare
  let _ ← Phase.within .checked last program.check
  let _ ← Phase.within .placed last program.place
  let assembly ← Phase.within .generated last program.generate
  Phase.report (.completed last)
  return { context := ← Phase.context, assembly, completed := last }

/-- Compile a program from the start, up to `last`; answers also what was reported. -/
def compile (program : Program) (last : Stage) : Except Diagnostic Compilation × List Event :=
  let (result, progress) := (program.runStages last).runFrom .initial
  (result, progress.events)

end SplLang

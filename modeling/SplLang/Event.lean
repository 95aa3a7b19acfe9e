import SplLang.Entry
import SplLang.Machine.Instruction
import SplLang.Position
import SplLang.Stage

/-! What a compilation reports while it runs, and the line of log for each report. -/
namespace SplLang
open Machine

inductive Event where
  | typeDeclared (name : Name) (meaning : String)
  | parameterDeclared (procedure name : Name)
  | localDeclared (procedure name : Name)
  | emptyArray (position : Position)
  | declared (types procedures scopes typeExprs : Nat)
  | bodyEntered (procedure : Name)
  | checked (procedures findings : Nat)
  | parameterPlaced (procedure name : Name) (offset : Nat)
  | localPlaced (procedure name : Name) (below : Nat)
  | areasSized (procedure : Name) (argumentArea localArea : Nat)
  | outgoingSized (procedure : Name) (area : OutgoingArea)
  | allocated (procedures : Nat)
  | frameSized (procedure : Name) (size : Nat)
  | ifLabelled (elseLabel endLabel : Label)
  | whileLabelled (conditionLabel endLabel : Label)
  | generated (lines labels : Nat)
  | completed (stage : Stage)
  deriving DecidableEq

inductive Level where
  | debug | trace
  deriving DecidableEq

def Level.text : Level → String
  | .debug => "DEBUG"
  | .trace => "TRACE"

namespace Event

/-- Summaries and peculiarities are for debugging, single steps for tracing. -/
def level : Event → Level
  | .emptyArray _ | .declared .. | .checked .. | .areasSized .. | .allocated _
  | .frameSized .. | .generated .. | .completed _ => .debug
  | .typeDeclared .. | .parameterDeclared .. | .localDeclared .. | .bodyEntered _
  | .parameterPlaced .. | .localPlaced .. | .outgoingSized .. | .ifLabelled ..
  | .whileLabelled .. => .trace

def message : Event → String
  | .typeDeclared name meaning => s!"type {name} = {meaning}"
  | .parameterDeclared procedure name => s!"{procedure}: param {name}"
  | .localDeclared procedure name => s!"{procedure}: var {name}"
  | .emptyArray position => s!"{position.text}: array type without elements"
  | .declared types procedures scopes typeExprs =>
    s!"resolution: {types} types, {procedures} procedures, {scopes} scopes, " ++
      s!"{typeExprs} type expressions"
  | .bodyEntered procedure => s!"checking body of {procedure}"
  | .checked procedures findings =>
    s!"checking: {procedures} procedures, {findings} annotated nodes"
  | .parameterPlaced procedure name offset => s!"{procedure}: param {name} at fp + {offset}"
  | .localPlaced procedure name below => s!"{procedure}: var {name} at fp - {below}"
  | .areasSized procedure argumentArea localArea =>
    s!"{procedure}: argument area {argumentArea}, localvar area {localArea}"
  | .outgoingSized procedure area => s!"{procedure}: outgoing area {area.text}"
  | .allocated procedures => s!"allocation: {procedures} procedures"
  | .frameSized procedure size => s!"{procedure}: frame size {size}"
  | .ifLabelled elseLabel endLabel => s!"if: else {elseLabel.text}, end {endLabel.text}"
  | .whileLabelled conditionLabel endLabel =>
    s!"while: cond {conditionLabel.text}, end {endLabel.text}"
  | .generated lines labels => s!"generation: {lines} lines, {labels} labels"
  | .completed stage => s!"compiled through {stage.text}"

/-- The line of log. -/
def text (event : Event) : String := event.level.text ++ " " ++ event.message

end Event
end SplLang

import SplLang.Context

/-! The frame layout in readable form: offsets and area sizes of each procedure.
A question mark stands for what no stage has filled in yet. -/
namespace SplLang

/-- The value, or a question mark if there is none. -/
def orUnset {α : Type} [ToString α] : Option α → String
  | some value => toString value
  | none => "?"

/-- The size of an outgoing area; without calls it is given as -1. -/
def OutgoingArea.reported : OutgoingArea → Int
  | .noCalls => -1
  | .bytes size => size.toNat

/-- The offset that a parameter or local has in the procedure's scope. -/
def offsetIn? (scopes : ScopeTree) (entry : ProcedureEntry) (name : Name) : Option Int := do
  let variableEntry ← (← scopes.held? (← entry.scope) name).var?
  return (← variableEntry.offset).toInt

def Procedure.frameText (context : Context) (procedure : Procedure) : String :=
  match context.scopes.procedure? procedure.name with
  | none => ""
  | some entry =>
    let offset? := offsetIn? context.scopes entry
    s!"Variable allocation for procedure '{procedure.name}'\n" ++
      String.join (entry.parameters.mapIdx fun i slot =>
        s!"arg {i}: sp + {orUnset (slot.offset.map (·.toNat))}\n") ++
      s!"size of argument area = {orUnset (entry.argumentArea.map (·.toNat))}\n" ++
      String.join (procedure.parameters.map fun parameter =>
        s!"param '{parameter.name}': fp + {orUnset (offset? parameter.name)}\n") ++
      String.join (procedure.locals.map fun declaration =>
        s!"var '{declaration.name}': fp - {orUnset ((offset? declaration.name).map (·.natAbs))}\n") ++
      s!"size of localvar area = {orUnset (entry.localArea.map (·.toNat))}\n" ++
      s!"size of outgoing area = {orUnset (entry.outgoing.map (·.reported))}\n" ++ "\n"

/-- The frames of every procedure that is declared. -/
def Program.framesText (context : Context) (program : Program) : String :=
  String.join (program.procedures.map (·.frameText context))

end SplLang

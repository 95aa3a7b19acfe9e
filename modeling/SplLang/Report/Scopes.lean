import SplLang.Context

/-! The symbol tables in readable form: for each procedure its scope and those around it. -/
namespace SplLang

def Slot.text (types : TypeTable) (slot : Slot) : String :=
  (if slot.byReference then "ref " else "") ++ types.text slot.type

def Entry.text (types : TypeTable) : Entry → String
  | .type id => "type: " ++ types.text id
  | .var entry => "var: " ++ (if entry.byReference then "ref " else "") ++ types.text entry.type
  | .proc entry => "proc: (" ++ ", ".intercalate (entry.parameters.map (·.text types)) ++ ")"

/-- The text filled up with blanks to a width. -/
def padded (width : Nat) (text : String) : String :=
  text ++ String.ofList (List.replicate (width - text.length) ' ')

/-- The entries of one scope under the number of its level. -/
def levelText (context : Context) (level : Nat) (scope : ScopeId) : String :=
  s!"level {level}\n" ++ String.join ((context.scopes.entries scope).map fun (name, entry) =>
    padded 10 name ++ " --> " ++ entry.text context.types ++ "\n")

/-- The tables that are visible at the end of a procedure, the innermost first. -/
def Procedure.tablesText (context : Context) (procedure : Procedure) : String :=
  match (context.scopes.procedure? procedure.name).bind (·.scope) with
  | none => ""
  | some scope =>
    s!"symbol table at end of procedure '{procedure.name}':\n" ++
      String.join ((context.scopes.outward scope).mapIdx (levelText context)) ++ "\n"

/-- The tables of every procedure that has a scope. -/
def Program.tablesText (context : Context) (program : Program) : String :=
  String.join (program.procedures.map (·.tablesText context))

end SplLang

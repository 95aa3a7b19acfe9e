import SplLang.Phase

/-! Entering the declarations of a program from top to bottom. A type may be named once
it is declared; a procedure's signature names no procedure, so their order is free. -/
namespace SplLang

/-- Remember the type of a type expression. -/
def Phase.rememberTypeExpr (node : NodeId) (type : TypeId) : Phase Unit := do
  let context ← Phase.context
  let typeExprs := context.findings.typeExprs.put node type
  Phase.setContext { context with findings := { context.findings with typeExprs } }

/-- Enter a new array type, or fail if its values would be too large. -/
def Phase.addArray (position : Position) (element : TypeId) (length : UInt32) :
    Phase TypeId := do
  let context ← Phase.context
  let (type, types) ← Phase.expect (context.types.addArray? element length) position .typeTooLarge
  Phase.setContext { context with types }
  return type

/-- Report an array type without elements; every subscript into it is out of bounds. -/
def Phase.reportEmpty (position : Position) (length : UInt32) : Phase Unit :=
  if length = 0 then Phase.report (.emptyArray position) else pure ()

/-- Declare a name in a scope, or fail if the scope holds it. -/
def Phase.enter (scope : ScopeId) (name : Name) (entry : Entry) (position : Position)
    (taken : Cause) : Phase Unit := do
  let context ← Phase.context
  let scopes ← Phase.expect (context.scopes.enter? scope name entry) position taken
  Phase.setContext { context with scopes }

/-- Open the scope of a procedure. -/
def Phase.openScope : Phase ScopeId := do
  let context ← Phase.context
  let (scope, scopes) := context.scopes.nest ScopeTree.globalScope
  Phase.setContext { context with scopes }
  return scope

/-- The type that a type expression means, as seen from a scope. An array type is
a new type at every place where it is written. -/
def TypeExpr.resolve (scope : ScopeId) : TypeExpr → Phase TypeId
  | .named node name => do
    match (← Phase.context).scopes.seen? scope name with
    | some (.type type) =>
      Phase.rememberTypeExpr node.id type
      return type
    | some _ => Phase.fail node.position (.notAType name)
    | none => Phase.fail node.position (.undefinedType name)
  | .array node length base => do
    let element ← base.resolve scope
    Phase.reportEmpty node.position length
    let type ← Phase.addArray node.position element length
    Phase.rememberTypeExpr node.id type
    return type

def TypeDeclaration.declare (declaration : TypeDeclaration) : Phase Unit := do
  let type ← declaration.type.resolve ScopeTree.globalScope
  Phase.enter ScopeTree.globalScope declaration.name (.type type) declaration.position
    (.redeclaredAsType declaration.name)
  Phase.report (.typeDeclared declaration.name ((← Phase.context).types.text type))

/-- Enter a parameter into the procedure's scope. Its type belongs to the signature,
so it is seen from the global scope. -/
def Parameter.declare (procedure : Name) (scope : ScopeId) (parameter : Parameter) :
    Phase Slot := do
  let ⟨position, name, type, byReference⟩ := parameter
  let type ← type.resolve ScopeTree.globalScope
  Phase.require ((← Phase.context).types.isArray type → byReference) position
    (.arrayByValue name)
  let entry : VariableEntry := { type, byReference, offset := none }
  Phase.enter scope name (.var entry) position (.redeclaredAsParameter name)
  Phase.report (.parameterDeclared procedure name)
  return { type, byReference, offset := none }

/-- Enter a local variable into the procedure's scope, from which its type is seen. -/
def LocalVariable.declare (procedure : Name) (scope : ScopeId) (declaration : LocalVariable) :
    Phase Unit := do
  let ⟨position, name, type⟩ := declaration
  let type ← type.resolve scope
  let entry : VariableEntry := { type, byReference := false, offset := none }
  Phase.enter scope name (.var entry) position (.redeclaredAsVariable name)
  Phase.report (.localDeclared procedure name)

/-- Enter parameters and locals into a new scope and then the procedure itself. -/
def Procedure.declare (procedure : Procedure) : Phase Unit := do
  let scope ← Phase.openScope
  let parameters ← procedure.parameters.mapM (·.declare procedure.name scope)
  procedure.locals.forM (·.declare procedure.name scope)
  let entry : ProcedureEntry :=
    { scope := some scope, parameters, argumentArea := none, localArea := none, outgoing := none }
  Phase.enter ScopeTree.globalScope procedure.name (.proc entry) procedure.position
    (.redeclaredAsProcedure procedure.name)

def Declaration.declare : Declaration → Phase Unit
  | .type declaration => declaration.declare
  | .procedure declaration => declaration.declare

/-- How many declarations of each kind were entered. -/
structure DeclarationCount where
  types : Nat
  procedures : Nat
  deriving DecidableEq

def Program.declarationCount (program : Program) : DeclarationCount :=
  let procedures := program.procedures.length
  { types := program.declarations.length - procedures, procedures }

/-- Enter all declarations of a program. -/
def Program.declare (program : Program) : Phase DeclarationCount := do
  program.declarations.forM (·.declare)
  let count := program.declarationCount
  let context ← Phase.context
  Phase.report (.declared count.types count.procedures context.scopes.count
    context.findings.typeExprs.length)
  return count

end SplLang

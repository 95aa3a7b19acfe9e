import SplLang.Phase

/-! Checking procedure bodies. Types are compared by their number, so two array types
agree only if they come from one type expression or one declared name. -/
namespace SplLang

/-- What a body is checked against: the types, the scopes and the body's own scope. -/
structure Surroundings where
  types : TypeTable
  scopes : ScopeTree
  scope : ScopeId

/-- A numbered node with the type found for it. -/
abbrev Finding := NodeId × TypeId

abbrev Check := Trail Finding

namespace Check

/-- Remember the type of a node and answer it. -/
def remember (node : Node) (type : TypeId) : Check TypeId := do
  Trail.leave [(node.id, type)]
  return type

end Check

/-- The type of a named variable: that of the nearest entry for the name. -/
def Surroundings.typeOf (around : Surroundings) (position : Position) (name : Name) :
    Check TypeId :=
  match around.scopes.seen? around.scope name with
  | some (.var entry) => return entry.type
  | some _ => Trail.fail position (.notAVariable name)
  | none => Trail.fail position (.undefinedVariable name)

/-- The type of an operation on operands of the given types: both must be `int`. -/
def Operator.check (op : Operator) (node : Node) (left right : Node × TypeId) : Check TypeId := do
  Trail.require (left.2 = right.2) node.position .operandTypesDiffer
  let cause := match op with
    | .comparison _ => Cause.comparedNonInteger
    | .arithmetic _ => Cause.computedNonInteger
  Trail.require (left.2 = TypeId.int) left.1.position cause
  Trail.require (right.2 = TypeId.int) right.1.position cause
  match op with
  | .comparison _ => return TypeId.boolean
  | .arithmetic _ => return TypeId.int

mutual

/-- The type of a variable. The index of an element is looked at before the array. -/
def Variable.check (around : Surroundings) : Variable → Check TypeId
  | .named node name => do
    Check.remember node (← around.typeOf node.position name)
  | .element node array index => do
    let indexType ← index.check around
    let arrayType ← array.check around
    Trail.require (indexType = TypeId.int) node.position .indexNotInteger
    let (element, _) ←
      Trail.expect (around.types.array? arrayType) node.position .indexedNonArray
    Check.remember node element

/-- The type of an expression. -/
def Expr.check (around : Surroundings) : Expr → Check TypeId
  | .literal node _ => Check.remember node TypeId.int
  | .load node source => do
    Check.remember node (← source.check around)
  | .binary node op left right => do
    let leftType ← left.check around
    let rightType ← right.check around
    Check.remember node (← op.check node (left.node, leftType) (right.node, rightType))

end

def Expr.isVariable : Expr → Bool
  | .load _ _ => true
  | _ => false

/-- Check arguments against the parameters they are passed for, counting from `number`. -/
def checkArguments (around : Surroundings) (callee : Name) :
    Nat → List Slot → List Expr → Check Unit
  | number, slot :: slots, argument :: arguments => do
    let type ← argument.check around
    let position := argument.node.position
    Trail.require (slot.byReference → argument.isVariable) position
      (.argumentNotVariable callee number)
    Trail.require (type = slot.type) position (.argumentTypeMismatch callee number)
    checkArguments around callee (number + 1) slots arguments
  | _, _, _ => return ()

/-- Check a call. Procedures are seen from the scope around the body. -/
def checkCall (around : Surroundings) (position : Position) (callee : Name)
    (arguments : List Expr) : Check Unit := do
  let outer ← Trail.expect (around.scopes.parent? around.scope) position
    (.internal .callOutsideProcedure)
  match around.scopes.seen? outer callee with
  | some (.proc entry) =>
    Trail.require (arguments.length ≤ entry.parameters.length) position (.tooManyArguments callee)
    Trail.require (entry.parameters.length ≤ arguments.length) position (.tooFewArguments callee)
    checkArguments around callee 1 entry.parameters arguments
  | some _ => Trail.fail position (.calledNonProcedure callee)
  | none => Trail.fail position (.undefinedProcedure callee)

mutual

def Stmt.check (around : Surroundings) : Stmt → Check Unit
  | .assign position target value => do
    let targetType ← target.check around
    let valueType ← value.check around
    Trail.require (targetType = TypeId.int) position .assignmentToNonInteger
    Trail.require (targetType = valueType) position .assignmentTypesDiffer
  | .ifThen position condition thenPart => do
    let type ← condition.check around
    Trail.require (type = TypeId.boolean) position .ifConditionNotBoolean
    thenPart.check around
  | .ifElse position condition thenPart elsePart => do
    let type ← condition.check around
    Trail.require (type = TypeId.boolean) position .ifConditionNotBoolean
    thenPart.check around
    elsePart.check around
  | .whileDo position condition body => do
    let type ← condition.check around
    Trail.require (type = TypeId.boolean) position .whileConditionNotBoolean
    body.check around
  | .call position callee arguments => checkCall around position callee arguments
  | .block _ body => checkAll around body
  | .empty _ => return ()

/-- Check statements in sequence. -/
def checkAll (around : Surroundings) : List Stmt → Check Unit
  | [] => return ()
  | stmt :: rest => do
    stmt.check around
    checkAll around rest

end

/-- Check the body of a procedure in the scope that was made for it. -/
def Procedure.check (types : TypeTable) (scopes : ScopeTree) (procedure : Procedure) :
    Check Unit := do
  let scope ← procedure.localScope scopes
  Trail.report (.bodyEntered procedure.name)
  checkAll ⟨types, scopes, scope⟩ procedure.body

/-- A program starts in a procedure `main` without parameters. -/
def Program.checkMain (scopes : ScopeTree) (program : Program) : Check Unit :=
  match scopes.seen? ScopeTree.globalScope "main" with
  | some (.proc entry) => Trail.require (entry.parameters = []) program.position .mainHasParameters
  | some _ => Trail.fail program.position .mainNotProcedure
  | none => Trail.fail program.position .mainMissing

/-- Check `main` and then every body. -/
def Program.checkBodies (types : TypeTable) (scopes : ScopeTree) (program : Program) :
    Check Unit := do
  program.checkMain scopes
  program.procedures.forM (·.check types scopes)

/-- Remember the types found for expressions and variables. -/
def Context.rememberExprs (context : Context) (found : List Finding) : Context :=
  let exprs := context.findings.exprs.putAll found
  { context with findings := { context.findings with exprs } }

/-- Check a program whose declarations are entered; answers how many bodies were checked. -/
def Program.check (program : Program) : Phase Nat := do
  let context ← Phase.context
  Phase.follow (program.checkBodies context.types context.scopes) Context.rememberExprs
  let count := program.procedures.length
  Phase.report (.checked count (← Phase.context).findings.exprs.length)
  return count

end SplLang

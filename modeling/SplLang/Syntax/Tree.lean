import SplLang.Name
import SplLang.Position
import SplLang.Syntax.Operator

/-! Syntax trees of programs. Type expressions, variables and expressions carry a
number by which later findings about them are kept; other nodes carry a position only. -/
namespace SplLang

/-- The number of a tree node. -/
abbrev NodeId := Nat

/-- What a numbered node knows of itself. -/
structure Node where
  id : NodeId
  position : Position
  deriving DecidableEq

inductive TypeExpr where
  | named (node : Node) (name : Name)
  | array (node : Node) (size : UInt32) (base : TypeExpr)
  deriving DecidableEq

def TypeExpr.node : TypeExpr → Node
  | .named node _ => node
  | .array node _ _ => node

mutual

/-- Something that has storage: a named variable or an element of an array. -/
inductive Variable where
  | named (node : Node) (name : Name)
  | element (node : Node) (array : Variable) (index : Expr)

inductive Expr where
  | literal (node : Node) (value : Int32)
  | load (node : Node) (source : Variable)
  | binary (node : Node) (op : Operator) (left right : Expr)

end

def Variable.node : Variable → Node
  | .named node _ => node
  | .element node _ _ => node

def Expr.node : Expr → Node
  | .literal node _ => node
  | .load node _ => node
  | .binary node _ _ _ => node

inductive Stmt where
  | assign (position : Position) (target : Variable) (value : Expr)
  | ifThen (position : Position) (condition : Expr) (thenPart : Stmt)
  | ifElse (position : Position) (condition : Expr) (thenPart elsePart : Stmt)
  | whileDo (position : Position) (condition : Expr) (body : Stmt)
  | call (position : Position) (callee : Name) (arguments : List Expr)
  | block (position : Position) (body : List Stmt)
  | empty (position : Position)

mutual

/-- The statement and those inside it. -/
def Stmt.statements : Stmt → List Stmt
  | .assign position target value => [.assign position target value]
  | .ifThen position condition thenPart => .ifThen position condition thenPart :: thenPart.statements
  | .ifElse position condition thenPart elsePart =>
    .ifElse position condition thenPart elsePart :: (thenPart.statements ++ elsePart.statements)
  | .whileDo position condition body => .whileDo position condition body :: body.statements
  | .call position callee arguments => [.call position callee arguments]
  | .block position body => .block position body :: allStatements body
  | .empty position => [.empty position]

def allStatements : List Stmt → List Stmt
  | [] => []
  | stmt :: rest => stmt.statements ++ allStatements rest

end

structure Parameter where
  position : Position
  name : Name
  type : TypeExpr
  byReference : Bool

structure LocalVariable where
  position : Position
  name : Name
  type : TypeExpr

structure TypeDeclaration where
  position : Position
  name : Name
  type : TypeExpr

structure Procedure where
  position : Position
  name : Name
  parameters : List Parameter
  locals : List LocalVariable
  body : List Stmt

inductive Declaration where
  | type (declaration : TypeDeclaration)
  | procedure (declaration : Procedure)

structure Program where
  position : Position
  declarations : List Declaration

/-- The procedures in the order of their declaration. -/
def Program.procedures (program : Program) : List Procedure :=
  program.declarations.filterMap fun
    | .procedure declaration => some declaration
    | .type _ => none

end SplLang

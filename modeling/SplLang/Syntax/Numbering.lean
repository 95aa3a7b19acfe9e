import SplLang.Syntax.Tree

/-! Building numbered nodes. Every node built takes the next free number, so a node
that is used twice in a tree occurs there twice with one number. -/
namespace SplLang

/-- Tree building that hands out node numbers; the state is the number of nodes so far. -/
abbrev Numbering := StateM Nat

namespace Numbering

/-- Take the next number for a node at the given position. -/
def node (position : Position) : Numbering Node :=
  fun next => ({ id := next, position }, next + 1)

def namedType (position : Position) (name : Name) : Numbering TypeExpr :=
  return .named (← node position) name

def arrayType (position : Position) (size : UInt32) (base : TypeExpr) : Numbering TypeExpr :=
  return .array (← node position) size base

def named (position : Position) (name : Name) : Numbering Variable :=
  return .named (← node position) name

def element (position : Position) (array : Variable) (index : Expr) : Numbering Variable :=
  return .element (← node position) array index

def literal (position : Position) (value : Int32) : Numbering Expr :=
  return .literal (← node position) value

def load (position : Position) (source : Variable) : Numbering Expr :=
  return .load (← node position) source

def binary (position : Position) (op : Operator) (left right : Expr) : Numbering Expr :=
  return .binary (← node position) op left right

/-- The value of a named variable: the variable is numbered first, then its load. -/
def loadNamed (position : Position) (name : Name) : Numbering Expr := do
  load position (← named position name)

end Numbering
end SplLang

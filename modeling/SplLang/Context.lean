import SplLang.Library
import SplLang.Syntax.Tree

/-! What a compilation knows of its program besides the tree:
the types, the scopes and the types found for numbered nodes. -/
namespace SplLang

/-- The types found for type expressions, and for expressions and variables. -/
structure Findings where
  typeExprs : Keyed NodeId TypeId
  exprs : Keyed NodeId TypeId

structure Context where
  types : TypeTable
  scopes : ScopeTree
  findings : Findings

namespace Context

/-- The context in which a compilation starts. -/
def initial : Context := ⟨.primitives, .initial, ⟨[], []⟩⟩

end Context

namespace ScopeTree

/-- The procedure that the global scope holds for a name. -/
def procedure? (tree : ScopeTree) (name : Name) : Option ProcedureEntry :=
  (tree.held? globalScope name).bind (·.proc?)

/-- The procedure that a call in a body of the given scope means. Procedures are
declared one level above the body, so a local of the same name does not hide one. -/
def callee? (tree : ScopeTree) (scope : ScopeId) (name : Name) : Option ProcedureEntry := do
  let outer ← tree.parent? scope
  (← tree.seen? outer name).proc?

end ScopeTree
end SplLang

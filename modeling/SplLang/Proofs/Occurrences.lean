import Mathlib.Data.List.Basic
import SplLang.Syntax.Tree

/-! The numbered nodes of a tree, in the order in which they are checked: an index before its array,
and a node behind its parts. Subscripts come in the order of their code instead. -/
namespace SplLang

mutual

def Variable.nodeIds : Variable → List NodeId
  | .named node _ => [node.id]
  | .element node array index => index.nodeIds ++ array.nodeIds ++ [node.id]

def Expr.nodeIds : Expr → List NodeId
  | .literal node _ => [node.id]
  | .load node source => source.nodeIds ++ [node.id]
  | .binary node _ left right => left.nodeIds ++ right.nodeIds ++ [node.id]

end

mutual

def Stmt.nodeIds : Stmt → List NodeId
  | .assign _ target value => target.nodeIds ++ value.nodeIds
  | .ifThen _ condition thenPart => condition.nodeIds ++ thenPart.nodeIds
  | .ifElse _ condition thenPart elsePart =>
    condition.nodeIds ++ thenPart.nodeIds ++ elsePart.nodeIds
  | .whileDo _ condition body => condition.nodeIds ++ body.nodeIds
  | .call _ _ arguments => arguments.flatMap (·.nodeIds)
  | .block _ body => allNodeIds body
  | .empty _ => []

def allNodeIds : List Stmt → List NodeId
  | [] => []
  | stmt :: rest => stmt.nodeIds ++ allNodeIds rest

end

def TypeExpr.nodeIds : TypeExpr → List NodeId
  | .named node _ => [node.id]
  | .array node _ base => base.nodeIds ++ [node.id]

def Procedure.nodeIds (procedure : Procedure) : List NodeId :=
  procedure.parameters.flatMap (·.type.nodeIds) ++ procedure.locals.flatMap (·.type.nodeIds) ++
    allNodeIds procedure.body

def Declaration.nodeIds : Declaration → List NodeId
  | .type declaration => declaration.type.nodeIds
  | .procedure declaration => declaration.nodeIds

/-- The numbers of all numbered nodes, one for each place in the tree. -/
def Program.nodeIds (program : Program) : List NodeId :=
  program.declarations.flatMap (·.nodeIds)

/-- The type expression and those inside it, in the order in which they are resolved. -/
def TypeExpr.parts : TypeExpr → List TypeExpr
  | .named node name => [.named node name]
  | .array node length base => base.parts ++ [.array node length base]

theorem TypeExpr.map_id_parts (expr : TypeExpr) : expr.parts.map (·.node.id) = expr.nodeIds := by
  induction expr with
  | named node name => rfl
  | array node length base ih =>
    rw [parts, nodeIds, List.map_append, ih]
    rfl

/-- A numbered node of a body. -/
inductive TreeNode where
  | place (v : Variable)
  | value (e : Expr)

def TreeNode.id : TreeNode → NodeId
  | .place v => v.node.id
  | .value e => e.node.id

mutual

def Variable.nodes : Variable → List TreeNode
  | .named node name => [.place (.named node name)]
  | .element node array index => index.nodes ++ array.nodes ++ [.place (.element node array index)]

def Expr.nodes : Expr → List TreeNode
  | .literal node value => [.value (.literal node value)]
  | .load node source => source.nodes ++ [.value (.load node source)]
  | .binary node op left right => left.nodes ++ right.nodes ++ [.value (.binary node op left right)]

end

mutual

def Stmt.nodes : Stmt → List TreeNode
  | .assign _ target value => target.nodes ++ value.nodes
  | .ifThen _ condition thenPart => condition.nodes ++ thenPart.nodes
  | .ifElse _ condition thenPart elsePart => condition.nodes ++ thenPart.nodes ++ elsePart.nodes
  | .whileDo _ condition body => condition.nodes ++ body.nodes
  | .call _ _ arguments => arguments.flatMap (·.nodes)
  | .block _ body => allNodes body
  | .empty _ => []

def allNodes : List Stmt → List TreeNode
  | [] => []
  | stmt :: rest => stmt.nodes ++ allNodes rest

end

/-- A subscript, without the number of its node. -/
structure Subscript where
  array : Variable
  index : Expr

mutual

/-- The subscripts in a variable. -/
def Variable.subscripts : Variable → List Subscript
  | .named _ _ => []
  | .element _ array index => array.subscripts ++ index.subscripts ++ [⟨array, index⟩]

/-- The subscripts in an expression. -/
def Expr.subscripts : Expr → List Subscript
  | .literal _ _ => []
  | .load _ source => source.subscripts
  | .binary _ _ left right => left.subscripts ++ right.subscripts

end

mutual

/-- The subscripts in a statement. -/
def Stmt.subscripts : Stmt → List Subscript
  | .assign _ target value => target.subscripts ++ value.subscripts
  | .ifThen _ condition thenPart => condition.subscripts ++ thenPart.subscripts
  | .ifElse _ condition thenPart elsePart =>
    condition.subscripts ++ thenPart.subscripts ++ elsePart.subscripts
  | .whileDo _ condition body => condition.subscripts ++ body.subscripts
  | .call _ _ arguments => arguments.flatMap (·.subscripts)
  | .block _ body => allSubscripts body
  | .empty _ => []

def allSubscripts : List Stmt → List Subscript
  | [] => []
  | stmt :: rest => stmt.subscripts ++ allSubscripts rest

end

mutual

theorem Variable.map_id_nodes (v : Variable) : v.nodes.map (·.id) = v.nodeIds := by
  cases v with
  | named node name => rfl
  | element node array index =>
    rw [Variable.nodes, List.map_append, List.map_append, index.map_id_nodes, array.map_id_nodes]
    rfl

theorem Expr.map_id_nodes (e : Expr) : e.nodes.map (·.id) = e.nodeIds := by
  cases e with
  | literal node value => rfl
  | load node source =>
    rw [Expr.nodes, List.map_append, source.map_id_nodes]
    rfl
  | binary node op left right =>
    rw [Expr.nodes, List.map_append, List.map_append, left.map_id_nodes, right.map_id_nodes]
    rfl

end

private theorem map_id_argument_nodes (arguments : List Expr) :
    (arguments.flatMap (·.nodes)).map (·.id) = arguments.flatMap (·.nodeIds) := by
  rw [List.map_flatMap]
  exact List.flatMap_congr fun argument _ => argument.map_id_nodes

mutual

theorem Stmt.map_id_nodes (s : Stmt) : s.nodes.map (·.id) = s.nodeIds := by
  cases s with
  | assign position target value =>
    simp [Stmt.nodes, Stmt.nodeIds, target.map_id_nodes, value.map_id_nodes]
  | ifThen position condition thenPart =>
    simp [Stmt.nodes, Stmt.nodeIds, condition.map_id_nodes, thenPart.map_id_nodes]
  | ifElse position condition thenPart elsePart =>
    simp [Stmt.nodes, Stmt.nodeIds, condition.map_id_nodes, thenPart.map_id_nodes,
      elsePart.map_id_nodes]
  | whileDo position condition body =>
    simp [Stmt.nodes, Stmt.nodeIds, condition.map_id_nodes, body.map_id_nodes]
  | call position callee arguments => exact map_id_argument_nodes arguments
  | block position body => exact map_id_allNodes body
  | empty position => rfl

/-- The nodes of a body have the numbers of the body. -/
theorem map_id_allNodes (body : List Stmt) : (allNodes body).map (·.id) = allNodeIds body := by
  cases body with
  | nil => rfl
  | cons stmt rest => simp [allNodes, allNodeIds, stmt.map_id_nodes, map_id_allNodes rest]

end

/-- A subscript and its array are among the nodes. -/
def SubscriptIn (sub : Subscript) (nodes : List TreeNode) : Prop :=
  (∃ node, .place (.element node sub.array sub.index) ∈ nodes) ∧ .place sub.array ∈ nodes

section
variable {sub : Subscript} {nodes more : List TreeNode}

theorem SubscriptIn.left (h : SubscriptIn sub nodes) : SubscriptIn sub (nodes ++ more) := by
  obtain ⟨⟨node, he⟩, ha⟩ := h
  exact ⟨⟨node, List.mem_append_left _ he⟩, List.mem_append_left _ ha⟩

theorem SubscriptIn.right (h : SubscriptIn sub nodes) : SubscriptIn sub (more ++ nodes) := by
  obtain ⟨⟨node, he⟩, ha⟩ := h
  exact ⟨⟨node, List.mem_append_right _ he⟩, List.mem_append_right _ ha⟩

theorem Variable.mem_nodes (v : Variable) : .place v ∈ v.nodes := by
  cases v <;> simp [nodes]

theorem Expr.mem_nodes (e : Expr) : .value e ∈ e.nodes := by
  cases e <;> simp [nodes]

mutual

private theorem Variable.subscripts_nodes (v : Variable) {sub : Subscript} (h : sub ∈ v.subscripts) :
    SubscriptIn sub v.nodes := by
  cases v with
  | named node name => cases h
  | element node array index =>
    simp only [Variable.subscripts, List.mem_append, List.mem_singleton] at h
    rcases h with (h | h) | rfl
    · exact (array.subscripts_nodes h).right.left
    · exact (index.subscripts_nodes h).left.left
    · refine ⟨⟨node, List.mem_append_right _ (List.mem_singleton_self _)⟩, ?_⟩
      exact List.mem_append_left _ (List.mem_append_right _ array.mem_nodes)

private theorem Expr.subscripts_nodes (e : Expr) {sub : Subscript} (h : sub ∈ e.subscripts) :
    SubscriptIn sub e.nodes := by
  cases e with
  | literal node value => cases h
  | load node source => exact (source.subscripts_nodes h).left
  | binary node op left right =>
    rcases List.mem_append.mp h with h | h
    · exact (left.subscripts_nodes h).left.left
    · exact (right.subscripts_nodes h).right.left

end

private theorem argument_subscripts_nodes {arguments : List Expr}
    (h : sub ∈ arguments.flatMap (·.subscripts)) : SubscriptIn sub (arguments.flatMap (·.nodes)) := by
  induction arguments with
  | nil => cases h
  | cons argument arguments ih =>
    rw [List.flatMap_cons] at h ⊢
    rcases List.mem_append.mp h with h | h
    · exact (argument.subscripts_nodes h).left
    · exact (ih h).right

mutual

theorem Stmt.subscripts_nodes (s : Stmt) {sub : Subscript} (h : sub ∈ s.subscripts) :
    SubscriptIn sub s.nodes := by
  cases s with
  | assign position target value =>
    rcases List.mem_append.mp h with h | h
    · exact (target.subscripts_nodes h).left
    · exact (value.subscripts_nodes h).right
  | ifThen position condition thenPart =>
    rcases List.mem_append.mp h with h | h
    · exact (condition.subscripts_nodes h).left
    · exact (thenPart.subscripts_nodes h).right
  | ifElse position condition thenPart elsePart =>
    rcases List.mem_append.mp h with h | h
    · rcases List.mem_append.mp h with h | h
      · exact (condition.subscripts_nodes h).left.left
      · exact (thenPart.subscripts_nodes h).right.left
    · exact (elsePart.subscripts_nodes h).right
  | whileDo position condition body =>
    rcases List.mem_append.mp h with h | h
    · exact (condition.subscripts_nodes h).left
    · exact (body.subscripts_nodes h).right
  | call position callee arguments => exact argument_subscripts_nodes h
  | block position body => exact allSubscripts_nodes body h
  | empty position => cases h

/-- The subscripts of a body are among its nodes. -/
theorem allSubscripts_nodes (body : List Stmt) {sub : Subscript} (h : sub ∈ allSubscripts body) :
    SubscriptIn sub (allNodes body) := by
  cases body with
  | nil => cases h
  | cons stmt rest =>
    rcases List.mem_append.mp h with h | h
    · exact (stmt.subscripts_nodes h).left
    · exact (allSubscripts_nodes rest h).right

end
end

/-- The node with all below it. -/
def TreeNode.nodes : TreeNode → List TreeNode
  | .place v => v.nodes
  | .value e => e.nodes

/-- The subscripts in a node. -/
def TreeNode.subscripts : TreeNode → List Subscript
  | .place v => v.subscripts
  | .value e => e.subscripts

theorem TreeNode.subscripts_nodes (node : TreeNode) {sub : Subscript} (h : sub ∈ node.subscripts) :
    SubscriptIn sub node.nodes := by
  cases node with
  | place v => exact v.subscripts_nodes h
  | value e => exact e.subscripts_nodes h

/-- With a node there is everything below it. -/
def Closed (nodes : List TreeNode) : Prop := ∀ node ∈ nodes, node.nodes ⊆ nodes

section
variable {nodes more : List TreeNode}

theorem closed_nil : Closed [] := fun _ h => absurd h List.not_mem_nil

theorem Closed.append (h : Closed nodes) (h' : Closed more) : Closed (nodes ++ more) := by
  refine List.forall_mem_append.mpr ⟨fun node hm => ?_, fun node hm => ?_⟩
  · exact List.subset_append_of_subset_left _ (h node hm)
  · exact List.subset_append_of_subset_right _ (h' node hm)

/-- A node behind all that is below it. -/
theorem Closed.behind (h : Closed nodes) {node : TreeNode} (hn : node.nodes = nodes ++ [node]) :
    Closed (nodes ++ [node]) := by
  refine List.forall_mem_append.mpr ⟨fun other hm => ?_, ?_⟩
  · exact List.subset_append_of_subset_left _ (h other hm)
  · exact List.forall_mem_singleton.mpr (hn ▸ List.Subset.refl _)

mutual

private theorem Variable.nodes_closed (v : Variable) : Closed v.nodes := by
  cases v with
  | named node name => exact closed_nil.behind rfl
  | element node array index => exact (index.nodes_closed.append array.nodes_closed).behind rfl

private theorem Expr.nodes_closed (e : Expr) : Closed e.nodes := by
  cases e with
  | literal node value => exact closed_nil.behind rfl
  | load node source => exact source.nodes_closed.behind rfl
  | binary node op left right => exact (left.nodes_closed.append right.nodes_closed).behind rfl

end

private theorem argument_nodes_closed (arguments : List Expr) : Closed (arguments.flatMap (·.nodes)) := by
  induction arguments with
  | nil => exact closed_nil
  | cons argument arguments ih => exact argument.nodes_closed.append ih

mutual

theorem Stmt.nodes_closed (s : Stmt) : Closed s.nodes := by
  cases s with
  | assign position target value => exact target.nodes_closed.append value.nodes_closed
  | ifThen position condition thenPart => exact condition.nodes_closed.append thenPart.nodes_closed
  | ifElse position condition thenPart elsePart =>
    exact (condition.nodes_closed.append thenPart.nodes_closed).append elsePart.nodes_closed
  | whileDo position condition body => exact condition.nodes_closed.append body.nodes_closed
  | call position callee arguments => exact argument_nodes_closed arguments
  | block position body => exact allNodes_closed body
  | empty position => exact closed_nil

theorem allNodes_closed (body : List Stmt) : Closed (allNodes body) := by
  cases body with
  | nil => exact closed_nil
  | cons stmt rest => exact stmt.nodes_closed.append (allNodes_closed rest)

end
end

/-- If no number occurs at two places of the tree, none does in the bodies. -/
theorem Program.bodies_nodup {program : Program} (h : program.nodeIds.Nodup) :
    (program.procedures.flatMap fun procedure => allNodeIds procedure.body).Nodup := by
  refine h.sublist ?_
  unfold procedures nodeIds
  induction program.declarations with
  | nil => exact .slnil
  | cons declaration rest ih =>
    cases declaration with
    | type declaration => exact ih.trans (List.sublist_append_right _ _)
    | procedure procedure =>
      exact (List.sublist_append_right _ _).append ih

end SplLang

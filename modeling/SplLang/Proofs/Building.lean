import Mathlib.Algebra.Ring.Nat
import Mathlib.Data.List.Nodup
import SplLang.Proofs.Occurrences
import SplLang.Syntax.Numbering

/-! Trees as they are built, by calls each of which may use again anything built before. In whatever order the calls
are made, the numbered nodes get the numbers 0, 1, 2 and so on, and a program in which no node stands twice has no
number twice. -/
namespace SplLang

/-- A node that has a number. -/
inductive NumberedNode where
  | typeExpr (expr : TypeExpr)
  | inBody (node : TreeNode)

/-- The type expressions inside. -/
def TypeExpr.beneath : TypeExpr → List TypeExpr
  | .named _ _ => []
  | .array _ _ base => base.parts

/-- The nodes below, an index before its array. -/
def TreeNode.beneath : TreeNode → List TreeNode
  | .place (.named _ _) => []
  | .place (.element _ array index) => index.nodes ++ array.nodes
  | .value (.literal _ _) => []
  | .value (.load _ source) => source.nodes
  | .value (.binary _ _ left right) => left.nodes ++ right.nodes

namespace NumberedNode

def id : NumberedNode → NodeId
  | .typeExpr expr => expr.node.id
  | .inBody node => node.id

/-- The nodes below, one for each place. -/
def beneath : NumberedNode → List NumberedNode
  | .typeExpr expr => expr.beneath.map .typeExpr
  | .inBody node => node.beneath.map .inBody

end NumberedNode

def TypeExpr.nodes (expr : TypeExpr) : List NumberedNode := expr.parts.map .typeExpr

def Procedure.nodes (procedure : Procedure) : List NumberedNode :=
  procedure.parameters.flatMap (·.type.nodes) ++ procedure.locals.flatMap (·.type.nodes) ++
    (allNodes procedure.body).map .inBody

def Declaration.nodes : Declaration → List NumberedNode
  | .type declaration => declaration.type.nodes
  | .procedure declaration => declaration.nodes

/-- The numbered nodes of a program, one for each place in the tree. -/
def Program.nodes (program : Program) : List NumberedNode := program.declarations.flatMap (·.nodes)

/-- Anything that is built. -/
inductive Piece where
  | numbered (node : NumberedNode)
  | stmt (s : Stmt)
  | parameter (declared : Parameter)
  | localVariable (declared : LocalVariable)
  | declaration (declared : Declaration)
  | program (whole : Program)

namespace Piece

abbrev typeExpr (expr : TypeExpr) : Piece := .numbered (.typeExpr expr)

abbrev place (v : Variable) : Piece := .numbered (.inBody (.place v))

abbrev value (e : Expr) : Piece := .numbered (.inBody (.value e))

/-- The piece itself, if it has a number. -/
def node? : Piece → Option NumberedNode
  | .numbered node => some node
  | _ => none

/-- The numbered nodes in a piece, itself included. -/
def nodes : Piece → List NumberedNode
  | .numbered node => node.beneath ++ [node]
  | .stmt s => s.nodes.map .inBody
  | .parameter declared => declared.type.nodes
  | .localVariable declared => declared.type.nodes
  | .declaration declared => declared.nodes
  | .program whole => whole.nodes

end Piece

/-- A call that builds something out of what was built before. -/
inductive BuildStep where
  | program (position : Position) (declarations : List Declaration)
  | typeDeclaration (position : Position) (name : Name) (type : TypeExpr)
  | procedure (position : Position) (name : Name) (parameters : List Parameter) (locals : List LocalVariable)
    (body : List Stmt)
  | parameter (position : Position) (name : Name) (type : TypeExpr) (byReference : Bool)
  | localVariable (position : Position) (name : Name) (type : TypeExpr)
  | namedType (position : Position) (name : Name)
  | arrayType (position : Position) (size : UInt32) (base : TypeExpr)
  | assign (position : Position) (target : Variable) (value : Expr)
  | ifStmt (position : Position) (condition : Expr) (thenPart : Stmt) (elsePart : Option Stmt)
  | whileDo (position : Position) (condition : Expr) (body : Stmt)
  | call (position : Position) (callee : Name) (arguments : List Expr)
  | block (position : Position) (body : List Stmt)
  | empty (position : Position)
  | binary (position : Position) (op : Operator) (left right : Expr)
  | literal (position : Position) (value : Int32)
  | load (position : Position) (source : Variable)
  | loadNamed (position : Position) (name : Name)
  | named (position : Position) (name : Name)
  | element (position : Position) (array : Variable) (index : Expr)

namespace BuildStep

/-- The pieces that a call is given, in the order of the tree. -/
def uses : BuildStep → List Piece
  | .program _ declarations => declarations.map .declaration
  | .typeDeclaration _ _ type => [.typeExpr type]
  | .procedure _ _ parameters locals body =>
    parameters.map .parameter ++ locals.map .localVariable ++ body.map .stmt
  | .parameter _ _ type _ => [.typeExpr type]
  | .localVariable _ _ type => [.typeExpr type]
  | .namedType _ _ => []
  | .arrayType _ _ base => [.typeExpr base]
  | .assign _ target value => [.place target, .value value]
  | .ifStmt _ condition thenPart elsePart => [.value condition, .stmt thenPart] ++ elsePart.toList.map .stmt
  | .whileDo _ condition body => [.value condition, .stmt body]
  | .call _ _ arguments => arguments.map .value
  | .block _ body => body.map .stmt
  | .empty _ => []
  | .binary _ _ left right => [.value left, .value right]
  | .literal _ _ => []
  | .load _ source => [.place source]
  | .loadNamed _ _ => []
  | .named _ _ => []
  | .element _ array index => [.value index, .place array]

/-- How many numbers a call hands out. -/
def numbers : BuildStep → Nat
  | .namedType _ _ | .arrayType _ _ _ => 1
  | .binary _ _ _ _ | .literal _ _ | .load _ _ => 1
  | .named _ _ | .element _ _ _ => 1
  | .loadNamed _ _ => 2
  | _ => 0

/-- What a call builds. The value of a named variable has that variable in it, which is built first. -/
def run : BuildStep → Numbering (List Piece)
  | .program position declarations => return [.program { position, declarations }]
  | .typeDeclaration position name type => return [.declaration (.type { position, name, type })]
  | .procedure position name parameters locals body =>
    return [.declaration (.procedure { position, name, parameters, locals, body })]
  | .parameter position name type byReference => return [.parameter { position, name, type, byReference }]
  | .localVariable position name type => return [.localVariable { position, name, type }]
  | .namedType position name => return [.typeExpr (← Numbering.namedType position name)]
  | .arrayType position size base => return [.typeExpr (← Numbering.arrayType position size base)]
  | .assign position target value => return [.stmt (.assign position target value)]
  | .ifStmt position condition thenPart none => return [.stmt (.ifThen position condition thenPart)]
  | .ifStmt position condition thenPart (some elsePart) =>
    return [.stmt (.ifElse position condition thenPart elsePart)]
  | .whileDo position condition body => return [.stmt (.whileDo position condition body)]
  | .call position callee arguments => return [.stmt (.call position callee arguments)]
  | .block position body => return [.stmt (.block position body)]
  | .empty position => return [.stmt (.empty position)]
  | .binary position op left right => return [.value (← Numbering.binary position op left right)]
  | .literal position value => return [.value (← Numbering.literal position value)]
  | .load position source => return [.value (← Numbering.load position source)]
  | .loadNamed position name =>
    return (← Numbering.loadNamed position name).nodes.map fun node => .numbered (.inBody node)
  | .named position name => return [.place (← Numbering.named position name)]
  | .element position array index => return [.place (← Numbering.element position array index)]

end BuildStep

/-- What has been built, the oldest first, and how many numbers have been handed out. -/
structure Stock where
  pieces : List Piece
  count : Nat

namespace Stock

/-- The numbered nodes in order of building. -/
def nodes (stock : Stock) : List NumberedNode := stock.pieces.filterMap (·.node?)

def after (stock : Stock) (step : BuildStep) : Stock :=
  let (pieces, count) := step.run stock.count
  { pieces := stock.pieces ++ pieces, count }

/-- What comes of nothing by calls each of which uses what was built before. -/
inductive Reached : List BuildStep → Stock → Prop where
  | start : Reached [] ⟨[], 0⟩
  | step {history : List BuildStep} {stock : Stock} (step : BuildStep) :
      Reached history stock → step.uses ⊆ stock.pieces → Reached (history ++ [step]) (stock.after step)

/-- The numbers that calls hand out. -/
def handedOut (history : List BuildStep) : Nat := (history.map (·.numbers)).sum

/-- Numbers identify the nodes. -/
structure Identified (history : List BuildStep) (stock : Stock) : Prop where
  /-- The numbers are 0, 1, 2 and so on, in order of building. -/
  numbers : stock.nodes.map (·.id) = List.range stock.count
  count : stock.count = handedOut history
  /-- The value of a named variable takes two numbers, the variable the first. -/
  loads : ∀ before position name after, history = before ++ .loadNamed position name :: after →
    let first := handedOut before
    let v := Variable.named ⟨first, position⟩ name
    stock.nodes[first]? = some (.inBody (.place v)) ∧
      stock.nodes[first + 1]? = some (.inBody (.value (.load ⟨first + 1, position⟩ v)))
  above : ∀ node ∈ stock.nodes, ∀ lower ∈ node.beneath, lower.id < node.id
  used : ∀ program, .program program ∈ stock.pieces → program.nodes ⊆ stock.nodes
  /-- A program has a number twice exactly if it has a node twice. -/
  distinct : ∀ program : Program, program.nodes ⊆ stock.nodes → (program.nodeIds.Nodup ↔ program.nodes.Nodup)
  /-- A program that has every node once has every number once. -/
  all : ∀ program : Program, program.nodes ⊆ stock.nodes → program.nodes.Nodup → stock.nodes ⊆ program.nodes →
    program.nodeIds.Perm (List.range stock.count)

end Stock

private theorem TypeExpr.parts_eq (expr : TypeExpr) : expr.parts = expr.beneath ++ [expr] := by
  cases expr <;> rfl

private theorem Variable.nodes_eq (v : Variable) : v.nodes = (TreeNode.place v).beneath ++ [.place v] := by
  cases v <;> rfl

private theorem Expr.nodes_eq (e : Expr) : e.nodes = (TreeNode.value e).beneath ++ [.value e] := by
  cases e <;> rfl

private theorem allNodes_eq (body : List Stmt) : allNodes body = body.flatMap (·.nodes) := by
  induction body with
  | nil => rfl
  | cons stmt rest ih => rw [allNodes, ih, List.flatMap_cons]

namespace Piece

@[simp]
theorem nodes_typeExpr (expr : TypeExpr) : (typeExpr expr).nodes = expr.nodes := by
  simp [nodes, NumberedNode.beneath, TypeExpr.nodes, expr.parts_eq]

@[simp]
theorem nodes_place (v : Variable) : (place v).nodes = v.nodes.map .inBody := by
  simp [nodes, NumberedNode.beneath, v.nodes_eq]

@[simp]
theorem nodes_value (e : Expr) : (value e).nodes = e.nodes.map .inBody := by
  simp [nodes, NumberedNode.beneath, e.nodes_eq]

@[simp]
theorem nodes_stmt (s : Stmt) : (stmt s).nodes = s.nodes.map .inBody := rfl

private theorem nodes_stmts (body : List Stmt) : (body.map stmt).flatMap (·.nodes) = (allNodes body).map .inBody := by
  rw [List.flatMap_map, allNodes_eq, List.map_flatMap]
  rfl

private theorem nodes_values (arguments : List Expr) :
    (arguments.map value).flatMap (·.nodes) = (arguments.flatMap (·.nodes)).map .inBody := by
  rw [List.flatMap_map, List.map_flatMap]
  exact List.flatMap_congr fun argument _ => nodes_value argument

end Piece

namespace BuildStep

/-- The numbered nodes in what a call is given. -/
def given (step : BuildStep) : List NumberedNode := step.uses.flatMap (·.nodes)

private theorem given_typeExpr {step : BuildStep} {type : TypeExpr} (h : step.uses = [.typeExpr type]) :
    type.nodes = step.given := by
  rw [given, h, List.flatMap_singleton, Piece.nodes_typeExpr]

/-- A call builds one piece without a number, one node with the next number, or the value of a named variable. -/
theorem run_cases (step : BuildStep) (next : Nat) :
    (∃ piece, step.run next = ([piece], next) ∧ step.numbers = 0 ∧ piece.node? = none ∧
      piece.nodes = step.given) ∨
    (∃ node, step.run next = ([.numbered node], next + 1) ∧ step.numbers = 1 ∧ node.id = next ∧
      node.beneath = step.given) ∨
    (∃ position name, step = .loadNamed position name) := by
  cases step with
  | program position declarations => exact .inl ⟨_, rfl, rfl, rfl, by rw [given, uses, List.flatMap_map]; rfl⟩
  | typeDeclaration position name type => exact .inl ⟨_, rfl, rfl, rfl, given_typeExpr rfl⟩
  | procedure position name parameters locals body =>
    refine .inl ⟨_, rfl, rfl, rfl, ?_⟩
    rw [given, uses, List.flatMap_append, List.flatMap_append, Piece.nodes_stmts, List.flatMap_map, List.flatMap_map]
    rfl
  | parameter position name type byReference => exact .inl ⟨_, rfl, rfl, rfl, given_typeExpr rfl⟩
  | localVariable position name type => exact .inl ⟨_, rfl, rfl, rfl, given_typeExpr rfl⟩
  | namedType position name => exact .inr (.inl ⟨_, rfl, rfl, rfl, rfl⟩)
  | arrayType position size base => exact .inr (.inl ⟨_, rfl, rfl, rfl, given_typeExpr rfl⟩)
  | assign position target value => exact .inl ⟨_, rfl, rfl, rfl, by simp [given, uses, Stmt.nodes]⟩
  | ifStmt position condition thenPart elsePart =>
    cases elsePart with
    | none => exact .inl ⟨_, rfl, rfl, rfl, by simp [given, uses, Stmt.nodes]⟩
    | some elsePart => exact .inl ⟨_, rfl, rfl, rfl, by simp [given, uses, Stmt.nodes]⟩
  | whileDo position condition body => exact .inl ⟨_, rfl, rfl, rfl, by simp [given, uses, Stmt.nodes]⟩
  | call position callee arguments => exact .inl ⟨_, rfl, rfl, rfl, (Piece.nodes_values arguments).symm⟩
  | block position body => exact .inl ⟨_, rfl, rfl, rfl, (Piece.nodes_stmts body).symm⟩
  | empty position => exact .inl ⟨_, rfl, rfl, rfl, rfl⟩
  | binary position op left right =>
    exact .inr (.inl ⟨_, rfl, rfl, rfl, by simp [given, uses, NumberedNode.beneath, TreeNode.beneath]⟩)
  | literal position value => exact .inr (.inl ⟨_, rfl, rfl, rfl, rfl⟩)
  | load position source =>
    exact .inr (.inl ⟨_, rfl, rfl, rfl, by simp [given, uses, NumberedNode.beneath, TreeNode.beneath]⟩)
  | loadNamed position name => exact .inr (.inr ⟨position, name, rfl⟩)
  | named position name => exact .inr (.inl ⟨_, rfl, rfl, rfl, rfl⟩)
  | element position array index =>
    exact .inr (.inl ⟨_, rfl, rfl, rfl, by simp [given, uses, NumberedNode.beneath, TreeNode.beneath]⟩)

end BuildStep

private theorem TypeExpr.map_id_nodes (expr : TypeExpr) : expr.nodes.map (·.id) = expr.nodeIds := by
  rw [nodes, List.map_map]
  exact expr.map_id_parts

private theorem Procedure.map_id_nodes (procedure : Procedure) : procedure.nodes.map (·.id) = procedure.nodeIds := by
  rw [nodes, nodeIds, List.map_append, List.map_append, List.map_flatMap, List.map_flatMap, List.map_map,
    ← map_id_allNodes]
  congr 2
  · exact List.flatMap_congr fun parameter _ => parameter.type.map_id_nodes
  · exact List.flatMap_congr fun declared _ => declared.type.map_id_nodes

/-- The nodes of a program have the numbers of the program. -/
theorem Program.map_id_nodes (program : Program) : program.nodes.map (·.id) = program.nodeIds := by
  rw [nodes, nodeIds, List.map_flatMap]
  refine List.flatMap_congr fun declaration _ => ?_
  cases declaration with
  | type declared => exact declared.type.map_id_nodes
  | procedure declared => exact declared.map_id_nodes

namespace Stock
variable {history : List BuildStep} {stock : Stock} {piece : Piece} {node : NumberedNode} {step : BuildStep}

/-- What every call keeps: with a node there is everything below it, and that has smaller numbers. -/
structure Sound (stock : Stock) : Prop where
  numbers : stock.nodes.map (·.id) = List.range stock.count
  closed : ∀ piece ∈ stock.pieces, piece.nodes ⊆ stock.nodes
  above : ∀ node ∈ stock.nodes, ∀ lower ∈ node.beneath, lower.id < node.id

private theorem nodes_after (stock : Stock) (step : BuildStep) :
    (stock.after step).nodes = stock.nodes ++ (step.run stock.count).1.filterMap (·.node?) :=
  List.filterMap_append

namespace Sound

private theorem id_lt (h : stock.Sound) (hm : node ∈ stock.nodes) : node.id < stock.count := by
  have hid := List.mem_map_of_mem (f := (·.id)) hm
  rw [h.numbers] at hid
  exact List.mem_range.mp hid

private theorem length_nodes (h : stock.Sound) : stock.nodes.length = stock.count := by
  rw [← List.length_map (·.id), h.numbers, List.length_range]

private theorem given (h : stock.Sound) (hu : step.uses ⊆ stock.pieces) : step.given ⊆ stock.nodes := by
  intro node hm
  obtain ⟨piece, hp, hn⟩ := List.mem_flatMap.mp hm
  exact h.closed piece (hu hp) hn

private theorem addPlain (h : stock.Sound) (hn : piece.node? = none) (hp : piece.nodes ⊆ stock.nodes) :
    Sound ⟨stock.pieces ++ [piece], stock.count⟩ := by
  have hnodes : nodes ⟨stock.pieces ++ [piece], stock.count⟩ = stock.nodes := by
    simp [nodes, hn]
  refine ⟨?_, ?_, ?_⟩
  · rw [hnodes]
    exact h.numbers
  · rw [hnodes]
    exact List.forall_mem_append.mpr ⟨h.closed, List.forall_mem_singleton.mpr hp⟩
  · rw [hnodes]
    exact h.above

private theorem addNode (h : stock.Sound) (hid : node.id = stock.count) (hb : node.beneath ⊆ stock.nodes) :
    Sound ⟨stock.pieces ++ [.numbered node], stock.count + 1⟩ := by
  have hnodes : nodes ⟨stock.pieces ++ [.numbered node], stock.count + 1⟩ = stock.nodes ++ [node] := by
    simp [nodes, Piece.node?]
  refine ⟨?_, ?_, ?_⟩
  · rw [hnodes, List.map_append, h.numbers, List.range_succ, List.map_singleton, hid]
  · rw [hnodes]
    refine List.forall_mem_append.mpr ⟨fun piece hm => ?_, List.forall_mem_singleton.mpr ?_⟩
    · exact List.subset_append_of_subset_left _ (h.closed piece hm)
    · exact List.append_subset.mpr ⟨List.subset_append_of_subset_left _ hb, List.subset_append_right _ _⟩
  · rw [hnodes]
    refine List.forall_mem_append.mpr ⟨h.above, List.forall_mem_singleton.mpr fun lower hl => ?_⟩
    rw [hid]
    exact h.id_lt (hb hl)

private theorem after (h : stock.Sound) (hu : step.uses ⊆ stock.pieces) : (stock.after step).Sound := by
  rcases step.run_cases stock.count with ⟨piece, hr, -, hn, hp⟩ | ⟨node, hr, -, hid, hb⟩ | ⟨position, name, rfl⟩
  · rw [Stock.after, hr]
    exact h.addPlain hn (hp ▸ h.given hu)
  · rw [Stock.after, hr]
    exact h.addNode hid (hb ▸ h.given hu)
  · let v := Variable.named ⟨stock.count, position⟩ name
    let e := Expr.load ⟨stock.count + 1, position⟩ v
    have hv : Sound ⟨stock.pieces ++ [.place v], stock.count + 1⟩ := h.addNode rfl (List.nil_subset _)
    have hb : (NumberedNode.inBody (.value e)).beneath ⊆ nodes ⟨stock.pieces ++ [.place v], stock.count + 1⟩ :=
      hv.closed (.place v) (List.mem_append_right _ (List.mem_singleton_self _))
    have he : Sound ⟨stock.pieces ++ [.place v] ++ [.value e], stock.count + 2⟩ := hv.addNode rfl hb
    rw [List.append_assoc] at he
    exact he

end Sound

namespace Reached

theorem sound (h : Reached history stock) : stock.Sound := by
  induction h with
  | start => exact ⟨rfl, by simp, by simp [nodes]⟩
  | step step _ hu ih => exact ih.after hu

theorem count (h : Reached history stock) : stock.count = handedOut history := by
  induction h with
  | start => rfl
  | @step history stock step _ _ ih =>
    rw [handedOut, List.map_append, List.sum_append, ← handedOut, ← ih, List.map_singleton, List.sum_singleton]
    rcases step.run_cases stock.count with ⟨piece, hr, hn, -⟩ | ⟨node, hr, hn, -⟩ | ⟨position, name, rfl⟩
    · rw [after, hr, hn]
      rfl
    · rw [after, hr, hn]
    · rfl

private theorem nodes_getElem?_after {i : Nat} (h : stock.nodes[i]? = some node) (step : BuildStep) :
    (stock.after step).nodes[i]? = some node := by
  rw [nodes_after, List.getElem?_append_left (List.getElem?_eq_some_iff.mp h).1, h]

theorem loads (h : Reached history stock) {before after : List BuildStep} {position : Position} {name : Name}
    (hs : history = before ++ .loadNamed position name :: after) :
    let first := handedOut before
    let v := Variable.named ⟨first, position⟩ name
    stock.nodes[first]? = some (.inBody (.place v)) ∧
      stock.nodes[first + 1]? = some (.inBody (.value (.load ⟨first + 1, position⟩ v))) := by
  induction h generalizing after with
  | start => simp at hs
  | @step history stock step hr _ ih =>
    rcases List.eq_nil_or_concat after with rfl | ⟨between, last, rfl⟩
    · obtain ⟨rfl, hl⟩ := List.append_inj' hs rfl
      cases hl
      rw [nodes_after, ← hr.count, ← hr.sound.length_nodes]
      refine ⟨?_, ?_⟩
      · rw [List.getElem?_append_right (Nat.le_refl _), Nat.sub_self, hr.sound.length_nodes]
        rfl
      · rw [List.getElem?_append_right (Nat.le_add_right _ 1), Nat.add_sub_cancel_left, hr.sound.length_nodes]
        rfl
    · rw [List.concat_eq_append, ← List.cons_append, ← List.append_assoc] at hs
      obtain ⟨rfl, -⟩ := List.append_inj' hs rfl
      obtain ⟨hv, hl⟩ := ih rfl
      exact ⟨nodes_getElem?_after hv step, nodes_getElem?_after hl step⟩

end Reached

namespace Sound
variable {program : Program}

private theorem id_injective (h : stock.Sound) {first second : NumberedNode} (hf : first ∈ stock.nodes)
    (hs : second ∈ stock.nodes) (he : first.id = second.id) : first = second :=
  List.inj_on_of_nodup_map (h.numbers ▸ List.nodup_range) hf hs he

private theorem nodeIds_nodup_iff (h : stock.Sound) (hsub : program.nodes ⊆ stock.nodes) :
    program.nodeIds.Nodup ↔ program.nodes.Nodup := by
  rw [← program.map_id_nodes]
  refine ⟨List.Nodup.of_map _, fun hn => ?_⟩
  exact hn.map_on fun first hf second hs => h.id_injective (hsub hf) (hsub hs)

private theorem nodeIds_perm (h : stock.Sound) (hsub : program.nodes ⊆ stock.nodes) (hn : program.nodes.Nodup)
    (ha : stock.nodes ⊆ program.nodes) : program.nodeIds.Perm (List.range stock.count) := by
  have hnodup : stock.nodes.Nodup := List.Nodup.of_map (·.id) (h.numbers ▸ List.nodup_range)
  have hperm : program.nodes.Perm stock.nodes :=
    (List.perm_ext_iff_of_nodup hn hnodup).mpr fun node => ⟨(hsub ·), (ha ·)⟩
  rw [← program.map_id_nodes, ← h.numbers]
  exact hperm.map _

end Sound

/-- Whatever calls were made, the numbers identify the nodes. -/
theorem Reached.identified (h : Reached history stock) : Identified history stock where
  numbers := h.sound.numbers
  count := h.count
  loads := fun _ _ _ _ => h.loads
  above := h.sound.above
  used := fun _ => h.sound.closed _
  distinct := fun _ => h.sound.nodeIds_nodup_iff
  all := fun _ => h.sound.nodeIds_perm

section Row

def at1 : Position := ⟨1, 1⟩

def rowType : TypeExpr := .array ⟨1, at1⟩ 3 (.named ⟨0, at1⟩ "int")

def rowIndex : Variable := .named ⟨3, at1⟩ "i"

def rowTarget : Variable := .element ⟨6, at1⟩ (.named ⟨5, at1⟩ "a") (.load ⟨4, at1⟩ rowIndex)

def rowValue : Expr := .literal ⟨2, at1⟩ 7

def rowTypeDeclared : Declaration := .type { position := at1, name := "row", type := rowType }

def rowProcedure : Declaration :=
  .procedure { position := at1, name := "f", parameters := [], locals := [], body := [.assign at1 rowTarget rowValue] }

/-- The value of the assignment is built before its target, the target before the type. -/
def rowSteps : List BuildStep :=
  [.namedType at1 "int", .arrayType at1 3 (.named ⟨0, at1⟩ "int"), .literal at1 7, .loadNamed at1 "i",
    .named at1 "a", .element at1 (.named ⟨5, at1⟩ "a") (.load ⟨4, at1⟩ rowIndex), .assign at1 rowTarget rowValue,
    .typeDeclaration at1 "row" rowType, .procedure at1 "f" [] [] [.assign at1 rowTarget rowValue],
    .program at1 [rowTypeDeclared, rowProcedure]]

def rowProgram : Program := { position := at1, declarations := [rowTypeDeclared, rowProcedure] }

def rowStock : Stock := rowSteps.foldl after ⟨[], 0⟩

private theorem uses_one {pieces : List Piece} (i : Nat) (h : pieces[i]? = some piece) : [piece] ⊆ pieces :=
  List.cons_subset.mpr ⟨List.mem_of_getElem? h, List.nil_subset _⟩

private theorem uses_two {pieces : List Piece} {second : Piece} (i j : Nat) (h : pieces[i]? = some piece)
    (h' : pieces[j]? = some second) : [piece, second] ⊆ pieces :=
  List.cons_subset.mpr ⟨List.mem_of_getElem? h, uses_one j h'⟩

private theorem rowSteps_reached : Reached rowSteps rowStock := by
  have int := Reached.start.step (.namedType at1 "int") (List.nil_subset _)
  have type := int.step (.arrayType at1 3 (.named ⟨0, at1⟩ "int")) (uses_one 0 rfl)
  have value := type.step (.literal at1 7) (List.nil_subset _)
  have index := value.step (.loadNamed at1 "i") (List.nil_subset _)
  have array := index.step (.named at1 "a") (List.nil_subset _)
  have target := array.step (.element at1 (.named ⟨5, at1⟩ "a") (.load ⟨4, at1⟩ rowIndex)) (uses_two 4 5 rfl rfl)
  have assigned := target.step (.assign at1 rowTarget rowValue) (uses_two 6 2 rfl rfl)
  have declared := assigned.step (.typeDeclaration at1 "row" rowType) (uses_one 1 rfl)
  have procedure := declared.step (.procedure at1 "f" [] [] [.assign at1 rowTarget rowValue]) (uses_one 7 rfl)
  exact procedure.step (.program at1 [rowTypeDeclared, rowProcedure]) (uses_two 8 9 rfl rfl)

/-- The program has every node once, in another order than they were built in. -/
theorem rowSteps_identified : Reached rowSteps rowStock ∧ Identified rowSteps rowStock ∧
    .program rowProgram ∈ rowStock.pieces ∧ rowProgram.nodes.Nodup ∧ rowStock.nodes ⊆ rowProgram.nodes ∧
    rowProgram.nodeIds = [0, 1, 3, 4, 5, 6, 2] := by
  refine ⟨rowSteps_reached, rowSteps_reached.identified, List.mem_of_getElem? (i := 10) rfl, ?_, ?_, rfl⟩
  · exact List.Nodup.of_map (·.id) (by decide)
  · let value := [NumberedNode.inBody (.value rowValue)]
    let target := rowTarget.nodes.map NumberedNode.inBody
    show rowType.nodes ++ (value ++ target) ⊆ rowType.nodes ++ (target ++ value)
    exact (List.perm_append_comm.append_left _).subset

end Row
end Stock
end SplLang

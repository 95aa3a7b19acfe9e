import SplLang.Proofs.Bare
import SplLang.Proofs.Occurrences
import SplLang.Proofs.Steps
import SplLang.Typing

/-! What checking and placing write, whether they succeed or fail on the way: the types of the nodes
in the bodies, and the places of the program's own variables and procedures. -/
namespace SplLang

namespace Trail
variable {ω α β : Type} {allowed : ω → Prop}

/-- Whatever becomes of it, the computation finds nothing but what the predicate allows. -/
def Leaves (allowed : ω → Prop) (t : Trail ω α) : Prop := ∀ x ∈ t.found, allowed x

namespace Leaves

theorem bind {t : Trail ω α} {next : α → Trail ω β} (ht : Leaves allowed t)
    (hn : ∀ a, t.result = .ok a → Leaves allowed (next a)) : Leaves allowed (t >>= next) := by
  obtain ⟨found, events, result⟩ := t
  cases result with
  | error d => exact ht
  | ok a =>
    intro x hx
    rcases List.mem_append.mp hx with hx | hx
    · exact ht x hx
    · exact hn a rfl x hx

private theorem of_found_nil {t : Trail ω α} (h : t.found = []) : Leaves allowed t := by
  intro x hx
  rw [h] at hx
  cases hx

theorem pure (a : α) : Leaves allowed (Pure.pure a : Trail ω α) := of_found_nil rfl

theorem leave {found : List ω} (h : ∀ x ∈ found, allowed x) : Leaves allowed (Trail.leave found) := h

theorem report (event : Event) : Leaves allowed (Trail.report event) := of_found_nil rfl

theorem fail (position : Position) (cause : Cause) : Leaves allowed (Trail.fail position cause : Trail ω α) :=
  of_found_nil rfl

theorem expect (value : Option α) (position : Position) (cause : Cause) :
    Leaves allowed (Trail.expect value position cause) := by
  cases value <;> exact of_found_nil rfl

theorem require (condition : Prop) [Decidable condition] (position : Position) (cause : Cause) :
    Leaves allowed (Trail.require condition position cause) := by
  by_cases h : condition
  · rw [require_of h]
    exact pure ()
  · rw [Trail.require, if_neg h]
    exact fail _ _

theorem forM {γ : Type} {f : γ → Trail ω Unit} (xs : List γ) (h : ∀ x ∈ xs, Leaves allowed (f x)) :
    Leaves allowed (xs.forM f) := by
  induction xs with
  | nil => exact pure ()
  | cons x xs ih =>
    exact bind (h x List.mem_cons_self) fun _ _ => ih fun y hy => h y (List.mem_cons_of_mem _ hy)

theorem mono {weaker : ω → Prop} {t : Trail ω α} (h : Leaves allowed t) (hw : ∀ x, allowed x → weaker x) :
    Leaves weaker t :=
  fun x hx => hw x (h x hx)

end Leaves
end Trail

section
open Trail
variable {around : Surroundings}

/-- The finding is about one of the numbers. -/
def Finding.Among (ids : List NodeId) (finding : Finding) : Prop := finding.1 ∈ ids

private theorem leaves_left {α : Type} {t : Check α} {ids more : List NodeId}
    (h : Leaves (Finding.Among ids) t) : Leaves (Finding.Among (ids ++ more)) t :=
  h.mono fun _ => List.mem_append_left more

private theorem leaves_right {α : Type} {t : Check α} {ids more : List NodeId}
    (h : Leaves (Finding.Among ids) t) : Leaves (Finding.Among (more ++ ids)) t :=
  h.mono fun _ => List.mem_append_right more

private theorem remember_leaves {ids : List NodeId} {node : Node} (h : node.id ∈ ids) (type : TypeId) :
    Leaves (Finding.Among ids) (Check.remember node type) := by
  refine Leaves.bind (.leave ?_) fun _ _ => .pure _
  intro finding hf
  cases List.mem_singleton.mp hf
  exact h

mutual

private theorem Variable.check_among (v : Variable) : Leaves (Finding.Among v.nodeIds) (v.check around) := by
  cases v with
  | named node name =>
    have hname : Leaves (Finding.Among [node.id]) (around.typeOf node.position name) := by
      rw [Surroundings.typeOf]
      split
      · exact .pure _
      · exact .fail _ _
      · exact .fail _ _
    exact hname.bind fun type _ => remember_leaves List.mem_cons_self type
  | element node array index =>
    rw [Variable.check, Variable.nodeIds]
    refine (leaves_left (leaves_left index.check_among)).bind fun _ _ => ?_
    refine (leaves_left (leaves_right array.check_among)).bind fun _ _ => ?_
    refine (Leaves.require _ _ _).bind fun _ _ => ?_
    exact (Leaves.expect _ _ _).bind fun _ _ => remember_leaves (by simp) _

private theorem Expr.check_among (e : Expr) : Leaves (Finding.Among e.nodeIds) (e.check around) := by
  cases e with
  | literal node value => exact remember_leaves List.mem_cons_self _
  | load node source =>
    rw [Expr.check, Expr.nodeIds]
    refine (leaves_left source.check_among).bind fun _ _ => ?_
    exact remember_leaves (by simp) _
  | binary node op left right =>
    have hop : ∀ l r, Leaves (Finding.Among (left.nodeIds ++ right.nodeIds ++ [node.id])) (op.check node l r) := by
      intro l r
      refine (Leaves.require _ _ _).bind fun _ _ => (Leaves.require _ _ _).bind fun _ _ =>
        (Leaves.require _ _ _).bind fun _ _ => ?_
      cases op <;> exact .pure _
    rw [Expr.check, Expr.nodeIds]
    refine (leaves_left (leaves_left left.check_among)).bind fun _ _ => ?_
    refine (leaves_left (leaves_right right.check_among)).bind fun _ _ => ?_
    exact (hop _ _).bind fun _ _ => remember_leaves (by simp) _

end

/-- The check of a node of a body. -/
def TreeNode.check (around : Surroundings) : TreeNode → Check TypeId
  | .place v => v.check around
  | .value e => e.check around

private theorem TreeNode.check_among (node : TreeNode) :
    Leaves (Finding.Among (node.nodes.map (·.id))) (node.check around) := by
  cases node with
  | place v =>
    rw [TreeNode.nodes, v.map_id_nodes]
    exact v.check_among
  | value e =>
    rw [TreeNode.nodes, e.map_id_nodes]
    exact e.check_among

variable {allowed : Finding → Prop}

private theorem checkArguments_leaves (callee : Name) (number : Nat) (slots : List Slot) (arguments : List Expr)
    (h : ∀ argument ∈ arguments, Leaves allowed (argument.check around)) :
    Leaves allowed (checkArguments around callee number slots arguments) := by
  induction slots generalizing number arguments with
  | nil => cases arguments <;> exact .pure _
  | cons slot slots ih =>
    cases arguments with
    | nil => exact .pure _
    | cons argument arguments =>
      obtain ⟨hargument, hrest⟩ := List.forall_mem_cons.mp h
      rw [checkArguments]
      refine hargument.bind fun _ _ => ?_
      exact (Leaves.require _ _ _).bind fun _ _ => (Leaves.require _ _ _).bind fun _ _ => ih _ _ hrest

private theorem checkCall_leaves (position : Position) (callee : Name) (arguments : List Expr)
    (h : ∀ argument ∈ arguments, Leaves allowed (argument.check around)) :
    Leaves allowed (checkCall around position callee arguments) := by
  refine (Leaves.expect _ _ _).bind fun outer _ => ?_
  cases around.scopes.seen? outer callee with
  | none => exact .fail _ _
  | some entry =>
    cases entry with
    | proc entry =>
      refine (Leaves.require _ _ _).bind fun _ _ => (Leaves.require _ _ _).bind fun _ _ => ?_
      exact checkArguments_leaves _ _ _ _ h
    | _ => exact .fail _ _

mutual

/-- A check of a statement finds no more than the checks of its nodes. -/
theorem Stmt.check_leaves (stmt : Stmt) (h : ∀ node ∈ stmt.nodes, Leaves allowed (node.check around)) :
    Leaves allowed (stmt.check around) := by
  cases stmt with
  | assign position target value =>
    obtain ⟨htarget, hvalue⟩ := List.forall_mem_append.mp h
    rw [Stmt.check]
    refine (htarget _ target.mem_nodes).bind fun _ _ => (hvalue _ value.mem_nodes).bind fun _ _ => ?_
    exact (Leaves.require _ _ _).bind fun _ _ => .require _ _ _
  | ifThen position condition thenPart =>
    obtain ⟨hcondition, hthen⟩ := List.forall_mem_append.mp h
    rw [Stmt.check]
    refine (hcondition _ condition.mem_nodes).bind fun _ _ => (Leaves.require _ _ _).bind fun _ _ => ?_
    exact thenPart.check_leaves hthen
  | ifElse position condition thenPart elsePart =>
    obtain ⟨hboth, helse⟩ := List.forall_mem_append.mp h
    obtain ⟨hcondition, hthen⟩ := List.forall_mem_append.mp hboth
    rw [Stmt.check]
    refine (hcondition _ condition.mem_nodes).bind fun _ _ => (Leaves.require _ _ _).bind fun _ _ => ?_
    exact (thenPart.check_leaves hthen).bind fun _ _ => elsePart.check_leaves helse
  | whileDo position condition body =>
    obtain ⟨hcondition, hbody⟩ := List.forall_mem_append.mp h
    rw [Stmt.check]
    refine (hcondition _ condition.mem_nodes).bind fun _ _ => (Leaves.require _ _ _).bind fun _ _ => ?_
    exact body.check_leaves hbody
  | call position callee arguments =>
    refine checkCall_leaves position callee arguments fun argument hm => h (.value argument) ?_
    exact List.mem_flatMap.mpr ⟨argument, hm, argument.mem_nodes⟩
  | block position body => exact checkAll_leaves body h
  | empty position => exact .pure ()

theorem checkAll_leaves (body : List Stmt) (h : ∀ node ∈ allNodes body, Leaves allowed (node.check around)) :
    Leaves allowed (checkAll around body) := by
  cases body with
  | nil => exact .pure ()
  | cons stmt rest =>
    obtain ⟨hstmt, hrest⟩ := List.forall_mem_append.mp h
    rw [checkAll]
    exact (stmt.check_leaves hstmt).bind fun _ _ => checkAll_leaves rest hrest

end

/-- A check of the bodies finds no more than the checks of their nodes. -/
theorem Program.checkBodies_leaves (program : Program) (types : TypeTable) (scopes : ScopeTree)
    (h : ∀ procedure ∈ program.procedures, ∀ scope, ∀ node ∈ allNodes procedure.body,
      Leaves allowed (node.check ⟨types, scopes, scope⟩)) :
    Leaves allowed (program.checkBodies types scopes) := by
  refine Leaves.bind ?_ fun _ _ => .forM _ fun procedure hp => ?_
  · rw [checkMain]
    split
    · exact .require _ _ _
    · exact .fail _ _
    · exact .fail _ _
  · refine (Leaves.expect _ _ _).bind fun scope _ => (Leaves.report _).bind fun _ _ => ?_
    exact checkAll_leaves procedure.body (h procedure hp scope)

theorem Program.checkBodies_among (program : Program) (types : TypeTable) (scopes : ScopeTree) :
    Leaves (Finding.Among (program.procedures.flatMap fun p => allNodeIds p.body))
      (program.checkBodies types scopes) := by
  refine program.checkBodies_leaves types scopes fun procedure hp scope node hn => node.check_among.mono ?_
  intro finding hf
  refine List.mem_flatMap.mpr ⟨procedure, hp, ?_⟩
  rw [← map_id_allNodes]
  exact List.map_subset _ (allNodes_closed procedure.body node hn) hf

end

section
open Trail
variable {types : TypeTable} {scopes : ScopeTree}

/-- What a placement writes to is the scope of a procedure or its global entry. -/
def Placement.Within (scopes : ScopeTree) (procedure : Procedure) : Placement → Prop
  | .variableAt scope name _ => (scopes.procedure? procedure.name).bind (·.scope) = some scope ∧
      (name ∈ procedure.parameters.map (·.name) ∨ name ∈ procedure.locals.map (·.name))
  | .areas name _ _ _ => name = procedure.name
  | .outgoing name _ => name = procedure.name

private theorem placeParameters_leaves (procedure : Name) (scope : ScopeId) (start : Nat)
    (parameters : List Parameter) :
    Leaves (fun placement => ∃ p ∈ parameters, ∃ offset, placement = .variableAt scope p.name offset)
      (placeParameters types scopes procedure scope start parameters) := by
  induction parameters generalizing start with
  | nil => exact .pure _
  | cons parameter rest ih =>
    refine (Leaves.expect _ _ _).bind fun entry _ => (Leaves.leave ?_).bind fun _ _ => ?_
    · intro placement hp
      exact ⟨parameter, List.mem_cons_self, _, List.mem_singleton.mp hp⟩
    · refine (Leaves.report _).bind fun _ _ => (Leaves.require _ _ _).bind fun _ _ => ?_
      refine ((ih _).mono ?_).bind fun _ _ => .pure _
      rintro placement ⟨p, hp, h⟩
      exact ⟨p, List.mem_cons_of_mem _ hp, h⟩

private theorem placeLocals_leaves (procedure : Name) (scope : ScopeId) (below : Nat)
    (locals : List LocalVariable) :
    Leaves (fun placement => ∃ l ∈ locals, ∃ offset, placement = .variableAt scope l.name offset)
      (placeLocals types scopes procedure scope below locals) := by
  induction locals generalizing below with
  | nil => exact .pure _
  | cons declaration rest ih =>
    refine (Leaves.expect _ _ _).bind fun entry _ => (Leaves.require _ _ _).bind fun _ _ => ?_
    refine (Leaves.leave ?_).bind fun _ _ => (Leaves.report _).bind fun _ _ => (ih _).mono ?_
    · intro placement hp
      exact ⟨declaration, List.mem_cons_self, _, List.mem_singleton.mp hp⟩
    · rintro placement ⟨l, hl, h⟩
      exact ⟨l, List.mem_cons_of_mem _ hl, h⟩

theorem Procedure.placeVariables_leaves (procedure : Procedure) :
    Leaves (fun placement => placement.Within scopes procedure ∧ ∀ name area, placement ≠ .outgoing name area)
      (procedure.placeVariables types scopes) := by
  have hscope : ∀ scope, (procedure.localScope scopes : Place ScopeId).result = .ok scope →
      (scopes.procedure? procedure.name).bind (·.scope) = some scope := fun scope => result_expect_eq_ok.mp
  refine Leaves.bind (t := procedure.localScope scopes) (.expect _ _ _) fun scope hs => ?_
  refine ((placeParameters_leaves _ _ _ _).mono ?_).bind fun _ _ => ?_
  · rintro _ ⟨p, hp, offset, rfl⟩
    exact ⟨⟨hscope scope hs, .inl (List.mem_map_of_mem hp)⟩, nofun⟩
  refine ((placeLocals_leaves _ _ _ _).mono ?_).bind fun _ _ => ?_
  · rintro _ ⟨l, hl, offset, rfl⟩
    exact ⟨⟨hscope scope hs, .inr (List.mem_map_of_mem hl)⟩, nofun⟩
  refine (Leaves.leave ?_).bind fun _ _ => .report _
  intro placement hp
  cases List.mem_singleton.mp hp
  exact ⟨rfl, nofun⟩

mutual

theorem Stmt.outgoing_leaves (scope : ScopeId) (area : OutgoingArea) (stmt : Stmt) :
    Leaves (fun _ => False) (stmt.outgoing scopes scope area) := by
  cases stmt with
  | assign position target value => exact .pure _
  | ifThen position condition thenPart => exact thenPart.outgoing_leaves scope area
  | ifElse position condition thenPart elsePart =>
    exact (thenPart.outgoing_leaves scope area).bind fun area _ => elsePart.outgoing_leaves scope area
  | whileDo position condition body => exact body.outgoing_leaves scope area
  | call position callee arguments => exact (Leaves.expect _ _ _).bind fun _ _ => .pure _
  | block position body => exact outgoingAll_leaves scope area body
  | empty position => exact .pure _

theorem outgoingAll_leaves (scope : ScopeId) (area : OutgoingArea) (body : List Stmt) :
    Leaves (fun _ => False) (outgoingAll scopes scope area body) := by
  cases body with
  | nil => exact .pure _
  | cons stmt rest =>
    exact (stmt.outgoing_leaves scope area).bind fun area _ => outgoingAll_leaves scope area rest

end

theorem Procedure.sizeOutgoing_leaves (procedure : Procedure) :
    Leaves (fun placement => ∃ area, placement = .outgoing procedure.name area)
      (procedure.sizeOutgoing scopes) := by
  refine (Leaves.expect _ _ _).bind fun scope _ => ?_
  refine ((outgoingAll_leaves _ _ _).mono fun _ => False.elim).bind fun area _ => ?_
  refine (Leaves.report _).bind fun _ _ => (Leaves.require _ _ _).bind fun _ _ => .leave ?_
  intro placement hp
  exact ⟨area, List.mem_singleton.mp hp⟩

end

/-! ### Whole stages -/

open Phase

/-- What is reported behind a trail that succeeds. -/
def Trail.closing {ω α : Type} (t : Trail ω α) (event : Event) : List Event :=
  match t.result with
  | .ok _ => [event]
  | .error _ => []

section
variable (program : Program) (context : Context) (before : List Event)

/-- A check puts its findings into the context, whether it succeeds or not. -/
theorem Program.check_runFrom {t : Check Unit} (ht : program.checkBodies context.types context.scopes = t) :
    program.check.runFrom ⟨context, before⟩ =
      (t.result.map fun _ => program.procedures.length, ⟨context.rememberExprs t.found,
        before ++ (t.events ++ t.closing (.checked program.procedures.length
          (context.rememberExprs t.found).findings.exprs.length))⟩) := by
  rw [runFrom, check, run_context_bind, EStateM.run_bind, run_follow, ht, Trail.closing]
  cases t.result with
  | error d =>
    simp only [List.append_nil]
    rfl
  | ok u =>
    rw [← List.append_assoc]
    rfl

/-- Placing writes what its first half finds, and what its second half finds if it gets that far. -/
theorem Program.place_runFrom {t t' : Place Unit}
    (ht : program.procedures.forM (·.placeVariables context.types context.scopes) = t)
    (ht' : program.procedures.forM (·.sizeOutgoing (context.place t.found).scopes) = t') :
    program.place.runFrom ⟨context, before⟩ =
      match t.result with
      | .error d => (.error d, ⟨context.place t.found, before ++ t.events⟩)
      | .ok _ => (t'.result.map fun _ => program.procedures.length, ⟨(context.place t.found).place t'.found,
          before ++ (t.events ++ (t'.events ++ t'.closing (.allocated program.procedures.length)))⟩) := by
  rw [runFrom, place, run_context_bind, EStateM.run_bind, run_follow, ht]
  cases t.result with
  | error d => rfl
  | ok u =>
    dsimp only
    rw [run_context_bind, EStateM.run_bind, run_follow, ht', Trail.closing]
    cases t'.result with
    | error d =>
      simp only [List.append_nil, ← List.append_assoc]
      rfl
    | ok u =>
      simp only [← List.append_assoc]
      rfl

end
end SplLang

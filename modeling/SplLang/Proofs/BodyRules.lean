import SplLang.Proofs.FirstBroken
import SplLang.Proofs.WellTyped

/-! The rules for the bodies of procedures, in the order in which a body is gone through, with what breaks each of
them. The checker reports the first one that is broken. -/
namespace SplLang

/-- A rule for a part of a body. -/
inductive BodyRule where
  | variableDeclared (node : Node) (name : Name)
  | variableNamed (node : Node) (name : Name)
  | indexInteger (node : Node) (array : Variable) (index : Expr)
  | arrayIndexed (node : Node) (array : Variable) (index : Expr)
  | operandsAlike (node : Node) (op : Operator) (left right : Expr)
  | leftInteger (node : Node) (op : Operator) (left right : Expr)
  | rightInteger (node : Node) (op : Operator) (left right : Expr)
  | targetInteger (position : Position) (target : Variable) (value : Expr)
  | sidesAlike (position : Position) (target : Variable) (value : Expr)
  | ifBoolean (position : Position) (condition : Expr)
  | whileBoolean (position : Position) (condition : Expr)
  | calleeDeclared (position : Position) (callee : Name) (arguments : List Expr)
  | calleeProcedure (position : Position) (callee : Name) (arguments : List Expr)
  | notTooMany (position : Position) (callee : Name) (arguments : List Expr)
  | notTooFew (position : Position) (callee : Name) (arguments : List Expr)
  /-- Arguments are counted from one. -/
  | argumentVariable (callee : Name) (number : Nat) (argument : Expr)
  /-- Arguments are counted from one. -/
  | argumentType (callee : Name) (number : Nat) (argument : Expr)

/-! ### What breaks a rule -/

/-- The node has a type, but not the expected one. -/
def TreeNode.Mistyped (around : Surroundings) (expected : TypeId) (node : TreeNode) : Prop :=
  ∃ type, node.HasType around type ∧ type ≠ expected

/-- Both nodes have a type, but not the same. -/
def TreeNode.Differ (around : Surroundings) (node other : TreeNode) : Prop :=
  ∃ type, node.HasType around type ∧ other.Mistyped around type

/-- What a name of a procedure means: it is seen from the scope around the body. -/
def Surroundings.outside? (around : Surroundings) (name : Name) : Option Entry :=
  (around.scopes.parent? around.scope).bind (around.scopes.seen? · name)

/-- The type and the kind of a parameter, counted from one. -/
def Surroundings.parameter? (around : Surroundings) (callee : Name) (number : Nat) : Option (TypeId × Bool) :=
  (around.callee? callee).bind (·[number - 1]?)

/-- Why an operation on another type than `int` is refused. -/
def Operator.nonInteger : Operator → Cause
  | .comparison _ => .comparedNonInteger
  | .arithmetic _ => .computedNonInteger

/-- What breaks a rule for a part of a body, and what is reported then. -/
def BodyRule.demand (around : Surroundings) : BodyRule → Demand
  | .variableDeclared node name =>
    ⟨⟨node.position, .undefinedVariable name⟩, around.scopes.seen? around.scope name = none⟩
  | .variableNamed node name => ⟨⟨node.position, .notAVariable name⟩,
      ∃ entry, around.scopes.seen? around.scope name = some entry ∧ entry.var? = none⟩
  | .indexInteger node _ index =>
    ⟨⟨node.position, .indexNotInteger⟩, (TreeNode.value index).Mistyped around TypeId.int⟩
  | .arrayIndexed node array _ => ⟨⟨node.position, .indexedNonArray⟩,
      ∃ type, array.HasType around type ∧ around.types.array? type = none⟩
  | .operandsAlike node _ left right =>
    ⟨⟨node.position, .operandTypesDiffer⟩, (TreeNode.value left).Differ around (.value right)⟩
  | .leftInteger _ op left _ =>
    ⟨⟨left.node.position, op.nonInteger⟩, (TreeNode.value left).Mistyped around TypeId.int⟩
  | .rightInteger _ op _ right =>
    ⟨⟨right.node.position, op.nonInteger⟩, (TreeNode.value right).Mistyped around TypeId.int⟩
  | .targetInteger position target _ =>
    ⟨⟨position, .assignmentToNonInteger⟩, (TreeNode.place target).Mistyped around TypeId.int⟩
  | .sidesAlike position target value =>
    ⟨⟨position, .assignmentTypesDiffer⟩, (TreeNode.place target).Differ around (.value value)⟩
  | .ifBoolean position condition =>
    ⟨⟨position, .ifConditionNotBoolean⟩, (TreeNode.value condition).Mistyped around TypeId.boolean⟩
  | .whileBoolean position condition =>
    ⟨⟨position, .whileConditionNotBoolean⟩, (TreeNode.value condition).Mistyped around TypeId.boolean⟩
  | .calleeDeclared position callee _ => ⟨⟨position, .undefinedProcedure callee⟩, around.outside? callee = none⟩
  | .calleeProcedure position callee _ => ⟨⟨position, .calledNonProcedure callee⟩,
      ∃ entry, around.outside? callee = some entry ∧ entry.proc? = none⟩
  | .notTooMany position callee arguments => ⟨⟨position, .tooManyArguments callee⟩,
      ∃ parameters, around.callee? callee = some parameters ∧ parameters.length < arguments.length⟩
  | .notTooFew position callee arguments => ⟨⟨position, .tooFewArguments callee⟩,
      ∃ parameters, around.callee? callee = some parameters ∧ arguments.length < parameters.length⟩
  | .argumentVariable callee number argument => ⟨⟨argument.node.position, .argumentNotVariable callee number⟩,
      ∃ type, around.parameter? callee number = some (type, true) ∧ argument.isVariable = false⟩
  | .argumentType callee number argument => ⟨⟨argument.node.position, .argumentTypeMismatch callee number⟩,
      ∃ type byReference, around.parameter? callee number = some (type, byReference) ∧
        (TreeNode.value argument).Mistyped around type⟩

private theorem Operator.nonInteger_code_le (op : Operator) : op.nonInteger.code ≤ 128 := by
  cases op <;> simp [nonInteger, Cause.code]

theorem BodyRule.code_le (around : Surroundings) (rule : BodyRule) : (rule.demand around).diagnostic.code ≤ 128 := by
  cases rule with
  | leftInteger _ op _ _ | rightInteger _ op _ _ => exact op.nonInteger_code_le
  | _ => simp [demand, Diagnostic.code, Cause.code]

/-! ### The order of the rules -/

/-- The rules for a node itself. -/
def TreeNode.rules : TreeNode → List BodyRule
  | .place (.named node name) => [.variableDeclared node name, .variableNamed node name]
  | .place (.element node array index) => [.indexInteger node array index, .arrayIndexed node array index]
  | .value (.binary node op left right) =>
    [.operandsAlike node op left right, .leftInteger node op left right, .rightInteger node op left right]
  | .value _ => []

/-- The rules for a variable: those for the index come before those for the array, and its own come last. -/
def Variable.rules (v : Variable) : List BodyRule := v.nodes.flatMap (·.rules)

/-- The rules for an expression: those for the operands come from left to right, and its own come last. -/
def Expr.rules (e : Expr) : List BodyRule := e.nodes.flatMap (·.rules)

/-- The rules for arguments from left to right, where the first has the given number. -/
def argumentRules (callee : Name) : Nat → List Expr → List BodyRule
  | _, [] => []
  | number, argument :: arguments => argument.rules ++ .argumentVariable callee number argument ::
      .argumentType callee number argument :: argumentRules callee (number + 1) arguments

mutual

/-- The rules for a statement: those for its parts come in the order in which the parts are written. -/
def Stmt.rules : Stmt → List BodyRule
  | .assign position target value => target.rules ++ (value.rules ++
      [.targetInteger position target value, .sidesAlike position target value])
  | .ifThen position condition thenPart => condition.rules ++ .ifBoolean position condition :: thenPart.rules
  | .ifElse position condition thenPart elsePart =>
    condition.rules ++ .ifBoolean position condition :: (thenPart.rules ++ elsePart.rules)
  | .whileDo position condition body => condition.rules ++ .whileBoolean position condition :: body.rules
  | .call position callee arguments => .calleeDeclared position callee arguments ::
      .calleeProcedure position callee arguments :: .notTooMany position callee arguments ::
      .notTooFew position callee arguments :: argumentRules callee 1 arguments
  | .block _ body => allRules body
  | .empty _ => []

def allRules : List Stmt → List BodyRule
  | [] => []
  | stmt :: rest => stmt.rules ++ allRules rest

end

/-! ### What a rule is about -/

/-- The rule is one for the statement itself. -/
inductive BodyRule.OfStmt : BodyRule → Stmt → Prop where
  | target {position : Position} {target : Variable} {value : Expr} :
      OfStmt (.targetInteger position target value) (.assign position target value)
  | sides {position : Position} {target : Variable} {value : Expr} :
      OfStmt (.sidesAlike position target value) (.assign position target value)
  | ifThen {position : Position} {condition : Expr} {thenPart : Stmt} :
      OfStmt (.ifBoolean position condition) (.ifThen position condition thenPart)
  | ifElse {position : Position} {condition : Expr} {thenPart elsePart : Stmt} :
      OfStmt (.ifBoolean position condition) (.ifElse position condition thenPart elsePart)
  | whileDo {position : Position} {condition : Expr} {body : Stmt} :
      OfStmt (.whileBoolean position condition) (.whileDo position condition body)
  | declared {position : Position} {callee : Name} {arguments : List Expr} :
      OfStmt (.calleeDeclared position callee arguments) (.call position callee arguments)
  | procedure {position : Position} {callee : Name} {arguments : List Expr} :
      OfStmt (.calleeProcedure position callee arguments) (.call position callee arguments)
  | tooMany {position : Position} {callee : Name} {arguments : List Expr} :
      OfStmt (.notTooMany position callee arguments) (.call position callee arguments)
  | tooFew {position : Position} {callee : Name} {arguments : List Expr} :
      OfStmt (.notTooFew position callee arguments) (.call position callee arguments)
  | argumentVariable {position : Position} {callee : Name} {arguments : List Expr} {i : Nat} {argument : Expr} :
      arguments[i]? = some argument →
        OfStmt (.argumentVariable callee (1 + i) argument) (.call position callee arguments)
  | argumentType {position : Position} {callee : Name} {arguments : List Expr} {i : Nat} {argument : Expr} :
      arguments[i]? = some argument →
        OfStmt (.argumentType callee (1 + i) argument) (.call position callee arguments)

/-- The rule is one for a node or for a statement of the given ones. -/
def BodyRule.StandsIn (rule : BodyRule) (nodes : List TreeNode) (stmts : List Stmt) : Prop :=
  (∃ node ∈ nodes, rule ∈ node.rules) ∨ ∃ stmt ∈ stmts, rule.OfStmt stmt

section
variable {rule : BodyRule} {nodes more : List TreeNode} {stmts others : List Stmt}

theorem BodyRule.StandsIn.mono (h : rule.StandsIn nodes stmts) (hn : nodes ⊆ more) (hs : stmts ⊆ others) :
    rule.StandsIn more others := by
  rcases h with ⟨node, hm, hr⟩ | ⟨stmt, hm, hr⟩
  · exact .inl ⟨node, hn hm, hr⟩
  · exact .inr ⟨stmt, hs hm, hr⟩

private theorem Variable.rules_standIn (v : Variable) (h : rule ∈ v.rules) : rule.StandsIn v.nodes [] :=
  .inl (List.mem_flatMap.mp h)

private theorem Expr.rules_standIn (e : Expr) (h : rule ∈ e.rules) : rule.StandsIn e.nodes [] :=
  .inl (List.mem_flatMap.mp h)

private theorem argumentRules_cases {callee : Name} {number : Nat} {arguments : List Expr}
    (h : rule ∈ argumentRules callee number arguments) :
    (∃ node ∈ arguments.flatMap (·.nodes), rule ∈ node.rules) ∨ ∃ i argument, arguments[i]? = some argument ∧
      (rule = .argumentVariable callee (number + i) argument ∨ rule = .argumentType callee (number + i) argument) := by
  induction arguments generalizing number with
  | nil => cases h
  | cons argument arguments ih =>
    rw [List.flatMap_cons]
    rcases List.mem_append.mp h with h | h
    · obtain ⟨node, hn, hr⟩ := List.mem_flatMap.mp h
      exact .inl ⟨node, List.mem_append_left _ hn, hr⟩
    rcases List.mem_cons.mp h with rfl | h
    · exact .inr ⟨0, argument, rfl, .inl rfl⟩
    rcases List.mem_cons.mp h with rfl | h
    · exact .inr ⟨0, argument, rfl, .inr rfl⟩
    rcases ih h with ⟨node, hn, hr⟩ | ⟨i, found, hi, hr⟩
    · exact .inl ⟨node, List.mem_append_right _ hn, hr⟩
    · rw [Nat.add_right_comm] at hr
      exact .inr ⟨i + 1, found, hi, hr⟩

mutual

/-- Each rule for a statement is about something in it. -/
theorem Stmt.rules_standIn (s : Stmt) (h : rule ∈ s.rules) : rule.StandsIn s.nodes s.statements := by
  cases s with
  | assign position target value =>
    rcases List.mem_append.mp h with h | h
    · exact (target.rules_standIn h).mono (List.subset_append_left _ _) (List.nil_subset _)
    rcases List.mem_append.mp h with h | h
    · exact (value.rules_standIn h).mono (List.subset_append_right _ _) (List.nil_subset _)
    rcases List.mem_pair.mp h with rfl | rfl
    · exact .inr ⟨_, List.mem_cons_self, .target⟩
    · exact .inr ⟨_, List.mem_cons_self, .sides⟩
  | ifThen position condition thenPart =>
    rcases List.mem_append.mp h with h | h
    · exact (condition.rules_standIn h).mono (List.subset_append_left _ _) (List.nil_subset _)
    rcases List.mem_cons.mp h with rfl | h
    · exact .inr ⟨_, List.mem_cons_self, .ifThen⟩
    · exact (thenPart.rules_standIn h).mono (List.subset_append_right _ _) (List.subset_cons_self _ _)
  | ifElse position condition thenPart elsePart =>
    rw [Stmt.nodes, List.append_assoc]
    rcases List.mem_append.mp h with h | h
    · exact (condition.rules_standIn h).mono (List.subset_append_left _ _) (List.nil_subset _)
    rcases List.mem_cons.mp h with rfl | h
    · exact .inr ⟨_, List.mem_cons_self, .ifElse⟩
    have hparts : rule.StandsIn (thenPart.nodes ++ elsePart.nodes) (thenPart.statements ++ elsePart.statements) := by
      rcases List.mem_append.mp h with h | h
      · exact (thenPart.rules_standIn h).mono (List.subset_append_left _ _) (List.subset_append_left _ _)
      · exact (elsePart.rules_standIn h).mono (List.subset_append_right _ _) (List.subset_append_right _ _)
    exact hparts.mono (List.subset_append_right _ _) (List.subset_cons_self _ _)
  | whileDo position condition body =>
    rcases List.mem_append.mp h with h | h
    · exact (condition.rules_standIn h).mono (List.subset_append_left _ _) (List.nil_subset _)
    rcases List.mem_cons.mp h with rfl | h
    · exact .inr ⟨_, List.mem_cons_self, .whileDo⟩
    · exact (body.rules_standIn h).mono (List.subset_append_right _ _) (List.subset_cons_self _ _)
  | call position callee arguments =>
    have hstmt : ∀ {rule : BodyRule}, rule.OfStmt (.call position callee arguments) →
        rule.StandsIn (arguments.flatMap (·.nodes)) [.call position callee arguments] :=
      fun hr => .inr ⟨_, List.mem_cons_self, hr⟩
    simp only [Stmt.rules, List.mem_cons] at h
    rcases h with rfl | rfl | rfl | rfl | h
    · exact hstmt .declared
    · exact hstmt .procedure
    · exact hstmt .tooMany
    · exact hstmt .tooFew
    · rcases argumentRules_cases h with hn | ⟨i, argument, hi, rfl | rfl⟩
      · exact .inl hn
      · exact hstmt (.argumentVariable hi)
      · exact hstmt (.argumentType hi)
  | block position body =>
    exact (allRules_standIn body h).mono (List.Subset.refl _) (List.subset_cons_self _ _)
  | empty position => cases h

theorem allRules_standIn (body : List Stmt) (h : rule ∈ allRules body) :
    rule.StandsIn (allNodes body) (allStatements body) := by
  cases body with
  | nil => cases h
  | cons stmt rest =>
    rcases List.mem_append.mp h with h | h
    · exact (stmt.rules_standIn h).mono (List.subset_append_left _ _) (List.subset_append_left _ _)
    · exact (allRules_standIn rest h).mono (List.subset_append_right _ _) (List.subset_append_right _ _)

end
end

/-! ### The check of a body -/

section
variable {around : Surroundings}

/-- A check that succeeds answers the type. -/
theorem Variable.hasType_of_check {v : Variable} {type : TypeId} (h : (v.check around).result = .ok type) :
    (TreeNode.place v).HasType around type := (v.check_ok (Trail.gives_of_ok h)).1

private theorem Expr.hasType_of_check {e : Expr} {type : TypeId} (h : (e.check around).result = .ok type) :
    (TreeNode.value e).HasType around type := (e.check_ok (Trail.gives_of_ok h)).1

private theorem TreeNode.mistyped_iff {node : TreeNode} {type expected : TypeId} (h : node.HasType around type) :
    node.Mistyped around expected ↔ type ≠ expected := by
  constructor
  · rintro ⟨found, hf, hne⟩
    rw [h.unique hf]
    exact hne
  · exact fun hne => ⟨type, h, hne⟩

private theorem TreeNode.differ_iff {node other : TreeNode} {type found : TypeId} (h : node.HasType around type)
    (ho : other.HasType around found) : node.Differ around other ↔ type ≠ found := by
  constructor
  · rintro ⟨expected, he, hm⟩
    rw [h.unique he]
    exact ((mistyped_iff ho).mp hm).symm
  · exact fun hne => ⟨type, h, found, ho, hne.symm⟩

private theorem typeOf_refuses (node : Node) (name : Name) :
    (around.typeOf node.position name).Refuses (BodyRule.demand around)
      [.variableDeclared node name, .variableNamed node name] := by
  unfold Surroundings.typeOf
  split
  · next entry hs =>
    refine .skip ?_ (.skip ?_ (.pure _))
    · intro hb
      cases hs.symm.trans hb
    · rintro ⟨held, hheld, hv⟩
      cases hs.symm.trans hheld
      cases hv
  · next held hne hs =>
    refine .skip ?_ (.fail rfl ⟨held, hs, ?_⟩)
    · intro hb
      cases hs.symm.trans hb
    · cases held with
      | var entry => exact absurd rfl (hne entry)
      | type _ => rfl
      | proc _ => rfl
  · next hs => exact .fail rfl hs

private theorem remember_refuses (node : Node) (type : TypeId) :
    (Check.remember node type).Refuses (BodyRule.demand around) [] := .of_ok rfl

private theorem operator_refuses {node : Node} {op : Operator} {left right : Expr} {leftType rightType : TypeId}
    (hl : (TreeNode.value left).HasType around leftType) (hr : (TreeNode.value right).HasType around rightType) :
    (op.check node (left.node, leftType) (right.node, rightType)).Refuses (BodyRule.demand around)
      [.operandsAlike node op left right, .leftInteger node op left right, .rightInteger node op left right] := by
  unfold Operator.check
  refine .require_bind rfl (TreeNode.differ_iff hl hr) fun _ => ?_
  refine .require_bind (by cases op <;> rfl) (TreeNode.mistyped_iff hl) fun _ => ?_
  refine .require_bind (by cases op <;> rfl) (TreeNode.mistyped_iff hr) fun _ => ?_
  cases op <;> exact .pure _

mutual

/-- The check of a variable reports the first rule that is broken. -/
theorem Variable.check_refuses (v : Variable) : (v.check around).Refuses (BodyRule.demand around) v.rules := by
  cases v with
  | named node name =>
    rw [Variable.check]
    exact (typeOf_refuses node name).bind_pure fun _ _ => remember_refuses _ _
  | element node array index =>
    have hrules : (Variable.element node array index).rules = index.rules ++ (array.rules ++
        [.indexInteger node array index, .arrayIndexed node array index]) := by
      simp [Variable.rules, Variable.nodes, Expr.rules, TreeNode.rules]
    rw [Variable.check, hrules]
    refine index.check_refuses.bind fun _ hi => array.check_refuses.bind fun arrayType ha => ?_
    have harray := Variable.hasType_of_check ha
    refine .require_bind rfl (TreeNode.mistyped_iff (Expr.hasType_of_check hi)) fun _ => ?_
    refine .expect_bind rfl ⟨?_, fun hn => ⟨arrayType, harray, hn⟩⟩ fun _ _ => remember_refuses _ _
    rintro ⟨type, ht, hn⟩
    rw [harray.unique ht]
    exact hn

theorem Expr.check_refuses (e : Expr) : (e.check around).Refuses (BodyRule.demand around) e.rules := by
  cases e with
  | literal node value =>
    rw [Expr.check]
    exact remember_refuses _ _
  | load node source =>
    have hrules : (Expr.load node source).rules = source.rules := by
      simp [Expr.rules, Expr.nodes, Variable.rules, TreeNode.rules]
    rw [Expr.check, hrules]
    exact source.check_refuses.bind_pure fun _ _ => remember_refuses _ _
  | binary node op left right =>
    have hrules : (Expr.binary node op left right).rules = left.rules ++ (right.rules ++
        [.operandsAlike node op left right, .leftInteger node op left right, .rightInteger node op left right]) := by
      simp [Expr.rules, Expr.nodes, TreeNode.rules]
    rw [Expr.check, hrules]
    refine left.check_refuses.bind fun _ hl => right.check_refuses.bind fun _ hr => ?_
    refine Trail.Refuses.bind_pure ?_ fun _ _ => remember_refuses _ _
    exact operator_refuses (Expr.hasType_of_check hl) (Expr.hasType_of_check hr)

end

/-- The slots are the parameters of the callee from the given number on. -/
private theorem checkArguments_refuses {callee : Name} {number : Nat} {slots : List Slot} {arguments : List Expr}
    (hlength : arguments.length = slots.length)
    (hslots : ∀ i slot, slots[i]? = some slot →
      around.parameter? callee (number + i) = some (slot.type, slot.byReference)) :
    (checkArguments around callee number slots arguments).Refuses (BodyRule.demand around)
      (argumentRules callee number arguments) := by
  induction slots generalizing number arguments with
  | nil =>
    obtain rfl := List.length_eq_zero_iff.mp hlength
    exact .pure ()
  | cons slot slots ih =>
    cases arguments with
    | nil => cases hlength
    | cons argument arguments =>
      have hfirst := hslots 0 slot rfl
      rw [Nat.add_zero] at hfirst
      rw [checkArguments, argumentRules]
      refine argument.check_refuses.bind fun _ ha => ?_
      have htype := Expr.hasType_of_check ha
      refine .require_bind rfl ?_ fun _ => .require_bind rfl ?_ fun _ => ih (Nat.succ.inj hlength) ?_
      · simp [BodyRule.demand, hfirst]
      · simp [BodyRule.demand, hfirst, TreeNode.mistyped_iff htype]
      · intro i held hi
        rw [Nat.add_right_comm]
        exact hslots (i + 1) held hi

private theorem checkCall_refuses {outer : ScopeId} (ho : around.scopes.parent? around.scope = some outer)
    (position : Position) (callee : Name) (arguments : List Expr) :
    (checkCall around position callee arguments).Refuses (BodyRule.demand around)
      (Stmt.call position callee arguments).rules := by
  have houtside : around.outside? callee = around.scopes.seen? outer callee := by
    rw [Surroundings.outside?, ho, Option.bind_some]
  simp only [checkCall, ho, Trail.expect, pure_bind, Stmt.rules]
  split
  · next entry hs =>
    have hc : around.callee? callee = some (entry.parameters.map fun slot => (slot.type, slot.byReference)) := by
      simp [Surroundings.callee?, ScopeTree.callee?, ho, hs, Entry.proc?]
    refine .skip ?_ (.skip ?_ (.require_bind rfl ?_ fun hle => .require_bind rfl ?_ fun hge => ?_))
    · simp [BodyRule.demand, houtside, hs]
    · simp [BodyRule.demand, houtside, hs, Entry.proc?]
    · simp [BodyRule.demand, hc]
    · simp [BodyRule.demand, hc]
    · refine checkArguments_refuses (Nat.le_antisymm hle hge) fun i slot hi => ?_
      simp [Surroundings.parameter?, hc, hi]
  · next held hne hs =>
    refine .skip ?_ (.fail rfl ⟨held, houtside.trans hs, ?_⟩)
    · simp [BodyRule.demand, houtside, hs]
    · cases held with
      | proc entry => exact absurd rfl (hne entry)
      | type _ => rfl
      | var _ => rfl
  · next hs => exact .fail rfl (houtside.trans hs)

mutual

/-- The check of a statement reports the first rule that is broken. -/
theorem Stmt.check_refuses {outer : ScopeId} (ho : around.scopes.parent? around.scope = some outer) (s : Stmt) :
    (s.check around).Refuses (BodyRule.demand around) s.rules := by
  cases s with
  | assign position target value =>
    rw [Stmt.check, Stmt.rules]
    refine target.check_refuses.bind fun _ ht => value.check_refuses.bind fun _ hv => ?_
    have htarget := Variable.hasType_of_check ht
    refine .require_bind rfl (TreeNode.mistyped_iff htarget) fun _ => .require rfl ?_
    exact TreeNode.differ_iff htarget (Expr.hasType_of_check hv)
  | ifThen position condition thenPart =>
    rw [Stmt.check, Stmt.rules]
    refine condition.check_refuses.bind fun _ hc => ?_
    exact .require_bind rfl (TreeNode.mistyped_iff (Expr.hasType_of_check hc)) fun _ => thenPart.check_refuses ho
  | ifElse position condition thenPart elsePart =>
    rw [Stmt.check, Stmt.rules]
    refine condition.check_refuses.bind fun _ hc => ?_
    refine .require_bind rfl (TreeNode.mistyped_iff (Expr.hasType_of_check hc)) fun _ => ?_
    exact (thenPart.check_refuses ho).bind fun _ _ => elsePart.check_refuses ho
  | whileDo position condition body =>
    rw [Stmt.check, Stmt.rules]
    refine condition.check_refuses.bind fun _ hc => ?_
    exact .require_bind rfl (TreeNode.mistyped_iff (Expr.hasType_of_check hc)) fun _ => body.check_refuses ho
  | call position callee arguments =>
    rw [Stmt.check]
    exact checkCall_refuses ho position callee arguments
  | block position body =>
    rw [Stmt.check]
    exact checkAll_refuses ho body
  | empty position =>
    rw [Stmt.check]
    exact .pure ()

theorem checkAll_refuses {outer : ScopeId} (ho : around.scopes.parent? around.scope = some outer)
    (body : List Stmt) : (checkAll around body).Refuses (BodyRule.demand around) (allRules body) := by
  cases body with
  | nil =>
    rw [checkAll]
    exact .pure ()
  | cons stmt rest =>
    rw [checkAll, allRules]
    exact (stmt.check_refuses ho).bind fun _ _ => checkAll_refuses ho rest

end
end
end SplLang

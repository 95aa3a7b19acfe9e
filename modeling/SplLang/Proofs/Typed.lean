import Mathlib.Data.List.Forall2
import SplLang.Typing
import SplLang.Proofs.Occurrences
import SplLang.Proofs.Sizes
import SplLang.Proofs.Steps

/-! Which trees are well typed, apart from how they are checked. A check that succeeds finds
the type of every numbered node, and what it found for the array of a subscript is its type. -/
namespace SplLang

/-- The type of the variable that a name means. -/
def Surroundings.varType? (around : Surroundings) (name : Name) : Option TypeId :=
  ((around.scopes.seen? around.scope name).bind (·.var?)).map (·.type)

/-- For each parameter of the procedure that a call means, its type and whether it is passed
by reference. -/
def Surroundings.callee? (around : Surroundings) (name : Name) : Option (List (TypeId × Bool)) :=
  (around.scopes.callee? around.scope name).map fun entry =>
    entry.parameters.map fun slot => (slot.type, slot.byReference)

mutual

inductive Variable.HasType (around : Surroundings) : Variable → TypeId → Prop where
  | named {node : Node} {name : Name} {type : TypeId} :
      around.varType? name = some type → Variable.HasType around (.named node name) type
  | element {node : Node} {array : Variable} {index : Expr} {arrayType element : TypeId}
      {length : UInt32} :
      Variable.HasType around array arrayType → Expr.HasType around index TypeId.int →
        around.types.array? arrayType = some (element, length) →
          Variable.HasType around (.element node array index) element

inductive Expr.HasType (around : Surroundings) : Expr → TypeId → Prop where
  | literal {node : Node} {value : Int32} : Expr.HasType around (.literal node value) TypeId.int
  | load {node : Node} {source : Variable} {type : TypeId} :
      Variable.HasType around source type → Expr.HasType around (.load node source) type
  | arithmetic {node : Node} {op : Arithmetic} {left right : Expr} :
      Expr.HasType around left TypeId.int → Expr.HasType around right TypeId.int →
        Expr.HasType around (.binary node (.arithmetic op) left right) TypeId.int
  | comparison {node : Node} {op : Comparison} {left right : Expr} :
      Expr.HasType around left TypeId.int → Expr.HasType around right TypeId.int →
        Expr.HasType around (.binary node (.comparison op) left right) TypeId.boolean

end

/-- An argument for a parameter of the given type and kind. -/
def Expr.FitsParameter (around : Surroundings) (argument : Expr) (parameter : TypeId × Bool) : Prop :=
  argument.HasType around parameter.1 ∧ (parameter.2 → argument.isVariable)

inductive Stmt.Typed (around : Surroundings) : Stmt → Prop where
  | assign {position : Position} {target : Variable} {value : Expr} :
      target.HasType around TypeId.int → value.HasType around TypeId.int →
        Typed around (.assign position target value)
  | ifThen {position : Position} {condition : Expr} {thenPart : Stmt} :
      condition.HasType around TypeId.boolean → Typed around thenPart →
        Typed around (.ifThen position condition thenPart)
  | ifElse {position : Position} {condition : Expr} {thenPart elsePart : Stmt} :
      condition.HasType around TypeId.boolean → Typed around thenPart → Typed around elsePart →
        Typed around (.ifElse position condition thenPart elsePart)
  | whileDo {position : Position} {condition : Expr} {body : Stmt} :
      condition.HasType around TypeId.boolean → Typed around body →
        Typed around (.whileDo position condition body)
  | call {position : Position} {callee : Name} {arguments : List Expr}
      {parameters : List (TypeId × Bool)} :
      around.callee? callee = some parameters →
        List.Forall₂ (Expr.FitsParameter around) arguments parameters →
          Typed around (.call position callee arguments)
  | block {position : Position} {body : List Stmt} :
      (∀ stmt ∈ body, Typed around stmt) → Typed around (.block position body)
  | empty {position : Position} : Typed around (.empty position)

/-- The node is a variable or an expression of the type. -/
def TreeNode.HasType (around : Surroundings) (type : TypeId) : TreeNode → Prop
  | .place v => v.HasType around type
  | .value e => e.HasType around type

/-- The finding holds the number of the node and its type. -/
def Finds (around : Surroundings) (node : TreeNode) (finding : Finding) : Prop :=
  finding.1 = node.id ∧ node.HasType around finding.2

section
variable {around : Surroundings} {found : List Finding}

@[simp]
private theorem gives_remember {node : Node} {type type' : TypeId} :
    (Check.remember node type).Gives type' found ↔ type = type' ∧ found = [(node.id, type)] := by
  unfold Check.remember
  rw [Trail.gives_leave_bind]
  simp

private theorem gives_typeOf {position : Position} {name : Name} {type : TypeId}
    (h : (around.typeOf position name).Gives type found) :
    around.varType? name = some type ∧ found = [] := by
  unfold Surroundings.typeOf at h
  unfold Surroundings.varType?
  split at h
  · next entry hs =>
    obtain ⟨rfl, rfl⟩ := Trail.gives_pure.mp h
    rw [hs]
    exact ⟨rfl, rfl⟩
  · cases Trail.gives_fail.mp h
  · cases Trail.gives_fail.mp h

private theorem gives_operator {op : Operator} {node left right : Node} {leftType rightType type : TypeId}
    (h : (op.check node (left, leftType) (right, rightType)).Gives type found) :
    leftType = TypeId.int ∧ rightType = TypeId.int ∧ found = [] ∧
      type = (if op.isComparison then TypeId.boolean else TypeId.int) := by
  simp only [Operator.check, Trail.gives_require_bind] at h
  obtain ⟨_, hl, hr, h⟩ := h
  cases op <;>
  · obtain ⟨rfl, rfl⟩ := Trail.gives_pure.mp h
    exact ⟨hl, hr, rfl, rfl⟩

mutual

/-- A successful check of a variable answers its type and finds the types of its nodes. -/
theorem Variable.check_ok (v : Variable) {type : TypeId} {found : List Finding}
    (h : (v.check around).Gives type found) :
    v.HasType around type ∧ List.Forall₂ (Finds around) v.nodes found := by
  cases v with
  | named node name =>
    rw [Variable.check, Trail.gives_bind] at h
    obtain ⟨t, first, rest, hn, hr, rfl⟩ := h
    obtain ⟨ht, rfl⟩ := gives_typeOf hn
    obtain ⟨rfl, rfl⟩ := gives_remember.mp hr
    exact ⟨.named ht, .cons ⟨rfl, .named ht⟩ .nil⟩
  | element node array index =>
    rw [Variable.check, Trail.gives_bind] at h
    obtain ⟨indexType, first, rest, hi, harr, rfl⟩ := h
    obtain ⟨arrayType, second, last, ha, hreq, rfl⟩ := Trail.gives_bind.mp harr
    rw [Trail.gives_require_bind, Trail.gives_expect_bind] at hreq
    obtain ⟨rfl, ⟨element, length⟩, he, hr⟩ := hreq
    obtain ⟨rfl, rfl⟩ := gives_remember.mp hr
    obtain ⟨hit, hif⟩ := index.check_ok hi
    obtain ⟨hat, haf⟩ := array.check_ok ha
    have ht : (Variable.element node array index).HasType around element := .element hat hit he
    refine ⟨ht, ?_⟩
    rw [Variable.nodes, List.append_assoc]
    exact List.rel_append hif (List.rel_append haf (.cons ⟨rfl, ht⟩ .nil))

/-- A successful check of an expression answers its type and finds the types of its nodes. -/
theorem Expr.check_ok (e : Expr) {type : TypeId} {found : List Finding}
    (h : (e.check around).Gives type found) :
    e.HasType around type ∧ List.Forall₂ (Finds around) e.nodes found := by
  cases e with
  | literal node value =>
    rw [Expr.check, gives_remember] at h
    obtain ⟨rfl, rfl⟩ := h
    exact ⟨.literal, .cons ⟨rfl, .literal⟩ .nil⟩
  | load node source =>
    rw [Expr.check, Trail.gives_bind] at h
    obtain ⟨t, first, rest, hs, hr, rfl⟩ := h
    obtain ⟨rfl, rfl⟩ := gives_remember.mp hr
    obtain ⟨ht, hf⟩ := source.check_ok hs
    exact ⟨.load ht, List.rel_append hf (.cons ⟨rfl, .load ht⟩ .nil)⟩
  | binary node op left right =>
    rw [Expr.check, Trail.gives_bind] at h
    obtain ⟨leftType, first, rest, hl, hrest, rfl⟩ := h
    obtain ⟨rightType, second, last, hr, hop, rfl⟩ := Trail.gives_bind.mp hrest
    obtain ⟨t, third, own, ho, hown, rfl⟩ := Trail.gives_bind.mp hop
    obtain ⟨rfl, rfl, rfl, ht⟩ := gives_operator ho
    obtain ⟨rfl, rfl⟩ := gives_remember.mp hown
    obtain ⟨hlt, hlf⟩ := left.check_ok hl
    obtain ⟨hrt, hrf⟩ := right.check_ok hr
    have htype : (Expr.binary node op left right).HasType around t := by
      cases op with
      | arithmetic op =>
        cases ht
        exact .arithmetic hlt hrt
      | comparison op =>
        cases ht
        exact .comparison hlt hrt
    refine ⟨htype, ?_⟩
    rw [Expr.nodes, List.append_assoc]
    exact List.rel_append hlf (List.rel_append hrf (.cons ⟨rfl, htype⟩ .nil))

end

private theorem checkArguments_ok (callee : Name) (slots : List Slot) (arguments : List Expr)
    (hn : arguments.length = slots.length) {number : Nat} {u : Unit} {found : List Finding}
    (h : (checkArguments around callee number slots arguments).Gives u found) :
    List.Forall₂ (Expr.FitsParameter around) arguments
        (slots.map fun slot => (slot.type, slot.byReference)) ∧
      List.Forall₂ (Finds around) (arguments.flatMap (·.nodes)) found := by
  induction slots generalizing arguments number found with
  | nil =>
    obtain rfl := List.length_eq_zero_iff.mp hn
    obtain ⟨_, rfl⟩ := Trail.gives_pure.mp h
    exact ⟨.nil, .nil⟩
  | cons slot slots ih =>
    cases arguments with
    | nil => cases hn
    | cons argument arguments =>
      rw [checkArguments, Trail.gives_bind] at h
      obtain ⟨type, first, rest, ha, hrest, rfl⟩ := h
      rw [Trail.gives_require_bind, Trail.gives_require_bind] at hrest
      obtain ⟨href, rfl, hrest⟩ := hrest
      obtain ⟨ht, hf⟩ := argument.check_ok ha
      obtain ⟨hts, hfs⟩ := ih arguments (Nat.succ.inj hn) hrest
      exact ⟨.cons ⟨ht, href⟩ hts, List.rel_append hf hfs⟩

private theorem checkCall_ok {position : Position} {callee : Name} {arguments : List Expr} {u : Unit}
    (h : (checkCall around position callee arguments).Gives u found) :
    (Stmt.call position callee arguments).Typed around ∧
      List.Forall₂ (Finds around) (arguments.flatMap (·.nodes)) found := by
  unfold checkCall at h
  rw [Trail.gives_expect_bind] at h
  obtain ⟨outer, ho, h⟩ := h
  split at h
  · next entry hs =>
    rw [Trail.gives_require_bind, Trail.gives_require_bind] at h
    obtain ⟨hle, hge, h⟩ := h
    obtain ⟨ht, hf⟩ := checkArguments_ok _ _ _ (Nat.le_antisymm hle hge) h
    have hc : around.scopes.callee? around.scope callee = some entry := by
      simp [ScopeTree.callee?, ho, hs, Entry.proc?]
    refine ⟨.call ?_ ht, hf⟩
    rw [Surroundings.callee?, hc, Option.map_some]
  · cases Trail.gives_fail.mp h
  · cases Trail.gives_fail.mp h

mutual

/-- A successful check of a statement finds the types of its nodes. -/
theorem Stmt.check_ok (s : Stmt) {u : Unit} {found : List Finding}
    (h : (s.check around).Gives u found) :
    s.Typed around ∧ List.Forall₂ (Finds around) s.nodes found := by
  cases s with
  | assign position target value =>
    rw [Stmt.check, Trail.gives_bind] at h
    obtain ⟨targetType, first, rest, ht, hrest, rfl⟩ := h
    obtain ⟨valueType, second, last, hv, hreq, rfl⟩ := Trail.gives_bind.mp hrest
    rw [Trail.gives_require_bind, Trail.gives_require] at hreq
    obtain ⟨rfl, rfl, rfl⟩ := hreq
    obtain ⟨htt, htf⟩ := target.check_ok ht
    obtain ⟨hvt, hvf⟩ := value.check_ok hv
    refine ⟨.assign htt hvt, ?_⟩
    rw [List.append_nil]
    exact List.rel_append htf hvf
  | ifThen position condition thenPart =>
    rw [Stmt.check, Trail.gives_bind] at h
    obtain ⟨type, first, rest, hc, hrest, rfl⟩ := h
    rw [Trail.gives_require_bind] at hrest
    obtain ⟨rfl, hp⟩ := hrest
    obtain ⟨hct, hcf⟩ := condition.check_ok hc
    obtain ⟨hpt, hpf⟩ := thenPart.check_ok hp
    exact ⟨.ifThen hct hpt, List.rel_append hcf hpf⟩
  | ifElse position condition thenPart elsePart =>
    rw [Stmt.check, Trail.gives_bind] at h
    obtain ⟨type, first, rest, hc, hrest, rfl⟩ := h
    rw [Trail.gives_require_bind] at hrest
    obtain ⟨rfl, hparts⟩ := hrest
    obtain ⟨_, second, third, hp, he, rfl⟩ := Trail.gives_bind.mp hparts
    obtain ⟨hct, hcf⟩ := condition.check_ok hc
    obtain ⟨hpt, hpf⟩ := thenPart.check_ok hp
    obtain ⟨het, hef⟩ := elsePart.check_ok he
    refine ⟨.ifElse hct hpt het, ?_⟩
    rw [Stmt.nodes, List.append_assoc]
    exact List.rel_append hcf (List.rel_append hpf hef)
  | whileDo position condition body =>
    rw [Stmt.check, Trail.gives_bind] at h
    obtain ⟨type, first, rest, hc, hrest, rfl⟩ := h
    rw [Trail.gives_require_bind] at hrest
    obtain ⟨rfl, hb⟩ := hrest
    obtain ⟨hct, hcf⟩ := condition.check_ok hc
    obtain ⟨hbt, hbf⟩ := body.check_ok hb
    exact ⟨.whileDo hct hbt, List.rel_append hcf hbf⟩
  | call position callee arguments =>
    rw [Stmt.check] at h
    rw [Stmt.nodes]
    exact checkCall_ok h
  | block position body =>
    rw [Stmt.check] at h
    obtain ⟨ht, hf⟩ := checkAll_ok body h
    exact ⟨.block ht, hf⟩
  | empty position =>
    rw [Stmt.check] at h
    obtain ⟨_, rfl⟩ := Trail.gives_pure.mp h
    exact ⟨.empty, .nil⟩

theorem checkAll_ok (body : List Stmt) {u : Unit} {found : List Finding}
    (h : (checkAll around body).Gives u found) :
    (∀ stmt ∈ body, stmt.Typed around) ∧ List.Forall₂ (Finds around) (allNodes body) found := by
  cases body with
  | nil =>
    rw [checkAll] at h
    obtain ⟨_, rfl⟩ := Trail.gives_pure.mp h
    exact ⟨by simp, .nil⟩
  | cons stmt rest =>
    rw [checkAll, Trail.gives_bind] at h
    obtain ⟨_, first, others, hs, hrest, rfl⟩ := h
    obtain ⟨hst, hsf⟩ := stmt.check_ok hs
    obtain ⟨hrt, hrf⟩ := checkAll_ok rest hrest
    exact ⟨List.forall_mem_cons.mpr ⟨hst, hrt⟩, List.rel_append hsf hrf⟩

end

/-- A node has the type in the scope of the procedure that it lies in. -/
def TypeIn (types : TypeTable) (scopes : ScopeTree) (procedure : Procedure) (type : TypeId)
    (node : TreeNode) : Prop :=
  ∃ scope, (scopes.procedure? procedure.name).bind (·.scope) = some scope ∧
    node.HasType ⟨types, scopes, scope⟩ type

/-- The numbered nodes of all bodies, each with the procedure that it lies in. -/
def occurrences (procedures : List Procedure) : List (Procedure × TreeNode) :=
  procedures.flatMap fun procedure => (allNodes procedure.body).map (procedure, ·)

/-- The finding holds the number of the node and its type in the procedure that it lies in. -/
def FindsIn (types : TypeTable) (scopes : ScopeTree) (occurrence : Procedure × TreeNode)
    (finding : Finding) : Prop :=
  finding.1 = occurrence.2.id ∧ TypeIn types scopes occurrence.1 finding.2 occurrence.2

/-- A successful check of the bodies finds the types of all their nodes. -/
theorem Program.checkBodies_ok {types : TypeTable} {scopes : ScopeTree} {program : Program} {u : Unit}
    {found : List Finding} (h : (program.checkBodies types scopes).Gives u found) :
    List.Forall₂ (FindsIn types scopes) (occurrences program.procedures) found ∧
      ∀ procedure ∈ program.procedures, ∃ scope,
        (scopes.procedure? procedure.name).bind (·.scope) = some scope ∧
        ∀ stmt ∈ procedure.body, stmt.Typed ⟨types, scopes, scope⟩ := by
  rw [checkBodies, Trail.gives_bind] at h
  obtain ⟨_, first, rest, hm, hrest, rfl⟩ := h
  have hnil : first = [] := by
    unfold checkMain at hm
    split at hm
    · exact (Trail.gives_require.mp hm).2
    · cases Trail.gives_fail.mp hm
    · cases Trail.gives_fail.mp hm
  rw [hnil, List.nil_append]
  clear hm hnil
  generalize program.procedures = procedures at hrest ⊢
  induction procedures generalizing rest with
  | nil =>
    obtain ⟨_, rfl⟩ := Trail.gives_pure.mp hrest
    exact ⟨.nil, by simp⟩
  | cons procedure procedures ih =>
    obtain ⟨_, own, others, hp, hps, rfl⟩ := Trail.gives_bind.mp hrest
    unfold Procedure.check Procedure.localScope at hp
    obtain ⟨scope, hs, hp⟩ := Trail.gives_expect_bind.mp hp
    obtain ⟨ht, hf⟩ := checkAll_ok _ (Trail.gives_report_bind.mp hp)
    obtain ⟨hfs, hall⟩ := ih _ hps
    refine ⟨List.rel_append ?_ hfs, List.forall_mem_cons.mpr ⟨⟨scope, hs, ht⟩, hall⟩⟩
    rw [List.forall₂_map_left_iff]
    exact hf.imp fun node finding hfinds => ⟨hfinds.1, scope, hs, hfinds.2⟩

end
section
variable {around : Surroundings}

/-- A variable has at most one type. -/
theorem Variable.HasType.unique {v : Variable} {type other : TypeId} (h : v.HasType around type)
    (h' : v.HasType around other) : type = other := by
  cases h with
  | named hn =>
    cases h' with
    | named hn' => exact Option.some.inj (hn.symm.trans hn')
  | element ha hi he =>
    cases h' with
    | element ha' hi' he' =>
      rw [ha.unique ha', he'] at he
      exact ((Prod.mk.inj (Option.some.inj he)).1).symm

theorem Expr.HasType.unique {e : Expr} {type other : TypeId} (h : e.HasType around type)
    (h' : e.HasType around other) : type = other := by
  cases h with
  | literal =>
    cases h'
    rfl
  | load hs =>
    cases h' with
    | load hs' => exact hs.unique hs'
  | arithmetic =>
    cases h'
    rfl
  | comparison =>
    cases h'
    rfl

/-- A node has at most one type. -/
theorem TreeNode.HasType.unique {node : TreeNode} {type other : TypeId} (h : node.HasType around type)
    (h' : node.HasType around other) : type = other := by
  cases node with
  | place v => exact Variable.HasType.unique h h'
  | value e => exact Expr.HasType.unique h h'

theorem TypeIn.unique {types : TypeTable} {scopes : ScopeTree} {procedure : Procedure} {node : TreeNode}
    {type other : TypeId} (h : TypeIn types scopes procedure type node)
    (h' : TypeIn types scopes procedure other node) : type = other := by
  obtain ⟨scope, hscope, ht⟩ := h
  obtain ⟨scope', hscope', ht'⟩ := h'
  rw [hscope] at hscope'
  cases hscope'
  exact ht.unique ht'

mutual

/-- Only what names mean counts for a type. -/
theorem Variable.HasType.congr {other : Surroundings} (ht : other.types = around.types)
    (hv : ∀ name, other.varType? name = around.varType? name) {v : Variable} {type : TypeId}
    (h : v.HasType around type) : v.HasType other type := by
  cases h with
  | named hn => exact .named ((hv _).trans hn)
  | element ha hi he => exact .element (ha.congr ht hv) (hi.congr ht hv) (ht ▸ he)

theorem Expr.HasType.congr {other : Surroundings} (ht : other.types = around.types)
    (hv : ∀ name, other.varType? name = around.varType? name) {e : Expr} {type : TypeId}
    (h : e.HasType around type) : e.HasType other type := by
  cases h with
  | literal => exact .literal
  | load hs => exact .load (hs.congr ht hv)
  | arithmetic hl hr => exact .arithmetic (hl.congr ht hv) (hr.congr ht hv)
  | comparison hl hr => exact .comparison (hl.congr ht hv) (hr.congr ht hv)

end

theorem TreeNode.HasType.congr {other : Surroundings} (ht : other.types = around.types)
    (hv : ∀ name, other.varType? name = around.varType? name) {node : TreeNode} {type : TypeId}
    (h : node.HasType around type) : node.HasType other type := by
  cases node with
  | place v => exact Variable.HasType.congr ht hv h
  | value e => exact Expr.HasType.congr ht hv h

theorem Stmt.Typed.congr {other : Surroundings} (ht : other.types = around.types)
    (hv : ∀ name, other.varType? name = around.varType? name)
    (hc : ∀ name, other.callee? name = around.callee? name) {s : Stmt} (h : s.Typed around) :
    s.Typed other := by
  induction h with
  | assign hl hr => exact .assign (hl.congr ht hv) (hr.congr ht hv)
  | ifThen h _ ih => exact .ifThen (h.congr ht hv) ih
  | ifElse h _ _ ih ih' => exact .ifElse (h.congr ht hv) ih ih'
  | whileDo h _ ih => exact .whileDo (h.congr ht hv) ih
  | call h ha =>
    refine .call ((hc _).trans h) (ha.imp ?_)
    intro argument parameter hp
    exact ⟨hp.1.congr ht hv, hp.2⟩
  | block _ ih => exact .block ih
  | empty => exact .empty

/-- The table is built from declarations, and variables have types that can be declared. -/
structure Surroundings.Sound (around : Surroundings) : Prop where
  built : around.types.Built
  declarable : ∀ {name type}, around.varType? name = some type → around.types.Declarable type

/-- No variable, parameter or array element is a `boolean`. -/
theorem Variable.HasType.declarable (hs : around.Sound) {v : Variable} {type : TypeId}
    (h : v.HasType around type) : around.types.Declarable type := by
  cases h with
  | named hn => exact hs.declarable hn
  | element _ _ he => exact (hs.built.array he).1

/-- Only a comparison has the type `boolean`. -/
theorem Expr.HasType.of_boolean (hs : around.Sound) {e : Expr} (h : e.HasType around TypeId.boolean) :
    ∃ node op left right, e = .binary node (.comparison op) left right ∧
      left.HasType around TypeId.int ∧ right.HasType around TypeId.int := by
  generalize ht : TypeId.boolean = type at h
  cases h with
  | literal => cases ht
  | load hv => exact absurd ht.symm (hv.declarable hs).2
  | arithmetic => cases ht
  | comparison hl hr => exact ⟨_, _, _, _, rfl, hl, hr⟩

end
end SplLang

import Mathlib.Data.List.Forall2
import SplLang.Proofs.Lines
import SplLang.Proofs.Prepared

/-! Trees that differ in the numbers and positions of their nodes only, and programs that differ besides in
the locals and the body of one procedure. -/
namespace SplLang

inductive TypeExpr.Alike : TypeExpr → TypeExpr → Prop where
  | named {node node' : Node} {name : Name} : Alike (.named node name) (.named node' name)
  | array {node node' : Node} {length : UInt32} {base base' : TypeExpr} :
      Alike base base' → Alike (.array node length base) (.array node' length base')

mutual

inductive Variable.Alike : Variable → Variable → Prop where
  | named {node node' : Node} {name : Name} : Variable.Alike (.named node name) (.named node' name)
  | element {node node' : Node} {array array' : Variable} {index index' : Expr} :
      Variable.Alike array array' → Expr.Alike index index' →
        Variable.Alike (.element node array index) (.element node' array' index')

inductive Expr.Alike : Expr → Expr → Prop where
  | literal {node node' : Node} {value : Int32} : Expr.Alike (.literal node value) (.literal node' value)
  | load {node node' : Node} {source source' : Variable} :
      Variable.Alike source source' → Expr.Alike (.load node source) (.load node' source')
  | binary {node node' : Node} {op : Operator} {left left' right right' : Expr} :
      Expr.Alike left left' → Expr.Alike right right' →
        Expr.Alike (.binary node op left right) (.binary node' op left' right')

end

inductive Stmt.Alike : Stmt → Stmt → Prop where
  | assign {position position' : Position} {target target' : Variable} {value value' : Expr} :
      target.Alike target' → value.Alike value' →
        Alike (.assign position target value) (.assign position' target' value')
  | ifThen {position position' : Position} {condition condition' : Expr} {thenPart thenPart' : Stmt} :
      condition.Alike condition' → Alike thenPart thenPart' →
        Alike (.ifThen position condition thenPart) (.ifThen position' condition' thenPart')
  | ifElse {position position' : Position} {condition condition' : Expr}
      {thenPart thenPart' elsePart elsePart' : Stmt} :
      condition.Alike condition' → Alike thenPart thenPart' → Alike elsePart elsePart' →
        Alike (.ifElse position condition thenPart elsePart) (.ifElse position' condition' thenPart' elsePart')
  | whileDo {position position' : Position} {condition condition' : Expr} {body body' : Stmt} :
      condition.Alike condition' → Alike body body' →
        Alike (.whileDo position condition body) (.whileDo position' condition' body')
  | call {position position' : Position} {callee : Name} {arguments arguments' : List Expr} :
      List.Forall₂ Expr.Alike arguments arguments' →
        Alike (.call position callee arguments) (.call position' callee arguments')
  | block {position position' : Position} {body body' : List Stmt} :
      List.Forall₂ Alike body body' → Alike (.block position body) (.block position' body')
  | empty {position position' : Position} : Alike (.empty position) (.empty position')

structure Parameter.Alike (parameter parameter' : Parameter) : Prop where
  name : parameter.name = parameter'.name
  type : parameter.type.Alike parameter'.type
  byReference : parameter.byReference = parameter'.byReference

structure LocalVariable.Alike (declaration declaration' : LocalVariable) : Prop where
  name : declaration.name = declaration'.name
  type : declaration.type.Alike declaration'.type

/-- What callers see of the two procedures is alike. -/
structure Procedure.SameHead (procedure procedure' : Procedure) : Prop where
  name : procedure.name = procedure'.name
  parameters : List.Forall₂ Parameter.Alike procedure.parameters procedure'.parameters

structure Procedure.Alike (procedure procedure' : Procedure) : Prop extends procedure.SameHead procedure' where
  locals : List.Forall₂ LocalVariable.Alike procedure.locals procedure'.locals
  body : List.Forall₂ Stmt.Alike procedure.body procedure'.body

inductive Declaration.Alike : Declaration → Declaration → Prop where
  | type {position position' : Position} {name : Name} {type type' : TypeExpr} :
      type.Alike type' → Alike (.type ⟨position, name, type⟩) (.type ⟨position', name, type'⟩)
  | procedure {procedure procedure' : Procedure} :
      procedure.Alike procedure' → Alike (.procedure procedure) (.procedure procedure')

theorem TypeExpr.Alike.refl (expr : TypeExpr) : expr.Alike expr := by
  induction expr with
  | named node name => exact .named
  | array node length base ih => exact .array ih

theorem Parameter.Alike.refl (parameter : Parameter) : parameter.Alike parameter := ⟨rfl, .refl _, rfl⟩

theorem LocalVariable.Alike.refl (declaration : LocalVariable) : declaration.Alike declaration := ⟨rfl, .refl _⟩

/-- The procedure that is declared. -/
def Declaration.procedure? : Declaration → Option Procedure
  | .procedure declaration => some declaration
  | .type _ => none

/-- The two programs are alike but for the locals and the body of one procedure. -/
structure Program.BodyChange (program program' : Program) where
  before : List Declaration
  before' : List Declaration
  /-- The procedure that changes. -/
  old : Procedure
  /-- What it changes to. -/
  new : Procedure
  after : List Declaration
  after' : List Declaration
  split : program.declarations = before ++ .procedure old :: after
  split' : program'.declarations = before' ++ .procedure new :: after'
  before_alike : List.Forall₂ Declaration.Alike before before'
  head : old.SameHead new
  after_alike : List.Forall₂ Declaration.Alike after after'

mutual

/-- Statements that are alike draw the same number of labels and make calls by the same names. -/
theorem Stmt.Alike.same {s s' : Stmt} (h : s.Alike s') : s'.labelCount = s.labelCount ∧ s'.callees = s.callees := by
  cases h with
  | assign => exact ⟨rfl, rfl⟩
  | ifThen _ ht =>
    rw [Stmt.labelCount, Stmt.labelCount, ht.same.1]
    exact ⟨rfl, ht.same.2⟩
  | ifElse _ ht he =>
    rw [Stmt.labelCount, Stmt.labelCount, ht.same.1, he.same.1]
    exact ⟨rfl, congrArg₂ _ ht.same.2 he.same.2⟩
  | whileDo _ hb =>
    rw [Stmt.labelCount, Stmt.labelCount, hb.same.1]
    exact ⟨rfl, hb.same.2⟩
  | call => exact ⟨rfl, rfl⟩
  | block hb => exact allAlike_same hb
  | empty => exact ⟨rfl, rfl⟩

theorem allAlike_same {body body' : List Stmt} (h : List.Forall₂ Stmt.Alike body body') :
    labelCountAll body' = labelCountAll body ∧ allCallees body' = allCallees body := by
  cases h with
  | nil => exact ⟨rfl, rfl⟩
  | cons hs hr =>
    rw [labelCountAll, labelCountAll, hs.same.1, (allAlike_same hr).1]
    exact ⟨rfl, congrArg₂ _ hs.same.2 (allAlike_same hr).2⟩

end

theorem forall₂_getElem? {α β : Type} {R : α → β → Prop} {xs : List α} {ys : List β} (h : List.Forall₂ R xs ys)
    {i : Nat} {x : α} {y : β} (hx : xs[i]? = some x) (hy : ys[i]? = some y) : R x y := by
  obtain ⟨hi, rfl⟩ := List.getElem?_eq_some_iff.mp hx
  obtain ⟨hi', rfl⟩ := List.getElem?_eq_some_iff.mp hy
  exact h.get hi hi'

theorem forall₂_of_mem {α β : Type} {R S : α → β → Prop} {xs : List α} {ys : List β} (h : List.Forall₂ R xs ys)
    (hs : ∀ x ∈ xs, ∀ y ∈ ys, R x y → S x y) : List.Forall₂ S xs ys := by
  rw [List.forall₂_iff_zip] at h ⊢
  refine ⟨h.1, fun hm => ?_⟩
  obtain ⟨hx, hy⟩ := List.of_mem_zip hm
  exact hs _ hx _ hy (h.2 hm)

/-- Procedures that are alike need the same number of labels. -/
theorem labels_alike {procedures procedures' : List Procedure}
    (h : List.Forall₂ Procedure.Alike procedures procedures') :
    (procedures'.map fun p => labelCountAll p.body).sum = (procedures.map fun p => labelCountAll p.body).sum := by
  induction h with
  | nil => rfl
  | cons hp _ ih => rw [List.map_cons, List.map_cons, List.sum_cons, List.sum_cons, ih, (allAlike_same hp.body).1]

theorem Program.procedures_eq (program : Program) :
    program.procedures = program.declarations.filterMap (·.procedure?) := by
  refine congrArg (List.filterMap · program.declarations) (funext fun declaration => ?_)
  cases declaration <;> rfl

private theorem procedures_alike {declarations declarations' : List Declaration}
    (h : List.Forall₂ Declaration.Alike declarations declarations') :
    List.Forall₂ Procedure.Alike (declarations.filterMap (·.procedure?)) (declarations'.filterMap (·.procedure?)) := by
  refine List.rel_filterMap (fun _ _ hd => ?_) h
  cases hd with
  | type => exact .none
  | procedure hp => exact .some hp

namespace Program.BodyChange
variable {program program' : Program} (change : program.BodyChange program')

/-- The procedures before the one that changes. -/
def earlier : List Procedure := change.before.filterMap (·.procedure?)

def earlier' : List Procedure := change.before'.filterMap (·.procedure?)

def later : List Procedure := change.after.filterMap (·.procedure?)

def later' : List Procedure := change.after'.filterMap (·.procedure?)

/-- The number of the procedure that changes, in the order of declaration. -/
def index : Nat := change.earlier.length

/-- How many more labels the changed body needs. -/
def labelShift : Int := labelCountAll change.new.body - labelCountAll change.old.body

/-- How much greater the numbers of generated labels become in the procedure with the given number. -/
def shiftAt (i : Nat) : Int := if i ≤ change.index then 0 else change.labelShift

private theorem procedures_eq : program.procedures = change.earlier ++ change.old :: change.later := by
  rw [Program.procedures_eq, change.split, List.filterMap_append, List.filterMap_cons]
  rfl

private theorem procedures_eq' : program'.procedures = change.earlier' ++ change.new :: change.later' := by
  rw [Program.procedures_eq, change.split', List.filterMap_append, List.filterMap_cons]
  rfl

private theorem earlier_alike : List.Forall₂ Procedure.Alike change.earlier change.earlier' :=
  procedures_alike change.before_alike

private theorem later_alike : List.Forall₂ Procedure.Alike change.later change.later' :=
  procedures_alike change.after_alike

private theorem length_earlier' : change.earlier'.length = change.index := change.earlier_alike.length_eq.symm

/-- Callers see all procedures alike. -/
theorem heads (change : program.BodyChange program') :
    List.Forall₂ Procedure.SameHead program.procedures program'.procedures := by
  rw [change.procedures_eq, change.procedures_eq']
  have hearlier := change.earlier_alike.imp fun _ _ h => h.toSameHead
  have hlater := change.later_alike.imp fun _ _ h => h.toSameHead
  exact List.rel_append hearlier (.cons change.head hlater)

theorem old_eq : program.procedures[change.index]? = some change.old := by
  rw [change.procedures_eq, index, List.getElem?_append_right (Nat.le_refl _), Nat.sub_self]
  rfl

theorem new_eq : program'.procedures[change.index]? = some change.new := by
  rw [change.procedures_eq', ← change.length_earlier', List.getElem?_append_right (Nat.le_refl _), Nat.sub_self]
  rfl

/-- All procedures but one are alike. -/
theorem alike {i : Nat} {procedure procedure' : Procedure} (hi : program.procedures[i]? = some procedure)
    (hi' : program'.procedures[i]? = some procedure') (hne : i ≠ change.index) : procedure.Alike procedure' := by
  have hlength := change.length_earlier'
  rw [change.procedures_eq] at hi
  rw [change.procedures_eq'] at hi'
  rcases Nat.lt_or_gt_of_ne hne with hlt | hgt
  · rw [List.getElem?_append_left hlt] at hi
    rw [List.getElem?_append_left (hlength ▸ hlt)] at hi'
    exact forall₂_getElem? change.earlier_alike hi hi'
  · obtain ⟨k, rfl⟩ := Nat.exists_eq_add_of_lt hgt
    have hbehind : change.index + k + 1 - change.earlier.length = k + 1 := by unfold index; omega
    have hbehind' : change.index + k + 1 - change.earlier'.length = k + 1 := by omega
    rw [List.getElem?_append_right (by unfold index; omega), hbehind] at hi
    rw [List.getElem?_append_right (by omega), hbehind'] at hi'
    exact forall₂_getElem? change.later_alike hi hi'

/-- The labels issued before a procedure. -/
theorem labels_before (i : Nat) : (((program'.procedures.take i).map fun p => labelCountAll p.body).sum : Int) =
    ((program.procedures.take i).map fun p => labelCountAll p.body).sum + change.shiftAt i := by
  have hlength := change.length_earlier'
  have hearlier := labels_alike (List.forall₂_take i change.earlier_alike)
  rw [change.procedures_eq, change.procedures_eq', List.take_append, List.take_append, shiftAt, hlength,
    show change.earlier.length = change.index from rfl]
  split
  · next hle =>
    rw [Nat.sub_eq_zero_of_le hle, List.take_zero, List.take_zero, List.append_nil, List.append_nil, hearlier,
      Int.add_zero]
  · next hgt =>
    obtain ⟨k, rfl⟩ := Nat.exists_eq_add_of_lt (Nat.not_le.mp hgt)
    have hlater := labels_alike (List.forall₂_take k change.later_alike)
    rw [show change.index + k + 1 - change.index = k + 1 by omega, List.take_succ_cons, List.take_succ_cons]
    simp only [List.map_append, List.map_cons, List.sum_append, List.sum_cons, hearlier, hlater, labelShift]
    omega

end Program.BodyChange

end SplLang

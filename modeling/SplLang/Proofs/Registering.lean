import SplLang.Proofs.Declared
import SplLang.Proofs.Moves

/-! What entering declarations does to a context, whether it succeeds or fails on the way. The types are registered
one by one, each over a type that a declaration can mean, and no expression is looked at. -/
namespace SplLang
open Phase

/-- The context stays grounded, and the types of expressions stay the same. -/
structure Registering (old new : Context) : Prop where
  grounded : new.Grounded
  exprs : new.findings.exprs = old.findings.exprs

/-- Behind a grounded context no more than types and names was registered. -/
def Registers (old new : Context) : Prop := old.Grounded → Registering old new

instance : IsPreorder Context Registers where
  refl _ h := ⟨h, rfl⟩
  trans _ _ _ hfirst hrest h :=
    have middle := hfirst h
    have last := hrest middle.grounded
    ⟨last.grounded, last.exprs.trans middle.exprs⟩

section
variable {start : Progress}

private theorem rememberTypeExpr_registers (node : NodeId) (type : TypeId) :
    (rememberTypeExpr node type).Moves Registers start :=
  fun h => ⟨Grown.grounded (.of_eq h.built rfl rfl) h, rfl⟩

private theorem addArray_registers {position : Position} {element : TypeId} {length : UInt32}
    (hd : start.context.types.Declarable element) : (addArray position element length).Moves Registers start :=
  .addArray fun _ _ ha h => ⟨Grown.grounded ⟨.add h.built hd ha, TypeTable.extends_of_addArray? ha, rfl⟩ h, rfl⟩

/-- A type may be entered if it is declarable. -/
private theorem enter_registers {scope : ScopeId} {name : Name} {entry : Entry} {position : Position} {taken : Cause}
    (ht : ∀ type, entry = .type type → start.context.types.Declarable type) :
    (enter scope name entry position taken).Moves Registers start :=
  .enter fun _ he h => ⟨h.enter he ht, rfl⟩

private theorem openScope_registers : openScope.Moves Registers start := fun h => ⟨h.nest _, rfl⟩

end

private theorem TypeExpr.resolve_registers (expr : TypeExpr) (scope : ScopeId) (start : Progress) :
    (expr.resolve scope).Moves Registers start := by
  induction expr with
  | named node name =>
    rw [resolve]
    refine Moves.context.bind fun c middle _ => ?_
    split
    · exact (rememberTypeExpr_registers _ _).bind fun _ _ _ => .pure _
    · exact .fail _ _
    · exact .fail _ _
  | array node length base ih =>
    rw [resolve]
    -- That the elements are declarable is known from the context before all of it.
    intro hg
    refine Moves.bind ih (fun element based hb => Moves.reportEmpty.bind fun _ reported he => ?_) hg
    have hd := (base.resolve_ok hg hb).2
    rw [← run_reportEmpty he] at hd
    exact (addArray_registers hd).bind fun type added _ => (rememberTypeExpr_registers _ _).bind fun _ _ _ => .pure _

private theorem Declaration.declare_registers (declaration : Declaration) (start : Progress) :
    declaration.declare.Moves Registers start := by
  cases declaration with
  | type declaration =>
    intro hg
    refine Moves.bind (declaration.type.resolve_registers _ start) (fun type middle hr => ?_) hg
    have hd := (declaration.type.resolve_ok hg hr).2
    refine (enter_registers fun _ he => Entry.type.inj he ▸ hd).bind fun _ _ _ => ?_
    exact Moves.context.bind fun _ _ _ => .report _
  | procedure procedure =>
    refine openScope_registers.bind fun scope _ _ => (Moves.mapM _ fun parameter _ _ => ?_).bind fun _ _ _ =>
      (Moves.forM _ fun declaration _ _ => ?_).bind fun _ _ _ => enter_registers nofun
    · refine (parameter.type.resolve_registers _ _).bind fun type _ _ => Moves.context.bind fun _ _ _ => ?_
      exact Moves.require.bind fun _ _ _ => (enter_registers (by simp)).bind fun _ _ _ =>
        (Moves.report _).bind fun _ _ _ => .pure _
    · refine (declaration.type.resolve_registers _ _).bind fun type _ _ => ?_
      exact (enter_registers (by simp)).bind fun _ _ _ => .report _

/-- Whether they are all entered or one of them fails, the declarations of a program do no more than that. -/
theorem Program.declare_registers (program : Program) (start : Progress) : program.declare.Moves Registers start := by
  refine (Moves.forM _ fun declaration _ => declaration.declare_registers).bind fun _ _ _ => ?_
  exact Moves.context.bind fun _ _ _ => (Moves.report _).bind fun _ _ _ => .pure _

end SplLang

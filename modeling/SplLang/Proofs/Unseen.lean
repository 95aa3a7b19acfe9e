import SplLang.Proofs.Moves
import SplLang.Proofs.Occurrences
import SplLang.Proofs.Resolving

/-! What declaring a procedure does before the procedure itself is entered. Everything goes into a scope of its own
behind the older scopes, so a declaration that fails has changed none of them. -/
namespace SplLang
open Phase

/-- The numbered nodes of the type expressions of a declaration. -/
def Declaration.typeNodes (declaration : Declaration) : List NodeId :=
  declaration.typeSites.flatMap (·.type.nodeIds)

/-- Types were added, and types were remembered for some of the given nodes. -/
structure Annotated (nodes : List NodeId) (old new : Context) : Prop where
  types : old.types.Extends new.types
  scopes : new.scopes = old.scopes
  typeExprs : ∀ node ∉ nodes, new.findings.typeExprs.at? node = old.findings.typeExprs.at? node
  exprs : new.findings.exprs = old.findings.exprs

/-- Types and scopes were added and types remembered for some of the given nodes. The scopes below the bound, the
types and all else that was found stayed as they were. -/
structure Unseen (bound : ScopeId) (nodes : List NodeId) (old new : Context) : Prop where
  types : old.types.Extends new.types
  count : old.scopes.count ≤ new.scopes.count
  scopes : ∀ scope < bound, new.scopes.scope? scope = old.scopes.scope? scope
  typeExprs : ∀ node ∉ nodes, new.findings.typeExprs.at? node = old.findings.typeExprs.at? node
  exprs : new.findings.exprs = old.findings.exprs

instance (nodes : List NodeId) : IsPreorder Context (Annotated nodes) where
  refl _ := ⟨.refl _, rfl, fun _ _ => rfl, rfl⟩
  trans _ _ _ h h' := ⟨h.types.trans h'.types, h'.scopes.trans h.scopes,
    fun node hn => (h'.typeExprs node hn).trans (h.typeExprs node hn), h'.exprs.trans h.exprs⟩

theorem Unseen.trans {bound : ScopeId} {nodes : List NodeId} {old middle new : Context}
    (h : Unseen bound nodes old middle) (h' : Unseen bound nodes middle new) : Unseen bound nodes old new where
  types := h.types.trans h'.types
  count := Nat.le_trans h.count h'.count
  scopes scope hs := (h'.scopes scope hs).trans (h.scopes scope hs)
  typeExprs node hn := (h'.typeExprs node hn).trans (h.typeExprs node hn)
  exprs := h'.exprs.trans h.exprs

instance (bound : ScopeId) (nodes : List NodeId) : IsPreorder Context (Unseen bound nodes) where
  refl _ := ⟨.refl _, Nat.le_refl _, fun _ _ => rfl, fun _ _ => rfl, rfl⟩
  trans _ _ _ := .trans

section
variable {nodes : List NodeId} {old new : Context} {bound : ScopeId}

private theorem Annotated.unseen (h : Annotated nodes old new) : Unseen bound nodes old new :=
  ⟨h.types, Nat.le_of_eq (congrArg _ h.scopes.symm), fun _ _ => by rw [h.scopes], h.typeExprs, h.exprs⟩

/-- What is seen from the global scope is told by its entries alone. -/
theorem Unseen.seen_global (h : Unseen bound nodes old new) (hb : ScopeTree.globalScope < bound)
    (hg : old.scopes.parent? ScopeTree.globalScope = none) (hc : ScopeTree.globalScope < old.scopes.count)
    (name : Name) : new.scopes.seen? ScopeTree.globalScope name = old.scopes.seen? ScopeTree.globalScope name := by
  have hsame := h.scopes _ hb
  have hg' : new.scopes.parent? ScopeTree.globalScope = none := by
    rw [ScopeTree.parent?, hsame]
    exact hg
  rw [ScopeTree.seen?_of_no_parent hc hg, ScopeTree.seen?_of_no_parent (Nat.lt_of_lt_of_le hc h.count) hg',
    ScopeTree.held?, ScopeTree.held?, hsame]

end

section
variable {nodes : List NodeId} {start : Progress} {bound scope : ScopeId}

/-- Whether a type expression can be resolved or not, at most its own nodes have types remembered. -/
theorem TypeExpr.resolve_annotates (expr : TypeExpr) (hn : expr.nodeIds ⊆ nodes) (scope : ScopeId) (start : Progress) :
    (expr.resolve scope).Moves (Annotated nodes) start := by
  have remember : ∀ {node : NodeId} {type : TypeId} {start : Progress}, node ∈ nodes →
      (rememberTypeExpr node type).Moves (Annotated nodes) start := by
    intro node type start hm
    refine ⟨.refl _, rfl, fun other ho => ?_, rfl⟩
    have hne : node ≠ other := fun he => ho (he ▸ hm)
    exact (Keyed.at?_put _ _ _ _).trans (if_neg hne)
  induction expr with
  | named node name =>
    rw [resolve]
    refine Moves.context.bind fun context _ _ => ?_
    split
    · exact (remember (hn (List.mem_singleton_self _))).bind fun _ _ _ => .pure _
    · exact .fail _ _
    · exact .fail _ _
  | array node length base ih =>
    obtain ⟨hbase, hself⟩ := List.append_subset.mp hn
    rw [resolve]
    refine (ih hbase).bind fun element _ _ => Moves.reportEmpty.bind fun _ _ _ => ?_
    refine (Moves.addArray fun type types ha => ?_).bind fun type _ _ =>
      (remember (hself (List.mem_singleton_self _))).bind fun _ _ _ => .pure _
    exact ⟨TypeTable.extends_of_addArray? ha, rfl, fun _ _ => rfl, rfl⟩

/-- A name that is entered into a scope from the bound on is not seen below it. -/
theorem Phase.enter_unseen (hs : bound ≤ scope) {name : Name} {entry : Entry} {position : Position} {taken : Cause} :
    (enter scope name entry position taken).Moves (Unseen bound nodes) start := by
  refine .enter fun scopes he => ⟨.refl _, Nat.le_of_eq (ScopeTree.count_of_enter? he).symm, ?_, fun _ _ => rfl, rfl⟩
  intro other ho
  exact ScopeTree.scope?_of_enter?_of_ne he (Nat.ne_of_lt (Nat.lt_of_lt_of_le ho hs))

theorem Phase.openScope_unseen : openScope.Moves (Unseen start.context.scopes.count nodes) start := by
  refine ⟨.refl _, Nat.le_succ _, fun other ho => ?_, fun _ _ => rfl, rfl⟩
  exact (ScopeTree.scope?_nest _ other).trans (if_neg (Nat.ne_of_lt ho))

private theorem Parameter.declare_unseen (hs : bound ≤ scope) (parameter : Parameter)
    (hn : parameter.type.nodeIds ⊆ nodes)
    (procedure : Name) (start : Progress) : (parameter.declare procedure scope).Moves (Unseen bound nodes) start := by
  have hresolve := parameter.type.resolve_annotates hn ScopeTree.globalScope start
  refine (hresolve.mono fun _ _ => Annotated.unseen).bind fun type _ _ => Moves.context.bind fun _ _ _ => ?_
  exact Moves.require.bind fun _ _ _ => (enter_unseen hs).bind fun _ _ _ => (Moves.report _).bind fun _ _ _ => .pure _

private theorem LocalVariable.declare_unseen (hs : bound ≤ scope) (declaration : LocalVariable)
    (hn : declaration.type.nodeIds ⊆ nodes) (procedure : Name) (start : Progress) :
    (declaration.declare procedure scope).Moves (Unseen bound nodes) start := by
  have hresolve := declaration.type.resolve_annotates hn scope start
  refine (hresolve.mono fun _ _ => Annotated.unseen).bind fun type _ _ => ?_
  exact (enter_unseen hs).bind fun _ _ _ => .report _

theorem Procedure.declareParameters_unseen (hs : bound ≤ scope) (procedure : Procedure) (start : Progress) :
    (procedure.parameters.mapM (Parameter.declare procedure.name scope)).Moves
      (Unseen bound (Declaration.procedure procedure).typeNodes) start := by
  refine .mapM _ fun parameter hp => parameter.declare_unseen hs ?_ procedure.name
  intro node hnode
  exact List.mem_flatMap.mpr ⟨_, List.mem_append_left _ (List.mem_map_of_mem hp), hnode⟩

theorem Procedure.declareLocals_unseen (hs : bound ≤ scope) (procedure : Procedure) (start : Progress) :
    (procedure.locals.forM (·.declare procedure.name scope)).Moves
      (Unseen bound (Declaration.procedure procedure).typeNodes) start := by
  refine .forM _ fun declaration hl => declaration.declare_unseen hs ?_ procedure.name
  intro node hnode
  exact List.mem_flatMap.mpr ⟨_, List.mem_append_right _ (List.mem_map_of_mem hl), hnode⟩

/-- A declaration that fails leaves the scopes that there were: what is entered into the global one is entered last. -/
theorem Declaration.declare_halts (declaration : Declaration) (start : Progress) :
    declaration.declare.Halts (Unseen start.context.scopes.count declaration.typeNodes) start := by
  cases declaration with
  | type declaration =>
    have hnodes : declaration.type.nodeIds ⊆ (Declaration.type declaration).typeNodes :=
      fun node hnode => List.mem_flatMap.mpr ⟨_, List.mem_singleton_self _, hnode⟩
    have hresolve := declaration.type.resolve_annotates hnodes ScopeTree.globalScope start
    refine .bind (hresolve.mono fun _ _ => Annotated.unseen) fun type resolved _ => ?_
    exact Halts.enter.bind_of_never fun _ _ _ _ => nofun
  | procedure procedure =>
    refine .bind openScope_unseen fun scope opened ho => ?_
    have hs : start.context.scopes.count ≤ scope := by
      cases ho
      exact Nat.le_refl _
    refine .bind (procedure.declareParameters_unseen hs opened) fun slots filled _ => ?_
    exact .bind (procedure.declareLocals_unseen hs filled) fun _ _ _ => .enter

end
end SplLang

import SplLang.Proofs.Annotations
import SplLang.Proofs.Lasting
import SplLang.Proofs.Underway

/-! What the first three stages leave, be it that they succeed or that they fail on the way, is well-formed: types are
registered, scopes lie in the global one, and every entry is of a kind that belongs where it is held. -/
namespace SplLang
open Phase

/-- A context that later stages can rely on. -/
structure Context.WellFormed (context : Context) (procedures : List Procedure) : Prop where
  global : ScopeTree.globalScope < context.scopes.count
  outermost : ∀ scope < context.scopes.count, context.scopes.parent? scope = none ↔ scope = ScopeTree.globalScope
  inner : ∀ scope < context.scopes.count, scope ≠ ScopeTree.globalScope →
    context.scopes.parent? scope = some ScopeTree.globalScope ∧
      ∀ name entry, context.scopes.held? scope name = some entry → ∃ v, entry = .var v
  entries : ∀ scope name entry, context.scopes.held? scope name = some entry →
    context.Admits procedures scope name entry
  /-- Two procedures have different scopes. -/
  distinct : ∀ name other entry entry' scope,
    context.scopes.held? ScopeTree.globalScope name = some (.proc entry) →
    context.scopes.held? ScopeTree.globalScope other = some (.proc entry') →
    entry.scope = some scope → entry'.scope = some scope → name = other
  primitives : TypeId.boolean < context.types.count
  elements : ∀ type element length, context.types.array? type = some (element, length) →
    context.types.Declarable element
  typeExprs : ∀ id type, context.findings.typeExprs.at? id = some type → type < context.types.count
  exprs : ∀ id type, context.findings.exprs.at? id = some type → type < context.types.count

/-- The contexts that the first three stages leave, each stage running only behind one that succeeded. -/
inductive Program.LeavesBehind (program : Program) : Context → Prop where
  | declare : LeavesBehind program (program.declare.runFrom .initial).2.context
  | check {count : DeclarationCount} {declared : Progress} : program.declare.run .initial = .ok count declared →
      LeavesBehind program (program.check.runFrom declared).2.context
  | place {count : DeclarationCount} {bodies : Nat} {declared checked : Progress} :
      program.declare.run .initial = .ok count declared → program.check.run declared = .ok bodies checked →
      LeavesBehind program (program.place.runFrom checked).2.context

/-- The scope of a procedure was opened for a procedure of its name. -/
theorem ScopeTree.Introduces.owner {tree : ScopeTree} {procedures : List Procedure} {name : Name}
    {entry : ProcedureEntry} (h : tree.Introduces procedures name entry) {scope : ScopeId}
    (he : entry.scope = some scope) :
    ∃ procedure, procedureOf? procedures scope = some procedure ∧ procedure.name = name := by
  rcases h with ⟨hnone, -⟩ | ⟨own, procedure, hown, -, hof, hname, -⟩
  · cases hnone.symm.trans he
  · cases hown.symm.trans he
    exact ⟨procedure, hof, hname⟩

namespace Context
variable {context : Context} {procedures : List Procedure}

/-- That other scopes hold variables, and that procedures have different scopes, can be told from the entries. -/
theorem WellFormed.of_entries (global : ScopeTree.globalScope < context.scopes.count)
    (outermost : context.scopes.parent? ScopeTree.globalScope = none)
    (inner : ∀ scope < context.scopes.count, scope ≠ ScopeTree.globalScope →
      context.scopes.parent? scope = some ScopeTree.globalScope)
    (entries : ∀ scope name entry, context.scopes.held? scope name = some entry →
      context.Admits procedures scope name entry)
    (primitives : TypeId.boolean < context.types.count)
    (elements : ∀ type element length, context.types.array? type = some (element, length) →
      context.types.Declarable element)
    (typeExprs : ∀ id type, context.findings.typeExprs.at? id = some type → type < context.types.count)
    (exprs : ∀ id type, context.findings.exprs.at? id = some type → type < context.types.count) :
    context.WellFormed procedures := by
  refine ⟨global, fun scope hs => ⟨fun hp => ?_, fun he => he ▸ outermost⟩,
    fun scope hs hne => ⟨inner scope hs hne, fun name entry hh => ?_⟩, entries, ?_, primitives, elements,
    typeExprs, exprs⟩
  · by_contra hne
    rw [inner scope hs hne] at hp
    cases hp
  · have ha := entries scope name entry hh
    cases entry with
    | type type => exact absurd ha.1 hne
    | var v => exact ⟨v, rfl⟩
    | proc entry => exact absurd ha.1 hne
  · -- A scope was opened for one procedure, which has one name.
    intro name other entry entry' scope hn ho he he'
    obtain ⟨procedure, hof, hname⟩ := (entries _ _ _ hn).2.1.owner he
    obtain ⟨procedure', hof', hname'⟩ := (entries _ _ _ ho).2.1.owner he'
    cases hof.symm.trans hof'
    exact hname.symm.trans hname'

private theorem Underway.wellFormed (h : context.Underway procedures) : context.WellFormed procedures :=
  .of_entries h.pos_count h.outermost h.inner h.entries h.built.two_le_count (fun _ _ _ ha => (h.built.array ha).1)
    h.typeExprs h.exprs

/-- More procedures may be declared than scopes were opened for. -/
theorem WellFormed.mono (h : context.WellFormed procedures) (more : List Procedure) :
    context.WellFormed (procedures ++ more) where
  global := h.global
  outermost := h.outermost
  inner := h.inner
  entries scope name entry hh := (Continues.of_scopes (.refl _) rfl).admits more (h.entries scope name entry hh)
  distinct := h.distinct
  primitives := h.primitives
  elements := h.elements
  typeExprs := h.typeExprs
  exprs := h.exprs

end Context

/-- Wherever declaring stops, the context is well-formed. -/
theorem Program.declare_wellFormed (program : Program) :
    (program.declare.runFrom .initial).2.context.WellFormed program.procedures := by
  obtain ⟨opened, ⟨more, hmore⟩, hu⟩ := program.declare_underway
  rw [← hmore]
  exact hu.wellFormed.mono more

section
open Trail
variable {around : Surroundings}

/-- The types that the check of a body meets are registered. -/
structure Surroundings.Registered (around : Surroundings) : Prop where
  primitives : TypeId.boolean < around.types.count
  seen : ∀ name v, around.scopes.seen? around.scope name = some (.var v) → v.type < around.types.count
  elements : ∀ type element length, around.types.array? type = some (element, length) → element < around.types.count

/-- What a check finds and what it answers are registered types. -/
structure Check.Registered (types : TypeTable) (t : Check TypeId) : Prop where
  found : t.Leaves fun finding => finding.2 < types.count
  answer : ∀ type, t.result = .ok type → type < types.count

namespace Check.Registered
variable {types : TypeTable}

private theorem behind {α : Type} {t : Check α} {next : α → Check TypeId}
    (ht : t.Leaves fun finding => finding.2 < types.count)
    (hn : ∀ a, t.result = .ok a → Check.Registered types (next a)) : Check.Registered types (t >>= next) where
  found := ht.bind fun a ha => (hn a ha).found
  answer type hr := by
    obtain ⟨a, ha, hnext⟩ := result_bind_eq_ok.mp hr
    exact (hn a ha).answer type hnext

private theorem remember {node : Node} {type : TypeId} (ht : type < types.count) :
    Check.Registered types (Check.remember node type) where
  found := Leaves.bind (.leave (List.forall_mem_singleton.mpr ht)) fun _ _ => .pure _
  answer found hr := by
    cases hr
    exact ht

end Check.Registered

private theorem Surroundings.Registered.typeOf (h : around.Registered) (position : Position) (name : Name) :
    Check.Registered around.types (around.typeOf position name) := by
  rw [Surroundings.typeOf]
  split
  · next v hs => exact ⟨.pure _, fun type hr => Except.ok.inj hr ▸ h.seen name v hs⟩
  · exact ⟨.fail _ _, fun _ hr => by cases hr⟩
  · exact ⟨.fail _ _, fun _ hr => by cases hr⟩

private theorem Surroundings.Registered.operator (h : around.Registered) (op : Operator) (node : Node)
    (left right : Node × TypeId) : Check.Registered around.types (op.check node left right) := by
  refine .behind (.require _ _ _) fun _ _ => .behind (.require _ _ _) fun _ _ => .behind (.require _ _ _) fun _ _ => ?_
  cases op with
  | comparison => exact ⟨.pure _, fun type hr => Except.ok.inj hr ▸ h.primitives⟩
  | arithmetic => exact ⟨.pure _, fun type hr => Except.ok.inj hr ▸ Nat.zero_lt_of_lt h.primitives⟩

mutual

private theorem Variable.check_registered (h : around.Registered) (v : Variable) :
    Check.Registered around.types (v.check around) := by
  cases v with
  | named node name =>
    rw [Variable.check]
    have hname := h.typeOf node.position name
    exact .behind hname.found fun type ht => .remember (hname.answer type ht)
  | element node array index =>
    rw [Variable.check]
    refine .behind (index.check_registered h).found fun _ _ => .behind (array.check_registered h).found fun _ _ => ?_
    refine .behind (.require _ _ _) fun _ _ => .behind (.expect _ _ _) fun _ ha => ?_
    exact .remember (h.elements _ _ _ (result_expect_eq_ok.mp ha))

private theorem Expr.check_registered (h : around.Registered) (e : Expr) :
    Check.Registered around.types (e.check around) := by
  cases e with
  | literal node value => exact .remember (Nat.zero_lt_of_lt h.primitives)
  | load node source =>
    have hsource := source.check_registered h
    rw [Expr.check]
    exact .behind hsource.found fun type ht => .remember (hsource.answer type ht)
  | binary node op left right =>
    rw [Expr.check]
    refine .behind (left.check_registered h).found fun leftType _ => ?_
    refine .behind (right.check_registered h).found fun rightType _ => ?_
    have hop := h.operator op node (left.node, leftType) (right.node, rightType)
    exact .behind hop.found fun type ht => .remember (hop.answer type ht)

end

end

/-- Whether it succeeds or fails, a check remembers registered types only. -/
theorem Context.WellFormed.check {start : Progress} {procedures : List Procedure}
    (h : start.context.WellFormed procedures) (program : Program) :
    (program.check.runFrom start).2.context.WellFormed procedures := by
  have hctx : (program.check.runFrom start).2.context = start.context.rememberExprs
      (program.checkBodies start.context.types start.context.scopes).found :=
    congrArg (·.2.context) (program.check_runFrom start.context start.events rfl)
  have hfound : (program.checkBodies start.context.types start.context.scopes).Leaves fun finding =>
      finding.2 < start.context.types.count := by
    refine program.checkBodies_leaves _ _ fun procedure _ scope node _ => ?_
    have hregistered : Surroundings.Registered ⟨start.context.types, start.context.scopes, scope⟩ := by
      refine ⟨h.primitives, fun name v hs => ?_, fun type element length ha => (h.elements type element length ha).1⟩
      obtain ⟨outer, held, ho, he⟩ := ScopeTree.held_of_seen? hs
      exact (h.entries outer name _ ((ScopeTree.held?_of_scope? ho name).trans he)).1.1
    cases node with
    | place v => exact (v.check_registered hregistered).found
    | value e => exact (e.check_registered hregistered).found
  rw [hctx]
  refine ⟨h.global, h.outermost, h.inner, h.entries, h.distinct, h.primitives, h.elements, h.typeExprs,
    fun id type ha => ?_⟩
  have hput := (Keyed.at?_putAll _ _ id).symm.trans ha
  rcases Option.or_eq_some_iff.mp hput with hm | ⟨-, hold⟩
  · exact hfound _ (List.mem_reverse.mp (Keyed.mem_of_at? hm))
  · exact h.exprs id type hold

section
variable {old new : Context} {procedures : List Procedure} {scope : ScopeId} {name : Name}

/-- Where the same is held but for places, one tree has the entries of the other. -/
theorem ScopeTree.exists_held_of_bare {tree other : ScopeTree} (hs : tree.bare = other.bare) {entry : Entry}
    (hh : tree.held? scope name = some entry) :
    ∃ entry', other.held? scope name = some entry' ∧ entry'.bare = entry.bare := by
  have hbare : (other.held? scope name).map Entry.bare = some entry.bare := by
    rw [← held?_bare, ← hs, held?_bare, hh]
    rfl
  exact Option.map_eq_some_iff.mp hbare

private theorem ScopeTree.Summarizes.of_bare {tree other : ScopeTree} (hs : tree.bare = other.bare)
    {parameter : Parameter}
    {slot : Slot} (h : other.Summarizes scope parameter slot) : tree.Summarizes scope parameter slot := by
  obtain ⟨v, hv, ht, hr⟩ := h
  obtain ⟨entry, he, hbare⟩ := exists_held_of_bare hs.symm hv
  cases entry with
  | var v' =>
    have hsame := Entry.var.inj hbare
    exact ⟨v', he, (congrArg VariableEntry.type hsame).trans ht, (congrArg VariableEntry.byReference hsame).trans hr⟩
  | type => cases hbare
  | proc => cases hbare

private theorem Procedure.Owns.of_bare {procedure : Procedure} {v v' : VariableEntry} (h : procedure.Owns name v')
    (ht : v.type = v'.type) (hr : v.byReference = v'.byReference) : procedure.Owns name v := by
  cases h with
  | parameter declared hm hn href hint =>
    exact .parameter declared hm hn (hr.trans href) fun hv => ht.trans (hint (hr.symm.trans hv))
  | localVariable declared hm hn hnew href => exact .localVariable declared hm hn hnew (hr.trans href)

private theorem ProcedureEntry.same_of_bare {entry entry' : ProcedureEntry} (h : entry'.bare = entry.bare) :
    entry'.scope = entry.scope ∧ entry'.parameters.map Slot.bare = entry.parameters.map Slot.bare :=
  ⟨(ProcedureEntry.mk.inj h).1, (ProcedureEntry.mk.inj h).2.1⟩

private theorem ScopeTree.Introduces.of_bare {tree other : ScopeTree} (hs : tree.bare = other.bare)
    {entry entry' : ProcedureEntry} (he : entry'.bare = entry.bare) (h : other.Introduces procedures name entry') :
    tree.Introduces procedures name entry := by
  obtain ⟨hscope, hparameters⟩ := ProcedureEntry.same_of_bare he
  rcases h with ⟨hnone, hlibrary⟩ | ⟨own, procedure, hown, hparent, hof, hname, hslots⟩
  · exact .inl ⟨hscope ▸ hnone, hlibrary⟩
  · refine .inr ⟨own, procedure, hscope ▸ hown, ?_, hof, hname, ?_⟩
    · rw [← parent?_bare, hs, parent?_bare]
      exact hparent
    · -- A summary does not speak of the place.
      have hbare : List.Forall₂ (other.Summarizes own) procedure.parameters (entry'.parameters.map Slot.bare) :=
        List.forall₂_map_right_iff.mpr hslots
      rw [hparameters] at hbare
      exact (List.forall₂_map_right_iff.mp hbare).imp fun _ _ => Summarizes.of_bare hs

private theorem Context.Admits.of_bare (ht : new.types = old.types) (hs : new.scopes.bare = old.scopes.bare)
    {entry entry' : Entry} (he : entry'.bare = entry.bare) (h : old.Admits procedures scope name entry') :
    new.Admits procedures scope name entry := by
  cases entry with
  | type type =>
    cases entry' with
    | type =>
      cases he
      exact ⟨h.1, ht ▸ h.2⟩
    | var => cases he
    | proc => cases he
  | var v =>
    cases entry' with
    | type => cases he
    | var v' =>
      have hsame := Entry.var.inj he
      have htype : v.type = v'.type := (congrArg VariableEntry.type hsame).symm
      have href : v.byReference = v'.byReference := (congrArg VariableEntry.byReference hsame).symm
      obtain ⟨hd, procedure, hof, howns⟩ := h
      refine ⟨?_, procedure, hof, howns.of_bare htype href⟩
      rw [ht, htype]
      exact hd
    | proc => cases he
  | proc entry =>
    cases entry' with
    | type => cases he
    | var => cases he
    | proc entry' =>
      have hsame := Entry.proc.inj he
      obtain ⟨hglobal, hi, hslots⟩ := h
      refine ⟨hglobal, hi.of_bare hs hsame, fun slot hm => ?_⟩
      obtain ⟨-, hparameters⟩ := ProcedureEntry.same_of_bare hsame
      have hbare : slot.bare ∈ entry'.parameters.map Slot.bare := hparameters ▸ List.mem_map_of_mem hm
      obtain ⟨slot', hm', hslot⟩ := List.mem_map.mp hbare
      obtain ⟨htype, href⟩ : slot'.type = slot.type ∧ slot'.byReference = slot.byReference :=
        ⟨(Slot.mk.inj hslot).1, (Slot.mk.inj hslot).2.1⟩
      rw [ht, ← htype, ← href]
      exact hslots slot' hm'

/-- Places do not matter. -/
theorem Context.WellFormed.of_bare (h : old.WellFormed procedures) (ht : new.types = old.types)
    (hf : new.findings = old.findings) (hs : new.scopes.bare = old.scopes.bare) : new.WellFormed procedures := by
  have hcount : new.scopes.count = old.scopes.count := by
    rw [← ScopeTree.count_bare, hs, ScopeTree.count_bare]
  have hparent : ∀ scope, new.scopes.parent? scope = old.scopes.parent? scope := by
    intro scope
    rw [← ScopeTree.parent?_bare, hs, ScopeTree.parent?_bare]
  have hentries : ∀ scope name entry, new.scopes.held? scope name = some entry →
      new.Admits procedures scope name entry := by
    intro scope name entry hh
    obtain ⟨entry', hh', hbare⟩ := ScopeTree.exists_held_of_bare hs hh
    exact .of_bare ht hs hbare (h.entries scope name entry' hh')
  refine .of_entries (hcount ▸ h.global) ?_ (fun scope hlt hne => ?_) hentries (ht ▸ h.primitives) (ht ▸ h.elements)
    (ht ▸ hf ▸ h.typeExprs) (ht ▸ hf ▸ h.exprs)
  · exact (hparent _).trans ((h.outermost _ h.global).mpr rfl)
  · exact (hparent scope).trans (h.inner scope (hcount ▸ hlt) hne).1

end

/-- Whether it succeeds or fails, placing writes places only. -/
theorem Context.WellFormed.place {start : Progress} {procedures : List Procedure}
    (h : start.context.WellFormed procedures) (program : Program) :
    (program.place.runFrom start).2.context.WellFormed procedures :=
  have hkeeps := program.place_keeps start
  h.of_bare hkeeps.types hkeeps.findings hkeeps.scopes

/-- Whichever stage it is and whether the stage succeeds or fails, the context that it leaves is well-formed. -/
theorem Program.stages_leave_wellFormed {program : Program} {context : Context} (h : program.LeavesBehind context) :
    context.WellFormed program.procedures := by
  have hdeclared := program.declare_wellFormed
  cases h with
  | declare => exact hdeclared
  | check hd =>
    rw [runFrom_of_ok hd] at hdeclared
    exact hdeclared.check program
  | place hd hc =>
    rw [runFrom_of_ok hd] at hdeclared
    have hchecked := hdeclared.check program
    rw [runFrom_of_ok hc] at hchecked
    exact hchecked.place program

theorem matrixFilled_stages_leave_wellFormed : ∃ declarations bodies declared checked,
    matrixFilled.declare.run .initial = .ok declarations declared ∧
    matrixFilled.check.run declared = .ok bodies checked ∧
    matrixFilled.LeavesBehind (matrixFilled.place.runFrom checked).2.context ∧
    (matrixFilled.place.runFrom checked).2.context.WellFormed matrixFilled.procedures := by
  obtain ⟨declarations, bodies, declared, checked, hd, hc⟩ := @compile_checked_of_isOk matrixFilled (by decide +kernel)
  have hplaced : matrixFilled.LeavesBehind (matrixFilled.place.runFrom checked).2.context := .place hd hc
  exact ⟨declarations, bodies, declared, checked, hd, hc, hplaced, Program.stages_leave_wellFormed hplaced⟩

end SplLang

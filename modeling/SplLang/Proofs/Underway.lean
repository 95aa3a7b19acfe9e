import Mathlib.Data.List.Forall2
import SplLang.Proofs.Moves
import SplLang.Proofs.Prepared

/-! What holds while declarations are entered, after every step of it. Every scope but the global one was opened for
a procedure and holds parameters and locals of it; whatever stands in the way of a declaration, that stays so. -/
namespace SplLang
open Phase

/-- The procedure that a scope was opened for. All scopes but the global one were, in the order of the declarations. -/
def procedureOf? (procedures : List Procedure) : ScopeId → Option Procedure
  | 0 => none
  | i + 1 => procedures[i]?

/-- A variable of a procedure. Only a parameter is a reference, and what is passed by value is an int. -/
inductive Procedure.Owns (procedure : Procedure) (name : Name) (v : VariableEntry) : Prop where
  | parameter (declared : Parameter) : declared ∈ procedure.parameters → declared.name = name →
      v.byReference = declared.byReference → (v.byReference = false → v.type = TypeId.int) → Owns procedure name v
  | localVariable (declared : LocalVariable) : declared ∈ procedure.locals → declared.name = name →
      (∀ parameter ∈ procedure.parameters, parameter.name ≠ name) → v.byReference = false → Owns procedure name v

namespace ScopeTree

/-- The summary of a parameter says what a scope holds for the parameter. -/
def Summarizes (tree : ScopeTree) (scope : ScopeId) (parameter : Parameter) (slot : Slot) : Prop :=
  ∃ v, tree.held? scope parameter.name = some (.var v) ∧ v.type = slot.type ∧ v.byReference = slot.byReference

/-- A procedure of the library, or a declared one with a scope for its parameters. -/
def Introduces (tree : ScopeTree) (procedures : List Procedure) (name : Name) (entry : ProcedureEntry) : Prop :=
  (entry.scope = none ∧ ∃ p ∈ library, p.name = name) ∨
    ∃ scope procedure, entry.scope = some scope ∧ tree.parent? scope = some globalScope ∧
      procedureOf? procedures scope = some procedure ∧ procedure.name = name ∧
      List.Forall₂ (tree.Summarizes scope) procedure.parameters entry.parameters

end ScopeTree

/-- What a scope may hold for a name. -/
def Context.Admits (context : Context) (procedures : List Procedure) (scope : ScopeId) (name : Name) : Entry → Prop
  | .type type => scope = ScopeTree.globalScope ∧ context.types.Declarable type
  | .var v => context.types.Declarable v.type ∧
      ∃ procedure, procedureOf? procedures scope = some procedure ∧ procedure.Owns name v
  | .proc entry => scope = ScopeTree.globalScope ∧ context.scopes.Introduces procedures name entry ∧
      ∀ slot ∈ entry.parameters, context.types.Declarable slot.type ∧ (slot.byReference = false → slot.type = TypeId.int)

private theorem procedureOf?_append {procedures : List Procedure} {scope : ScopeId} {procedure : Procedure}
    (h : procedureOf? procedures scope = some procedure) (more : List Procedure) :
    procedureOf? (procedures ++ more) scope = some procedure := by
  cases scope with
  | zero => cases h
  | succ i => exact (List.getElem?_append_left (List.getElem?_eq_some_iff.mp h).1).trans h

private theorem procedureOf?_newest (procedures : List Procedure) (procedure : Procedure) :
    procedureOf? (procedures ++ [procedure]) (procedures.length + 1) = some procedure :=
  List.getElem?_concat_length

namespace Context
variable {old middle new context : Context} {procedures : List Procedure} {scope : ScopeId} {name : Name}
  {entry : Entry}

/-- Types, scopes and entries may be added. -/
structure Continues (old new : Context) : Prop where
  types : old.types.Extends new.types
  parents : ∀ scope outer, old.scopes.parent? scope = some outer → new.scopes.parent? scope = some outer
  held : ∀ scope name entry, old.scopes.held? scope name = some entry → new.scopes.held? scope name = some entry

theorem Continues.of_scopes (ht : old.types.Extends new.types) (hs : new.scopes = old.scopes) : Continues old new :=
  ⟨ht, fun _ _ h => hs ▸ h, fun _ _ _ h => hs ▸ h⟩

theorem Continues.trans (h : Continues old middle) (h' : Continues middle new) : Continues old new where
  types := h.types.trans h'.types
  parents scope outer hp := h'.parents scope outer (h.parents scope outer hp)
  held scope name entry hh := h'.held scope name entry (h.held scope name entry hh)

private theorem Continues.summarizes (h : Continues old new) {parameter : Parameter} {slot : Slot}
    (hs : old.scopes.Summarizes scope parameter slot) : new.scopes.Summarizes scope parameter slot := by
  obtain ⟨v, hv, hsame⟩ := hs
  exact ⟨v, h.held _ _ _ hv, hsame⟩

private theorem Continues.introduces (h : Continues old new) {entry : ProcedureEntry} (more : List Procedure)
    (hi : old.scopes.Introduces procedures name entry) : new.scopes.Introduces (procedures ++ more) name entry := by
  rcases hi with hi | ⟨scope, procedure, he, hp, hof, hname, hslots⟩
  · exact .inl hi
  · exact .inr ⟨scope, procedure, he, h.parents _ _ hp, procedureOf?_append hof more, hname,
      hslots.imp fun _ _ => h.summarizes⟩

theorem Continues.admits (h : Continues old new) (more : List Procedure)
    (ha : old.Admits procedures scope name entry) : new.Admits (procedures ++ more) scope name entry := by
  cases entry with
  | type type => exact ⟨ha.1, ha.2.mono h.types⟩
  | var v =>
    obtain ⟨hd, procedure, hof, howns⟩ := ha
    exact ⟨hd.mono h.types, procedure, procedureOf?_append hof more, howns⟩
  | proc entry =>
    obtain ⟨hs, hi, hslots⟩ := ha
    exact ⟨hs, h.introduces more hi, fun slot hm => ⟨(hslots slot hm).1.mono h.types, (hslots slot hm).2⟩⟩

/-- The declarations are entered so far, and the scopes of the given procedures are opened. -/
structure Underway (context : Context) (procedures : List Procedure) : Prop where
  built : context.types.Built
  count : context.scopes.count = procedures.length + 1
  outermost : context.scopes.parent? ScopeTree.globalScope = none
  inner : ∀ scope < context.scopes.count, scope ≠ ScopeTree.globalScope →
    context.scopes.parent? scope = some ScopeTree.globalScope
  entries : ∀ scope name entry, context.scopes.held? scope name = some entry →
    context.Admits procedures scope name entry
  typeExprs : ∀ id type, context.findings.typeExprs.at? id = some type → type < context.types.count
  exprs : ∀ id type, context.findings.exprs.at? id = some type → type < context.types.count

namespace Underway

private theorem grounded (h : context.Underway procedures) : context.Grounded where
  built := h.built
  declarable hs ht := (h.entries _ _ _ ((ScopeTree.held?_of_scope? hs _).trans ht)).2

/-- Types and findings may be added. -/
theorem grow (h : old.Underway procedures) (hb : new.types.Built) (ht : old.types.Extends new.types)
    (hs : new.scopes = old.scopes)
    (htypeExprs : ∀ id type, new.findings.typeExprs.at? id = some type → type < new.types.count)
    (hexprs : new.findings.exprs = old.findings.exprs) : new.Underway procedures where
  built := hb
  count := hs ▸ h.count
  outermost := hs ▸ h.outermost
  inner := hs ▸ h.inner
  entries scope name entry hh := by
    rw [hs] at hh
    simpa using (Continues.of_scopes ht hs).admits [] (h.entries scope name entry hh)
  typeExprs := htypeExprs
  exprs id type ha := Nat.lt_of_lt_of_le (h.exprs id type (hexprs ▸ ha)) ht.count_le

theorem pos_count (h : context.Underway procedures) : ScopeTree.globalScope < context.scopes.count :=
  h.count ▸ Nat.succ_pos _

private theorem lt_count_of_procedureOf? (h : context.Underway procedures) {procedure : Procedure}
    (hof : procedureOf? procedures scope = some procedure) : scope < context.scopes.count := by
  rw [h.count]
  cases scope with
  | zero => cases hof
  | succ i => exact Nat.succ_lt_succ (List.getElem?_eq_some_iff.mp hof).1

private theorem lt_count_of_admits (h : context.Underway procedures) (ha : context.Admits procedures scope name entry) :
    scope < context.scopes.count := by
  cases entry with
  | type type => exact ha.1 ▸ h.pos_count
  | var v =>
    obtain ⟨-, procedure, hof, -⟩ := ha
    exact h.lt_count_of_procedureOf? hof
  | proc entry => exact ha.1 ▸ h.pos_count

private theorem parent_of_procedureOf? (h : context.Underway procedures) {procedure : Procedure}
    (hof : procedureOf? procedures scope = some procedure) :
    context.scopes.parent? scope = some ScopeTree.globalScope := by
  refine h.inner scope (h.lt_count_of_procedureOf? hof) ?_
  rintro rfl
  cases hof

/-- The scope of one more procedure lies in the global one and holds nothing yet. -/
theorem openScope (h : context.Underway procedures) (procedure : Procedure) :
    Underway { context with scopes := (context.scopes.nest ScopeTree.globalScope).2 } (procedures ++ [procedure]) where
  built := h.built
  count := by
    rw [List.length_append]
    exact congrArg (· + 1) h.count
  outermost := by
    rw [ScopeTree.parent?_nest, if_neg (Nat.ne_of_lt h.pos_count)]
    exact h.outermost
  inner scope hs hne := by
    rw [ScopeTree.parent?_nest]
    split
    · rfl
    · next hc => exact h.inner scope (Nat.lt_of_le_of_ne (Nat.le_of_lt_succ hs) hc) hne
  entries scope name entry hh := by
    have hcontinues : Continues context
        { context with scopes := (context.scopes.nest ScopeTree.globalScope).2 } := {
      types := .refl _
      parents := fun scope outer hp => by
        obtain ⟨held, hs, -⟩ := Option.bind_eq_some_iff.mp hp
        rw [ScopeTree.parent?_nest, if_neg (Nat.ne_of_lt (ScopeTree.lt_count_of_scope? hs)), hp]
      held := fun scope name entry hh => (ScopeTree.held?_nest _ _ _).trans hh }
    rw [ScopeTree.held?_nest] at hh
    exact hcontinues.admits [procedure] (h.entries scope name entry hh)
  typeExprs := h.typeExprs
  exprs := h.exprs

/-- An entry that may be held is entered. -/
theorem enter (h : context.Underway procedures) {scopes : ScopeTree}
    (he : context.scopes.enter? scope name entry = some scopes)
    (ha : context.Admits procedures scope name entry) :
    Underway { context with scopes } procedures ∧ Continues context { context with scopes } := by
  have hheld := ScopeTree.held?_of_enter? he (h.lt_count_of_admits ha)
  have hparent := ScopeTree.parent?_of_enter? he
  have hcount := ScopeTree.count_of_enter? he
  have hnew := (ScopeTree.enter?_eq_some he).1
  have hcontinues : Continues context { context with scopes } := {
    types := .refl _
    parents := fun inner outer hp => (hparent inner).trans hp
    held := fun other key found hf => by
      refine (hheld other key).trans ((if_neg ?_).trans hf)
      rintro ⟨rfl, rfl⟩
      rw [hnew] at hf
      cases hf }
  refine ⟨⟨h.built, hcount.trans h.count, (hparent _).trans h.outermost, fun inner hs hne => ?_,
    fun other key found hf => ?_, h.typeExprs, h.exprs⟩, hcontinues⟩
  · exact (hparent inner).trans (h.inner inner (hcount ▸ hs) hne)
  · have hadmits : context.Admits procedures other key found := by
      rw [hheld other key] at hf
      split at hf
      · next hsame =>
        cases hf
        exact hsame.1 ▸ hsame.2 ▸ ha
      · exact h.entries other key found hf
    simpa using hcontinues.admits [] hadmits

end Underway
end Context

/-- Behind declarations that are underway they still are. -/
def Advances (procedures : List Procedure) (old new : Context) : Prop :=
  old.Underway procedures → new.Underway procedures ∧ old.Continues new

instance (procedures : List Procedure) : IsPreorder Context (Advances procedures) where
  refl _ h := ⟨h, .of_scopes (.refl _) rfl⟩
  trans _ _ _ hfirst hrest h :=
    have middle := hfirst h
    have last := hrest middle.1
    ⟨last.1, middle.2.trans last.2⟩

section
variable {procedures : List Procedure} {scope : ScopeId} {start finish : Progress}

private theorem rememberTypeExpr_advances {node : NodeId} {type : TypeId} (ht : type < start.context.types.count) :
    (rememberTypeExpr node type).Moves (Advances procedures) start := by
  refine fun h => ⟨h.grow h.built (.refl _) rfl (fun id found hf => ?_) rfl, .of_scopes (.refl _) rfl⟩
  have hput : (start.context.findings.typeExprs.put node type).at? id = some found := hf
  rw [Keyed.at?_put] at hput
  split at hput
  · cases hput
    exact ht
  · exact h.typeExprs id found hput

private theorem addArray_advances {position : Position} {element : TypeId} {length : UInt32}
    (hd : start.context.types.Declarable element) :
    (addArray position element length).Moves (Advances procedures) start :=
  .addArray fun _ _ ha h =>
    have hx := TypeTable.extends_of_addArray? ha
    ⟨h.grow (.add h.built hd ha) hx rfl (fun id type hf => Nat.lt_of_lt_of_le (h.typeExprs id type hf) hx.count_le) rfl,
      .of_scopes hx rfl⟩

private theorem enter_advances {name : Name} {entry : Entry} {position : Position} {taken : Cause}
    (ha : start.context.Admits procedures scope name entry) :
    (enter scope name entry position taken).Moves (Advances procedures) start :=
  .enter fun _ he h => h.enter he ha

private theorem TypeExpr.resolve_advances (expr : TypeExpr) (scope : ScopeId) (start : Progress) :
    (expr.resolve scope).Moves (Advances procedures) start := by
  induction expr with
  | named node name =>
    rw [resolve]
    intro hu
    refine Moves.bind (R := Advances procedures) .context (fun context middle hc => ?_) hu
    cases hc
    split
    · next type hs =>
      exact (rememberTypeExpr_advances (hu.grounded.declarable_of_seen hs).1).bind fun _ _ _ => .pure _
    · exact .fail _ _
    · exact .fail _ _
  | array node length base ih =>
    rw [resolve]
    intro hu
    refine Moves.bind ih (fun element based hb => Moves.reportEmpty.bind fun _ reported he => ?_) hu
    have hd := (base.resolve_ok hu.grounded hb).2
    rw [← run_reportEmpty he] at hd
    refine (addArray_advances hd).bind fun type added ha => ?_
    obtain ⟨hnew, hcount, -⟩ := TypeTable.addArray?_eq_some (run_addArray ha).1
    have ht : type < added.context.types.count := by
      rw [hcount, hnew]
      exact Nat.lt_succ_self _
    exact (rememberTypeExpr_advances ht).bind fun _ _ _ => .pure _

variable {procedure : Procedure}

private theorem Parameter.declare_advances (hof : procedureOf? procedures scope = some procedure)
    {parameter : Parameter} (hp : parameter ∈ procedure.parameters) (caller : Name) (start : Progress) :
    (parameter.declare caller scope).Moves (Advances procedures) start := by
  intro hu
  refine Moves.bind (parameter.type.resolve_advances _ start) (fun type resolved hr => ?_) hu
  have hd := (parameter.type.resolve_ok hu.grounded hr).2
  have hresolved := ((parameter.type.resolve_advances _ start).of_ok hr hu).1
  refine Moves.bind .context fun context middle hc => ?_
  cases hc
  refine Moves.bind .require fun _ checked hq => ?_
  obtain ⟨hq, rfl⟩ := run_require_eq_ok.mp hq
  have hadmits : checked.context.Admits procedures scope parameter.name (.var ⟨type, parameter.byReference, none⟩) :=
    ⟨hd, procedure, hof, .parameter parameter hp rfl rfl (hresolved.built.eq_int_of_byValue hd hq)⟩
  exact (enter_advances hadmits).bind fun _ _ _ => (Moves.report _).bind fun _ _ _ => .pure _

/-- The summary of a parameter that is entered is what its scope holds for it. -/
theorem Parameter.declare_summarizes (hof : procedureOf? procedures scope = some procedure) {parameter : Parameter}
    {caller : Name} {slot : Slot} (hu : start.context.Underway procedures)
    (hr : (parameter.declare caller scope).run start = .ok slot finish) :
    finish.context.scopes.Summarizes scope parameter slot ∧
      finish.context.types.Declarable slot.type ∧ (slot.byReference = false → slot.type = TypeId.int) := by
  obtain ⟨type, resolved, scopes, ht, hq, hent, rfl, hfinish⟩ := run_declare hr
  have hd := (parameter.type.resolve_ok hu.grounded ht).2
  have hresolved := ((parameter.type.resolve_advances _ start).of_ok ht hu).1
  have hheld := ScopeTree.held?_of_enter? hent (hresolved.lt_count_of_procedureOf? hof) scope parameter.name
  rw [hfinish]
  exact ⟨⟨_, hheld.trans (if_pos ⟨rfl, rfl⟩), rfl, rfl⟩, hd, hresolved.built.eq_int_of_byValue hd hq⟩

private theorem declareParameters_advances (hof : procedureOf? procedures scope = some procedure)
    {parameters : List Parameter} (hp : parameters ⊆ procedure.parameters) (caller : Name) (start : Progress) :
    (parameters.mapM (Parameter.declare caller scope)).Moves (Advances procedures) start :=
  .mapM _ fun _ hm => Parameter.declare_advances hof (hp hm) caller

private theorem declareParameters_summarize (hof : procedureOf? procedures scope = some procedure)
    {parameters : List Parameter} (hp : parameters ⊆ procedure.parameters) {caller : Name} {slots : List Slot}
    {start : Progress} (hu : start.context.Underway procedures)
    (hr : (parameters.mapM (Parameter.declare caller scope)).run start = .ok slots finish) :
    List.Forall₂ (finish.context.scopes.Summarizes scope) parameters slots ∧
      ∀ slot ∈ slots, finish.context.types.Declarable slot.type ∧ (slot.byReference = false → slot.type = TypeId.int) := by
  induction parameters generalizing slots start with
  | nil =>
    cases hr
    exact ⟨.nil, nofun⟩
  | cons parameter rest ih =>
    obtain ⟨hparameter, hrest⟩ := List.cons_subset.mp hp
    rw [List.mapM_cons] at hr
    obtain ⟨slot, middle, hslot, hr⟩ := run_bind_eq_ok.mp hr
    obtain ⟨slots, last, hslots, hr⟩ := run_bind_eq_ok.mp hr
    cases hr
    have hmiddle := ((Parameter.declare_advances hof hparameter caller start).of_ok hslot hu).1
    have hlast := ((declareParameters_advances hof hrest caller middle).of_ok hslots hmiddle).2
    obtain ⟨hsummarizes, hfits⟩ := Parameter.declare_summarizes hof hu hslot
    obtain ⟨hsummarize, hfit⟩ := ih hrest hmiddle hslots
    refine ⟨.cons (hlast.summarizes hsummarizes) hsummarize, List.forall_mem_cons.mpr ⟨?_, hfit⟩⟩
    exact ⟨hfits.1.mono hlast.types, hfits.2⟩

/-- A local goes into a scope that holds all parameters, so it has the name of none of them. -/
theorem LocalVariable.declare_advances (hof : procedureOf? procedures scope = some procedure) {declared : LocalVariable}
    (hl : declared ∈ procedure.locals) (caller : Name)
    (hheld : ∀ parameter ∈ procedure.parameters, ∃ entry, start.context.scopes.held? scope parameter.name = some entry) :
    (declared.declare caller scope).Moves (Advances procedures) start := by
  intro hu
  refine Moves.bind (declared.type.resolve_advances _ start) (fun type resolved hr => ?_) hu
  have hd := (declared.type.resolve_ok hu.grounded hr).2
  have hcontinues := ((declared.type.resolve_advances _ start).of_ok hr hu).2
  refine Moves.bind (.enter fun scopes he h => h.enter he ⟨hd, procedure, hof, ?_⟩) fun _ _ _ => .report _
  refine .localVariable declared hl rfl (fun parameter hp hsame => ?_) rfl
  obtain ⟨entry, hentry⟩ := hheld parameter hp
  have hnew := (ScopeTree.enter?_eq_some he).1
  rw [← hsame, hcontinues.held _ _ _ hentry] at hnew
  cases hnew

private theorem declareLocals_advances (hof : procedureOf? procedures scope = some procedure)
    {locals : List LocalVariable} (hl : locals ⊆ procedure.locals) (caller : Name) {start : Progress}
    (hheld : ∀ parameter ∈ procedure.parameters, ∃ entry, start.context.scopes.held? scope parameter.name = some entry) :
    (locals.forM (·.declare caller scope)).Moves (Advances procedures) start := by
  induction locals generalizing start with
  | nil => exact .pure ()
  | cons declared rest ih =>
    obtain ⟨hdeclared, hrest⟩ := List.cons_subset.mp hl
    have hhead := LocalVariable.declare_advances hof hdeclared caller hheld
    intro hu
    refine Moves.bind hhead (fun _ middle hm => ih hrest fun parameter hp => ?_) hu
    exact (hheld parameter hp).imp fun _ => (hhead.of_ok hm hu).2.held _ _ _

/-- Opening a scope cannot fail. -/
theorem runFrom_openScope_bind {α : Type} (next : ScopeId → Phase α) (start : Progress) :
    (openScope >>= next).runFrom start = (next start.context.scopes.count).runFrom
      ⟨{ start.context with scopes := (start.context.scopes.nest ScopeTree.globalScope).2 }, start.events⟩ := rfl

/-- Whether a procedure is entered or something of it is refused, its scope is the last that was opened. -/
theorem Procedure.declare_underway (procedure : Procedure) (h : start.context.Underway procedures) :
    (procedure.declare.runFrom start).2.context.Underway (procedures ++ [procedure]) := by
  have hof : procedureOf? (procedures ++ [procedure]) start.context.scopes.count = some procedure :=
    h.count ▸ procedureOf?_newest procedures procedure
  rw [declare, runFrom_openScope_bind]
  -- Behind the opening the procedures stay the same, so the rest is a sequence of steps that advance.
  refine And.left (Moves.bind (R := Advances (procedures ++ [procedure]))
    (declareParameters_advances hof (List.Subset.refl _) _ _) (fun slots filled hp hu => ?_) (h.openScope procedure))
  obtain ⟨hsummarize, hfit⟩ := declareParameters_summarize hof (List.Subset.refl _) (h.openScope procedure) hp
  have hheld : ∀ parameter ∈ procedure.parameters, ∃ entry,
      filled.context.scopes.held? start.context.scopes.count parameter.name = some entry := by
    intro parameter hm
    obtain ⟨slot, -, v, hv, -⟩ := forall₂_exists_of_mem hsummarize hm
    exact ⟨.var v, hv⟩
  have hlocals := declareLocals_advances hof (List.Subset.refl _) procedure.name hheld
  refine Moves.bind hlocals (fun _ full hl => ?_) hu
  obtain ⟨hfull, hcontinues⟩ := hlocals.of_ok hl hu
  refine enter_advances ⟨rfl, .inr ⟨_, procedure, rfl, hfull.parent_of_procedureOf? hof, hof, rfl, ?_⟩, ?_⟩
  · exact hsummarize.imp fun _ _ => hcontinues.summarizes
  · exact fun slot hm => ⟨(hfit slot hm).1.mono hcontinues.types, (hfit slot hm).2⟩

private theorem TypeDeclaration.declare_advances (declaration : TypeDeclaration) (start : Progress) :
    declaration.declare.Moves (Advances procedures) start := by
  intro hu
  refine Moves.bind (declaration.type.resolve_advances _ start) (fun type resolved hr => ?_) hu
  have hd := (declaration.type.resolve_ok hu.grounded hr).2
  have hadmits : resolved.context.Admits procedures ScopeTree.globalScope declaration.name (.type type) := ⟨rfl, hd⟩
  exact (enter_advances hadmits).bind fun _ _ _ => Moves.context.bind fun _ _ _ => .report _

/-- A declaration goes on to those behind it, or it stops there. -/
private theorem declareAll_goes_on {declaration : Declaration} {rest : List Declaration} {later : List Procedure}
    (hhead : (declaration.declare.runFrom start).2.context.Underway procedures)
    (hrest : ∀ {middle : Progress}, middle.context.Underway procedures → ∃ opened, opened <+: later ∧
      ((rest.forM (·.declare)).runFrom middle).2.context.Underway (procedures ++ opened)) :
    ∃ opened, opened <+: later ∧
      (((declaration :: rest).forM (·.declare)).runFrom start).2.context.Underway (procedures ++ opened) := by
  unfold runFrom at hhead ⊢
  cases hr : declaration.declare.run start with
  | ok u middle =>
    rw [hr] at hhead
    have hrun : ((declaration :: rest).forM Declaration.declare).run start = (rest.forM Declaration.declare).run middle := by
      show (declaration.declare >>= fun _ => rest.forM Declaration.declare).run start = _
      rw [EStateM.run_bind, hr]
    rw [hrun]
    exact hrest hhead
  | error d finish =>
    rw [hr] at hhead
    have hrun : ((declaration :: rest).forM Declaration.declare).run start = .error d finish :=
      run_bind_eq_error.mpr (.inl hr)
    rw [hrun]
    exact ⟨[], List.nil_prefix, by simpa using hhead⟩

/-- Wherever declaring stops, the scopes of the procedures up to there were opened. -/
theorem declareAll_underway (position : Position) (declarations : List Declaration) {start : Progress}
    {procedures : List Procedure} (h : start.context.Underway procedures) :
    ∃ opened, opened <+: (Program.mk position declarations).procedures ∧
      ((declarations.forM (·.declare)).runFrom start).2.context.Underway (procedures ++ opened) := by
  induction declarations generalizing start procedures with
  | nil =>
    rw [← List.append_nil procedures] at h
    exact ⟨[], List.nil_prefix, h⟩
  | cons declaration rest ih =>
    cases declaration with
    | type declaration => exact declareAll_goes_on (declaration.declare_advances start h).1 ih
    | procedure procedure =>
      have hhead : ((Declaration.procedure procedure).declare.runFrom start).2.context.Underway
          (procedures ++ [procedure]) := procedure.declare_underway h
      obtain ⟨opened, hprefix, hu⟩ := declareAll_goes_on hhead ih
      rw [List.append_assoc] at hu
      exact ⟨procedure :: opened, (List.prefix_cons_inj procedure).mpr hprefix, hu⟩

end

private theorem Context.underway_initial : Underway .initial [] where
  built := .primitives
  count := rfl
  outermost := rfl
  inner scope hs hne := absurd (Nat.lt_one_iff.mp hs) hne
  entries scope name entry hh := by
    obtain ⟨held, hs, ha⟩ := Option.bind_eq_some_iff.mp hh
    obtain ⟨entries, hg, hvar, hproc⟩ := declared_initial.globals
    have hglobal : scope = ScopeTree.globalScope := Nat.lt_one_iff.mp (ScopeTree.lt_count_of_scope? hs)
    subst hglobal
    cases hg.symm.trans hs
    cases entry with
    | type type => exact ⟨rfl, declared_initial.declarable hs ha⟩
    | var v => exact absurd ha (hvar name v)
    | proc entry =>
      rcases (hproc name entry).mp ha with ⟨p, hp, hn, rfl⟩ | ⟨sig, hsig, -⟩
      · refine ⟨rfl, .inl ⟨rfl, p, hp, hn⟩, fun slot hm => ?_⟩
        obtain ⟨i, hi, rfl⟩ := List.mem_mapIdx.mp hm
        exact ⟨TypeTable.Built.primitives.declarable_int, fun _ => rfl⟩
      · cases hsig
  typeExprs := nofun
  exprs := nofun

/-- Counting what was declared changes nothing. -/
theorem Program.declare_context (program : Program) (start : Progress) :
    (program.declare.runFrom start).2.context =
      ((program.declarations.forM (·.declare)).runFrom start).2.context := by
  unfold runFrom
  cases hr : (program.declarations.forM (·.declare)).run start with
  | ok u entered =>
    obtain ⟨count, finish, hrun, hsame⟩ := run_declare_of_ok program.position hr
    rw [hrun]
    exact hsame
  | error d finish => rw [run_declare_eq_error.mpr hr]

theorem Program.declare_underway (program : Program) : ∃ opened, opened <+: program.procedures ∧
    (program.declare.runFrom .initial).2.context.Underway opened := by
  have hinitial : Progress.initial.context.Underway [] := Context.underway_initial
  rw [program.declare_context]
  exact declareAll_underway program.position program.declarations hinitial

end SplLang

import SplLang.Proofs.FirstBroken
import SplLang.Proofs.Origins

/-! The rules for declarations, in the order in which a program is gone through, with what is visible where each of
them counts. Entering the declarations reports the first rule that is broken. -/
namespace SplLang
open Phase

/-- What is visible where a declaration is entered or a type is named. -/
structure Visible where
  /-- What the names of types mean. -/
  types : Name → Option Spelled
  /-- The names that mean anything. -/
  names : List Name
  /-- The names that a declaration there may not have. -/
  taken : List Name

/-- A rule for a declaration or a part of it. -/
inductive DeclarationRule where
  | typeDeclared (node : Node) (name : Name)
  | typeNamed (node : Node) (name : Name)
  | sizeBounded (node : Node) (length : UInt32) (base : TypeExpr)
  | typeFresh (declaration : TypeDeclaration)
  | arrayByReference (parameter : Parameter)
  | parameterFresh (parameter : Parameter)
  | localFresh (declaration : LocalVariable)
  | procedureFresh (procedure : Procedure)

/-- What breaks a rule for a declaration, and what is reported then. -/
def DeclarationRule.demand (visible : Visible) : DeclarationRule → Demand
  | .typeDeclared node name => ⟨⟨node.position, .undefinedType name⟩, name ∉ visible.names⟩
  | .typeNamed node name =>
    ⟨⟨node.position, .notAType name⟩, name ∈ visible.names ∧ visible.types name = none⟩
  | .sizeBounded node length base => ⟨⟨node.position, .typeTooLarge⟩,
      ∃ element, base.Means visible.types element ∧ 2^32 ≤ (Spelled.array length element).byteSize⟩
  | .typeFresh declaration =>
    ⟨⟨declaration.position, .redeclaredAsType declaration.name⟩, declaration.name ∈ visible.taken⟩
  | .arrayByReference parameter => ⟨⟨parameter.position, .arrayByValue parameter.name⟩,
      parameter.byReference = false ∧ ∃ spelled, parameter.type.Means visible.types spelled ∧ spelled ≠ .int⟩
  | .parameterFresh parameter =>
    ⟨⟨parameter.position, .redeclaredAsParameter parameter.name⟩, parameter.name ∈ visible.taken⟩
  | .localFresh declaration =>
    ⟨⟨declaration.position, .redeclaredAsVariable declaration.name⟩, declaration.name ∈ visible.taken⟩
  | .procedureFresh procedure =>
    ⟨⟨procedure.position, .redeclaredAsProcedure procedure.name⟩, procedure.name ∈ visible.taken⟩

theorem DeclarationRule.code_le (visible : Visible) (rule : DeclarationRule) :
    (rule.demand visible).diagnostic.code ≤ 128 := by
  cases rule <;> simp [demand, Diagnostic.code, Cause.code]

/-! ### The order of the rules -/

/-- The rules for a type expression without those for the base of an array type. -/
def TypeExpr.ownRules : TypeExpr → List DeclarationRule
  | .named node name => [.typeDeclared node name, .typeNamed node name]
  | .array node length base => [.sizeBounded node length base]

/-- The rules for a type expression: those for the base of an array type come first. -/
def TypeExpr.rules : TypeExpr → List DeclarationRule
  | .named node name => (TypeExpr.named node name).ownRules
  | .array node length base => base.rules ++ (TypeExpr.array node length base).ownRules

def Parameter.rules (parameter : Parameter) : List DeclarationRule :=
  parameter.type.rules ++ [.arrayByReference parameter, .parameterFresh parameter]

def LocalVariable.rules (declaration : LocalVariable) : List DeclarationRule :=
  declaration.type.rules ++ [.localFresh declaration]

def TypeDeclaration.rules (declaration : TypeDeclaration) : List DeclarationRule :=
  declaration.type.rules ++ [.typeFresh declaration]

/-- The rules for what is entered into one scope in turn, each with what is visible behind the names before it. -/
def rulesInTurn {α : Type} (name : α → Name) (rules : α → List DeclarationRule) (visible : List Name → Visible) :
    List Name → List α → List (Visible × DeclarationRule)
  | _, [] => []
  | own, x :: rest => (rules x).map (visible own, ·) ++ rulesInTurn name rules visible (own ++ [name x]) rest

/-- The types of parameters are seen from outside the procedure. -/
def parameterVisible (known : Name → Option Spelled) (globals own : List Name) : Visible := ⟨known, globals, own⟩

/-- The types of locals are seen from inside, where the names of variables hide types. -/
def localVisible (known : Name → Option Spelled) (globals own : List Name) : Visible :=
  ⟨hide own known, own ++ globals, own⟩

/-- The rules for a procedure: parameters come before locals, and its own name comes last. -/
def Procedure.rules (known : Name → Option Spelled) (globals : List Name) (procedure : Procedure) :
    List (Visible × DeclarationRule) :=
  rulesInTurn (·.name) Parameter.rules (parameterVisible known globals) [] procedure.parameters ++
    (rulesInTurn (·.name) LocalVariable.rules (localVisible known globals) (procedure.parameters.map (·.name))
        procedure.locals ++
      [(⟨known, globals, globals⟩, .procedureFresh procedure)])

/-- What a type expression means, if it means something. -/
def TypeExpr.spell? (known : Name → Option Spelled) : TypeExpr → Option Spelled
  | .named _ name => known name
  | .array _ length base => do
    let element ← base.spell? known
    if (Spelled.array length element).byteSize < 2^32 then some (.array length element) else none

/-- The rules for declarations from top to bottom, behind some that took the given names and made the given types
known. -/
def declarationRules (known : Name → Option Spelled) (globals : List Name) :
    List Declaration → List (Visible × DeclarationRule)
  | [] => []
  | .type declaration :: rest => declaration.rules.map (⟨known, globals, globals⟩, ·) ++
      declarationRules (Function.update known declaration.name (declaration.type.spell? known))
        (globals ++ [declaration.name]) rest
  | .procedure procedure :: rest =>
    procedure.rules known globals ++ declarationRules known (globals ++ [procedure.name]) rest

def Program.declarationRules (program : Program) : List (Visible × DeclarationRule) :=
  SplLang.declarationRules predeclaredTypes (predeclared.map (·.1)) program.declarations

private theorem TypeExpr.Means.spell? {known : Name → Option Spelled} {expr : TypeExpr} {spelled : Spelled}
    (h : expr.Means known spelled) : expr.spell? known = some spelled := by
  induction h with
  | named hn => exact hn
  | array _ hlt ih => rw [TypeExpr.spell?, ih, Option.bind_eq_bind, Option.bind_some, if_pos hlt]

/-! ### What a rule is about -/

/-- The rule is one for what is declared, and not for its type. -/
inductive DeclarationRule.OfDeclaration : DeclarationRule → Declaration → Prop where
  | type {declaration : TypeDeclaration} : OfDeclaration (.typeFresh declaration) (.type declaration)
  | byReference {procedure : Procedure} {parameter : Parameter} : parameter ∈ procedure.parameters →
      OfDeclaration (.arrayByReference parameter) (.procedure procedure)
  | parameter {procedure : Procedure} {parameter : Parameter} : parameter ∈ procedure.parameters →
      OfDeclaration (.parameterFresh parameter) (.procedure procedure)
  | localVariable {procedure : Procedure} {declaration : LocalVariable} : declaration ∈ procedure.locals →
      OfDeclaration (.localFresh declaration) (.procedure procedure)
  | procedure {procedure : Procedure} : OfDeclaration (.procedureFresh procedure) (.procedure procedure)

/-- The rule is one for a type expression or for a declaration of the program. -/
def DeclarationRule.StandsIn (rule : DeclarationRule) (program : Program) : Prop :=
  (∃ occurrence expr, program.typeExpr? occurrence = some expr ∧ rule ∈ expr.ownRules) ∨
    ∃ declaration ∈ program.declarations, rule.OfDeclaration declaration

section
variable {rule : DeclarationRule}

private theorem TypeExpr.rules_below {expr : TypeExpr} (h : rule ∈ expr.rules) :
    ∃ depth inner, expr.below? depth = some inner ∧ rule ∈ inner.ownRules := by
  induction expr with
  | named node name => exact ⟨0, _, rfl, h⟩
  | array node length base ih =>
    rcases List.mem_append.mp h with h | h
    · obtain ⟨depth, inner, hb, hr⟩ := ih h
      exact ⟨depth + 1, inner, hb, hr⟩
    · exact ⟨0, _, rfl, h⟩

private theorem rulesInTurn_cases {α : Type} {name : α → Name} {rules : α → List DeclarationRule}
    {visible : List Name → Visible} {own : List Name} {xs : List α} {located : Visible × DeclarationRule}
    (h : located ∈ rulesInTurn name rules visible own xs) : ∃ x ∈ xs, located.2 ∈ rules x := by
  induction xs generalizing own with
  | nil => cases h
  | cons x rest ih =>
    rcases List.mem_append.mp h with h | h
    · obtain ⟨rule, hr, rfl⟩ := List.mem_map.mp h
      exact ⟨x, List.mem_cons_self, hr⟩
    · obtain ⟨y, hy, hr⟩ := ih h
      exact ⟨y, List.mem_cons_of_mem _ hy, hr⟩

private theorem Procedure.rules_cases {known : Name → Option Spelled} {globals : List Name} {procedure : Procedure}
    {located : Visible × DeclarationRule} (h : located ∈ procedure.rules known globals) :
    (∃ site ∈ (Declaration.procedure procedure).typeSites, located.2 ∈ site.type.rules) ∨
      located.2.OfDeclaration (.procedure procedure) := by
  rcases List.mem_append.mp h with h | h
  · obtain ⟨parameter, hp, hr⟩ := rulesInTurn_cases h
    rcases List.mem_append.mp hr with hr | hr
    · exact .inl ⟨_, List.mem_append_left _ (List.mem_map_of_mem hp), hr⟩
    · rcases List.mem_pair.mp hr with hr | hr
      · exact .inr (hr ▸ .byReference hp)
      · exact .inr (hr ▸ .parameter hp)
  rcases List.mem_append.mp h with h | h
  · obtain ⟨declaration, hd, hr⟩ := rulesInTurn_cases h
    rcases List.mem_append.mp hr with hr | hr
    · exact .inl ⟨_, List.mem_append_right _ (List.mem_map_of_mem hd), hr⟩
    · exact .inr (List.mem_singleton.mp hr ▸ .localVariable hd)
  · cases List.mem_singleton.mp h
    exact .inr .procedure

private theorem declarationRules_cases {known : Name → Option Spelled} {globals : List Name}
    {declarations : List Declaration} {located : Visible × DeclarationRule}
    (h : located ∈ declarationRules known globals declarations) : ∃ declaration ∈ declarations,
      (∃ site ∈ declaration.typeSites, located.2 ∈ site.type.rules) ∨ located.2.OfDeclaration declaration := by
  induction declarations generalizing known globals with
  | nil => cases h
  | cons declaration rest ih =>
    cases declaration with
    | type declaration =>
      rcases List.mem_append.mp h with h | h
      · obtain ⟨rule, hr, rfl⟩ := List.mem_map.mp h
        refine ⟨_, List.mem_cons_self, ?_⟩
        rcases List.mem_append.mp hr with hr | hr
        · exact .inl ⟨_, List.mem_singleton_self _, hr⟩
        · exact .inr (List.mem_singleton.mp hr ▸ .type)
      · obtain ⟨other, ho, hr⟩ := ih h
        exact ⟨other, List.mem_cons_of_mem _ ho, hr⟩
    | procedure procedure =>
      rcases List.mem_append.mp h with h | h
      · exact ⟨_, List.mem_cons_self, Procedure.rules_cases h⟩
      · obtain ⟨other, ho, hr⟩ := ih h
        exact ⟨other, List.mem_cons_of_mem _ ho, hr⟩

/-- Each rule is about something in the program. -/
theorem Program.declarationRules_standIn (program : Program) {visible : Visible}
    (h : (visible, rule) ∈ program.declarationRules) : rule.StandsIn program := by
  obtain ⟨declaration, hd, ⟨site, hs, hr⟩ | hr⟩ := declarationRules_cases h
  · obtain ⟨depth, inner, hb, hr⟩ := TypeExpr.rules_below hr
    obtain ⟨i, hi⟩ := List.mem_iff_getElem?.mp (List.mem_flatMap.mpr ⟨declaration, hd, hs⟩)
    exact .inl ⟨⟨i, depth⟩, inner, Option.bind_eq_some_iff.mpr ⟨site, hi, hb⟩, hr⟩
  · exact .inr ⟨declaration, hd, hr⟩

end

/-! ### Entering declarations -/

/-- What breaks a rule where it counts. -/
def locatedDemand (located : Visible × DeclarationRule) : Demand := located.2.demand located.1

section
variable {visible : Visible} {start : Progress} {known : Name → Option Spelled} {globals own : Keyed Name Entry}
  {bodies : List (Keyed Name Entry)}

private theorem addArray_refuses {element : TypeId} {spelled : Spelled} {base : TypeExpr} {node : Node}
    {length : UInt32} (hb : start.context.types.Built) (hs : start.context.types.Spells element spelled)
    (hm : base.Means visible.types spelled) :
    Phase.Refuses (DeclarationRule.demand visible) [.sizeBounded node length base]
      (addArray node.position element length) start := by
  have hsize : (start.context.types.byteSize element).toNat = spelled.byteSize := hb.byteSize_of_spells hs
  have hbroken : (∃ other, base.Means visible.types other ∧ 2^32 ≤ (Spelled.array length other).byteSize) ↔
      start.context.types.addArray? element length = none := by
    rw [TypeTable.addArray?_eq_none_iff, hm.exists_iff, Spelled.byteSize, hsize]
  unfold addArray
  exact .context_bind ((Phase.Refuses.expect rfl hbroken).bind_pure fun _ _ _ => .of_ok rfl)

private theorem reportEmpty_refuses (position : Position) (length : UInt32) :
    Phase.Refuses (DeclarationRule.demand visible) [] (reportEmpty position length) start := by
  unfold reportEmpty
  split
  · exact .of_ok rfl
  · exact .of_ok rfl

/-- Resolving a type expression reports the first rule that is broken. -/
theorem TypeExpr.resolve_refuses (expr : TypeExpr) {scope : ScopeId} {start : Progress}
    (hb : start.context.types.Built) (hk : start.context.types.Knows (start.context.scopes.seen? scope) visible.types)
    (hn : ∀ name, start.context.scopes.seen? scope name = none ↔ name ∉ visible.names) :
    Phase.Refuses (DeclarationRule.demand visible) expr.rules (expr.resolve scope) start := by
  induction expr with
  | named node name =>
    rw [resolve]
    refine .context_bind ?_
    split
    · next type hs =>
      have hmem : name ∈ visible.names := by simpa [hs] using hn name
      obtain ⟨spelled, hknown, _⟩ := hk.spelled hs
      refine .skip (not_not.mpr hmem) (.skip ?_ (.of_ok rfl))
      rintro ⟨_, hunknown⟩
      cases hknown.symm.trans hunknown
    · next entry hne hs =>
      have hmem : name ∈ visible.names := by simpa [hs] using hn name
      refine .skip (not_not.mpr hmem) (.fail rfl ⟨hmem, ?_⟩)
      rw [Option.eq_none_iff_forall_ne_some]
      intro spelled hknown
      obtain ⟨type, he, _⟩ := hk.entry hknown
      exact hne type (Option.some.inj (hs.symm.trans he))
    · next hs => exact .fail rfl ((hn name).mp hs)
  | array node length base ih =>
    rw [resolve]
    refine ih.bind fun element based hr => ?_
    obtain ⟨_, hg, _, _, spelled, hm, hspells⟩ := (base.resolve_exact hb hk).sound element based hr
    refine Phase.Refuses.bind (reportEmpty_refuses node.position length) fun _ reported hreported => ?_
    have hcontext := run_reportEmpty hreported
    rw [← hcontext] at hg hspells
    exact (addArray_refuses hg.built hspells hm).bind_pure fun _ _ _ => .of_ok rfl

private theorem Parameter.declare_refuses
    (h : Entered start.context known globals (bodies ++ [own])) (parameter : Parameter) (procedure : Name) :
    Phase.Refuses (DeclarationRule.demand (parameterVisible known (globals.map (·.1)) (own.map (·.1))))
      parameter.rules (parameter.declare procedure (bodies.length + 1)) start := by
  cases parameter with
  | mk position name expr byReference =>
  have hknows : start.context.types.Knows (start.context.scopes.seen? ScopeTree.globalScope) known :=
    h.seen_global ▸ h.knows
  simp only [declare, rules]
  refine (expr.resolve_refuses h.built hknows fun other => ?_).bind fun type resolved hr => ?_
  · rw [h.seen_global, Keyed.at?_eq_none_iff]
    rfl
  obtain ⟨_, hg, _, _, spelled, hm, hspells⟩ := (expr.resolve_exact h.built hknows).sound type resolved hr
  have hvalue : (byReference = false ∧ ∃ other, expr.Means known other ∧ other ≠ .int) ↔
      ¬ (resolved.context.types.isArray type → byReference) := by
    rw [hm.exists_iff, Ne, ← hg.built.isArray_of_spells hspells]
    cases byReference <;> simp
  refine .context_bind ((Phase.Refuses.require rfl hvalue).bind fun _ required hrequired => ?_)
  obtain ⟨_, rfl⟩ := run_require_eq_ok.mp hrequired
  refine Phase.Refuses.bind_pure (.enter rfl ?_) fun _ _ _ => .of_ok rfl
  rw [Ne, (h.grow hg).held_newest, not_not]
  rfl

private theorem LocalVariable.declare_refuses (h : Entered start.context known globals (bodies ++ [own]))
    (hown : ∀ pair ∈ own, ∃ v, pair.2 = Entry.var v) (declaration : LocalVariable) (procedure : Name) :
    Phase.Refuses (DeclarationRule.demand (localVisible known (globals.map (·.1)) (own.map (·.1))))
      declaration.rules (declaration.declare procedure (bodies.length + 1)) start := by
  cases declaration with
  | mk position name expr =>
  have hknows : start.context.types.Knows (start.context.scopes.seen? (bodies.length + 1))
      (hide (own.map (·.1)) known) := h.seen_newest ▸ h.knows.hide hown
  simp only [declare, rules]
  refine (expr.resolve_refuses h.built hknows fun other => ?_).bind fun type resolved hr => ?_
  · rw [h.seen_newest, Option.or_eq_none_iff, Keyed.at?_eq_none_iff, Keyed.at?_eq_none_iff, ← not_or, ← List.mem_append]
    rfl
  obtain ⟨_, hg, _⟩ := (expr.resolve_exact h.built hknows).sound type resolved hr
  refine Phase.Refuses.bind_pure (.enter rfl ?_) fun _ _ _ => .of_ok rfl
  rw [Ne, (h.grow hg).held_newest, not_not]
  rfl

private theorem TypeDeclaration.declare_refuses (h : Entered start.context known globals bodies)
    (declaration : TypeDeclaration) :
    Phase.Refuses (DeclarationRule.demand ⟨known, globals.map (·.1), globals.map (·.1)⟩) declaration.rules
      declaration.declare start := by
  have hknows : start.context.types.Knows (start.context.scopes.seen? ScopeTree.globalScope) known :=
    h.seen_global ▸ h.knows
  unfold declare rules
  refine (declaration.type.resolve_refuses h.built hknows fun other => ?_).bind fun type resolved hr => ?_
  · rw [h.seen_global, Keyed.at?_eq_none_iff]
  obtain ⟨_, hg, _⟩ := (declaration.type.resolve_exact h.built hknows).sound type resolved hr
  refine Phase.Refuses.bind_pure (.enter rfl ?_) fun _ _ _ => .of_ok rfl
  rw [Ne, (h.grow hg).held_global, not_not]
  rfl

private theorem located_refuses {α : Type} {x : Phase α} {rules : List DeclarationRule}
    (h : Phase.Refuses (DeclarationRule.demand visible) rules x start) :
    Phase.Refuses locatedDemand (rules.map (visible, ·)) x start := h.map fun _ => rfl

private theorem declareParameters_refuses (procedure : Name) (parameters : List Parameter) {start : Progress}
    {own : Keyed Name Entry} (h : Entered start.context known globals (bodies ++ [own])) :
    Phase.Refuses locatedDemand
      (rulesInTurn (·.name) Parameter.rules (parameterVisible known (globals.map (·.1))) (own.map (·.1)) parameters)
      (parameters.mapM (Parameter.declare procedure (bodies.length + 1))) start := by
  induction parameters generalizing start own with
  | nil => exact .of_ok rfl
  | cons parameter rest ih =>
    rw [List.mapM_cons, rulesInTurn]
    refine (located_refuses (parameter.declare_refuses h procedure)).bind fun slot middle hr => ?_
    obtain ⟨_, type, _, _, _, hentered⟩ := (Parameter.declare_exact h parameter procedure).sound slot middle hr
    have hrest := ih hentered
    rw [List.map_append] at hrest
    exact hrest.bind_pure fun _ _ _ => .of_ok rfl

private theorem declareLocals_refuses (procedure : Name) (locals : List LocalVariable) {start : Progress}
    {own : Keyed Name Entry} (h : Entered start.context known globals (bodies ++ [own]))
    (hown : ∀ pair ∈ own, ∃ v, pair.2 = Entry.var v) :
    Phase.Refuses locatedDemand
      (rulesInTurn (·.name) LocalVariable.rules (localVisible known (globals.map (·.1))) (own.map (·.1)) locals)
      (locals.forM (·.declare procedure (bodies.length + 1))) start := by
  induction locals generalizing start own with
  | nil => exact .of_ok rfl
  | cons declaration rest ih =>
    rw [rulesInTurn]
    refine (located_refuses (declaration.declare_refuses h hown procedure)).bind fun _ middle hr => ?_
    obtain ⟨_, type, _, _, hentered⟩ := (LocalVariable.declare_exact h hown declaration procedure).sound _ middle hr
    have hrest := ih hentered ?_
    · rw [List.map_append] at hrest
      exact hrest
    · rw [List.forall_mem_append]
      exact ⟨hown, List.forall_mem_singleton.mpr ⟨_, rfl⟩⟩

private theorem Procedure.declare_refuses (h : Entered start.context known globals bodies) (procedure : Procedure) :
    Phase.Refuses locatedDemand (procedure.rules known (globals.map (·.1))) procedure.declare start := by
  unfold declare rules
  have hopen : Phase.Refuses locatedDemand [] openScope start := .of_ok rfl
  refine hopen.bind fun scope opened hr => ?_
  obtain ⟨_, rfl, _, _, hentered⟩ := h.openScope_exact.sound scope opened hr
  refine (declareParameters_refuses procedure.name procedure.parameters hentered).bind fun slots filled hr => ?_
  have hparameters := declareParameters_exact procedure.name procedure.parameters hentered List.nodup_nil
  obtain ⟨⟨_, hnodup⟩, typed, htyped, rfl, _, _, hfilled⟩ := hparameters.sound slots filled hr
  rw [List.nil_append] at hfilled
  have hown : (typed.map Signature.parameterEntry).map (·.1) = procedure.parameters.map (·.name) := by
    rw [Signature.parameterEntry_names, htyped]
  have hvars := @Signature.parameterEntry_variables typed
  have hlocals := declareLocals_refuses procedure.name procedure.locals hfilled hvars
  rw [hown] at hlocals
  refine hlocals.bind fun _ full hr => ?_
  rw [List.map_nil, List.nil_append, ← hown] at hnodup
  obtain ⟨_, _, _, _, _, hfull⟩ :=
    (declareLocals_exact procedure.name procedure.locals hfilled hnodup hvars).sound _ full hr
  refine .enter rfl ?_
  rw [Ne, hfull.held_global, not_not]
  rfl

/-- Entering declarations reports the first rule that is broken. -/
theorem declareAll_refuses (declarations : List Declaration) {known : Name → Option Spelled}
    {globals : Keyed Name Entry} {bodies : List (Keyed Name Entry)} {start : Progress}
    (h : Entered start.context known globals bodies) :
    Phase.Refuses locatedDemand (declarationRules known (globals.map (·.1)) declarations)
      (declarations.forM (·.declare)) start := by
  induction declarations generalizing known globals bodies start with
  | nil => exact .of_ok rfl
  | cons declaration rest ih =>
    cases declaration with
    | type declaration =>
      rw [declarationRules]
      refine (located_refuses (declaration.declare_refuses h)).bind fun _ middle hr => ?_
      obtain ⟨_, type, spelled, hm, _, _, hentered⟩ := (declaration.declare_exact h).sound _ middle hr
      have hrest := ih hentered
      rw [List.map_append] at hrest
      rw [hm.spell?]
      exact hrest
    | procedure procedure =>
      rw [declarationRules]
      refine (procedure.declare_refuses h).bind fun _ middle hr => ?_
      obtain ⟨_, sig, _, _, hentered⟩ := (procedure.declare_exact h).sound _ middle hr
      have hrest := ih hentered
      rw [List.map_append] at hrest
      exact hrest

theorem Program.declare_refuses (program : Program) :
    Phase.Refuses locatedDemand program.declarationRules program.declare .initial := by
  unfold declare
  exact (declareAll_refuses program.declarations entered_initial).bind_pure fun _ _ _ => .of_ok rfl

end
end SplLang

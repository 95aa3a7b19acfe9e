import SplLang.Declaring
import SplLang.Proofs.Sizes
import SplLang.Proofs.Steps

/-! What is known once declarations are entered: the global scope holds types, the library and
the procedures, and each procedure's scope holds its parameters and then its locals. -/
namespace SplLang
open Phase

/-- A procedure with its scope and with what the types of its parameters and locals mean. -/
structure Signature where
  procedure : Procedure
  scope : ScopeId
  parameters : List (Parameter × TypeId)
  locals : List (LocalVariable × TypeId)

namespace Signature

def parameterEntry (parameter : Parameter × TypeId) : Name × Entry :=
  (parameter.1.name, .var ⟨parameter.2, parameter.1.byReference, none⟩)

def localEntry (declaration : LocalVariable × TypeId) : Name × Entry :=
  (declaration.1.name, .var ⟨declaration.2, false, none⟩)

/-- What the procedure's scope holds before anything is placed. -/
def own (sig : Signature) : Keyed Name Entry :=
  sig.parameters.map parameterEntry ++ sig.locals.map localEntry

def slots (sig : Signature) : List Slot :=
  sig.parameters.map fun parameter => ⟨parameter.2, parameter.1.byReference, none⟩

/-- What the global scope holds for the procedure before anything is placed. -/
def entry (sig : Signature) : ProcedureEntry :=
  { scope := some sig.scope, parameters := sig.slots, argumentArea := none, localArea := none,
    outgoing := none }

/-- The signature belongs to its procedure, and every type in it can be declared. -/
structure Fits (sig : Signature) (types : TypeTable) : Prop where
  parameters_eq : sig.parameters.map (·.1) = sig.procedure.parameters
  locals_eq : sig.locals.map (·.1) = sig.procedure.locals
  parameters : ∀ p ∈ sig.parameters, types.Declarable p.2 ∧ (p.1.byReference = false → p.2 = TypeId.int)
  locals : ∀ l ∈ sig.locals, types.Declarable l.2
  distinct : (sig.own.map (·.1)).Nodup

end Signature

/-- What the global scope holds besides the types: the library, and the given procedures with
the given entries. -/
def GlobalProcedure (sigs : List Signature) (entryOf : Signature → ProcedureEntry) (name : Name)
    (entry : ProcedureEntry) : Prop :=
  (∃ p ∈ library, p.name = name ∧ p.entry = entry) ∨
    ∃ sig ∈ sigs, sig.procedure.name = name ∧ entryOf sig = entry

/-- The types were added one by one, and the scopes name none but declarable ones. -/
structure Context.Grounded (context : Context) : Prop where
  built : context.types.Built
  declarable : ∀ {scope held name type}, context.scopes.scope? scope = some held →
    held.entries.at? name = some (.type type) → context.types.Declarable type

/-- The declarations entered so far, with the procedures among them. -/
structure Declared (context : Context) (sigs : List Signature) : Prop where
  built : context.types.Built
  declarable : ∀ {scope held name type}, context.scopes.scope? scope = some held →
    held.entries.at? name = some (.type type) → context.types.Declarable type
  globals : ∃ entries, context.scopes.scope? 0 = some ⟨none, entries⟩ ∧
    (∀ name v, entries.at? name ≠ some (.var v)) ∧
    ∀ name entry, entries.at? name = some (.proc entry) ↔ GlobalProcedure sigs Signature.entry name entry
  scopes : ∀ sig ∈ sigs, 0 < sig.scope ∧
    context.scopes.scope? sig.scope = some ⟨some 0, sig.own⟩
  fits : ∀ sig ∈ sigs, sig.Fits context.types
  distinct : (sigs.map (·.scope)).Nodup
  names : (sigs.map (·.procedure.name)).Nodup

/-- While a procedure is declared: its scope belongs to no other and holds some variables so far. -/
structure Opened (context : Context) (sigs : List Signature) (scope : ScopeId)
    (own : Keyed Name Entry) : Prop where
  declared : Declared context sigs
  pos : 0 < scope
  fresh : scope ∉ sigs.map (·.scope)
  held : context.scopes.scope? scope = some ⟨some 0, own⟩
  distinct : (own.map (·.1)).Nodup

section
variable {context : Context} {sigs : List Signature} {scope : ScopeId} {own : Keyed Name Entry}

theorem Signature.Fits.mono {sig : Signature} {types next : TypeTable} (h : sig.Fits types)
    (hx : types.Extends next) : sig.Fits next where
  parameters_eq := h.parameters_eq
  locals_eq := h.locals_eq
  parameters p hp := ⟨(h.parameters p hp).1.mono hx, (h.parameters p hp).2⟩
  locals l hl := (h.locals l hl).mono hx
  distinct := h.distinct

/-- Findings do not matter, and the table of types may grow. -/
theorem Declared.mono {next : Context} (h : Declared context sigs) (hb : next.types.Built)
    (hx : context.types.Extends next.types) (hs : next.scopes = context.scopes) :
    Declared next sigs where
  built := hb
  declarable hd he := (h.declarable (hs ▸ hd) he).mono hx
  globals := hs ▸ h.globals
  scopes := hs ▸ h.scopes
  fits sig hsig := (h.fits sig hsig).mono hx
  distinct := h.distinct
  names := h.names

theorem Opened.mono {next : Context} (h : Opened context sigs scope own)
    (hb : next.types.Built) (hx : context.types.Extends next.types)
    (hs : next.scopes = context.scopes) : Opened next sigs scope own where
  declared := h.declared.mono hb hx hs
  pos := h.pos
  fresh := h.fresh
  held := hs ▸ h.held
  distinct := h.distinct

namespace Context.Grounded

/-- A type that is seen from some scope can be declared. -/
theorem declarable_of_seen (h : context.Grounded) {name : Name} {type : TypeId}
    (hs : context.scopes.seen? scope name = some (.type type)) : context.types.Declarable type := by
  obtain ⟨outer, held, ho, he⟩ := ScopeTree.held_of_seen? hs
  exact h.declarable ho he

/-- A new scope holds no type. -/
theorem nest (h : context.Grounded) (parent : ScopeId) :
    Grounded { context with scopes := (context.scopes.nest parent).2 } where
  built := h.built
  declarable {scope held name type} hs he := by
    rw [ScopeTree.scope?_nest] at hs
    split at hs
    · cases hs
      cases he
    · exact h.declarable hs he

/-- Types stay declarable if a declarable one or none is entered. -/
theorem enter (h : context.Grounded) {name : Name} {entry : Entry} {scopes : ScopeTree}
    (he : context.scopes.enter? scope name entry = some scopes)
    (ht : ∀ type, entry = .type type → context.types.Declarable type) : Grounded { context with scopes } where
  built := h.built
  declarable {other found key type} ho hk := by
    by_cases hne : other = scope
    · cases hs : context.scopes.scope? scope with
      | none =>
        obtain ⟨-, rfl⟩ := ScopeTree.enter?_eq_some he
        rw [hne, ScopeTree.scope?_adjustEntries, if_pos rfl, hs] at ho
        cases ho
      | some held =>
        rw [hne, (ScopeTree.scope?_of_enter? he hs).2] at ho
        cases ho
        rw [Keyed.at?_append, Keyed.at?_cons, Keyed.at?_nil] at hk
        rcases Option.or_eq_some_iff.mp hk with hk | ⟨_, hk⟩
        · exact h.declarable hs hk
        · split at hk
          · exact ht type (Option.some.inj hk)
          · cases hk
    · rw [ScopeTree.scope?_of_enter?_of_ne he hne] at ho
      exact h.declarable ho hk

end Context.Grounded

theorem Declared.grounded (h : Declared context sigs) : context.Grounded := ⟨h.built, h.declarable⟩

theorem predeclared_names_nodup : (predeclared.map (·.1)).Nodup := by decide

private theorem predeclared_cases {name : Name} {entry : Entry} (h : predeclared.at? name = some entry) :
    entry = .type TypeId.int ∨ ∃ p ∈ library, p.name = name ∧ entry = .proc p.entry := by
  have hm := Keyed.mem_of_at? h
  rcases List.mem_cons.mp hm with hm | hm
  · cases hm
    exact .inl rfl
  · obtain ⟨p, hp, he⟩ := List.mem_map.mp hm
    cases he
    exact .inr ⟨p, hp, rfl, rfl⟩

private theorem predeclared_proc (name : Name) (entry : ProcedureEntry) :
    predeclared.at? name = some (.proc entry) ↔ GlobalProcedure [] Signature.entry name entry := by
  constructor
  · intro h
    rcases predeclared_cases h with h | ⟨p, hp, hn, he⟩
    · cases h
    · cases he
      exact .inl ⟨p, hp, hn, rfl⟩
  · rintro (⟨p, hp, rfl, rfl⟩ | ⟨_, h, _⟩)
    · exact Keyed.at?_of_mem predeclared_names_nodup
        (List.mem_cons_of_mem _ (List.mem_map.mpr ⟨p, hp, rfl⟩))
    · cases h

theorem declared_initial : Declared .initial [] where
  built := .primitives
  declarable {scope held name type} hs he := by
    have hs : Numbered.at? [⟨none, predeclared⟩] scope = some held := hs
    unfold Numbered.at? at hs
    split at hs
    · cases hs
      rcases predeclared_cases he with h | ⟨_, _, _, h⟩
      · cases h
        exact TypeTable.Built.primitives.declarable_int
      · cases h
    · cases hs
  globals := by
    refine ⟨predeclared, rfl, fun name v h => ?_, predeclared_proc⟩
    rcases predeclared_cases h with h | ⟨_, _, _, h⟩ <;> cases h
  scopes _ h := by cases h
  fits _ h := by cases h
  distinct := List.nodup_nil
  names := List.nodup_nil

/-- Opening a scope leaves the declarations as they are. -/
theorem Declared.open (h : Declared context sigs) :
    Opened { context with scopes := (context.scopes.nest 0).2 } sigs context.scopes.count [] := by
  have keep : ∀ {scope held}, context.scopes.scope? scope = some held →
      (context.scopes.nest 0).2.scope? scope = some held := by
    intro scope held hs
    rw [ScopeTree.scope?_nest, if_neg (Nat.ne_of_lt (ScopeTree.lt_count_of_scope? hs)), hs]
  obtain ⟨entries, hg, hv, hp⟩ := h.globals
  refine ⟨⟨h.built, (h.grounded.nest 0).declarable, ⟨entries, keep hg, hv, hp⟩, ?_, h.fits, h.distinct, h.names⟩,
    Nat.zero_lt_of_lt (ScopeTree.lt_count_of_scope? hg), ?_, ?_, List.nodup_nil⟩
  · intro sig hsig
    exact ⟨(h.scopes sig hsig).1, keep (h.scopes sig hsig).2⟩
  · intro hm
    obtain ⟨sig, hsig, he⟩ := List.mem_map.mp hm
    exact Nat.ne_of_lt (ScopeTree.lt_count_of_scope? (h.scopes sig hsig).2) he
  · rw [ScopeTree.scope?_nest, if_pos rfl]

/-- No variable is added with an entry of another kind. -/
private theorem at?_concat_ne_var {entries : Keyed Name Entry} (h : ∀ name v, entries.at? name ≠ some (.var v))
    {name : Name} {entry : Entry} (he : ∀ v, entry ≠ .var v) (key : Name) (v : VariableEntry) :
    Keyed.at? (entries ++ [(name, entry)]) key ≠ some (.var v) := by
  intro hk
  rw [Keyed.at?_append, Keyed.at?_cons, Keyed.at?_nil] at hk
  rcases Option.or_eq_some_iff.mp hk with hk | ⟨_, hk⟩
  · exact h key v hk
  · split at hk
    · exact he v (Option.some.inj hk)
    · cases hk

/-- Entering a variable into the open scope adds it behind the others. -/
theorem Opened.enter (h : Opened context sigs scope own) {name : Name} {v : VariableEntry}
    {scopes : ScopeTree} (he : context.scopes.enter? scope name (.var v) = some scopes) :
    Opened { context with scopes } sigs scope (own ++ [(name, .var v)]) := by
  obtain ⟨hn, hs⟩ := ScopeTree.scope?_of_enter? he h.held
  have keep : ∀ {other}, other ≠ scope → scopes.scope? other = context.scopes.scope? other :=
    fun hne => ScopeTree.scope?_of_enter?_of_ne he hne
  obtain ⟨entries, hg, hv, hp⟩ := h.declared.globals
  have hg' : scopes.scope? 0 = some ⟨none, entries⟩ := (keep (Nat.ne_of_lt h.pos)).trans hg
  refine ⟨⟨h.declared.built, (h.declared.grounded.enter he (by simp)).declarable, ⟨entries, hg', hv, hp⟩, ?_,
    h.declared.fits, h.declared.distinct, h.declared.names⟩, h.pos, h.fresh, hs, ?_⟩
  · intro sig hsig
    have hne : sig.scope ≠ scope := fun he => h.fresh (List.mem_map.mpr ⟨sig, hsig, he⟩)
    exact ⟨(h.declared.scopes sig hsig).1, (keep hne).trans (h.declared.scopes sig hsig).2⟩
  · exact Keyed.nodup_map_concat h.distinct ((Keyed.at?_eq_none_iff _ _).mp hn)

/-- Entering a declarable type into the global scope. -/
theorem Declared.enterType (h : Declared context sigs) {name : Name} {type : TypeId}
    {scopes : ScopeTree} (ht : context.types.Declarable type)
    (he : context.scopes.enter? 0 name (.type type) = some scopes) :
    Declared { context with scopes } sigs := by
  obtain ⟨entries, hg, hv, hp⟩ := h.globals
  obtain ⟨hn, hs⟩ := ScopeTree.scope?_of_enter? he hg
  have keep : ∀ {other}, other ≠ 0 → scopes.scope? other = context.scopes.scope? other :=
    fun hne => ScopeTree.scope?_of_enter?_of_ne he hne
  have hdeclarable := h.grounded.enter he fun _ hentry => Entry.type.inj hentry ▸ ht
  refine ⟨h.built, hdeclarable.declarable, ⟨_, hs, ?_, ?_⟩, ?_, h.fits, h.distinct, h.names⟩
  · exact at?_concat_ne_var hv (by simp)
  · intro key entry
    rw [← hp, Keyed.at?_append, Keyed.at?_cons, Option.or_eq_some_iff]
    constructor
    · rintro (hk | ⟨_, hk⟩)
      · exact hk
      · split at hk <;> cases hk
    · exact .inl
  · intro sig hsig
    have hpos := (h.scopes sig hsig).1
    exact ⟨hpos, (keep (Nat.ne_of_gt hpos)).trans (h.scopes sig hsig).2⟩

/-- Entering a procedure whose scope is filled ends its declaration. -/
theorem Opened.close {sig : Signature} (h : Opened context sigs sig.scope sig.own)
    {scopes : ScopeTree} (hf : sig.Fits context.types)
    (he : context.scopes.enter? 0 sig.procedure.name (.proc sig.entry) = some scopes) :
    Declared { context with scopes } (sigs ++ [sig]) := by
  obtain ⟨entries, hg, hv, hp⟩ := h.declared.globals
  obtain ⟨hn, hs⟩ := ScopeTree.scope?_of_enter? he hg
  have keep : ∀ {other}, other ≠ 0 → scopes.scope? other = context.scopes.scope? other :=
    fun hne => ScopeTree.scope?_of_enter?_of_ne he hne
  have hnew : ∀ entry, ¬ GlobalProcedure sigs Signature.entry sig.procedure.name entry := by
    intro entry hm
    rw [← hp, hn] at hm
    cases hm
  refine ⟨h.declared.built, (h.declared.grounded.enter he (by simp)).declarable, ⟨_, hs, ?_, ?_⟩, ?_, ?_, ?_, ?_⟩
  · exact at?_concat_ne_var hv (by simp)
  · intro key entry
    rw [Keyed.at?_append, Keyed.at?_cons, Keyed.at?_nil, Option.or_eq_some_iff, hp]
    constructor
    · rintro (hk | ⟨_, hk⟩)
      · rcases hk with hk | ⟨other, ho, hk⟩
        · exact .inl hk
        · exact .inr ⟨other, List.mem_append_left _ ho, hk⟩
      · split at hk <;> cases hk
        next hkey => exact .inr ⟨sig, by simp, hkey, rfl⟩
    · rintro (hk | ⟨other, ho, hk, rfl⟩)
      · exact .inl (.inl hk)
      · rcases List.mem_append.mp ho with ho | ho
        · exact .inl (.inr ⟨other, ho, hk, rfl⟩)
        · cases List.mem_singleton.mp ho
          rw [if_pos hk, ← hk]
          exact .inr ⟨hn, rfl⟩
  · intro other ho
    have hold : 0 < other.scope ∧
        context.scopes.scope? other.scope = some ⟨some 0, other.own⟩ := by
      rcases List.mem_append.mp ho with ho | ho
      · exact h.declared.scopes other ho
      · cases List.mem_singleton.mp ho
        exact ⟨h.pos, h.held⟩
    exact ⟨hold.1, (keep (Nat.ne_of_gt hold.1)).trans hold.2⟩
  · intro other ho
    rcases List.mem_append.mp ho with ho | ho
    · exact h.declared.fits other ho
    · cases List.mem_singleton.mp ho
      exact hf
  · exact Keyed.nodup_map_concat h.declared.distinct h.fresh
  · refine Keyed.nodup_map_concat h.declared.names fun hm => ?_
    obtain ⟨other, ho, hname⟩ := List.mem_map.mp hm
    exact hnew other.entry (.inr ⟨other, ho, hname, rfl⟩)

end

/-- Resolving types adds to the table of types and leaves the scopes. -/
structure Grown (old new : Context) : Prop where
  built : new.types.Built
  extends_types : old.types.Extends new.types
  scopes : new.scopes = old.scopes

theorem Grown.trans {old middle new : Context} (h : Grown old middle) (h' : Grown middle new) : Grown old new where
  built := h'.built
  extends_types := h.extends_types.trans h'.extends_types
  scopes := h'.scopes.trans h.scopes

/-- Findings do not matter. -/
theorem Grown.of_eq {old new : Context} (hb : old.types.Built) (ht : new.types = old.types)
    (hs : new.scopes = old.scopes) : Grown old new := ⟨ht ▸ hb, ht ▸ .refl _, hs⟩

theorem Grown.grounded {old new : Context} (hg : Grown old new) (h : old.Grounded) : new.Grounded where
  built := hg.built
  declarable hs he := (h.declarable (hg.scopes ▸ hs) he).mono hg.extends_types

private theorem Declared.grow {old new : Context} {sigs : List Signature} (h : Declared old sigs)
    (hg : Grown old new) : Declared new sigs := h.mono hg.built hg.extends_types hg.scopes

section
variable {sigs : List Signature} {start finish : Progress} {scope : ScopeId}

private theorem run_rememberTypeExpr {node : NodeId} {type : TypeId} {u : Unit}
    (h : (rememberTypeExpr node type).run start = .ok u finish) :
    finish.context.types = start.context.types ∧ finish.context.scopes = start.context.scopes := by
  cases h
  exact ⟨rfl, rfl⟩

theorem run_reportEmpty {position : Position} {length : UInt32} {u : Unit}
    (h : (reportEmpty position length).run start = .ok u finish) :
    finish.context = start.context := by
  unfold reportEmpty at h
  split at h <;> cases h <;> rfl

theorem run_addArray {position : Position} {element type : TypeId} {length : UInt32}
    (h : (addArray position element length).run start = .ok type finish) :
    start.context.types.addArray? element length = some (type, finish.context.types) ∧
      finish.context.scopes = start.context.scopes ∧ finish.context.findings = start.context.findings := by
  unfold addArray at h
  rw [run_context_bind] at h
  obtain ⟨⟨t, types⟩, middle, he, h⟩ := run_bind_eq_ok.mp h
  obtain ⟨he, rfl⟩ := run_expect_eq_ok.mp he
  cases h
  exact ⟨he, rfl, rfl⟩

/-- An array type is resolved by entering an array of the type that its base means. -/
theorem TypeExpr.run_resolve_array {node : Node} {length : UInt32} {base : TypeExpr} {type : TypeId}
    (h : ((TypeExpr.array node length base).resolve scope).run start = .ok type finish) :
    ∃ element based, (base.resolve scope).run start = .ok element based ∧
      based.context.types.addArray? element length = some (type, finish.context.types) ∧
      finish.context.scopes = based.context.scopes := by
  rw [resolve] at h
  obtain ⟨element, based, hb, h⟩ := run_bind_eq_ok.mp h
  obtain ⟨_, reported, he, h⟩ := run_bind_eq_ok.mp h
  obtain ⟨added, grown, ha, h⟩ := run_bind_eq_ok.mp h
  obtain ⟨_, middle, hm, h⟩ := run_bind_eq_ok.mp h
  obtain ⟨ha, hscopes, -⟩ := run_addArray ha
  obtain ⟨ht, hs⟩ := run_rememberTypeExpr hm
  cases h
  rw [run_reportEmpty he] at ha hscopes
  rw [ht, hs]
  exact ⟨element, based, hb, ha, hscopes⟩

theorem TypeDeclaration.run_declare {declaration : TypeDeclaration} {u : Unit}
    (h : declaration.declare.run start = .ok u finish) :
    ∃ type resolved scopes, (declaration.type.resolve ScopeTree.globalScope).run start = .ok type resolved ∧
      resolved.context.scopes.enter? ScopeTree.globalScope declaration.name (.type type) = some scopes ∧
      finish.context = { resolved.context with scopes } := by
  obtain ⟨type, resolved, ht, h⟩ := run_bind_eq_ok.mp h
  obtain ⟨_, entered, he, h⟩ := run_bind_eq_ok.mp h
  obtain ⟨scopes, hent, rfl⟩ := run_enter_eq_ok.mp he
  cases h
  exact ⟨type, resolved, scopes, ht, hent, rfl⟩

/-- The type of a parameter is seen from the global scope, the parameter itself goes into its own. -/
theorem Parameter.run_declare {parameter : Parameter} {procedure : Name} {slot : Slot}
    (h : (parameter.declare procedure scope).run start = .ok slot finish) :
    ∃ type resolved scopes, (parameter.type.resolve ScopeTree.globalScope).run start = .ok type resolved ∧
      (resolved.context.types.isArray type → parameter.byReference) ∧
      resolved.context.scopes.enter? scope parameter.name (.var ⟨type, parameter.byReference, none⟩) = some scopes ∧
      slot = ⟨type, parameter.byReference, none⟩ ∧ finish.context = { resolved.context with scopes } := by
  obtain ⟨type, resolved, ht, h⟩ := run_bind_eq_ok.mp h
  rw [run_context_bind] at h
  obtain ⟨_, _, hq, h⟩ := run_bind_eq_ok.mp h
  obtain ⟨_, entered, he, h⟩ := run_bind_eq_ok.mp h
  obtain ⟨hq, rfl⟩ := run_require_eq_ok.mp hq
  obtain ⟨scopes, hent, rfl⟩ := run_enter_eq_ok.mp he
  cases h
  exact ⟨type, _, scopes, ht, hq, hent, rfl, rfl⟩

theorem LocalVariable.run_declare {declaration : LocalVariable} {procedure : Name} {u : Unit}
    (h : (declaration.declare procedure scope).run start = .ok u finish) :
    ∃ type resolved scopes, (declaration.type.resolve scope).run start = .ok type resolved ∧
      resolved.context.scopes.enter? scope declaration.name (.var ⟨type, false, none⟩) = some scopes ∧
      finish.context = { resolved.context with scopes } := by
  obtain ⟨type, resolved, ht, h⟩ := run_bind_eq_ok.mp h
  obtain ⟨_, entered, he, h⟩ := run_bind_eq_ok.mp h
  obtain ⟨scopes, hent, rfl⟩ := run_enter_eq_ok.mp he
  cases h
  exact ⟨type, resolved, scopes, ht, hent, rfl⟩

/-- A type expression means a declarable type of the table it leaves. -/
theorem TypeExpr.resolve_ok (expr : TypeExpr) {type : TypeId} {start finish : Progress}
    (h : start.context.Grounded) (hr : (expr.resolve scope).run start = .ok type finish) :
    Grown start.context finish.context ∧ finish.context.types.Declarable type := by
  induction expr generalizing type finish with
  | named node name =>
    rw [resolve, run_context_bind] at hr
    split at hr
    · next t hs =>
      obtain ⟨_, middle, hm, hr⟩ := run_bind_eq_ok.mp hr
      obtain ⟨ht, hsc⟩ := run_rememberTypeExpr hm
      cases hr
      exact ⟨.of_eq h.built ht hsc, ht ▸ h.declarable_of_seen hs⟩
    · cases hr
    · cases hr
  | array node length base ih =>
    obtain ⟨element, based, hb, ha, hscopes⟩ := run_resolve_array hr
    obtain ⟨hg, hd⟩ := ih hb
    refine ⟨hg.trans ⟨.add hg.built hd ha, TypeTable.extends_of_addArray? ha, hscopes⟩, ?_⟩
    obtain ⟨rfl, hn, _⟩ := TypeTable.addArray?_eq_some ha
    refine ⟨?_, Nat.ne_of_gt (Nat.lt_of_lt_of_le (by decide) hg.built.two_le_count)⟩
    rw [hn]
    exact Nat.lt_succ_self _

private theorem TypeDeclaration.declare_ok {declaration : TypeDeclaration} {u : Unit}
    (h : Declared start.context sigs) (hr : declaration.declare.run start = .ok u finish) :
    Declared finish.context sigs := by
  obtain ⟨type, resolved, scopes, ht, hent, hfinish⟩ := run_declare hr
  obtain ⟨hg, hd⟩ := declaration.type.resolve_ok h.grounded ht
  rw [hfinish]
  exact (h.grow hg).enterType hd hent

/-- A parameter goes behind what its scope holds; an array is passed by reference. -/
theorem Parameter.declare_ok {parameter : Parameter} {name : Name} {slot : Slot}
    {own : Keyed Name Entry} (h : Opened start.context sigs scope own)
    (hr : (parameter.declare name scope).run start = .ok slot finish) :
    ∃ type, slot = ⟨type, parameter.byReference, none⟩ ∧
      start.context.types.Extends finish.context.types ∧
      finish.context.types.Declarable type ∧
      (parameter.byReference = false → type = TypeId.int) ∧
      Opened finish.context sigs scope (own ++ [Signature.parameterEntry (parameter, type)]) := by
  obtain ⟨type, resolved, scopes, ht, hq, hent, rfl, hfinish⟩ := run_declare hr
  obtain ⟨hg, hd⟩ := parameter.type.resolve_ok h.declared.grounded ht
  rw [hfinish]
  refine ⟨type, rfl, hg.extends_types, hd, hg.built.eq_int_of_byValue hd hq, ?_⟩
  exact (h.mono hg.built hg.extends_types hg.scopes).enter hent

/-- A local goes behind what its scope holds. -/
theorem LocalVariable.declare_ok {declaration : LocalVariable} {name : Name} {u : Unit}
    {own : Keyed Name Entry} (h : Opened start.context sigs scope own)
    (hr : (declaration.declare name scope).run start = .ok u finish) :
    ∃ type, start.context.types.Extends finish.context.types ∧
      finish.context.types.Declarable type ∧
      Opened finish.context sigs scope (own ++ [Signature.localEntry (declaration, type)]) := by
  obtain ⟨type, resolved, scopes, ht, hent, hfinish⟩ := run_declare hr
  obtain ⟨hg, hd⟩ := declaration.type.resolve_ok h.declared.grounded ht
  rw [hfinish]
  exact ⟨type, hg.extends_types, hd, (h.mono hg.built hg.extends_types hg.scopes).enter hent⟩

/-- Things are declared one after the other. Each gets a type that fits it, and with the type it goes behind what is
held so far. -/
theorem Phase.run_mapM_typed {γ δ : Type} {f : γ → Phase δ} (answer : γ × TypeId → δ)
    (entry : γ × TypeId → Name × Entry) (fits : TypeTable → γ × TypeId → Prop)
    (holds : Context → Keyed Name Entry → Prop)
    (hfits : ∀ {types next p}, types.Extends next → fits types p → fits next p)
    (hstep : ∀ {x start own result finish}, holds start.context own → (f x).run start = .ok result finish →
      ∃ type, result = answer (x, type) ∧ start.context.types.Extends finish.context.types ∧
        fits finish.context.types (x, type) ∧ holds finish.context (own ++ [entry (x, type)]))
    (xs : List γ) {results : List δ} {start finish : Progress} {own : Keyed Name Entry}
    (h : holds start.context own) (hr : (xs.mapM f).run start = .ok results finish) :
    ∃ typed : List (γ × TypeId), typed.map (·.1) = xs ∧ results = typed.map answer ∧
      start.context.types.Extends finish.context.types ∧ (∀ p ∈ typed, fits finish.context.types p) ∧
      holds finish.context (own ++ typed.map entry) := by
  induction xs generalizing results start own with
  | nil =>
    cases hr
    exact ⟨[], rfl, rfl, .refl _, nofun, by simpa using h⟩
  | cons x rest ih =>
    rw [List.mapM_cons] at hr
    obtain ⟨result, middle, hx, hr⟩ := run_bind_eq_ok.mp hr
    obtain ⟨others, last, hrest, hr⟩ := run_bind_eq_ok.mp hr
    cases hr
    obtain ⟨type, rfl, hgrow, hfit, hheld⟩ := hstep h hx
    obtain ⟨typed, rfl, rfl, hgrow', htyped, hheld'⟩ := ih hheld hrest
    refine ⟨(x, type) :: typed, rfl, rfl, hgrow.trans hgrow', ?_, by simpa using hheld'⟩
    exact List.forall_mem_cons.mpr ⟨hfits hgrow' hfit, htyped⟩

private theorem declareParameters_ok {name : Name} (parameters : List Parameter) {slots : List Slot}
    {own : Keyed Name Entry} (h : Opened start.context sigs scope own)
    (hr : (parameters.mapM (Parameter.declare name scope)).run start = .ok slots finish) :
    ∃ typed : List (Parameter × TypeId), typed.map (·.1) = parameters ∧
      slots = typed.map (fun p => ⟨p.2, p.1.byReference, none⟩) ∧
      start.context.types.Extends finish.context.types ∧
      (∀ p ∈ typed, finish.context.types.Declarable p.2 ∧
        (p.1.byReference = false → p.2 = TypeId.int)) ∧
      Opened finish.context sigs scope (own ++ typed.map Signature.parameterEntry) := by
  refine run_mapM_typed (fun p => ⟨p.2, p.1.byReference, none⟩) Signature.parameterEntry
    (fun types p => types.Declarable p.2 ∧ (p.1.byReference = false → p.2 = TypeId.int))
    (fun context => Opened context sigs scope) (fun hx hd => ⟨hd.1.mono hx, hd.2⟩) (fun h hp => ?_) parameters h hr
  obtain ⟨type, hslot, hx, hd, hv, ho⟩ := Parameter.declare_ok h hp
  exact ⟨type, hslot, hx, ⟨hd, hv⟩, ho⟩

private theorem declareLocals_ok {name : Name} (locals : List LocalVariable) {u : Unit}
    {own : Keyed Name Entry} (h : Opened start.context sigs scope own)
    (hr : (locals.forM (·.declare name scope)).run start = .ok u finish) :
    ∃ typed : List (LocalVariable × TypeId), typed.map (·.1) = locals ∧
      start.context.types.Extends finish.context.types ∧
      (∀ l ∈ typed, finish.context.types.Declarable l.2) ∧
      Opened finish.context sigs scope (own ++ typed.map Signature.localEntry) := by
  obtain ⟨_, hr⟩ := exists_run_mapM_of_forM hr
  obtain ⟨typed, ht, -, hx, hd, ho⟩ := run_mapM_typed (fun _ => ()) Signature.localEntry
    (fun types l => types.Declarable l.2) (fun context => Opened context sigs scope) (fun hx hd => hd.mono hx)
    (fun h hl => (LocalVariable.declare_ok h hl).imp fun _ hl => ⟨rfl, hl⟩) locals h hr
  exact ⟨typed, ht, hx, hd, ho⟩

private theorem Procedure.declare_ok {procedure : Procedure} {u : Unit} (h : Declared start.context sigs)
    (hr : procedure.declare.run start = .ok u finish) :
    ∃ sig : Signature, sig.procedure = procedure ∧ Declared finish.context (sigs ++ [sig]) := by
  unfold declare openScope at hr
  obtain ⟨scope, opened, ho, hr⟩ := run_bind_eq_ok.mp hr
  cases ho
  obtain ⟨slots, filled, hp, hr⟩ := run_bind_eq_ok.mp hr
  obtain ⟨_, full, hl, hr⟩ := run_bind_eq_ok.mp hr
  obtain ⟨scopes, he, rfl⟩ := run_enter_eq_ok.mp hr
  obtain ⟨parameters, hpe, rfl, hx, hpt, hpo⟩ := declareParameters_ok _ h.open hp
  obtain ⟨locals, hle, hx', hlt, hlo⟩ := declareLocals_ok _ hpo hl
  let sig : Signature := ⟨procedure, start.context.scopes.count, parameters, locals⟩
  have hf : sig.Fits full.context.types := {
    parameters_eq := hpe
    locals_eq := hle
    parameters := fun p hp => ⟨(hpt p hp).1.mono hx', (hpt p hp).2⟩
    locals := hlt
    distinct := hlo.distinct }
  have hfull : Opened full.context sigs sig.scope sig.own := hlo
  exact ⟨sig, rfl, hfull.close hf he⟩

private theorem declareAll_ok (position : Position) (declarations : List Declaration) {u : Unit}
    {start finish : Progress} {sigs : List Signature} (h : Declared start.context sigs)
    (hr : (declarations.forM (·.declare)).run start = .ok u finish) :
    ∃ added : List Signature,
      added.map (·.procedure) = (Program.mk position declarations).procedures ∧
      Declared finish.context (sigs ++ added) := by
  induction declarations generalizing start sigs with
  | nil =>
    cases hr
    exact ⟨[], rfl, by simpa using h⟩
  | cons declaration rest ih =>
    obtain ⟨_, middle, hd, hrest⟩ := run_bind_eq_ok.mp hr
    cases declaration with
    | type declaration => exact ih (TypeDeclaration.declare_ok h hd) hrest
    | procedure procedure =>
      obtain ⟨sig, rfl, hs⟩ := Procedure.declare_ok h hd
      obtain ⟨added, ha, hf⟩ := ih hs hrest
      refine ⟨sig :: added, ?_, by simpa using hf⟩
      simpa [Program.procedures] using ha

/-- Counting the declarations and reporting them cannot fail. -/
theorem Program.run_declare_eq_error {program : Program} {start finish : Progress} {d : Diagnostic} :
    program.declare.run start = .error d finish ↔
      (program.declarations.forM (·.declare)).run start = .error d finish := by
  refine ⟨fun hr => ?_, fun hr => run_bind_eq_error.mpr (.inl hr)⟩
  rcases run_bind_eq_error.mp hr with hr | ⟨_, _, _, hr⟩
  · exact hr
  · cases hr

theorem Program.run_declare_of_ok {declarations : List Declaration} {start entered : Progress} (position : Position)
    (hr : (declarations.forM (·.declare)).run start = .ok () entered) :
    ∃ count finish, (Program.mk position declarations).declare.run start = .ok count finish ∧
      finish.context = entered.context :=
  ⟨_, _, run_bind_eq_ok.mpr ⟨(), entered, hr, rfl⟩, rfl⟩

/-- After the declarations of a program every procedure has its signature, in their order. -/
theorem Program.declare_ok {program : Program} {count : DeclarationCount} {finish : Progress}
    (hr : program.declare.run .initial = .ok count finish) :
    ∃ sigs : List Signature, sigs.map (·.procedure) = program.procedures ∧
      Declared finish.context sigs := by
  unfold declare at hr
  obtain ⟨_, middle, hd, hr⟩ := run_bind_eq_ok.mp hr
  rw [run_context_bind] at hr
  cases hr
  exact declareAll_ok program.position program.declarations declared_initial hd

end
end SplLang

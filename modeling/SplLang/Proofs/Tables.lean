import Mathlib.Data.List.Induction
import Mathlib.Data.List.Nodup
import SplLang.Proofs.Legal
import SplLang.Proofs.Resolving

/-! Entering declarations succeeds exactly if they are legal, and it leaves their tables: a global scope and,
in it, one scope for each procedure. -/
namespace SplLang
open Phase

namespace ScopeTree
variable {globals own : Keyed Name Entry} {bodies : List (Keyed Name Entry)}

/-- A global scope and the scopes that lie in it, in the order in which they were opened. -/
def nested (globals : Keyed Name Entry) (bodies : List (Keyed Name Entry)) : ScopeTree :=
  ⟨(bodies.map fun own => ⟨some globalScope, own⟩).reverse ++ [⟨none, globals⟩]⟩

private theorem nested_concat : nested globals (bodies ++ [own]) =
    ⟨⟨some globalScope, own⟩ :: (nested globals bodies).newestFirst⟩ := by
  simp [nested]

@[simp]
theorem count_nested (globals : Keyed Name Entry) (bodies : List (Keyed Name Entry)) :
    (nested globals bodies).count = bodies.length + 1 := by
  simp [nested, count]

private theorem nest_nested (globals : Keyed Name Entry) (bodies : List (Keyed Name Entry)) :
    (nested globals bodies).nest globalScope = (bodies.length + 1, nested globals (bodies ++ [[]])) := by
  rw [nested_concat, nest, count_nested]

theorem scope?_nested_global : (nested globals bodies).scope? globalScope = some ⟨none, globals⟩ :=
  Numbered.at?_append _ (Numbered.at?_cons_self (⟨none, globals⟩ : Scope) [])

private theorem scope?_nested_newest :
    (nested globals (bodies ++ [own])).scope? (bodies.length + 1) = some ⟨some globalScope, own⟩ := by
  rw [nested_concat, ← count_nested globals bodies]
  exact Numbered.at?_cons_self _ _

/-- Scopes are numbered as they were opened. -/
theorem scope?_nested {i : Nat} (h : bodies[i]? = some own) :
    (nested globals bodies).scope? (i + 1) = some ⟨some globalScope, own⟩ := by
  induction bodies using List.reverseRecOn with
  | nil => cases h
  | append_singleton bodies last ih =>
    by_cases hi : i = bodies.length
    · rw [hi, List.getElem?_concat_length] at h
      cases h
      rw [hi, scope?_nested_newest]
    · have hlt : i < bodies.length := by
        have := (List.getElem?_eq_some_iff.mp h).1
        rw [List.length_append, List.length_singleton] at this
        omega
      rw [List.getElem?_append_left hlt] at h
      rw [nested_concat]
      exact Numbered.at?_append [_] (ih h)

private theorem seen?_nested_global (name : Name) :
    (nested globals bodies).seen? globalScope name = globals.at? name := by
  rw [seen?_of_no_parent (by rw [count_nested]; exact Nat.succ_pos _) (parent?_of_scope? scope?_nested_global),
    held?_of_scope? scope?_nested_global]

private theorem seen?_nested_newest (name : Name) :
    (nested globals (bodies ++ [own])).seen? (bodies.length + 1) name = (own.at? name).or (globals.at? name) := by
  have hglobal : (nested globals (bodies ++ [own])).parent? 0 = none := parent?_of_scope? scope?_nested_global
  rw [seen?_of_nested hglobal (parent?_of_scope? scope?_nested_newest) (Nat.succ_pos _),
    held?_of_scope? scope?_nested_newest]
  exact congrArg _ (held?_of_scope? scope?_nested_global name)

private theorem adjustEntries_nested_newest (f : Keyed Name Entry → Keyed Name Entry) :
    (nested globals (bodies ++ [own])).adjustEntries (bodies.length + 1) f = nested globals (bodies ++ [f own]) := by
  rw [nested_concat, nested_concat, ← count_nested globals bodies]
  simp [adjustEntries, Numbered.adjust, count]

private theorem adjustEntries_nested_global (f : Keyed Name Entry → Keyed Name Entry) :
    (nested globals bodies).adjustEntries globalScope f = nested (f globals) bodies := by
  induction bodies using List.reverseRecOn with
  | nil => rfl
  | append_singleton bodies last ih =>
    have hne : globalScope ≠ (nested globals bodies).newestFirst.length := by
      have := count_nested globals bodies
      rw [count] at this
      rw [this]
      exact (Nat.succ_ne_zero _).symm
    rw [nested_concat, nested_concat, ← ih]
    simp [adjustEntries, Numbered.adjust, hne]

end ScopeTree

/-- The scopes hold the given entries, and the types among the global ones are known. -/
structure Entered (context : Context) (known : Name → Option Spelled) (globals : Keyed Name Entry)
    (bodies : List (Keyed Name Entry)) : Prop where
  built : context.types.Built
  scopes : context.scopes = .nested globals bodies
  knows : context.types.Knows globals.at? known

section
variable {known : Name → Option Spelled} {globals own : Keyed Name Entry} {bodies : List (Keyed Name Entry)}
  {start : Progress}

theorem Entered.grow {old new : Context} (h : Entered old known globals bodies) (hg : Grown old new) :
    Entered new known globals bodies where
  built := hg.built
  scopes := hg.scopes.trans h.scopes
  knows := h.knows.mono hg.extends_types

theorem Entered.seen_global {context : Context} (h : Entered context known globals bodies) :
    context.scopes.seen? ScopeTree.globalScope = globals.at? := by
  funext name
  rw [h.scopes, ScopeTree.seen?_nested_global]

theorem Entered.seen_newest {context : Context} (h : Entered context known globals (bodies ++ [own])) :
    context.scopes.seen? (bodies.length + 1) = fun name => (own.at? name).or (globals.at? name) := by
  funext name
  rw [h.scopes, ScopeTree.seen?_nested_newest]

theorem Entered.held_newest {context : Context} (h : Entered context known globals (bodies ++ [own])) (name : Name) :
    context.scopes.held? (bodies.length + 1) name = none ↔ name ∉ own.map (·.1) := by
  rw [h.scopes, ScopeTree.held?_of_scope? ScopeTree.scope?_nested_newest, Keyed.at?_eq_none_iff]

theorem Entered.held_global {context : Context} (h : Entered context known globals bodies) (name : Name) :
    context.scopes.held? ScopeTree.globalScope name = none ↔ name ∉ globals.map (·.1) := by
  rw [h.scopes, ScopeTree.held?_of_scope? ScopeTree.scope?_nested_global, Keyed.at?_eq_none_iff]

/-- The scope opened last takes a name that it does not hold. -/
theorem Entered.enter_newest (h : Entered start.context known globals (bodies ++ [own])) (name : Name) (entry : Entry)
    (position : Position) (taken : Cause) :
    Exact (enter (bodies.length + 1) name entry position taken) start (name ∉ own.map (·.1)) fun _ finish =>
      finish.context.types = start.context.types ∧ finish.context.findings = start.context.findings ∧
        Entered finish.context known globals (bodies ++ [own ++ [(name, entry)]]) := by
  refine ((Exact.enter _ name entry position taken).congr (h.held_newest name)).imp fun _ finish hn hf => ?_
  rw [hf]
  refine ⟨rfl, rfl, h.built, ?_, h.knows⟩
  rw [← Keyed.put_of_at?_eq_none ((Keyed.at?_eq_none_iff own name).mpr hn), h.scopes]
  exact ScopeTree.adjustEntries_nested_newest (·.put name entry)

private theorem Entered.enter_global (h : Entered start.context known globals bodies) (name : Name) (entry : Entry)
    (position : Position) (taken : Cause) :
    Exact (enter ScopeTree.globalScope name entry position taken) start (name ∉ globals.map (·.1)) fun _ finish =>
      finish.context.types = start.context.types ∧ finish.context.findings = start.context.findings ∧
        finish.context.scopes = .nested (globals ++ [(name, entry)]) bodies := by
  refine ((Exact.enter _ name entry position taken).congr (h.held_global name)).imp fun _ finish hn hf => ?_
  rw [hf]
  refine ⟨rfl, rfl, ?_⟩
  rw [← Keyed.put_of_at?_eq_none ((Keyed.at?_eq_none_iff globals name).mpr hn), h.scopes]
  exact ScopeTree.adjustEntries_nested_global (·.put name entry)

theorem Parameter.declare_exact (h : Entered start.context known globals (bodies ++ [own])) (parameter : Parameter)
    (procedure : Name) :
    Exact (parameter.declare procedure (bodies.length + 1)) start
      (parameter.Legal known ∧ parameter.name ∉ own.map (·.1)) fun slot finish =>
        ∃ type, slot = ⟨type, parameter.byReference, none⟩ ∧
          Resolves start.context finish.context globals.Names [(parameter.typeSite procedure, type)] ∧
          parameter.type.Denotes finish.context.types globals.at? type ∧
          Entered finish.context known globals (bodies ++ [own ++ [Signature.parameterEntry (parameter, type)]]) := by
  cases parameter with
  | mk position name expr byReference =>
  have hlegal : Parameter.Legal known ⟨position, name, expr, byReference⟩ ∧ name ∉ own.map (·.1) ↔
      (∃ spelled, expr.Means known spelled) ∧
        (∀ spelled, expr.Means known spelled → byReference = false → spelled = .int) ∧ name ∉ own.map (·.1) := by
    rw [← and_assoc, ← TypeExpr.exists_means_and_iff]
    rfl
  refine Exact.congr ?_ hlegal.symm
  simp only [declare]
  refine (expr.resolve_exact h.built (h.seen_global ▸ h.knows)).bind fun type resolved _ hresolved => ?_
  obtain ⟨hg, hdenotes, hnumbers, spelled, hm, hspells⟩ := hresolved
  rw [h.seen_global] at hdenotes hnumbers
  have hvalue : (resolved.context.types.isArray type → byReference) ↔
      ∀ spelled, expr.Means known spelled → byReference = false → spelled = .int := by
    rw [hm.forall_iff, ← Bool.not_eq_false, ← Bool.not_eq_false, not_imp_not, hg.built.isArray_of_spells hspells]
  refine Exact.context_bind (((Exact.require _ _ _).congr hvalue).bind fun _ required _ hrequired => ?_)
  rw [hrequired]
  refine ((h.grow hg).enter_newest name _ position _).bind_true fun _ entered _ hentered => ?_
  obtain ⟨htypes, hfindings, hentered⟩ := hentered
  refine (Exact.report _).bind_of_true fun _ finish hfinish => .pure ?_
  rw [hfinish]
  have hresolves := Resolves.single ⟨some procedure, name, expr⟩ hnumbers hg.extends_types
  exact ⟨type, rfl, hresolves.keep htypes hfindings, htypes ▸ hdenotes, hentered⟩

theorem LocalVariable.declare_exact (h : Entered start.context known globals (bodies ++ [own]))
    (hown : ∀ pair ∈ own, ∃ v, pair.2 = Entry.var v) (declaration : LocalVariable) (procedure : Name) :
    Exact (declaration.declare procedure (bodies.length + 1)) start
      ((∃ spelled, declaration.type.Means (hide (own.map (·.1)) known) spelled) ∧ declaration.name ∉ own.map (·.1))
      fun _ finish => ∃ type,
        Resolves start.context finish.context globals.Names [(declaration.typeSite procedure, type)] ∧
        declaration.type.Denotes finish.context.types globals.at? type ∧
        Entered finish.context known globals (bodies ++ [own ++ [Signature.localEntry (declaration, type)]]) := by
  cases declaration with
  | mk position name expr =>
  simp only [declare]
  refine (expr.resolve_exact h.built (h.seen_newest ▸ h.knows.hide hown)).bind fun type resolved _ hresolved => ?_
  obtain ⟨hg, hdenotes, hnumbers, _⟩ := hresolved
  have hseen : ∀ other type', start.context.scopes.seen? (bodies.length + 1) other = some (.type type') →
      globals.at? other = some (.type type') := by
    intro other type' he
    rw [h.seen_newest] at he
    rcases Option.or_eq_some_iff.mp he with he | ⟨_, he⟩
    · obtain ⟨v, hv⟩ := hown _ (Keyed.mem_of_at? he)
      cases hv
    · exact he
  have hglobal := hdenotes.mono (.refl _) hseen
  refine ((h.grow hg).enter_newest name _ position _).bind_true fun _ entered _ hentered => ?_
  obtain ⟨htypes, hfindings, hentered⟩ := hentered
  refine (Exact.report _).imp fun _ finish _ hfinish => ?_
  rw [hfinish]
  have hresolves := Resolves.single ⟨some procedure, name, expr⟩ (hnumbers.mono hseen) hg.extends_types
  exact ⟨type, hresolves.keep htypes hfindings, htypes ▸ hglobal, hentered⟩

private theorem nodup_append_cons {name : Name} {taken names : List Name} :
    (taken ++ name :: names).Nodup ↔ name ∉ taken ∧ ((taken ++ [name]) ++ names).Nodup := by
  rw [List.append_assoc, List.singleton_append]
  refine ⟨fun h => ⟨fun hm => ?_, h⟩, And.right⟩
  exact (List.nodup_append.mp h).2.2 name hm name List.mem_cons_self rfl

private theorem forall_split_cons {α : Type} {P : List α → α → Prop} {y : α} {ys : List α} :
    (∀ before x after, y :: ys = before ++ x :: after → P before x) ↔
      P [] y ∧ ∀ before x after, ys = before ++ x :: after → P (y :: before) x := by
  constructor
  · intro h
    refine ⟨h [] y ys rfl, ?_⟩
    rintro before x after rfl
    exact h (y :: before) x after rfl
  · rintro ⟨hy, h⟩ before x after he
    cases before with
    | nil =>
      cases he
      exact hy
    | cons z before =>
      cases he
      exact h before x after rfl

theorem declareParameters_exact (procedure : Name) (parameters : List Parameter) {start : Progress}
    {own : Keyed Name Entry} (h : Entered start.context known globals (bodies ++ [own]))
    (hn : (own.map (·.1)).Nodup) :
    Exact (parameters.mapM (Parameter.declare procedure (bodies.length + 1))) start
      ((∀ parameter ∈ parameters, parameter.Legal known) ∧ (own.map (·.1) ++ parameters.map (·.name)).Nodup)
      fun slots finish => ∃ typed : List (Parameter × TypeId), typed.map (·.1) = parameters ∧
        slots = typed.map (fun p => ⟨p.2, p.1.byReference, none⟩) ∧
        Resolves start.context finish.context globals.Names (typed.map fun p => (p.1.typeSite procedure, p.2)) ∧
        (∀ p ∈ typed, p.1.type.Denotes finish.context.types globals.at? p.2) ∧
        Entered finish.context known globals (bodies ++ [own ++ typed.map Signature.parameterEntry]) := by
  induction parameters generalizing start own with
  | nil =>
    refine Exact.congr (.pure ?_) (iff_of_true trivial ⟨by simp, by simpa using hn⟩)
    exact ⟨[], rfl, rfl, .of_eq rfl rfl, by simp, by simpa using h⟩
  | cons parameter rest ih =>
    have hcons : (∀ p ∈ parameter :: rest, p.Legal known) ∧
          (own.map (·.1) ++ (parameter :: rest).map (·.name)).Nodup ↔
        (parameter.Legal known ∧ parameter.name ∉ own.map (·.1)) ∧
          (∀ p ∈ rest, p.Legal known) ∧ ((own.map (·.1) ++ [parameter.name]) ++ rest.map (·.name)).Nodup := by
      rw [List.forall_mem_cons, List.map_cons, nodup_append_cons]
      tauto
    refine Exact.congr ?_ hcons.symm
    rw [List.mapM_cons]
    refine (Parameter.declare_exact h parameter procedure).bind fun slot middle hfirst hmiddle => ?_
    obtain ⟨type, rfl, hx, hd, hentered⟩ := hmiddle
    have hown : (own ++ [Signature.parameterEntry (parameter, type)]).map (·.1) =
        own.map (·.1) ++ [parameter.name] := by
      simp [Signature.parameterEntry]
    have hnodup : ((own ++ [Signature.parameterEntry (parameter, type)]).map (·.1)).Nodup :=
      Keyed.nodup_map_concat hn hfirst.2
    have hrest := ih hentered hnodup
    rw [hown] at hrest
    refine hrest.bind_true fun slots finish _ hfinish => .pure ?_
    obtain ⟨typed, rfl, rfl, hx', hds, hentered'⟩ := hfinish
    refine ⟨(parameter, type) :: typed, rfl, rfl, hx.append hx', ?_, by simpa using hentered'⟩
    exact List.forall_mem_cons.mpr ⟨hd.mono hx'.extends_types fun _ _ he => he, hds⟩

theorem declareLocals_exact (procedure : Name) (locals : List LocalVariable) {start : Progress}
    {own : Keyed Name Entry} (h : Entered start.context known globals (bodies ++ [own]))
    (hn : (own.map (·.1)).Nodup) (hvars : ∀ pair ∈ own, ∃ v, pair.2 = Entry.var v) :
    Exact (locals.forM (·.declare procedure (bodies.length + 1))) start
      ((∀ before declaration after, locals = before ++ declaration :: after → ∃ spelled,
          declaration.type.Means (hide (own.map (·.1) ++ before.map (·.name)) known) spelled) ∧
        (own.map (·.1) ++ locals.map (·.name)).Nodup)
      fun _ finish => ∃ typed : List (LocalVariable × TypeId), typed.map (·.1) = locals ∧
        Resolves start.context finish.context globals.Names (typed.map fun l => (l.1.typeSite procedure, l.2)) ∧
        (∀ l ∈ typed, l.1.type.Denotes finish.context.types globals.at? l.2) ∧
        Entered finish.context known globals (bodies ++ [own ++ typed.map Signature.localEntry]) := by
  -- Each local is resolved behind those before it, so what the scope holds grows with the induction.
  induction locals generalizing start own with
  | nil =>
    refine Exact.congr (.pure ?_) (iff_of_true trivial ⟨by simp, by simpa using hn⟩)
    exact ⟨[], rfl, .of_eq rfl rfl, by simp, by simpa using h⟩
  | cons declaration rest ih =>
    rw [forall_split_cons, List.map_cons, nodup_append_cons]
    have hcons : (((∃ spelled, declaration.type.Means (hide (own.map (·.1)) known) spelled) ∧
          declaration.name ∉ own.map (·.1)) ∧
        (∀ before x after, rest = before ++ x :: after → ∃ spelled,
          x.type.Means (hide ((own.map (·.1) ++ [declaration.name]) ++ before.map (·.name)) known) spelled) ∧
        ((own.map (·.1) ++ [declaration.name]) ++ rest.map (·.name)).Nodup) ↔
        ((∃ spelled, declaration.type.Means
            (hide (own.map (·.1) ++ [].map fun l : LocalVariable => l.name) known) spelled) ∧
          ∀ before x after, rest = before ++ x :: after → ∃ spelled,
            x.type.Means (hide (own.map (·.1) ++ (declaration :: before).map (·.name)) known) spelled) ∧
        declaration.name ∉ own.map (·.1) ∧ ((own.map (·.1) ++ [declaration.name]) ++ rest.map (·.name)).Nodup := by
      simp only [List.map_nil, List.append_nil, List.map_cons, List.append_assoc, List.singleton_append]
      tauto
    refine Exact.congr ?_ hcons
    refine (LocalVariable.declare_exact h hvars declaration procedure).bind fun _ middle hfirst hmiddle => ?_
    obtain ⟨type, hx, hd, hentered⟩ := hmiddle
    have hown : (own ++ [Signature.localEntry (declaration, type)]).map (·.1) =
        own.map (·.1) ++ [declaration.name] := by
      simp [Signature.localEntry]
    have hnodup : ((own ++ [Signature.localEntry (declaration, type)]).map (·.1)).Nodup :=
      Keyed.nodup_map_concat hn hfirst.2
    have hvars' : ∀ pair ∈ own ++ [Signature.localEntry (declaration, type)], ∃ v, pair.2 = Entry.var v := by
      rw [List.forall_mem_append]
      exact ⟨hvars, List.forall_mem_singleton.mpr ⟨_, rfl⟩⟩
    have hrest := ih hentered hnodup hvars'
    rw [hown] at hrest
    refine hrest.imp fun _ finish _ hfinish => ?_
    obtain ⟨typed, rfl, hx', hds, hentered'⟩ := hfinish
    refine ⟨(declaration, type) :: typed, rfl, hx.append hx', ?_, by simpa using hentered'⟩
    exact List.forall_mem_cons.mpr ⟨hd.mono hx'.extends_types fun _ _ he => he, hds⟩

theorem Signature.parameterEntry_names {typed : List (Parameter × TypeId)} :
    (typed.map parameterEntry).map (·.1) = (typed.map (·.1)).map (·.name) := by
  rw [List.map_map, List.map_map]
  rfl

theorem Signature.parameterEntry_variables {typed : List (Parameter × TypeId)} :
    ∀ pair ∈ typed.map parameterEntry, ∃ v, pair.2 = Entry.var v := by
  rw [List.forall_mem_map]
  exact fun _ _ => ⟨_, rfl⟩

theorem Entered.openScope_exact (h : Entered start.context known globals bodies) :
    Exact openScope start True fun scope finish => scope = bodies.length + 1 ∧
      finish.context.types = start.context.types ∧ finish.context.findings = start.context.findings ∧
        Entered finish.context known globals (bodies ++ [[]]) where
  succeeds _ := ⟨_, _, rfl⟩
  sound := by
    intro scope finish hr
    cases hr
    have hnest := ScopeTree.nest_nested globals bodies
    rw [← h.scopes] at hnest
    exact ⟨trivial, congrArg Prod.fst hnest, rfl, rfl, h.built, congrArg Prod.snd hnest, h.knows⟩

theorem Procedure.declare_exact (h : Entered start.context known globals bodies) (procedure : Procedure) :
    Exact procedure.declare start (procedure.Legal known ∧ procedure.name ∉ globals.map (·.1)) fun _ finish =>
      ∃ sig : Signature, sig.Describes finish.context.types globals (bodies.length + 1) procedure ∧
        Resolves start.context finish.context globals.Names sig.typed ∧
        Entered finish.context known (globals ++ [(procedure.name, .proc sig.entry)]) (bodies ++ [sig.own]) := by
  have hlegal : procedure.Legal known ∧ procedure.name ∉ globals.map (·.1) ↔
      ((∀ parameter ∈ procedure.parameters, parameter.Legal known) ∧ (procedure.parameters.map (·.name)).Nodup) ∧
      ((∀ before declaration after, procedure.locals = before ++ declaration :: after → ∃ spelled,
          declaration.type.Means (hide (procedure.parameters.map (·.name) ++ before.map (·.name)) known) spelled) ∧
        (procedure.parameters.map (·.name) ++ procedure.locals.map (·.name)).Nodup) ∧
      procedure.name ∉ globals.map (·.1) := by
    constructor
    · rintro ⟨hl, hn⟩
      exact ⟨⟨hl.parameters, (List.nodup_append.mp hl.distinct).1⟩, ⟨hl.locals, hl.distinct⟩, hn⟩
    · rintro ⟨⟨hp, _⟩, ⟨hl, hd⟩, hn⟩
      exact ⟨⟨hd, hp, hl⟩, hn⟩
  refine Exact.congr ?_ hlegal.symm
  unfold declare
  refine h.openScope_exact.bind_of_true fun scope opened hopened => ?_
  obtain ⟨rfl, htypes, hfindings, hentered⟩ := hopened
  have hparameters := declareParameters_exact procedure.name procedure.parameters hentered List.nodup_nil
  refine (hparameters.congr (by simp)).bind fun slots filled hlegal hfilled => ?_
  obtain ⟨parameters, hpe, rfl, hx, hpd, hfilled⟩ := hfilled
  rw [List.nil_append] at hfilled
  have hown : (parameters.map Signature.parameterEntry).map (·.1) = procedure.parameters.map (·.name) := by
    rw [Signature.parameterEntry_names, hpe]
  have hlocals := declareLocals_exact procedure.name procedure.locals hfilled (hown ▸ hlegal.2)
    Signature.parameterEntry_variables
  rw [hown] at hlocals
  refine hlocals.bind fun _ full _ hfull => ?_
  obtain ⟨locals, hle, hx', hld, hfull⟩ := hfull
  -- The procedure itself is entered last: its name is free while its own types are resolved.
  let sig : Signature := ⟨procedure, bodies.length + 1, parameters, locals⟩
  refine (hfull.enter_global procedure.name (.proc sig.entry) _ _).imp fun _ finish _ hfinish => ?_
  obtain ⟨hsame, hkept, hscopes⟩ := hfinish
  have hopen : Resolves start.context opened.context globals.Names [] := .of_eq htypes hfindings
  rw [hsame]
  refine ⟨sig, ⟨rfl, rfl, hpe, hle, ?_, hld⟩, (hopen.append (hx.append hx')).keep hsame hkept, hsame ▸ hfull.built,
    hscopes, ?_⟩
  · exact fun p hp => (hpd p hp).mono hx'.extends_types fun _ _ he => he
  · rw [hsame]
    exact hfull.knows.addProcedure _ _

theorem TypeDeclaration.declare_exact (h : Entered start.context known globals bodies)
    (declaration : TypeDeclaration) :
    Exact declaration.declare start
      ((∃ spelled, declaration.type.Means known spelled) ∧ declaration.name ∉ globals.map (·.1)) fun _ finish =>
        ∃ type spelled, declaration.type.Means known spelled ∧
          declaration.type.Denotes finish.context.types globals.at? type ∧
          Resolves start.context finish.context globals.Names
            [(⟨none, declaration.name, declaration.type⟩, type)] ∧
          Entered finish.context (Function.update known declaration.name (some spelled))
            (globals ++ [(declaration.name, .type type)]) bodies := by
  unfold declare
  refine (declaration.type.resolve_exact h.built (h.seen_global ▸ h.knows)).bind fun type resolved _ hresolved => ?_
  obtain ⟨hg, hdenotes, hnumbers, spelled, hm, hspells⟩ := hresolved
  rw [h.seen_global] at hdenotes hnumbers
  have hentered := h.grow hg
  refine (hentered.enter_global declaration.name _ _ _).bind_true fun _ entered hn hentered' => ?_
  obtain ⟨htypes, hfindings, hscopes⟩ := hentered'
  refine Exact.context_bind ((Exact.report _).imp fun _ finish _ hfinish => ?_)
  rw [hfinish, htypes]
  have hresolves := Resolves.single ⟨none, declaration.name, declaration.type⟩ hnumbers hg.extends_types
  refine ⟨type, spelled, hm, hdenotes, hresolves.keep htypes hfindings, htypes ▸ hg.built, hscopes, ?_⟩
  rw [htypes]
  exact hentered.knows.addType ((Keyed.at?_eq_none_iff _ _).mpr hn) hspells

end

/-- A name declared behind others means what it did before, or it is the name declared. -/
theorem Keyed.names_concat {entries : Keyed Name Entry} {name other : Name} {entry : Entry} {type : TypeId}
    (h : Keyed.Names (entries ++ [(name, entry)]) other type) :
    entries.Names other type ∨ name = other ∧ entry = .type type := by
  unfold Names at h ⊢
  rw [at?_append, at?_cons, at?_nil] at h
  rcases Option.or_eq_some_iff.mp h with h | ⟨_, h⟩
  · exact .inl h
  · split at h
    · next hn => exact .inr ⟨hn, Option.some.inj h⟩
    · cases h

/-- Declarations can be entered exactly if they are legal, and then the tables are theirs: their type expressions
were resolved in order, and the tables hold the types found for them. -/
theorem declareAll_resolves (declarations : List Declaration) {known : Name → Option Spelled}
    {globals : Keyed Name Entry} {bodies : List (Keyed Name Entry)} {start : Progress}
    (h : Entered start.context known globals bodies) :
    Exact (declarations.forM (·.declare)) start (LegalFrom known (globals.map (·.1)) declarations) fun _ finish =>
      ∃ entries sigs typed, Tables finish.context.types globals (bodies.length + 1) declarations entries sigs ∧
        Resolves start.context finish.context globals.Names typed ∧
        typed.map (·.1) = declarations.flatMap Declaration.typeSites ∧
        (∀ p ∈ typed, p.1.HeldIn entries sigs p.2) ∧
        finish.context.scopes = .nested (globals ++ entries) (bodies ++ sigs.map (·.own)) := by
  induction declarations generalizing known globals bodies start with
  | nil =>
    refine Exact.congr (.pure ?_) (iff_of_true trivial .nil)
    exact ⟨[], [], [], .nil, .of_eq rfl rfl, rfl, by simp, by simpa using h.scopes⟩
  | cons declaration rest ih =>
    cases declaration with
    | type declaration =>
      refine Exact.congr ?_ legalFrom_type_iff.symm
      refine (declaration.declare_exact h).bind fun _ middle _ hmiddle => ?_
      obtain ⟨type, spelled, hm, hd, hx, hentered⟩ := hmiddle
      have hrest := ih hentered
      rw [List.map_append] at hrest
      have hlegal : (∀ other, declaration.type.Means known other → LegalFrom
          (Function.update known declaration.name (some other)) (globals.map (·.1) ++ [declaration.name]) rest) ↔ _ :=
        hm.forall_iff
      refine (hrest.congr hlegal.symm).imp fun _ finish _ hfinish => ?_
      obtain ⟨entries, sigs, typed, ht, hx', hsites, hheld, hscopes⟩ := hfinish
      refine ⟨_, sigs, _, .type (hd.mono hx'.extends_types fun _ _ he => he) ht, hx.trans hx' ?_, ?_, ?_, ?_⟩
      · intro name type' hn
        exact (Keyed.names_concat hn).imp id fun hn => ⟨_, List.mem_singleton_self _, rfl, hn.1, Entry.type.inj hn.2⟩
      · rw [List.map_append, hsites]
        rfl
      · rw [List.forall_mem_append, List.forall_mem_singleton]
        exact ⟨List.mem_cons_self, fun p hp => (hheld p hp).mono (fun _ => List.mem_cons_of_mem _) fun _ => id⟩
      · rw [hscopes, List.append_assoc, List.singleton_append]
    | procedure procedure =>
      refine Exact.congr ?_ legalFrom_procedure_iff.symm
      refine (procedure.declare_exact h).bind fun _ middle _ hmiddle => ?_
      obtain ⟨sig, hd, hx, hentered⟩ := hmiddle
      have hrest := ih hentered
      rw [List.map_append] at hrest
      refine hrest.imp fun _ finish _ hfinish => ?_
      obtain ⟨entries, sigs, typed, ht, hx', hsites, hheld, hscopes⟩ := hfinish
      rw [List.length_append, List.length_singleton] at ht
      refine ⟨_, _, _, .procedure (hd.mono hx'.extends_types) ht, hx.trans hx' ?_, ?_, ?_, ?_⟩
      · intro name type' hn
        exact (Keyed.names_concat hn).imp id fun hn => nomatch hn.2
      · rw [List.map_append, hsites, sig.typed_sites (hd.procedure ▸ hd.parameters) (hd.procedure ▸ hd.locals),
          hd.procedure]
        rfl
      · rw [List.forall_mem_append]
        refine ⟨fun p hp => ?_, fun p hp => ?_⟩
        · exact (sig.heldIn [] hp).mono (by simp) (by simp)
        · exact (hheld p hp).mono (fun _ => List.mem_cons_of_mem _) fun _ => List.mem_cons_of_mem _
      · rw [hscopes, List.append_assoc, List.append_assoc, List.singleton_append, List.singleton_append, List.map_cons]

private theorem declareAll_exact (declarations : List Declaration) {known : Name → Option Spelled}
    {globals : Keyed Name Entry} {bodies : List (Keyed Name Entry)} {start : Progress}
    (h : Entered start.context known globals bodies) :
    Exact (declarations.forM (·.declare)) start (LegalFrom known (globals.map (·.1)) declarations) fun _ finish =>
      ∃ entries sigs, Tables finish.context.types globals (bodies.length + 1) declarations entries sigs ∧
        start.context.types.Extends finish.context.types ∧
        finish.context.scopes = .nested (globals ++ entries) (bodies ++ sigs.map (·.own)) := by
  refine (declareAll_resolves declarations h).imp fun _ finish _ hfinish => ?_
  obtain ⟨entries, sigs, typed, ht, hx, _, _, hscopes⟩ := hfinish
  exact ⟨entries, sigs, ht, hx.extends_types, hscopes⟩

theorem entered_initial : Entered .initial predeclaredTypes predeclared [] := ⟨.primitives, rfl, predeclared_knows⟩

/-- The entries of the declarations and the signatures of the procedures are what the context holds. -/
structure Program.TablesIn (program : Program) (context : Context) (entries : Keyed Name Entry)
    (sigs : List Signature) : Prop where
  tables : Tables context.types predeclared 1 program.declarations entries sigs
  procedures : sigs.map (·.procedure) = program.procedures
  scopes : context.scopes = .nested (predeclared ++ entries) (sigs.map (·.own))
  bodies : ∀ sig ∈ sigs, context.scopes.scope? sig.scope = some ⟨some ScopeTree.globalScope, sig.own⟩

/-- The declarations of a program can be entered exactly if they are legal. Then the global scope holds the
predeclared entries and behind them one for each declaration, and each procedure has a scope in the global one
that holds its parameters and locals. -/
theorem Program.declare_succeeds_iff (program : Program) :
    ((∃ count finish, program.declare.run .initial = .ok count finish) ↔ program.Legal) ∧
    ∀ count finish, program.declare.run .initial = .ok count finish →
      ∃ entries sigs, program.TablesIn finish.context entries sigs := by
  have hexact : Exact program.declare .initial program.Legal fun _ finish => ∃ entries sigs,
      Tables finish.context.types predeclared 1 program.declarations entries sigs ∧
      finish.context.scopes = .nested (predeclared ++ entries) (sigs.map (·.own)) := by
    unfold declare
    refine (declareAll_exact program.declarations entered_initial).bind_true fun _ middle _ hmiddle => ?_
    refine Exact.context_bind ((Exact.report _).bind_of_true fun _ finish hfinish => .pure ?_)
    obtain ⟨entries, sigs, ht, _, hscopes⟩ := hmiddle
    rw [hfinish]
    exact ⟨entries, sigs, ht, hscopes⟩
  refine ⟨⟨?_, hexact.succeeds⟩, ?_⟩
  · rintro ⟨count, finish, hr⟩
    exact (hexact.sound count finish hr).1
  · intro count finish hr
    obtain ⟨entries, sigs, ht, hscopes⟩ := (hexact.sound count finish hr).2
    refine ⟨entries, sigs, ht, ht.procedures program.position, hscopes, ?_⟩
    intro sig hs
    obtain ⟨i, hi⟩ := List.mem_iff_getElem?.mp hs
    rw [hscopes, ht.scope_eq hi]
    exact ScopeTree.scope?_nested (by rw [List.getElem?_map, hi, Option.map_some])

/-- A program with a named array type, arrays of it and a procedure that takes one. -/
def rowsDeclared : Program where
  position := ⟨1, 1⟩
  declarations := [
    .type ⟨⟨1, 1⟩, "row", .array ⟨1, ⟨1, 12⟩⟩ 3 (.named ⟨0, ⟨1, 25⟩⟩ "int")⟩,
    .procedure {
      position := ⟨3, 1⟩
      name := "fill"
      parameters := [
        ⟨⟨3, 11⟩, "a", .named ⟨2, ⟨3, 18⟩⟩ "row", true⟩,
        ⟨⟨3, 23⟩, "row", .named ⟨3, ⟨3, 28⟩⟩ "int", false⟩]
      locals := [⟨⟨4, 3⟩, "b", .array ⟨5, ⟨4, 10⟩⟩ 2 (.array ⟨4, ⟨4, 23⟩⟩ 0 (.named ⟨6, ⟨4, 36⟩⟩ "int"))⟩]
      body := [] },
    .procedure ⟨⟨7, 1⟩, "main", [], [⟨⟨8, 3⟩, "rows", .array ⟨8, ⟨8, 13⟩⟩ 3 (.named ⟨7, ⟨8, 26⟩⟩ "row")⟩], []⟩]

theorem rowsDeclared_declare_succeeds :
    rowsDeclared.Legal ∧ ∃ count finish, rowsDeclared.declare.run .initial = .ok count finish ∧
      ∃ entries sigs, rowsDeclared.TablesIn finish.context entries sigs := by
  have hok : (rowsDeclared.declare.runFrom .initial).1.isOk := by decide +kernel
  obtain ⟨count, finish, hr⟩ := exists_run_ok hok
  obtain ⟨hlegal, htables⟩ := Program.declare_succeeds_iff rowsDeclared
  exact ⟨hlegal.mp ⟨count, finish, hr⟩, count, finish, hr, htables count finish hr⟩

end SplLang

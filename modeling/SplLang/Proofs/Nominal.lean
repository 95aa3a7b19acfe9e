import SplLang.Proofs.Origins
import SplLang.Proofs.WellTyped

/-! Type identity is nominal. Resolution gives types by their origins, and so a variable may be passed to a reference
parameter exactly if its type has the origin of the type of the parameter. -/
namespace SplLang
open Phase

/-- The type of a parameter or local of the procedure has the origin. -/
def Program.NamedOrigin (program : Program) (procedure name : Name) (origin : Origin) : Prop :=
  ∃ index expr, program.typeSites[index]? = some ⟨some procedure, name, expr⟩ ∧ program.HasOrigin ⟨index, 0⟩ origin

/-- The type of a variable in the body of the procedure has the origin. An element has that of the base of the
array type from which the type of its array comes. -/
inductive Program.VariableOrigin (program : Program) (procedure : Name) : Variable → Origin → Prop where
  | named {node : Node} {name : Name} {origin : Origin} :
      program.NamedOrigin procedure name origin → VariableOrigin program procedure (.named node name) origin
  | element {node : Node} {array : Variable} {index : Expr} {occurrence : Occurrence} {origin : Origin} :
      VariableOrigin program procedure array (.array occurrence) → program.HasOrigin occurrence.base origin →
        VariableOrigin program procedure (.element node array index) origin

/-- The type of a parameter, counted from 0, has the origin. Each parameter of a library procedure is an int. -/
def Program.ParameterOrigin (program : Program) (callee : Name) (number : Nat) (origin : Origin) : Prop :=
  (∃ p ∈ library, p.name = callee ∧ number < p.byReference.length ∧ origin = .int) ∨
    ∃ procedure ∈ program.procedures, procedure.name = callee ∧
      ∃ parameter, procedure.parameters[number]? = some parameter ∧ program.NamedOrigin callee parameter.name origin

private theorem Program.NamedOrigin.written {program : Program} {procedure name : Name} {origin : Origin}
    (h : program.NamedOrigin procedure name origin) : origin.Written program := by
  obtain ⟨_, _, _, ho⟩ := h
  exact ho.written

private theorem Program.VariableOrigin.written {program : Program} {procedure : Name} {v : Variable} {origin : Origin}
    (h : program.VariableOrigin procedure v origin) : origin.Written program := by
  cases h with
  | named hn => exact hn.written
  | element _ ho => exact ho.written

private theorem Program.ParameterOrigin.written {program : Program} {callee : Name} {number : Nat} {origin : Origin}
    (h : program.ParameterOrigin callee number origin) : origin.Written program := by
  rcases h with ⟨_, _, _, _, rfl⟩ | ⟨_, _, _, _, _, hn⟩
  · exact trivial
  · exact hn.written

namespace Program.Given
variable {program : Program} {context : Context} {typed : List (TypeSite × TypeId)} {sigs : List Signature}
  {sig : Signature} {name : Name} {type : TypeId} {origin origin' : Origin}

private theorem namedOrigin_unique (h : program.Given context typed) {procedure : Name}
    (ho : program.NamedOrigin procedure name origin) (ho' : program.NamedOrigin procedure name origin') :
    origin = origin' := by
  obtain ⟨i, _, hi, ho⟩ := ho
  obtain ⟨j, _, hj, ho'⟩ := ho'
  rw [h.site_unique hj hi] at ho'
  exact h.origin_unique ho ho'

private theorem variableOrigin_unique (h : program.Given context typed) {procedure : Name} {v : Variable}
    (ho : program.VariableOrigin procedure v origin) (ho' : program.VariableOrigin procedure v origin') :
    origin = origin' := by
  induction ho generalizing origin' with
  | named hn =>
    cases ho' with
    | named hn' => exact h.namedOrigin_unique hn hn'
  | element _ hb ih =>
    cases ho' with
    | element ha' hb' =>
      cases ih ha'
      exact h.origin_unique hb hb'

end Program.Given

section
variable {context : Context} {sigs : List Signature} {sig : Signature} {p : TypeSite × TypeId}

private theorem Signature.typed_procedure (hp : p ∈ sig.typed) : p.1.procedure = some sig.procedure.name := by
  rcases List.mem_append.mp hp with hp | hp
  · obtain ⟨_, _, rfl⟩ := List.mem_map.mp hp
    rfl
  · obtain ⟨_, _, rfl⟩ := List.mem_map.mp hp
    rfl

private theorem Declared.type?_of_typed (hd : Declared context sigs) (hs : sig ∈ sigs) (hp : p ∈ sig.typed) :
    p.1.type? context.scopes = some p.2 := by
  have hheld := sig.heldIn [] hp
  unfold TypeSite.HeldIn at hheld
  rw [Signature.typed_procedure hp] at hheld
  obtain ⟨_, hsig, _, v, hv, hve⟩ := hheld
  cases List.mem_singleton.mp hsig
  have hentry := Keyed.at?_of_mem (hd.fits sig hs).distinct hv
  rw [TypeSite.type?, Signature.typed_procedure hp]
  show ((context.scopes.procedure? sig.procedure.name).bind (·.scope)).bind _ = _
  rw [hd.scoped.procedure?_of_mem hs]
  show ((context.scopes.held? sig.scope p.1.name).bind (·.var?)).bind _ = _
  rw [hd.scoped.held sig hs, hentry, ← hve]
  rfl

private theorem Program.mem_typeSites {program : Program} {procedure : Procedure} (hm : procedure ∈ program.procedures)
    {site : TypeSite} (hs : site ∈ (Declaration.procedure procedure).typeSites) : site ∈ program.typeSites := by
  obtain ⟨declaration, hd, he⟩ := List.mem_filterMap.mp hm
  cases declaration with
  | type _ => cases he
  | procedure _ =>
    cases he
    exact List.mem_flatMap.mpr ⟨_, hd, hs⟩

/-- Each parameter and local of a procedure has its site, where its type is used. -/
theorem Declared.exists_site {program : Program} (hd : Declared context sigs)
    (hsigs : sigs.map (·.procedure) = program.procedures) (hs : sig ∈ sigs) (hp : p ∈ sig.typed) :
    ∃ i, program.typeSites[i]? = some p.1 ∧ program.typeAt? context ⟨i, 0⟩ = some p.2 := by
  have hfits := hd.fits sig hs
  have hsite : p.1 ∈ program.typeSites := by
    refine program.mem_typeSites (hsigs ▸ List.mem_map_of_mem hs) ?_
    rw [← sig.typed_sites hfits.parameters_eq hfits.locals_eq]
    exact List.mem_map_of_mem hp
  obtain ⟨i, hi⟩ := List.mem_iff_getElem?.mp hsite
  exact ⟨i, hi, Option.bind_eq_some_iff.mpr ⟨p.1, hi, Option.bind_eq_some_iff.mpr ⟨p.2, hd.type?_of_typed hs hp, rfl⟩⟩⟩

end

namespace Program.Given
variable {program : Program} {context : Context} {typed : List (TypeSite × TypeId)} {sigs : List Signature}
  {sig : Signature} {name : Name} {type : TypeId} {origin origin' : Origin}

/-- The types of parameters and locals are those of their origins. -/
theorem namedOrigin (h : program.Given context typed) (hd : Declared context sigs)
    (hsigs : sigs.map (·.procedure) = program.procedures) (hs : sig ∈ sigs) {p : TypeSite × TypeId}
    (hp : p ∈ sig.typed) :
    ∃ origin, program.NamedOrigin sig.procedure.name p.1.name origin ∧ origin.type? program context = some p.2 := by
  obtain ⟨i, hi, htype⟩ := hd.exists_site hsigs hs hp
  obtain ⟨origin, ho⟩ := h.exists_origin (Program.typeExpr?_of_site hi)
  refine ⟨origin, ⟨i, p.1.type, ?_, ho⟩, h.type_of_origin ho htype⟩
  rw [hi, ← Signature.typed_procedure hp]

/-- The type of a variable is that of its origin. -/
theorem variableOrigin (h : program.Given context typed) (hd : Declared context sigs)
    (hsigs : sigs.map (·.procedure) = program.procedures) (hs : sig ∈ sigs) (v : Variable) {type : TypeId}
    (ht : v.HasType (sig.around context) type) :
    ∃ origin, program.VariableOrigin sig.procedure.name v origin ∧ origin.type? program context = some type := by
  cases ht with
  | @named node name _ hn =>
    rw [Signature.around, hd.scoped.varType?_eq hs] at hn
    obtain ⟨entry, he, hv⟩ := Option.bind_eq_some_iff.mp hn
    have hm : ∃ p ∈ sig.typed, p.1.name = name ∧ p.2 = type := by
      rcases List.mem_append.mp (Keyed.mem_of_at? he) with hm | hm
      · obtain ⟨parameter, hp, he⟩ := List.mem_map.mp hm
        cases he
        cases hv
        exact ⟨_, List.mem_append_left _ (List.mem_map_of_mem hp), rfl, rfl⟩
      · obtain ⟨declaration, hl, he⟩ := List.mem_map.mp hm
        cases he
        cases hv
        exact ⟨_, List.mem_append_right _ (List.mem_map_of_mem hl), rfl, rfl⟩
    obtain ⟨p, hp, rfl, rfl⟩ := hm
    obtain ⟨origin, ho, hot⟩ := h.namedOrigin hd hsigs hs hp
    exact ⟨origin, .named ho, hot⟩
  | @element node array index arrayType _ _ ha _ he =>
    obtain ⟨origin, ho, hot⟩ := h.variableOrigin hd hsigs hs array ha
    cases origin with
    | int =>
      cases hot
      have hnone := hd.built.array?_primitive (show TypeId.int < TypeTable.primitives.count by decide)
      rw [show (sig.around context).types = context.types from rfl, hnone] at he
      cases he
    | array o =>
      obtain ⟨_, _, base, hexpr⟩ := ho.written
      obtain ⟨hbase, hbt⟩ := h.base_type hexpr hot he
      obtain ⟨origin, hbo⟩ := h.exists_origin hbase
      exact ⟨origin, .element ho hbo, h.type_of_origin hbo hbt⟩

/-- The type of a parameter is that of its origin. -/
theorem parameterOrigin (h : program.Given context typed) (hd : Declared context sigs)
    (hsigs : sigs.map (·.procedure) = program.procedures) (hs : sig ∈ sigs) {callee : Name} {number : Nat}
    {parameters : List (TypeId × Bool)} {byReference : Bool}
    (hc : (sig.around context).callee? callee = some parameters) (hp : parameters[number]? = some (type, byReference)) :
    ∃ origin, program.ParameterOrigin callee number origin ∧ origin.type? program context = some type := by
  obtain ⟨entry, hentry, rfl⟩ := Option.map_eq_some_iff.mp hc
  rw [List.getElem?_map] at hp
  obtain ⟨slot, hslot, hkind⟩ := Option.map_eq_some_iff.mp hp
  cases hkind
  rcases (hd.scoped.callee?_iff hs).mp hentry with ⟨p, hlibrary, rfl, rfl⟩ | ⟨called, hcalled, rfl, rfl⟩
  · change p.slots[number]? = some slot at hslot
    rw [LibraryProcedure.slots, List.getElem?_mapIdx] at hslot
    obtain ⟨_, hbit, rfl⟩ := Option.map_eq_some_iff.mp hslot
    exact ⟨.int, .inl ⟨p, hlibrary, rfl, (List.getElem?_eq_some_iff.mp hbit).1, rfl⟩, rfl⟩
  · change called.slots[number]? = some slot at hslot
    rw [Signature.slots, List.getElem?_map] at hslot
    obtain ⟨p, hparameter, rfl⟩ := Option.map_eq_some_iff.mp hslot
    have hm : (p.1.typeSite called.procedure.name, p.2) ∈ called.typed :=
      List.mem_append_left _ (List.mem_map_of_mem (List.mem_of_getElem? hparameter))
    obtain ⟨origin, ho, hot⟩ := h.namedOrigin hd hsigs hcalled hm
    refine ⟨origin, .inr ⟨called.procedure, hsigs ▸ List.mem_map_of_mem hcalled, rfl, p.1, ?_, ho⟩, hot⟩
    rw [← (hd.fits called hcalled).parameters_eq, List.getElem?_map, hparameter]
    rfl

private theorem parameterOrigin_unique (h : program.Given context typed) (hd : Declared context sigs)
    (hsigs : sigs.map (·.procedure) = program.procedures) {callee : Name} {number : Nat}
    (ho : program.ParameterOrigin callee number origin) (ho' : program.ParameterOrigin callee number origin') :
    origin = origin' := by
  have hdeclared : ∀ {procedure}, procedure ∈ program.procedures → ∃ sig ∈ sigs, sig.procedure = procedure := by
    intro procedure hm
    rw [← hsigs] at hm
    exact List.mem_map.mp hm
  rcases ho with ⟨p, hp, hn, _, rfl⟩ | ⟨procedure, hm, rfl, parameter, hi, ho⟩
  · rcases ho' with ⟨_, _, _, _, rfl⟩ | ⟨procedure', hm', rfl, _⟩
    · rfl
    · obtain ⟨sig, hs, rfl⟩ := hdeclared hm'
      exact absurd hn (hd.scoped.ne_library hs hp)
  · obtain ⟨sig, hs, rfl⟩ := hdeclared hm
    rcases ho' with ⟨p, hp, hn, _⟩ | ⟨procedure', hm', hn, parameter', hi', ho'⟩
    · exact absurd hn (hd.scoped.ne_library hs hp)
    · obtain ⟨sig', hs', rfl⟩ := hdeclared hm'
      cases hd.scoped.eq_of_name hs' hs hn
      rw [hi] at hi'
      cases hi'
      exact h.namedOrigin_unique ho ho'

end Program.Given

/-- Resolution numbers types by their origins. -/
structure Program.Nominal (program : Program) (context : Context) : Prop where
  /-- Every use of a type expression has a type and one origin. -/
  given : ∀ o expr, program.typeExpr? o = some expr →
    (∃ type, program.typeAt? context o = some type) ∧ ∃! origin, program.HasOrigin o origin
  /-- Two uses have the same type exactly if they have the same origin. -/
  same : ∀ o o' type type' origin origin', program.typeAt? context o = some type →
    program.typeAt? context o' = some type' → program.HasOrigin o origin → program.HasOrigin o' origin' →
      (type = type' ↔ origin = origin')
  /-- What is remembered for a node is the type of one of its uses. -/
  remembered : ∀ id,
    (∀ type, context.findings.typeExprs.at? id = some type → ∃ o expr, program.typeExpr? o = some expr ∧
      expr.node.id = id ∧ program.typeAt? context o = some type) ∧
    ∀ o expr, program.typeExpr? o = some expr → expr.node.id = id → (context.findings.typeExprs.at? id).isSome
  /-- A call whose other arguments fit may pass a variable to a reference parameter exactly if the types of the two
  have the same origin. -/
  call : ∀ procedure ∈ program.procedures, ∃ scope,
    (context.scopes.procedure? procedure.name).bind (·.scope) = some scope ∧
    ∀ callee before target after first node v rest source,
      Surroundings.callee? ⟨context.types, context.scopes, scope⟩ callee = some (before ++ (target, true) :: after) →
      List.Forall₂ (Expr.FitsParameter ⟨context.types, context.scopes, scope⟩) first before →
      List.Forall₂ (Expr.FitsParameter ⟨context.types, context.scopes, scope⟩) rest after →
      (Variable.check ⟨context.types, context.scopes, scope⟩ v).result = .ok source →
      (∃! origin, program.VariableOrigin procedure.name v origin) ∧
      (∃! origin, program.ParameterOrigin callee before.length origin) ∧
      ∀ position origin origin', program.VariableOrigin procedure.name v origin →
        program.ParameterOrigin callee before.length origin' →
        ((Stmt.check ⟨context.types, context.scopes, scope⟩
          (.call position callee (first ++ .load node v :: rest))).result = .ok () ↔ origin = origin')

/-- Of arguments of which all others fit, one variable decides whether the call passes. -/
theorem Stmt.call_check_iff {around : Surroundings} {position : Position} {callee : Name}
    {first rest : List Expr} {before after : List (TypeId × Bool)} {target source : TypeId} {node : Node} {v : Variable}
    (hc : around.callee? callee = some (before ++ (target, true) :: after))
    (hf : List.Forall₂ (Expr.FitsParameter around) first before)
    (hr : List.Forall₂ (Expr.FitsParameter around) rest after) (hv : v.HasType around source) :
    ((Stmt.call position callee (first ++ .load node v :: rest)).check around).result = .ok () ↔ source = target := by
  rw [Stmt.check_eq_ok_iff]
  constructor
  · intro ht
    cases ht with
    | call hc' ha =>
      rw [hc] at hc'
      cases hc'
      have htail := List.forall₂_drop_append _ _ _ ha
      rw [← hf.length_eq, List.drop_left] at htail
      cases htail with
      | cons hfit _ =>
        cases hfit.1 with
        | load hv' => exact hv.unique hv'
  · rintro rfl
    exact .call hc (List.rel_append hf (.cons ⟨.load hv, fun _ => rfl⟩ hr))

/-- Type identity is nominal: resolution gives two type expressions of a program the same type exactly if names lead
from both to the same array type expression or from both to int. -/
theorem Program.declare_nominal {program : Program} {count : DeclarationCount} {finish : Progress}
    (hr : program.declare.run .initial = .ok count finish) : program.Nominal finish.context := by
  obtain ⟨typed, h⟩ := Program.declare_given hr
  obtain ⟨sigs, hsigs, hd⟩ := Program.declare_ok hr
  refine ⟨?_, ?_, h.remembered, ?_⟩
  · intro o expr he
    obtain ⟨type, ht, _⟩ := h.exists_type he
    obtain ⟨origin, ho⟩ := h.exists_origin he
    exact ⟨⟨type, ht⟩, origin, ho, fun _ ho' => h.origin_unique ho' ho⟩
  · intro o o' type type' origin origin' ht ht' ho ho'
    exact h.type_eq_iff ho.written ho'.written (h.type_of_origin ho ht) (h.type_of_origin ho' ht')
  · intro procedure hm
    rw [← hsigs] at hm
    obtain ⟨sig, hs, rfl⟩ := List.mem_map.mp hm
    refine ⟨sig.scope, hd.scoped.scope_iff.mpr ⟨sig, hs, rfl, rfl⟩, ?_⟩
    intro callee before target after first node v rest source hc hf hrest hv
    have hsource : v.HasType (sig.around finish.context) source := (v.check_ok (Trail.gives_of_ok hv)).1
    obtain ⟨origin, ho, ht⟩ := h.variableOrigin hd hsigs hs v hsource
    have hparameter : (before ++ (target, true) :: after)[before.length]? = some (target, true) := by simp
    obtain ⟨origin', ho', ht'⟩ := h.parameterOrigin hd hsigs hs hc hparameter
    refine ⟨⟨origin, ho, fun _ hu => h.variableOrigin_unique hu ho⟩,
      ⟨origin', ho', fun _ hu => h.parameterOrigin_unique hd hsigs hu ho'⟩, ?_⟩
    intro position o o' hvo hpo
    rw [h.variableOrigin_unique hvo ho, h.parameterOrigin_unique hd hsigs hpo ho', Stmt.call_check_iff hc hf hrest hsource]
    exact h.type_eq_iff ho.written ho'.written ht ht'

/-- A procedure takes an array of a declared type; of two variables that are spelled alike one has that type. -/
def rowsSummed : Program where
  position := ⟨1, 1⟩
  declarations := [
    .type ⟨⟨1, 1⟩, "row", .array ⟨1, ⟨1, 12⟩⟩ 4 (.named ⟨0, ⟨1, 25⟩⟩ "int")⟩,
    .procedure ⟨⟨2, 1⟩, "sum", [⟨⟨2, 10⟩, "r", .named ⟨2, ⟨2, 17⟩⟩ "row", true⟩], [], []⟩,
    .procedure {
      position := ⟨3, 1⟩
      name := "main"
      parameters := []
      locals := [
        ⟨⟨4, 3⟩, "x", .named ⟨3, ⟨4, 10⟩⟩ "row"⟩,
        ⟨⟨5, 3⟩, "y", .array ⟨5, ⟨5, 10⟩⟩ 4 (.named ⟨4, ⟨5, 23⟩⟩ "int")⟩]
      body := [.call ⟨6, 3⟩ "sum" [.load ⟨7, ⟨6, 7⟩⟩ (.named ⟨6, ⟨6, 7⟩⟩ "x")]] }]

theorem rowsSummed_declare_nominal :
    ∃ count finish, rowsSummed.declare.run .initial = .ok count finish ∧ rowsSummed.Nominal finish.context ∧
      rowsSummed.ParameterOrigin "sum" 0 (.array ⟨0, 0⟩) ∧
      (∀ node, rowsSummed.VariableOrigin "main" (.named node "x") (.array ⟨0, 0⟩)) ∧
      ∀ node, rowsSummed.VariableOrigin "main" (.named node "y") (.array ⟨3, 0⟩) := by
  obtain ⟨count, _, finish, _, hr, _⟩ := compile_checked_of_isOk (show (compile rowsSummed .checked).1.isOk by decide +kernel)
  refine ⟨count, finish, hr, Program.declare_nominal hr, ?_, fun node => ?_, fun node => ?_⟩
  · exact .inr ⟨_, List.mem_cons_self, rfl, _, rfl, 1, _, rfl, .named rfl rfl (.array rfl)⟩
  · exact .named ⟨2, _, rfl, .named rfl rfl (.array rfl)⟩
  · exact .named ⟨3, _, rfl, .array rfl⟩

end SplLang

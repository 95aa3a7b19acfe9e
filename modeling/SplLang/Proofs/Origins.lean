import SplLang.Proofs.Tables

/-! Which type expressions of a program mean the same type. From every use of a type expression names lead to int
or to one array type expression, and two uses have the same type exactly if they lead to the same. -/
namespace SplLang
open Phase

/-- The type expressions of a program in the order in which they are resolved, without the bases of array types. -/
def Program.typeSites (program : Program) : List TypeSite := program.declarations.flatMap Declaration.typeSites

/-- A use of a type expression: the number of the site and how many array types are written around it there. -/
structure Occurrence where
  site : Nat
  depth : Nat
  deriving DecidableEq

/-- The use of the base of an array type. -/
def Occurrence.base (occurrence : Occurrence) : Occurrence := ⟨occurrence.site, occurrence.depth + 1⟩

/-- The type expression below some array types. -/
def TypeExpr.below? : TypeExpr → Nat → Option TypeExpr
  | expr, 0 => some expr
  | .named .., _ + 1 => none
  | .array _ _ base, depth + 1 => base.below? depth

def Program.typeExpr? (program : Program) (occurrence : Occurrence) : Option TypeExpr :=
  (program.typeSites[occurrence.site]?).bind (·.type.below? occurrence.depth)

/-- Where names lead from a type expression. -/
inductive Origin where
  | int
  | array (occurrence : Occurrence)
  deriving DecidableEq

/-- Names are followed through the declarations of types. -/
inductive Program.HasOrigin (program : Program) : Occurrence → Origin → Prop where
  | int {occurrence : Occurrence} {node : Node} :
      program.typeExpr? occurrence = some (.named node "int") → HasOrigin program occurrence .int
  | array {occurrence : Occurrence} {node : Node} {length : UInt32} {base : TypeExpr} :
      program.typeExpr? occurrence = some (.array node length base) →
        HasOrigin program occurrence (.array occurrence)
  | named {occurrence : Occurrence} {node : Node} {name : Name} {index : Nat} {expr : TypeExpr} {origin : Origin} :
      program.typeExpr? occurrence = some (.named node name) →
        program.typeSites[index]? = some ⟨none, name, expr⟩ → HasOrigin program ⟨index, 0⟩ origin →
          HasOrigin program occurrence origin

def Entry.type? : Entry → Option TypeId
  | .type id => some id
  | _ => none

/-- The type that the scopes hold for what is declared at the site. -/
def TypeSite.type? (scopes : ScopeTree) (site : TypeSite) : Option TypeId :=
  match site.procedure with
  | none => (scopes.held? ScopeTree.globalScope site.name).bind (·.type?)
  | some procedure => do
    let scope ← (scopes.procedure? procedure).bind (·.scope)
    let entry ← (scopes.held? scope site.name).bind (·.var?)
    return entry.type

/-- The type of the elements below some array types. -/
def TypeTable.below? (types : TypeTable) : TypeId → Nat → Option TypeId
  | type, 0 => some type
  | type, depth + 1 => (types.array? type).bind fun array => types.below? array.1 depth

/-- The type that resolution gave to a use of a type expression: what is held for its site, or of what is held
there the type of the elements that it describes. -/
def Program.typeAt? (program : Program) (context : Context) (occurrence : Occurrence) : Option TypeId := do
  let site ← program.typeSites[occurrence.site]?
  let type ← site.type? context.scopes
  context.types.below? type occurrence.depth

/-- The type of an origin. -/
def Origin.type? (program : Program) (context : Context) : Origin → Option TypeId
  | .int => some TypeId.int
  | .array occurrence => program.typeAt? context occurrence

/-! ### Names of declarations -/

/-- No two sites declare the same name in the same place, and none declares a name that was taken. -/
theorem LegalFrom.sites {known : Name → Option Spelled} {taken : List Name} {declarations : List Declaration}
    (h : LegalFrom known taken declarations) :
    ((declarations.flatMap Declaration.typeSites).map fun site => (site.procedure, site.name)).Nodup ∧
      ∀ site ∈ declarations.flatMap Declaration.typeSites, site.procedure.getD site.name ∉ taken := by
  induction h with
  | nil => simp
  | @type known taken declaration spelled rest hn _ _ ih =>
    obtain ⟨hnodup, hfresh⟩ := ih
    simp only [List.flatMap_cons, Declaration.typeSites, List.singleton_append, List.map_cons, List.nodup_cons,
      List.forall_mem_cons]
    refine ⟨⟨fun hm => ?_, hnodup⟩, hn, fun site hs ht => hfresh site hs (List.mem_append_left _ ht)⟩
    obtain ⟨site, hs, he⟩ := List.mem_map.mp hm
    obtain ⟨hp, hname⟩ := Prod.mk.inj he
    have hnew := hfresh site hs
    rw [hp, hname] at hnew
    exact hnew (List.mem_append_right _ (List.mem_singleton_self _))
  | @procedure known taken procedure rest hn hl _ ih =>
    obtain ⟨hnodup, hfresh⟩ := ih
    have hown : (Declaration.procedure procedure).typeSites.map (fun site => (site.procedure, site.name)) =
        (procedure.parameters.map (·.name) ++ procedure.locals.map (·.name)).map (some procedure.name, ·) := by
      simp only [Declaration.typeSites, List.map_append, List.map_map]
      rfl
    have hprocedure : ∀ site ∈ (Declaration.procedure procedure).typeSites, site.procedure = some procedure.name := by
      intro site hs
      have hm := List.mem_map_of_mem (f := fun site => (site.procedure, site.name)) hs
      rw [hown] at hm
      obtain ⟨_, _, he⟩ := List.mem_map.mp hm
      exact (Prod.mk.inj he).1.symm
    simp only [List.flatMap_cons, List.map_append, List.forall_mem_append]
    refine ⟨List.nodup_append.mpr ⟨?_, hnodup, ?_⟩, ?_, fun site hs ht => hfresh site hs (List.mem_append_left _ ht)⟩
    · rw [hown]
      exact hl.distinct.map fun _ _ he => (Prod.mk.inj he).2
    · intro key hk key' hk' he
      obtain ⟨site, hs, rfl⟩ := List.mem_map.mp hk
      obtain ⟨site', hs', rfl⟩ := List.mem_map.mp hk'
      have hp := (Prod.mk.inj he).1
      rw [hprocedure site hs] at hp
      have hnew := hfresh site' hs'
      rw [← hp] at hnew
      exact hnew (List.mem_append_right _ (List.mem_singleton_self _))
    · intro site hs
      rw [hprocedure site hs]
      exact hn

/-- Global names are distinct, and so are those of the parameters and locals of each procedure. -/
theorem Tables.distinct {types : TypeTable} {globals entries : Keyed Name Entry} {scope : ScopeId}
    {declarations : List Declaration} {sigs : List Signature} {known : Name → Option Spelled}
    (h : Tables types globals scope declarations entries sigs)
    (hl : LegalFrom known (globals.map (·.1)) declarations) (hn : (globals.map (·.1)).Nodup) :
    ((globals ++ entries).map (·.1)).Nodup ∧
      ∀ sig ∈ sigs, (sig.own.map (·.1)).Nodup ∧ (sig.procedure.name, Entry.proc sig.entry) ∈ entries := by
  induction h generalizing known with
  | nil => exact ⟨by simpa using hn, by simp⟩
  | @type globals _ _ declaration type _ _ _ _ ih =>
    obtain ⟨⟨hm, hfresh⟩, hrest⟩ := legalFrom_type_iff.mp hl
    obtain ⟨spelled, hm⟩ := hm
    have hnodup : ((globals ++ [(declaration.name, Entry.type type)]).map (·.1)).Nodup :=
      Keyed.nodup_map_concat hn hfresh
    obtain ⟨hall, hsigs⟩ := ih (by simpa using hrest spelled hm) hnodup
    refine ⟨by simpa using hall, fun sig hs => ?_⟩
    exact ⟨(hsigs sig hs).1, List.mem_cons_of_mem _ (hsigs sig hs).2⟩
  | @procedure globals _ _ procedure sig _ _ hd _ ih =>
    obtain ⟨⟨hlegal, hfresh⟩, hrest⟩ := legalFrom_procedure_iff.mp hl
    have hnodup : ((globals ++ [(procedure.name, Entry.proc sig.entry)]).map (·.1)).Nodup :=
      Keyed.nodup_map_concat hn hfresh
    obtain ⟨hall, hsigs⟩ := ih (by simpa using hrest) hnodup
    refine ⟨by simpa using hall, List.forall_mem_cons.mpr ⟨⟨?_, ?_⟩, fun sig hs => ?_⟩⟩
    · have hown : sig.own.map (·.1) = procedure.parameters.map (·.name) ++ procedure.locals.map (·.name) := by
        rw [← hd.parameters, ← hd.locals, Signature.own, List.map_append]
        simp only [List.map_map]
        rfl
      rw [hown]
      exact hlegal.distinct
    · rw [hd.procedure]
      exact List.mem_cons_self
    · exact ⟨(hsigs sig hs).1, List.mem_cons_of_mem _ (hsigs sig hs).2⟩

/-! ### Types and where they come from -/

/-- What is known of the type expressions once the declarations are entered. -/
structure Program.Given (program : Program) (context : Context) (typed : List (TypeSite × TypeId)) : Prop where
  sites : typed.map (·.1) = program.typeSites
  distinct : (program.typeSites.map fun site => (site.procedure, site.name)).Nodup
  free : ∀ site ∈ program.typeSites, site.procedure.getD site.name ∉ predeclared.map (·.1)
  held : ∀ p ∈ typed, p.1.type? context.scopes = some p.2
  resolves : Resolves .initial context predeclared.Names typed

private theorem TypeSite.HeldIn.type?_eq {types : TypeTable} {entries : Keyed Name Entry} {sigs : List Signature}
    {scopes : ScopeTree} {declarations : List Declaration} {known : Name → Option Spelled}
    (ht : Tables types predeclared 1 declarations entries sigs)
    (hl : LegalFrom known (predeclared.map (·.1)) declarations)
    (hs : scopes = .nested (predeclared ++ entries) (sigs.map (·.own))) {site : TypeSite} {type : TypeId}
    (h : site.HeldIn entries sigs type) : site.type? scopes = some type := by
  obtain ⟨hnodup, hsigs⟩ := ht.distinct hl predeclared_names_nodup
  have hglobal : ∀ {name entry}, (name, entry) ∈ entries →
      scopes.held? ScopeTree.globalScope name = some entry := by
    intro name entry hm
    rw [hs, ScopeTree.held?_of_scope? ScopeTree.scope?_nested_global]
    exact Keyed.at?_of_mem hnodup (List.mem_append_right _ hm)
  unfold HeldIn at h
  unfold TypeSite.type?
  split
  · next hp =>
    rw [hp] at h
    rw [hglobal h]
    rfl
  · next name hp =>
    rw [hp] at h
    obtain ⟨sig, hsig, rfl, v, hv, rfl⟩ := h
    obtain ⟨hown, hentry⟩ := hsigs sig hsig
    have hproc : scopes.procedure? sig.procedure.name = some sig.entry := by
      rw [ScopeTree.procedure?, hglobal hentry]
      rfl
    have hheld : scopes.held? sig.scope site.name = some (.var v) := by
      obtain ⟨i, hi⟩ := List.mem_iff_getElem?.mp hsig
      have hi' : (sigs.map (·.own))[i]? = some sig.own := by rw [List.getElem?_map, hi, Option.map_some]
      rw [hs, ht.scope_eq hi, ScopeTree.held?_of_scope? (ScopeTree.scope?_nested hi')]
      exact Keyed.at?_of_mem hown hv
    rw [hproc]
    show (scopes.held? sig.scope site.name).bind (·.var?) >>= _ = _
    rw [hheld]
    rfl

theorem Program.declare_exact (program : Program) : Exact program.declare .initial program.Legal fun _ finish =>
    (∃ entries sigs, Tables finish.context.types predeclared 1 program.declarations entries sigs ∧
      finish.context.scopes = .nested (predeclared ++ entries) (sigs.map (·.own))) ∧
    ∃ typed, program.Given finish.context typed := by
  unfold declare
  refine (declareAll_resolves program.declarations entered_initial).bind_true fun _ middle hlegal hmiddle => ?_
  refine Exact.context_bind ((Exact.report _).bind_of_true fun _ finish hfinish => .pure ?_)
  obtain ⟨entries, sigs, typed, ht, hx, hsites, hheld, hscopes⟩ := hmiddle
  obtain ⟨hdistinct, hfree⟩ := LegalFrom.sites hlegal
  rw [hfinish]
  exact ⟨⟨entries, sigs, ht, hscopes⟩, typed, hsites, hdistinct, hfree,
    fun p hp => (hheld p hp).type?_eq ht hlegal hscopes, hx⟩

theorem Program.declare_given {program : Program} {count : DeclarationCount} {finish : Progress}
    (hr : program.declare.run .initial = .ok count finish) : ∃ typed, program.Given finish.context typed :=
  (program.declare_exact.sound count finish hr).2.2

theorem Program.declare_tables {program : Program} {count : DeclarationCount} {finish : Progress}
    (hr : program.declare.run .initial = .ok count finish) :
    ∃ entries sigs, Tables finish.context.types predeclared 1 program.declarations entries sigs ∧
      finish.context.scopes = .nested (predeclared ++ entries) (sigs.map (·.own)) :=
  (program.declare_exact.sound count finish hr).2.1

@[simp]
theorem TypeExpr.below?_zero (expr : TypeExpr) : expr.below? 0 = some expr := by
  cases expr <;> rfl

theorem Program.typeExpr?_of_site {program : Program} {i : Nat} {site : TypeSite}
    (h : program.typeSites[i]? = some site) : program.typeExpr? ⟨i, 0⟩ = some site.type :=
  Option.bind_eq_some_iff.mpr ⟨site, h, TypeExpr.below?_zero _⟩

private theorem TypeExpr.layers_below? {expr inner : TypeExpr} {depth : Nat} (h : expr.below? depth = some inner) :
    expr.layers = depth + inner.layers := by
  induction depth generalizing expr with
  | zero =>
    rw [below?_zero] at h
    cases h
    rw [Nat.zero_add]
  | succ depth ih =>
    cases expr with
    | named node name => cases h
    | array node length base =>
      have hb := ih h
      rw [layers, hb]
      omega

private theorem TypeExpr.below?_succ {expr base : TypeExpr} {node : Node} {length : UInt32} {depth : Nat}
    (h : expr.below? depth = some (.array node length base)) : expr.below? (depth + 1) = some base := by
  induction depth generalizing expr with
  | zero =>
    rw [below?_zero] at h
    cases h
    exact below?_zero base
  | succ depth ih =>
    cases expr with
    | named node name => cases h
    | array node length base => exact ih h

private theorem TypeTable.below?_succ (types : TypeTable) (type : TypeId) (depth : Nat) :
    types.below? type (depth + 1) = (types.below? type depth).bind fun inner => (types.array? inner).map (·.1) := by
  induction depth generalizing type with
  | zero =>
    simp only [below?, Option.bind_some]
    cases types.array? type <;> rfl
  | succ depth ih =>
    rw [below?]
    conv_rhs => rw [below?]
    rw [Option.bind_assoc]
    exact congrArg _ (funext fun array => ih array.1)

/-- The type expressions inside one that took its numbers took theirs. -/
theorem TypeExpr.Takes.below? {types : TypeTable} {means : Name → TypeId → Prop} {first type : TypeId}
    {expr inner : TypeExpr} {depth : Nat} (h : expr.Takes types means first type)
    (hi : expr.below? depth = some inner) :
    ∃ found, types.below? type depth = some found ∧ inner.Takes types means first found := by
  induction depth generalizing expr type with
  | zero =>
    rw [below?_zero] at hi
    cases hi
    exact ⟨type, rfl, h⟩
  | succ depth ih =>
    cases expr with
    | named node name => cases hi
    | array node length base =>
      obtain ⟨_, element, ha, hb⟩ := h
      obtain ⟨found, hf, ht⟩ := ih hb hi
      exact ⟨found, by rw [TypeTable.below?, ha]; exact hf, ht⟩

private theorem predeclared_names {name : Name} {type : TypeId} (h : predeclared.Names name type) :
    name = "int" ∧ type = TypeId.int := by
  obtain ⟨spelled, hk, _⟩ := predeclared_knows.spelled h
  have hn : name = "int" := by
    by_contra hne
    rw [predeclaredTypes, Function.update_of_ne hne] at hk
    cases hk
  subst hn
  cases h
  exact ⟨rfl, rfl⟩

namespace Program.Given
variable {program : Program} {context : Context} {typed : List (TypeSite × TypeId)} {o o' : Occurrence}
  {expr : TypeExpr} {type type' : TypeId} {origin origin' : Origin}

/-- A use of a type expression stands in a site whose type is known. -/
theorem site (h : program.Given context typed) (he : program.typeExpr? o = some expr) :
    ∃ p, typed[o.site]? = some p ∧ program.typeSites[o.site]? = some p.1 ∧ p.1.type.below? o.depth = some expr := by
  obtain ⟨site, hs, hb⟩ := Option.bind_eq_some_iff.mp he
  have hm := hs
  rw [← h.sites, List.getElem?_map] at hm
  obtain ⟨p, hp, rfl⟩ := Option.map_eq_some_iff.mp hm
  exact ⟨p, hp, hs, hb⟩

/-- Every use of a type expression has a type, which it took when it was resolved. -/
theorem exists_type (h : program.Given context typed) (he : program.typeExpr? o = some expr) :
    ∃ type, program.typeAt? context o = some type ∧
      expr.Takes context.types (Known predeclared.Names (typed.take o.site)) (2 + arrays (typed.take o.site)) type := by
  obtain ⟨p, hp, hs, hb⟩ := h.site he
  obtain ⟨type, hf, ht⟩ := (h.resolves.takes hp).below? hb
  refine ⟨type, ?_, ht⟩
  rw [typeAt?, hs]
  show (p.1.type? context.scopes).bind _ = _
  rw [h.held p (List.mem_of_getElem? hp)]
  exact hf

theorem takes (h : program.Given context typed) (he : program.typeExpr? o = some expr)
    (ht : program.typeAt? context o = some type) :
    expr.Takes context.types (Known predeclared.Names (typed.take o.site)) (2 + arrays (typed.take o.site)) type := by
  obtain ⟨found, hf, htakes⟩ := h.exists_type he
  rw [hf] at ht
  exact Option.some.inj ht ▸ htakes

/-- A name is declared at one site of its scope. -/
theorem site_unique (h : program.Given context typed) {procedure : Option Name} {name : Name} {i j : Nat}
    {first second : TypeExpr} (hi : program.typeSites[i]? = some ⟨procedure, name, first⟩)
    (hj : program.typeSites[j]? = some ⟨procedure, name, second⟩) : i = j := by
  have hlt := (List.getElem?_eq_some_iff.mp hi).1
  refine (List.getElem?_inj (by rwa [List.length_map]) h.distinct).mp ?_
  rw [List.getElem?_map, List.getElem?_map, hi, hj]
  rfl

/-- No type is declared with the name of a predeclared one. -/
theorem not_int (h : program.Given context typed) {i : Nat} (hi : program.typeSites[i]? = some ⟨none, "int", expr⟩) :
    False := by
  have hfree := h.free _ (List.mem_of_getElem? hi)
  exact hfree List.mem_cons_self

/-- A name means int or a type declared before. -/
theorem known (h : program.Given context typed) {name : Name} {i : Nat}
    (hk : Known predeclared.Names (typed.take i) name type) :
    name = "int" ∧ type = TypeId.int ∨ ∃ j expr, j < i ∧ program.typeSites[j]? = some ⟨none, name, expr⟩ ∧
      program.typeAt? context ⟨j, 0⟩ = some type := by
  rcases hk with hn | ⟨⟨⟨procedure, other, expr⟩, found⟩, hp, rfl, rfl, rfl⟩
  · exact .inl (predeclared_names hn)
  · obtain ⟨j, hj⟩ := List.mem_iff_getElem?.mp hp
    have hlt : j < i := by
      have := (List.getElem?_eq_some_iff.mp hj).1
      rw [List.length_take] at this
      omega
    rw [List.getElem?_take_of_lt hlt] at hj
    have hs : program.typeSites[j]? = some ⟨none, other, expr⟩ := by rw [← h.sites, List.getElem?_map, hj]; rfl
    refine .inr ⟨j, expr, hlt, hs, ?_⟩
    rw [typeAt?, hs]
    show (TypeSite.type? context.scopes ⟨none, other, expr⟩).bind _ = _
    rw [h.held _ (List.mem_of_getElem? hj)]
    rfl

/-- A type expression has the type of its origin. -/
theorem type_of_origin (h : program.Given context typed) (ho : program.HasOrigin o origin)
    (ht : program.typeAt? context o = some type) : origin.type? program context = some type := by
  induction ho generalizing type with
  | int he =>
    rcases h.known (h.takes he ht) with ⟨_, rfl⟩ | ⟨_, _, _, hs, _⟩
    · rfl
    · exact (h.not_int hs).elim
  | array => exact ht
  | named he hs _ ih =>
    rcases h.known (h.takes he ht) with ⟨rfl, _⟩ | ⟨j, _, _, hs', ht'⟩
    · exact (h.not_int hs).elim
    · rw [h.site_unique hs' hs] at ht'
      exact ih ht'

/-- Names lead backwards, so they lead somewhere. -/
theorem exists_origin (h : program.Given context typed) (he : program.typeExpr? o = some expr) :
    ∃ origin, program.HasOrigin o origin := by
  obtain ⟨i, depth⟩ := o
  induction i using Nat.strongRecOn generalizing depth expr with
  | _ i ih =>
  cases expr with
  | array node length base => exact ⟨_, .array he⟩
  | named node name =>
    obtain ⟨type, _, htakes⟩ := h.exists_type he
    rcases h.known htakes with ⟨rfl, _⟩ | ⟨j, expr, hlt, hs, _⟩
    · exact ⟨_, .int he⟩
    · obtain ⟨origin, ho⟩ := ih j hlt 0 (Program.typeExpr?_of_site hs)
      exact ⟨origin, .named he hs ho⟩

theorem origin_unique (h : program.Given context typed) (ho : program.HasOrigin o origin)
    (ho' : program.HasOrigin o origin') : origin = origin' := by
  induction ho with
  | int he =>
    cases ho' with
    | int => rfl
    | array he' => cases he.symm.trans he'
    | named he' hs =>
      cases he.symm.trans he'
      exact (h.not_int hs).elim
  | array he =>
    cases ho' with
    | int he' => cases he.symm.trans he'
    | array => rfl
    | named he' => cases he.symm.trans he'
  | named he hs _ ih =>
    cases ho' with
    | int he' =>
      cases he.symm.trans he'
      exact (h.not_int hs).elim
    | array he' => cases he.symm.trans he'
    | named he' hs' ho' =>
      cases he.symm.trans he'
      cases h.site_unique hs hs'
      exact ih ho'

end Program.Given

/-! ### Numbers of array types -/

private theorem arrays_take_succ {typed : List (TypeSite × TypeId)} {i : Nat} {p : TypeSite × TypeId}
    (h : typed[i]? = some p) : arrays (typed.take (i + 1)) = arrays (typed.take i) + p.1.type.layers := by
  rw [List.take_add_one, h, arrays_append]
  simp [arrays]

private theorem arrays_take_le (typed : List (TypeSite × TypeId)) {i j : Nat} (h : i ≤ j) :
    arrays (typed.take i) ≤ arrays (typed.take j) := by
  obtain ⟨k, rfl⟩ := Nat.exists_eq_add_of_le h
  rw [List.take_add, arrays_append]
  exact Nat.le_add_right _ _

/-- The origin is int or a use of an array type expression. -/
def Origin.Written (program : Program) : Origin → Prop
  | .int => True
  | .array occurrence => ∃ node length base, program.typeExpr? occurrence = some (.array node length base)

theorem Program.HasOrigin.written {program : Program} {o : Occurrence} {origin : Origin}
    (h : program.HasOrigin o origin) : origin.Written program := by
  induction h with
  | int => exact trivial
  | array he => exact ⟨_, _, _, he⟩
  | named _ _ _ ih => exact ih

namespace Program.Given
variable {program : Program} {context : Context} {typed : List (TypeSite × TypeId)} {o o' : Occurrence}
  {expr base : TypeExpr} {node : Node} {length : UInt32} {type type' : TypeId} {origin origin' : Origin}

/-- An array type took its number behind those of all sites before its own and of the array types inside it. -/
theorem array_number (h : program.Given context typed) (he : program.typeExpr? o = some (.array node length base))
    (ht : program.typeAt? context o = some type) :
    type = 2 + arrays (typed.take o.site) + base.layers ∧
      arrays (typed.take (o.site + 1)) = arrays (typed.take o.site) + (o.depth + base.layers + 1) := by
  obtain ⟨p, hp, _, hb⟩ := h.site he
  refine ⟨(h.takes he ht).1, ?_⟩
  rw [arrays_take_succ hp, TypeExpr.layers_below? hb, TypeExpr.layers, Nat.add_assoc]

private theorem array_injective (h : program.Given context typed) {node' : Node} {length' : UInt32} {base' : TypeExpr}
    (he : program.typeExpr? o = some (.array node length base))
    (he' : program.typeExpr? o' = some (.array node' length' base'))
    (ht : program.typeAt? context o = some type) (ht' : program.typeAt? context o' = some type) : o = o' := by
  obtain ⟨hnumber, hnext⟩ := h.array_number he ht
  obtain ⟨hnumber', hnext'⟩ := h.array_number he' ht'
  have hsame : 2 + arrays (typed.take o.site) + base.layers = 2 + arrays (typed.take o'.site) + base'.layers :=
    hnumber.symm.trans hnumber'
  rcases Nat.lt_trichotomy o.site o'.site with hlt | heq | hgt
  · have hle : arrays (typed.take (o.site + 1)) ≤ arrays (typed.take o'.site) := arrays_take_le typed hlt
    omega
  · rw [heq] at hnext hsame
    have hdepth : o.depth = o'.depth := by omega
    cases o
    cases o'
    cases heq
    cases hdepth
    rfl
  · have hle : arrays (typed.take (o'.site + 1)) ≤ arrays (typed.take o.site) := arrays_take_le typed hgt
    omega

private theorem int_ne_array (h : program.Given context typed)
    (he : program.typeExpr? o = some (.array node length base)) : program.typeAt? context o ≠ some TypeId.int := by
  intro ht
  have hnumber : 0 = 2 + arrays (typed.take o.site) + base.layers := (h.array_number he ht).1
  omega

/-- Different origins have different types. -/
theorem type_eq_iff (h : program.Given context typed) (hw : origin.Written program) (hw' : origin'.Written program)
    (ht : origin.type? program context = some type) (ht' : origin'.type? program context = some type') :
    type = type' ↔ origin = origin' := by
  constructor
  · rintro rfl
    cases origin with
    | int =>
      cases origin' with
      | int => rfl
      | array o' =>
        cases ht
        obtain ⟨_, _, _, he'⟩ := hw'
        exact absurd ht' (h.int_ne_array he')
    | array o =>
      obtain ⟨_, _, _, he⟩ := hw
      cases origin' with
      | int =>
        cases ht'
        exact absurd ht (h.int_ne_array he)
      | array o' =>
        obtain ⟨_, _, _, he'⟩ := hw'
        rw [h.array_injective he he' ht ht']
  · rintro rfl
    exact Option.some.inj (ht.symm.trans ht')

/-- The type of an element is that of the base. -/
theorem base_type (h : program.Given context typed) (he : program.typeExpr? o = some (.array node length base))
    (ht : program.typeAt? context o = some type) {element : TypeId} {count : UInt32}
    (ha : context.types.array? type = some (element, count)) :
    program.typeExpr? o.base = some base ∧ program.typeAt? context o.base = some element := by
  obtain ⟨p, hp, hs, hb⟩ := h.site he
  have hbase : program.typeExpr? o.base = some base := by
    rw [typeExpr?, show o.base.site = o.site from rfl, hs]
    exact TypeExpr.below?_succ hb
  refine ⟨hbase, ?_⟩
  unfold typeAt? at ht ⊢
  rw [show o.base.site = o.site from rfl]
  obtain ⟨site, hsite, ht⟩ := Option.bind_eq_some_iff.mp ht
  obtain ⟨held, hheld, ht⟩ := Option.bind_eq_some_iff.mp ht
  refine Option.bind_eq_some_iff.mpr ⟨site, hsite, Option.bind_eq_some_iff.mpr ⟨held, hheld, ?_⟩⟩
  rw [show o.base.depth = o.depth + 1 from rfl, TypeTable.below?_succ, ht, Option.bind_some, ha, Option.map_some]

end Program.Given

/-- The nodes visited are those of the type expressions inside, with their types. -/
theorem TypeExpr.Takes.mem_visits {types : TypeTable} {means : Name → TypeId → Prop} {first type found : TypeId}
    {expr : TypeExpr} {id : NodeId} (h : expr.Takes types means first type) :
    (id, found) ∈ expr.visits types type ↔
      ∃ depth inner, expr.below? depth = some inner ∧ inner.node.id = id ∧ types.below? type depth = some found := by
  induction expr generalizing type with
  | named node name =>
    constructor
    · intro hm
      cases List.mem_singleton.mp hm
      exact ⟨0, _, rfl, rfl, rfl⟩
    · rintro ⟨depth, inner, hb, rfl, hf⟩
      cases depth with
      | zero =>
        cases hb
        cases hf
        exact List.mem_singleton_self _
      | succ depth => cases hb
  | array node length base ih =>
    obtain ⟨_, element, ha, hb⟩ := h
    simp only [visits, ha, List.mem_append, ih hb, List.mem_singleton]
    constructor
    · rintro (⟨depth, inner, hb, hid, hf⟩ | hm)
      · exact ⟨depth + 1, inner, hb, hid, by rw [TypeTable.below?, ha]; exact hf⟩
      · cases hm
        exact ⟨0, _, rfl, rfl, rfl⟩
    · rintro ⟨depth, inner, hb, rfl, hf⟩
      cases depth with
      | zero =>
        cases hb
        cases hf
        exact .inr rfl
      | succ depth =>
        rw [TypeTable.below?, ha] at hf
        exact .inl ⟨depth, inner, hb, rfl, hf⟩

namespace Program.Given
variable {program : Program} {context : Context} {typed : List (TypeSite × TypeId)}

theorem mem_visits (h : program.Given context typed) {id : NodeId} {type : TypeId} :
    (id, type) ∈ (typed.flatMap fun p => p.1.type.visits context.types p.2) ↔
      ∃ o expr, program.typeExpr? o = some expr ∧ expr.node.id = id ∧ program.typeAt? context o = some type := by
  rw [List.mem_flatMap]
  constructor
  · rintro ⟨p, hp, hm⟩
    obtain ⟨i, hi⟩ := List.mem_iff_getElem?.mp hp
    obtain ⟨depth, inner, hb, hid, hf⟩ := (h.resolves.takes hi).mem_visits.mp hm
    have hs : program.typeSites[i]? = some p.1 := by rw [← h.sites, List.getElem?_map, hi]; rfl
    refine ⟨⟨i, depth⟩, inner, Option.bind_eq_some_iff.mpr ⟨p.1, hs, hb⟩, hid, ?_⟩
    exact Option.bind_eq_some_iff.mpr ⟨p.1, hs, Option.bind_eq_some_iff.mpr ⟨p.2, h.held p hp, hf⟩⟩
  · rintro ⟨o, expr, he, hid, ht⟩
    obtain ⟨p, hp, hs, hb⟩ := h.site he
    have hm := List.mem_of_getElem? hp
    obtain ⟨site, hs', ht⟩ := Option.bind_eq_some_iff.mp ht
    obtain ⟨held, hheld, hf⟩ := Option.bind_eq_some_iff.mp ht
    rw [hs] at hs'
    cases hs'
    rw [h.held p hm] at hheld
    cases hheld
    exact ⟨p, hm, (h.resolves.takes hp).mem_visits.mpr ⟨o.depth, expr, hb, hid, hf⟩⟩

/-- Of a node the type of one of its uses is remembered. -/
theorem remembered (h : program.Given context typed) (id : NodeId) :
    (∀ type, context.findings.typeExprs.at? id = some type → ∃ o expr, program.typeExpr? o = some expr ∧
      expr.node.id = id ∧ program.typeAt? context o = some type) ∧
    ∀ o expr, program.typeExpr? o = some expr → expr.node.id = id →
      (context.findings.typeExprs.at? id).isSome := by
  have hfound : context.findings.typeExprs.at? id =
      Keyed.at? (typed.flatMap fun p => p.1.type.visits context.types p.2).reverse id := by
    rw [h.resolves.found, Keyed.at?_putAll]
    exact Option.or_none
  rw [hfound]
  constructor
  · intro type ht
    exact h.mem_visits.mp (List.mem_reverse.mp (Keyed.mem_of_at? ht))
  · intro o expr he hid
    obtain ⟨type, ht, _⟩ := h.exists_type he
    have hm := List.mem_map_of_mem (f := Prod.fst) (List.mem_reverse.mpr (h.mem_visits.mpr ⟨o, expr, he, hid, ht⟩))
    rw [← Option.ne_none_iff_isSome, Ne, Keyed.at?_eq_none_iff]
    exact fun hnot => hnot hm

end Program.Given

end SplLang

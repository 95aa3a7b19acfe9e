import SplLang.Proofs.Spellings

/-! Two programs with the same type expressions in different orders number their types differently. The counterpart
of a type is the one of the same origin, and what is well typed in one program has counterparts in the other. -/
namespace SplLang

/-! ### Other numbers for the same types -/

/-- What is visible around the second body is the same, and only the numbers of types are others. -/
structure Surroundings.Renumbered (around around' : Surroundings) (To : TypeId → TypeId → Prop) : Prop where
  int : To TypeId.int TypeId.int
  boolean : To TypeId.boolean TypeId.boolean
  unique : ∀ type first second, To type first → To type second → first = second
  element : ∀ type type' element length, To type type' → around.types.array? type = some (element, length) →
    ∃ element', around'.types.array? type' = some (element', length) ∧ To element element'
  varType : ∀ name type, around.varType? name = some type → ∃ type', around'.varType? name = some type' ∧ To type type'
  callee : ∀ name parameters, around.callee? name = some parameters → ∃ parameters',
    around'.callee? name = some parameters' ∧ List.Forall₂ (fun p p' => To p.1 p'.1 ∧ p'.2 = p.2) parameters parameters'

section
variable {around around' : Surroundings} {To : TypeId → TypeId → Prop}

mutual

private theorem Variable.HasType.renumbered (h : around.Renumbered around' To) {v : Variable} {type : TypeId}
    (ht : v.HasType around type) : ∃ type', v.HasType around' type' ∧ To type type' := by
  cases ht with
  | named hn =>
    obtain ⟨type', hn', hto⟩ := h.varType _ _ hn
    exact ⟨type', .named hn', hto⟩
  | element ha hi he =>
    obtain ⟨arrayType', ha', hto⟩ := ha.renumbered h
    obtain ⟨indexType', hi', hint⟩ := hi.renumbered h
    cases h.unique _ _ _ hint h.int
    obtain ⟨element', he', hto'⟩ := h.element _ _ _ _ hto he
    exact ⟨element', .element ha' hi' he', hto'⟩

private theorem Expr.HasType.renumbered (h : around.Renumbered around' To) {e : Expr} {type : TypeId}
    (ht : e.HasType around type) : ∃ type', e.HasType around' type' ∧ To type type' := by
  cases ht with
  | literal => exact ⟨_, .literal, h.int⟩
  | load hs =>
    obtain ⟨type', hs', hto⟩ := hs.renumbered h
    exact ⟨type', .load hs', hto⟩
  | arithmetic hl hr =>
    obtain ⟨leftType', hl', hleft⟩ := hl.renumbered h
    obtain ⟨rightType', hr', hright⟩ := hr.renumbered h
    cases h.unique _ _ _ hleft h.int
    cases h.unique _ _ _ hright h.int
    exact ⟨_, .arithmetic hl' hr', h.int⟩
  | comparison hl hr =>
    obtain ⟨leftType', hl', hleft⟩ := hl.renumbered h
    obtain ⟨rightType', hr', hright⟩ := hr.renumbered h
    cases h.unique _ _ _ hleft h.int
    cases h.unique _ _ _ hright h.int
    exact ⟨_, .comparison hl' hr', h.boolean⟩

end

/-- An expression keeps a type that is numbered the same. -/
theorem Expr.HasType.kept (h : around.Renumbered around' To) {e : Expr} {type type' : TypeId}
    (ht : e.HasType around type) (hto : To type type') : e.HasType around' type' := by
  obtain ⟨found, ht', hfound⟩ := ht.renumbered h
  cases h.unique _ _ _ hfound hto
  exact ht'

/-- Arguments fit the parameters that are numbered the same. -/
theorem fits_renumbered (h : around.Renumbered around' To) {arguments : List Expr}
    {parameters parameters' : List (TypeId × Bool)} (ha : List.Forall₂ (Expr.FitsParameter around) arguments parameters)
    (hp : List.Forall₂ (fun p p' => To p.1 p'.1 ∧ p'.2 = p.2) parameters parameters') :
    List.Forall₂ (Expr.FitsParameter around') arguments parameters' := by
  induction ha generalizing parameters' with
  | nil =>
    cases hp
    exact .nil
  | cons hfit _ ih =>
    cases hp with
    | cons hsame hrest => exact .cons ⟨hfit.1.kept h hsame.1, fun hr => hfit.2 (hsame.2 ▸ hr)⟩ (ih hrest)

/-- Bodies stay well typed. -/
theorem Stmt.Typed.renumbered (h : around.Renumbered around' To) {s : Stmt} (ht : s.Typed around) :
    s.Typed around' := by
  induction ht with
  | assign ht hv =>
    obtain ⟨targetType', ht', hto⟩ := ht.renumbered h
    cases h.unique _ _ _ hto h.int
    exact .assign ht' (hv.kept h h.int)
  | ifThen hc _ ih => exact .ifThen (hc.kept h h.boolean) ih
  | ifElse hc _ _ ih ih' => exact .ifElse (hc.kept h h.boolean) ih ih'
  | whileDo hc _ ih => exact .whileDo (hc.kept h h.boolean) ih
  | call hc ha =>
    obtain ⟨parameters', hc', hp⟩ := h.callee _ _ hc
    exact .call hc' (fits_renumbered h ha hp)
  | block _ ih => exact .block ih
  | empty => exact .empty

end

/-! ### Types of the same origin -/

/-- The two uses are of the same part of the same type expression. -/
structure Occurrence.Moved (program program' : Program) (o o' : Occurrence) : Prop where
  site : ∃ site, program.typeSites[o.site]? = some site ∧ program'.typeSites[o'.site]? = some site
  depth : o'.depth = o.depth

inductive Origin.Moved (program program' : Program) : Origin → Origin → Prop where
  | int : Moved program program' .int .int
  | array {o o' : Occurrence} : o.Moved program program' o' → Moved program program' (.array o) (.array o')

/-- The two types have the same origin. -/
inductive Program.Counterpart (program program' : Program) (context context' : Context) : TypeId → TypeId → Prop where
  | boolean : Counterpart program program' context context' TypeId.boolean TypeId.boolean
  | origin {origin origin' : Origin} {type type' : TypeId} :
      origin.Written program → origin.Moved program program' origin' → origin.type? program context = some type →
        origin'.type? program' context' = some type' → Counterpart program program' context context' type type'

section
variable {program program' : Program} {context context' : Context} {o o' : Occurrence} {origin origin' : Origin}

private theorem Program.Counterpart.int : program.Counterpart program' context context' TypeId.int TypeId.int :=
  .origin (show Origin.int.Written program from trivial) .int rfl rfl

private theorem Occurrence.Moved.typeExpr?_eq (h : o.Moved program program' o') :
    program'.typeExpr? o' = program.typeExpr? o := by
  obtain ⟨site, hs, hs'⟩ := h.site
  rw [Program.typeExpr?, Program.typeExpr?, hs, hs', h.depth]

private theorem Occurrence.Moved.base (h : o.Moved program program' o') : o.base.Moved program program' o'.base :=
  ⟨h.site, congrArg (· + 1) h.depth⟩

private theorem Program.Given.moved_unique {typed : List (TypeSite × TypeId)} (h : program'.Given context' typed)
    {other : Occurrence} (hm : o.Moved program program' o') (hm' : o.Moved program program' other) : o' = other := by
  obtain ⟨site, hs, hs'⟩ := hm.site
  obtain ⟨found, hf, hf'⟩ := hm'.site
  cases hs.symm.trans hf
  obtain ⟨i, depth⟩ := o'
  obtain ⟨j, depth'⟩ := other
  cases hm.depth
  cases hm'.depth
  obtain ⟨procedure, name, expr⟩ := site
  cases h.site_unique hs' hf'
  rfl

private theorem Program.Given.origin_moved_unique {typed : List (TypeSite × TypeId)} (h : program'.Given context' typed)
    {other : Origin} (hm : origin.Moved program program' origin') (hm' : origin.Moved program program' other) :
    origin' = other := by
  cases hm with
  | int =>
    cases hm'
    rfl
  | array hm =>
    cases hm' with
    | array hm' => rw [h.moved_unique hm hm']

/-- No type expression has the type of comparisons. -/
theorem Program.Given.boolean_ne {typed : List (TypeSite × TypeId)} (h : program.Given context typed)
    (hw : origin.Written program) : origin.type? program context ≠ some TypeId.boolean := by
  intro ht
  cases origin with
  | int => cases ht
  | array o =>
    obtain ⟨_, _, base, he⟩ := hw
    have hnumber : 1 = 2 + arrays (typed.take o.site) + base.layers := (h.array_number he ht).1
    omega

/-- Names lead to the same origin where each declaration is found again. -/
theorem Program.HasOrigin.moved (hsites : ∀ site ∈ program.typeSites, site ∈ program'.typeSites)
    (ho : program.HasOrigin o origin) (hm : o.Moved program program' o') :
    ∃ origin', program'.HasOrigin o' origin' ∧ origin.Moved program program' origin' := by
  induction ho generalizing o' with
  | int he => exact ⟨.int, .int (hm.typeExpr?_eq ▸ he), .int⟩
  | array he => exact ⟨.array o', .array (hm.typeExpr?_eq ▸ he), .array hm⟩
  | @named _ _ _ index _ _ he hs _ ih =>
    obtain ⟨index', hs'⟩ := List.mem_iff_getElem?.mp (hsites _ (List.mem_of_getElem? hs))
    have hmoved : Occurrence.Moved program program' ⟨index, 0⟩ ⟨index', 0⟩ := ⟨⟨_, hs, hs'⟩, rfl⟩
    obtain ⟨origin', ho', horigin⟩ := ih hmoved
    exact ⟨origin', .named (hm.typeExpr?_eq ▸ he) hs' ho', horigin⟩

/-- A type has one counterpart. -/
theorem Program.Given.counterpart_unique {typed typed' : List (TypeSite × TypeId)} (h : program.Given context typed)
    (h' : program'.Given context' typed') {type first second : TypeId}
    (hf : program.Counterpart program' context context' type first)
    (hs : program.Counterpart program' context context' type second) : first = second := by
  cases hf with
  | boolean =>
    cases hs with
    | boolean => rfl
    | origin hw _ ht _ => exact absurd ht (h.boolean_ne hw)
  | origin hw hm ht ht' =>
    cases hs with
    | boolean => exact absurd ht (h.boolean_ne hw)
    | origin hw₂ hm₂ ht₂ ht₂' =>
      cases (h.type_eq_iff hw hw₂ ht ht₂).mp rfl
      cases h'.origin_moved_unique hm hm₂
      exact Option.some.inj (ht'.symm.trans ht₂')

end

/-! ### Programs with the same declarations -/

section
variable {program program' : Program} {context context' : Context} {sigs sigs' : List Signature} {sig sig' : Signature}
  {type type' : TypeId}

theorem Program.typeSites_subset (hd : program.declarations ⊆ program'.declarations) :
    program.typeSites ⊆ program'.typeSites := by
  intro site hs
  obtain ⟨declaration, hm, hs⟩ := List.mem_flatMap.mp hs
  exact List.mem_flatMap.mpr ⟨declaration, hd hm, hs⟩

private theorem Program.procedures_subset (hd : program.declarations ⊆ program'.declarations) :
    program.procedures ⊆ program'.procedures := by
  intro procedure hp
  obtain ⟨declaration, hm, hp⟩ := List.mem_filterMap.mp hp
  exact List.mem_filterMap.mpr ⟨declaration, hd hm, hp⟩

/-- Variables of which the second has the type with the other number. -/
def Entry.TypedTo (To : TypeId → TypeId → Prop) (entry entry' : Entry) : Prop :=
  ∃ type type', entry.variableType? = some type ∧ entry'.variableType? = some type' ∧ To type type'

private theorem LibraryProcedure.slot_type {p : LibraryProcedure} {slot : Slot} (hs : slot ∈ p.slots) :
    slot.type = TypeId.int := by
  obtain ⟨i, hi, rfl⟩ := List.mem_mapIdx.mp hs
  rfl

/-- Lists that are mapped to the same are related member by member. -/
theorem forall₂_of_map_eq {α β γ : Type} {f : α → γ} {g : β → γ} {xs : List α} {ys : List β}
    (h : xs.map f = ys.map g) : List.Forall₂ (fun x y => f x = g y) xs ys := by
  rw [← List.forall₂_map_right_iff (R := fun x z => f x = z), ← h, List.forall₂_map_right_iff]
  exact List.forall₂_same.mpr fun _ _ => rfl

namespace Program.Declares

/-- The same part of the same type expression has types with the same origin. -/
theorem counterpart_of_moved (h : program.Declares context sigs) (h' : program'.Declares context' sigs')
    (hd : program.declarations ⊆ program'.declarations) {o o' : Occurrence} {expr : TypeExpr}
    (hm : o.Moved program program' o') (he : program.typeExpr? o = some expr)
    (ht : program.typeAt? context o = some type) (ht' : program'.typeAt? context' o' = some type') :
    program.Counterpart program' context context' type type' := by
  obtain ⟨_, hgiven⟩ := h.given
  obtain ⟨_, hgiven'⟩ := h'.given
  obtain ⟨origin, ho⟩ := hgiven.exists_origin he
  obtain ⟨origin', ho', hmoved⟩ := ho.moved (Program.typeSites_subset hd) hm
  exact .origin ho.written hmoved (hgiven.type_of_origin ho ht) (hgiven'.type_of_origin ho' ht')

/-- The counterpart of an array type is an array type whose elements have the counterpart. -/
theorem counterpart_element (h : program.Declares context sigs) (h' : program'.Declares context' sigs')
    (hd : program.declarations ⊆ program'.declarations) (hc : program.Counterpart program' context context' type type')
    {element : TypeId} {length : UInt32} (ha : context.types.array? type = some (element, length)) :
    ∃ element', context'.types.array? type' = some (element', length) ∧
      program.Counterpart program' context context' element element' := by
  have hprimitive : ∀ {primitive}, primitive < TypeTable.primitives.count →
      context.types.array? primitive ≠ some (element, length) := by
    intro primitive hlt he
    rw [h.declared.built.array?_primitive hlt] at he
    cases he
  obtain ⟨_, hgiven⟩ := h.given
  obtain ⟨_, hgiven'⟩ := h'.given
  cases hc with
  | boolean => exact absurd ha (hprimitive (by decide))
  | origin hw hm ht ht' =>
    cases hm with
    | int =>
      cases ht
      exact absurd ha (hprimitive (by decide))
    | array hm =>
      obtain ⟨node, count, base, he⟩ := hw
      have he' := hm.typeExpr?_eq.trans he
      obtain ⟨_, _, hcount, _⟩ := hgiven.takes he ht
      cases hcount.symm.trans ha
      obtain ⟨_, element', ha', _⟩ := hgiven'.takes he' ht'
      obtain ⟨hbase, htbase⟩ := hgiven.base_type he ht ha
      obtain ⟨_, htbase'⟩ := hgiven'.base_type he' ht' ha'
      exact ⟨element', ha', h.counterpart_of_moved h' hd hm.base hbase htbase htbase'⟩

/-- Parameters and locals at the same site have counterparts as their types. -/
theorem counterpart_of_typed (h : program.Declares context sigs) (h' : program'.Declares context' sigs')
    (hd : program.declarations ⊆ program'.declarations) (hs : sig ∈ sigs) (hs' : sig' ∈ sigs')
    {p p' : TypeSite × TypeId} (hp : p ∈ sig.typed) (hp' : p' ∈ sig'.typed) (he : p.1 = p'.1) :
    program.Counterpart program' context context' p.2 p'.2 := by
  obtain ⟨i, hi, ht⟩ := h.declared.exists_site h.procedures hs hp
  obtain ⟨j, hj, ht'⟩ := h'.declared.exists_site h'.procedures hs' hp'
  have hm : Occurrence.Moved program program' ⟨i, 0⟩ ⟨j, 0⟩ := ⟨⟨p.1, hi, he ▸ hj⟩, rfl⟩
  exact h.counterpart_of_moved h' hd hm (Program.typeExpr?_of_site hi) ht ht'

theorem parameters_counterparts (h : program.Declares context sigs) (h' : program'.Declares context' sigs')
    (hd : program.declarations ⊆ program'.declarations) (hs : sig ∈ sigs) (hs' : sig' ∈ sigs')
    (he : sig.procedure = sig'.procedure) :
    List.Forall₂ (fun p p' => p.1 = p'.1 ∧ program.Counterpart program' context context' p.2 p'.2) sig.parameters
      sig'.parameters := by
  have hfits := (h.declared.fits sig hs).parameters_eq
  rw [he, ← (h'.declared.fits sig' hs').parameters_eq] at hfits
  refine forall₂_of_mem (forall₂_of_map_eq hfits) fun p hp p' hp' hsame => ⟨hsame, ?_⟩
  have hsite : p.1.typeSite sig.procedure.name = p'.1.typeSite sig'.procedure.name := by rw [hsame, he]
  exact h.counterpart_of_typed h' hd hs hs' (List.mem_append_left _ (List.mem_map_of_mem hp))
    (List.mem_append_left _ (List.mem_map_of_mem hp')) hsite

private theorem locals_counterparts (h : program.Declares context sigs) (h' : program'.Declares context' sigs')
    (hd : program.declarations ⊆ program'.declarations) (hs : sig ∈ sigs) (hs' : sig' ∈ sigs')
    (he : sig.procedure = sig'.procedure) :
    List.Forall₂ (fun l l' => l.1 = l'.1 ∧ program.Counterpart program' context context' l.2 l'.2) sig.locals
      sig'.locals := by
  have hfits := (h.declared.fits sig hs).locals_eq
  rw [he, ← (h'.declared.fits sig' hs').locals_eq] at hfits
  refine forall₂_of_mem (forall₂_of_map_eq hfits) fun l hl l' hl' hsame => ⟨hsame, ?_⟩
  have hsite : l.1.typeSite sig.procedure.name = l'.1.typeSite sig'.procedure.name := by rw [hsame, he]
  exact h.counterpart_of_typed h' hd hs hs' (List.mem_append_right _ (List.mem_map_of_mem hl))
    (List.mem_append_right _ (List.mem_map_of_mem hl')) hsite

/-- Every procedure is declared in both programs. -/
theorem exists_signature (h : program.Declares context sigs) (h' : program'.Declares context' sigs')
    (hd : program.declarations ⊆ program'.declarations) (hs : sig ∈ sigs) :
    ∃ sig' ∈ sigs', sig.procedure = sig'.procedure := by
  have hm := Program.procedures_subset hd (h.procedures ▸ List.mem_map_of_mem hs)
  rw [← h'.procedures] at hm
  obtain ⟨sig', hs', he⟩ := List.mem_map.mp hm
  exact ⟨sig', hs', he.symm⟩

/-- A variable has in the other program the counterpart as its type. -/
theorem varType_counterpart (h : program.Declares context sigs) (h' : program'.Declares context' sigs')
    (hd : program.declarations ⊆ program'.declarations) (hs : sig ∈ sigs) (hs' : sig' ∈ sigs')
    (he : sig.procedure = sig'.procedure) {name : Name} (ht : (sig.around context).varType? name = some type) :
    ∃ type', (sig'.around context').varType? name = some type' ∧
      program.Counterpart program' context context' type type' := by
  have hown : List.Forall₂ (fun e e' => e.1 = e'.1 ∧
      Entry.TypedTo (program.Counterpart program' context context') e.2 e'.2) sig.own sig'.own := by
    refine List.rel_append (List.rel_map (fun p p' hp => ?_) (h.parameters_counterparts h' hd hs hs' he))
      (List.rel_map (fun l l' hl => ?_) (h.locals_counterparts h' hd hs hs' he))
    · exact ⟨congrArg Parameter.name hp.1, _, _, rfl, rfl, hp.2⟩
    · exact ⟨congrArg LocalVariable.name hl.1, _, _, rfl, rfl, hl.2⟩
  have hat := Keyed.at?_forall₂ hown name
  rw [Signature.around, h.declared.scoped.varType?_eq hs] at ht
  obtain ⟨entry, hentry, ht⟩ := Option.bind_eq_some_iff.mp ht
  rw [hentry] at hat
  generalize hentry' : sig'.own.at? name = found at hat
  cases hat with
  | some hsame =>
    obtain ⟨_, type', ht₁, ht', hc⟩ := hsame
    cases ht₁.symm.trans ht
    refine ⟨type', ?_, hc⟩
    rw [Signature.around, h'.declared.scoped.varType?_eq hs', hentry']
    exact ht'

/-- A call means the same procedure, whose parameters have counterparts as their types. -/
theorem callee_counterparts (h : program.Declares context sigs) (h' : program'.Declares context' sigs')
    (hd : program.declarations ⊆ program'.declarations) (hs : sig ∈ sigs) (hs' : sig' ∈ sigs') {name : Name}
    {parameters : List (TypeId × Bool)} (hc : (sig.around context).callee? name = some parameters) :
    ∃ parameters', (sig'.around context').callee? name = some parameters' ∧
      List.Forall₂ (fun p p' => program.Counterpart program' context context' p.1 p'.1 ∧ p'.2 = p.2) parameters
        parameters' := by
  obtain ⟨entry, hentry, rfl⟩ := Option.map_eq_some_iff.mp hc
  rcases (h.declared.scoped.callee?_iff hs).mp hentry with ⟨p, hp, hn, rfl⟩ | ⟨called, hcalled, hn, rfl⟩
  · have hentry' := (h'.declared.scoped.callee?_iff hs').mpr (.inl ⟨p, hp, hn, rfl⟩)
    refine ⟨_, Option.map_eq_some_iff.mpr ⟨_, hentry', rfl⟩, List.forall₂_same.mpr fun kind hk => ⟨?_, rfl⟩⟩
    obtain ⟨slot, hslot, rfl⟩ := List.mem_map.mp hk
    rw [LibraryProcedure.slot_type hslot]
    exact .int
  · obtain ⟨called', hcalled', he⟩ := h.exists_signature h' hd hcalled
    have hentry' := (h'.declared.scoped.callee?_iff hs').mpr (.inr ⟨called', hcalled', he ▸ hn, rfl⟩)
    refine ⟨_, Option.map_eq_some_iff.mpr ⟨_, hentry', rfl⟩, ?_⟩
    refine List.rel_map (R := fun slot slot' => program.Counterpart program' context context' slot.type slot'.type ∧
      slot'.byReference = slot.byReference) (fun _ _ hslot => hslot) ?_
    refine List.rel_map (fun p p' hp => ?_) (h.parameters_counterparts h' hd hcalled hcalled' he)
    exact ⟨hp.2, congrArg Parameter.byReference hp.1.symm⟩

/-- Around the body of a procedure only the numbers of types are others. -/
theorem renumbered (h : program.Declares context sigs) (h' : program'.Declares context' sigs')
    (hd : program.declarations ⊆ program'.declarations) (hs : sig ∈ sigs) (hs' : sig' ∈ sigs')
    (he : sig.procedure = sig'.procedure) :
    (sig.around context).Renumbered (sig'.around context') (program.Counterpart program' context context') where
  int := .int
  boolean := .boolean
  unique _ _ _ hf hsecond := by
    obtain ⟨_, hgiven⟩ := h.given
    obtain ⟨_, hgiven'⟩ := h'.given
    exact hgiven.counterpart_unique hgiven' hf hsecond
  element _ _ _ _ hc ha := h.counterpart_element h' hd hc ha
  varType _ _ ht := h.varType_counterpart h' hd hs hs' he ht
  callee _ _ hc := h.callee_counterparts h' hd hs hs' hc

/-- A body that is well typed in one program is well typed in the other. -/
theorem typed_of_typed (h : program.Declares context sigs) (h' : program'.Declares context' sigs')
    (hd : program.declarations ⊆ program'.declarations)
    (ht : ∀ sig ∈ sigs, ∀ stmt ∈ sig.procedure.body, stmt.Typed (sig.around context))
    (hd' : program'.declarations ⊆ program.declarations) :
    ∀ sig' ∈ sigs', ∀ stmt ∈ sig'.procedure.body, stmt.Typed (sig'.around context') := by
  intro sig' hs' stmt hstmt
  obtain ⟨sig, hs, he⟩ := h'.exists_signature h hd' hs'
  exact (ht sig hs stmt (he ▸ hstmt)).renumbered (h.renumbered h' hd hs hs' he.symm)

end Program.Declares

end

end SplLang

import SplLang.Proofs.Spelled

/-! Resolving type expressions one after the other. Every array type that is written takes the next number of
the table, an inner one before the one around it; a name takes the number of what it means. -/
namespace SplLang
open Phase

/-- How many array types are written in a type expression. -/
def TypeExpr.layers : TypeExpr → Nat
  | .named .. => 0
  | .array _ _ base => base.layers + 1

/-- The type of a type expression whose array types took the numbers from the given one on. -/
def TypeExpr.Takes (types : TypeTable) (means : Name → TypeId → Prop) (first : TypeId) : TypeExpr → TypeId → Prop
  | .named _ name, type => means name type
  | .array _ length base, type => type = first + base.layers ∧
      ∃ element, types.array? type = some (element, length) ∧ base.Takes types means first element

/-- The nodes of a type expression with their types, in the order in which they are resolved. -/
def TypeExpr.visits (types : TypeTable) : TypeExpr → TypeId → List (NodeId × TypeId)
  | .named node _, type => [(node.id, type)]
  | .array node _ base, type =>
    (match types.array? type with
      | some (element, _) => base.visits types element
      | none => []) ++ [(node.id, type)]

/-- A type expression that stands as the type of something that is declared. -/
structure TypeSite where
  /-- The procedure of a parameter or local; none where a type is declared. -/
  procedure : Option Name
  name : Name
  type : TypeExpr

def Parameter.typeSite (procedure : Name) (parameter : Parameter) : TypeSite :=
  ⟨some procedure, parameter.name, parameter.type⟩

def LocalVariable.typeSite (procedure : Name) (declaration : LocalVariable) : TypeSite :=
  ⟨some procedure, declaration.name, declaration.type⟩

/-- The type expressions of a declaration, in the order in which they are resolved. -/
def Declaration.typeSites : Declaration → List TypeSite
  | .type declaration => [⟨none, declaration.name, declaration.type⟩]
  | .procedure declaration => declaration.parameters.map (·.typeSite declaration.name) ++
      declaration.locals.map (·.typeSite declaration.name)

/-- What a name means behind some type expressions that were resolved: what it meant before them, or the type
declared with one of them. -/
def Known (means : Name → TypeId → Prop) (typed : List (TypeSite × TypeId)) (name : Name) (type : TypeId) : Prop :=
  means name type ∨ ∃ p ∈ typed, p.1.procedure = none ∧ p.1.name = name ∧ p.2 = type

/-- How many array types are written in type expressions. -/
def arrays (typed : List (TypeSite × TypeId)) : Nat := (typed.map (·.1.type.layers)).sum

/-- The types with which a name is declared. -/
def Keyed.Names (entries : Keyed Name Entry) (name : Name) (type : TypeId) : Prop :=
  entries.at? name = some (.type type)

/-- What is declared at the site has the given type among the entries of declared types and in the signatures. -/
def TypeSite.HeldIn (entries : Keyed Name Entry) (sigs : List Signature) (site : TypeSite) (type : TypeId) : Prop :=
  match site.procedure with
  | none => (site.name, Entry.type type) ∈ entries
  | some procedure => ∃ sig ∈ sigs, sig.procedure.name = procedure ∧
      ∃ v, (site.name, Entry.var v) ∈ sig.own ∧ v.type = type

/-- The type expressions of a procedure with their types. -/
def Signature.typed (sig : Signature) : List (TypeSite × TypeId) :=
  sig.parameters.map (fun p => (p.1.typeSite sig.procedure.name, p.2)) ++
    sig.locals.map fun l => (l.1.typeSite sig.procedure.name, l.2)

/-- Resolving a type expression found the given type for it. -/
structure TypeExpr.Resolved (old new : Context) (means : Name → TypeId → Prop) (expr : TypeExpr) (type : TypeId) :
    Prop where
  takes : expr.Takes new.types means old.types.count type
  count : new.types.count = old.types.count + expr.layers
  found : new.findings.typeExprs = old.findings.typeExprs.putAll (expr.visits new.types type)

/-- Type expressions were resolved one after the other and the given types found for them. -/
structure Resolves (old new : Context) (means : Name → TypeId → Prop) (typed : List (TypeSite × TypeId)) : Prop where
  extends_types : old.types.Extends new.types
  takes : ∀ {i : Nat} {p : TypeSite × TypeId}, typed[i]? = some p → p.1.type.Takes new.types (Known means (typed.take i))
    (old.types.count + arrays (typed.take i)) p.2
  count : new.types.count = old.types.count + arrays typed
  found : new.findings.typeExprs =
    old.findings.typeExprs.putAll (typed.flatMap fun p => p.1.type.visits new.types p.2)

section
variable {types next : TypeTable} {means : Name → TypeId → Prop} {first type : TypeId} {expr : TypeExpr}

theorem TypeExpr.Takes.mono {means' : Name → TypeId → Prop} (hx : types.Extends next)
    (hm : ∀ name type, means name type → means' name type) (h : expr.Takes types means first type) :
    expr.Takes next means' first type := by
  induction expr generalizing type with
  | named node name => exact hm name type h
  | array node length base ih =>
    obtain ⟨he, element, ha, hb⟩ := h
    exact ⟨he, element, (hx.array? (TypeTable.lt_count_of_array? ha)).trans ha, ih hb⟩

private theorem TypeExpr.Takes.visits_eq (hx : types.Extends next) (h : expr.Takes types means first type) :
    expr.visits next type = expr.visits types type := by
  induction expr generalizing type with
  | named node name => rfl
  | array node length base ih =>
    obtain ⟨he, element, ha, hb⟩ := h
    simp only [visits, ha, (hx.array? (TypeTable.lt_count_of_array? ha)).trans ha, ih hb]

@[simp]
theorem arrays_append (first rest : List (TypeSite × TypeId)) : arrays (first ++ rest) = arrays first + arrays rest := by
  simp [arrays]

theorem Known.mono {means' : Name → TypeId → Prop} {typed typed' : List (TypeSite × TypeId)} {name : Name}
    (hm : means name type → Known means' typed' name type) (ht : ∀ p ∈ typed, p ∈ typed')
    (h : Known means typed name type) : Known means' typed' name type := by
  rcases h with h | ⟨p, hp, hn⟩
  · exact hm h
  · exact .inr ⟨p, ht p hp, hn⟩

end

section
variable {old middle new : Context} {means means' : Name → TypeId → Prop} {typed typed' : List (TypeSite × TypeId)}

theorem TypeExpr.Resolved.mono {expr : TypeExpr} {type : TypeId} (h : expr.Resolved old new means type)
    (hm : ∀ name type, means name type → means' name type) : expr.Resolved old new means' type :=
  ⟨h.takes.mono (.refl _) hm, h.count, h.found⟩

theorem Resolves.single (site : TypeSite) {type : TypeId} (h : site.type.Resolved old new means type)
    (hx : old.types.Extends new.types) : Resolves old new means [(site, type)] where
  extends_types := hx
  takes {i p} hi := by
    cases i with
    | zero =>
      cases hi
      exact h.takes.mono (.refl _) fun _ _ hm => .inl hm
    | succ i => cases hi
  count := by simpa [arrays] using h.count
  found := by simpa using h.found

/-- Nothing is resolved where the types and what was found for type expressions stay. -/
theorem Resolves.of_eq (ht : new.types = old.types) (hf : new.findings = old.findings) : Resolves old new means [] where
  extends_types := ht ▸ .refl _
  takes hi := by cases hi
  count := by rw [ht]; rfl
  found := by rw [hf]; rfl

/-- What the names mean in the second part may be known from the first. -/
theorem Resolves.trans (h : Resolves old middle means typed) (h' : Resolves middle new means' typed')
    (hm : ∀ name type, means' name type → Known means typed name type) :
    Resolves old new means (typed ++ typed') where
  extends_types := h.extends_types.trans h'.extends_types
  takes {i p} hi := by
    rcases Nat.lt_or_ge i typed.length with hlt | hge
    · rw [List.getElem?_append_left hlt] at hi
      rw [List.take_append_of_le_length (Nat.le_of_lt hlt)]
      exact (h.takes hi).mono h'.extends_types fun _ _ hk => hk
    · obtain ⟨j, rfl⟩ := Nat.exists_eq_add_of_le hge
      rw [List.getElem?_append_right hge, Nat.add_sub_cancel_left] at hi
      have htakes := h'.takes hi
      rw [h.count, Nat.add_assoc] at htakes
      rw [List.take_length_add_append, arrays_append]
      refine htakes.mono (.refl _) fun name type hk => hk.mono (fun hk => ?_) fun p hp => List.mem_append_right _ hp
      exact (hm name type hk).mono .inl fun p hp => List.mem_append_left _ hp
  count := by rw [h'.count, h.count, arrays_append, Nat.add_assoc]
  found := by
    have hkeep : (typed.flatMap fun p => p.1.type.visits new.types p.2) =
        typed.flatMap fun p => p.1.type.visits middle.types p.2 := by
      rw [List.flatMap_def, List.flatMap_def]
      congr 1
      apply List.map_congr_left
      intro p hp
      obtain ⟨i, hi⟩ := List.mem_iff_getElem?.mp hp
      exact (h.takes hi).visits_eq h'.extends_types
    rw [h'.found, h.found, List.flatMap_append, hkeep, Keyed.putAll, Keyed.putAll, Keyed.putAll, List.foldl_append]

theorem Resolves.keep (h : Resolves old middle means typed) (ht : new.types = middle.types)
    (hf : new.findings = middle.findings) : Resolves old new means typed := by
  simpa using h.trans (.of_eq ht hf) fun _ _ hk => Or.inl hk

/-- The parts of one signature see the same names. -/
theorem Resolves.append (h : Resolves old middle means typed) (h' : Resolves middle new means typed') :
    Resolves old new means (typed ++ typed') :=
  h.trans h' fun _ _ hk => .inl hk

theorem TypeSite.HeldIn.mono {entries entries' : Keyed Name Entry} {sigs sigs' : List Signature} {site : TypeSite}
    {type : TypeId} (he : ∀ pair ∈ entries, pair ∈ entries') (hs : ∀ sig ∈ sigs, sig ∈ sigs')
    (h : site.HeldIn entries sigs type) : site.HeldIn entries' sigs' type := by
  unfold HeldIn at h ⊢
  split
  · next hp =>
    rw [hp] at h
    exact he _ h
  · next hp =>
    rw [hp] at h
    obtain ⟨sig, hsig, hheld⟩ := h
    exact ⟨sig, hs sig hsig, hheld⟩

theorem Signature.typed_sites (sig : Signature) (hp : sig.parameters.map (·.1) = sig.procedure.parameters)
    (hl : sig.locals.map (·.1) = sig.procedure.locals) :
    sig.typed.map (·.1) = (Declaration.procedure sig.procedure).typeSites := by
  rw [Declaration.typeSites, ← hp, ← hl, Signature.typed, List.map_append]
  simp only [List.map_map]
  rfl

/-- The scope of a procedure holds its parameters and locals. -/
theorem Signature.heldIn (sig : Signature) (entries : Keyed Name Entry) {p : TypeSite × TypeId} (hp : p ∈ sig.typed) :
    p.1.HeldIn entries [sig] p.2 := by
  rcases List.mem_append.mp hp with hp | hp
  · obtain ⟨parameter, hm, rfl⟩ := List.mem_map.mp hp
    exact ⟨sig, List.mem_singleton_self sig, rfl, _, List.mem_append_left _ (List.mem_map_of_mem hm), rfl⟩
  · obtain ⟨declaration, hm, rfl⟩ := List.mem_map.mp hp
    exact ⟨sig, List.mem_singleton_self sig, rfl, _, List.mem_append_right _ (List.mem_map_of_mem hm), rfl⟩

end

section
variable {start : Progress} {known : Name → Option Spelled}

private theorem rememberTypeExpr_exact (node : NodeId) (type : TypeId) :
    Exact (rememberTypeExpr node type) start True fun _ finish => finish.context.types = start.context.types ∧
      finish.context.scopes = start.context.scopes ∧
      finish.context.findings.typeExprs = start.context.findings.typeExprs.put node type where
  succeeds _ := ⟨(), _, rfl⟩
  sound := by
    intro u finish h
    cases h
    exact ⟨trivial, rfl, rfl, rfl⟩

private theorem reportEmpty_exact (position : Position) (length : UInt32) :
    Exact (reportEmpty position length) start True fun _ finish => finish.context = start.context := by
  unfold reportEmpty
  split
  · exact .report _
  · exact .pure rfl

private theorem addArray_exact {element : TypeId} {spelled : Spelled} (hb : start.context.types.Built)
    (hs : start.context.types.Spells element spelled) (position : Position) (length : UInt32) :
    Exact (addArray position element length) start ((Spelled.array length spelled).byteSize < 2^32)
      fun type finish => Grown start.context finish.context ∧
        finish.context.types.array? type = some (element, length) ∧ type = start.context.types.count ∧
        finish.context.types.count = start.context.types.count + 1 ∧
        finish.context.findings = start.context.findings := by
  have hsize : (start.context.types.byteSize element).toNat = spelled.byteSize := hb.byteSize_of_spells hs
  refine ⟨?_, ?_⟩
  · intro hlt
    rw [Spelled.byteSize, ← hsize] at hlt
    obtain ⟨w, hw⟩ := Option.isSome_iff_exists.mp (Word.unsigned?_isSome_iff.mpr hlt)
    have ha : start.context.types.addArray? element length =
        some (start.context.types.count, ⟨.array element length :: start.context.types.newestFirst⟩) := by
      simp [TypeTable.addArray?, hw]
    unfold addArray
    rw [run_context_bind, ha]
    exact ⟨_, _, rfl⟩
  · intro type finish h
    obtain ⟨ha, hscopes, hfindings⟩ := run_addArray h
    obtain ⟨rfl, hnext, hlt⟩ := TypeTable.addArray?_eq_some ha
    rw [hsize] at hlt
    refine ⟨hlt, ⟨.add hb (hb.declarable_of_spells hs) ha, TypeTable.extends_of_addArray? ha, hscopes⟩, ?_, rfl, ?_,
      hfindings⟩
    · rw [TypeTable.array?_eq_some, hnext]
      exact Numbered.at?_cons_self _ _
    · rw [hnext]
      rfl

/-- A type expression can be resolved exactly if it means something. -/
theorem TypeExpr.resolve_exact (expr : TypeExpr) {scope : ScopeId} {start : Progress} (hb : start.context.types.Built)
    (hk : start.context.types.Knows (start.context.scopes.seen? scope) known) :
    Exact (expr.resolve scope) start (∃ spelled, expr.Means known spelled) fun type finish =>
      Grown start.context finish.context ∧
      expr.Denotes finish.context.types (start.context.scopes.seen? scope) type ∧
      expr.Resolved start.context finish.context
        (fun name type => start.context.scopes.seen? scope name = some (.type type)) type ∧
      ∃ spelled, expr.Means known spelled ∧ finish.context.types.Spells type spelled := by
  induction expr with
  | named node name =>
    rw [resolve]
    apply Exact.context_bind
    split
    · next type hs =>
      obtain ⟨spelled, hknown, hspells⟩ := hk.spelled hs
      refine Exact.congr ?_ (iff_of_true trivial ⟨spelled, .named hknown⟩)
      refine (rememberTypeExpr_exact node.id type).bind_of_true fun _ middle hm => .pure ?_
      obtain ⟨ht, hscopes, hfound⟩ := hm
      exact ⟨.of_eq hb ht hscopes, hs, ⟨hs, by rw [ht]; rfl, hfound⟩, spelled, .named hknown, ht ▸ hspells⟩
    · next entry hne hs =>
      refine .fail ?_
      rintro ⟨spelled, ⟨hknown⟩⟩
      obtain ⟨type, he, _⟩ := hk.entry hknown
      exact hne type (Option.some.inj (hs.symm.trans he))
    · next hs =>
      refine .fail ?_
      rintro ⟨spelled, ⟨hknown⟩⟩
      obtain ⟨type, he, _⟩ := hk.entry hknown
      rw [hs] at he
      cases he
  | array node length base ih =>
    rw [resolve, exists_means_array_iff, exists_means_and_iff]
    refine ih.bind fun element based _ hbased => ?_
    obtain ⟨hg, hdenotes, hresolved, spelled, hm, hspells⟩ := hbased
    refine (reportEmpty_exact node.position length).bind_of_true fun _ reported hreported => ?_
    -- Whether the array is too large may not depend on the number found for its elements, only on their meaning.
    refine Exact.congr ?_ hm.forall_iff.symm
    refine (addArray_exact (hreported ▸ hg.built) (hreported ▸ hspells) node.position length).bind_true
      fun type added hsize hadded => ?_
    obtain ⟨hgrown, ha, htype, hcount, hfindings⟩ := hadded
    rw [hreported] at hgrown htype hcount hfindings
    refine (rememberTypeExpr_exact node.id type).bind_of_true fun _ middle hm' => .pure ?_
    obtain ⟨ht, hscopes, hfound⟩ := hm'
    have hx := hgrown.extends_types
    refine ⟨(hg.trans hgrown).trans (.of_eq hgrown.built ht hscopes), ?_, ⟨?_, ?_, ?_⟩, _, .array hm hsize, ?_⟩
    · rw [ht]
      exact ⟨element, ha, hdenotes.mono hx fun _ _ h => h⟩
    · rw [ht]
      exact ⟨htype.trans hresolved.count, element, ha, hresolved.takes.mono hx fun _ _ h => h⟩
    · rw [ht, hcount, hresolved.count, Nat.add_assoc]
      rfl
    · rw [hfound, hfindings, hresolved.found, ht]
      simp only [visits, ha, hresolved.takes.visits_eq hx, Keyed.putAll, List.foldl_append, List.foldl_cons,
        List.foldl_nil]
    · rw [ht]
      exact .array ha (hspells.mono hx)

end
end SplLang

import SplLang.Proofs.Outward
import SplLang.Proofs.Tables
import SplLang.Proofs.Unseen

/-! Programs that fail halfway. The declarations before the one that fails are entered whatever the scopes held
before, and of the one that fails nothing is seen. -/
namespace SplLang
open Phase

namespace ScopeTree

/-- The newest scope lies in the global one, and it holds some variables so far. -/
structure Filling (tree : ScopeTree) (globals : Keyed Name Entry) (scope : ScopeId) (own : Keyed Name Entry) :
    Prop where
  outer : tree.scope? globalScope = some ⟨none, globals⟩
  inner : globalScope < scope
  newest : tree.count = scope + 1
  held : tree.scope? scope = some ⟨some globalScope, own⟩
  vars : ∀ pair ∈ own, ∃ v, pair.2 = Entry.var v

section
variable {tree next : ScopeTree} {globals own : Keyed Name Entry} {scope : ScopeId}

private theorem seen?_of_outermost (h : tree.scope? globalScope = some ⟨none, globals⟩) :
    tree.seen? globalScope = globals.at? := by
  funext name
  rw [seen?_of_no_parent (lt_count_of_scope? h) (parent?_of_scope? h), held?_of_scope? h]

theorem Rooted.scope?_global (h : tree.Rooted) : ∃ globals, tree.scope? globalScope = some ⟨none, globals⟩ := by
  obtain ⟨⟨parent, globals⟩, hs⟩ := Option.isSome_iff_exists.mp ((Numbered.at?_isSome_iff _ _).mpr h.nonempty)
  have hparent : parent = none := (parent?_of_scope? hs).symm.trans h.outermost
  exact ⟨globals, hparent ▸ hs⟩

/-- The variables hide types; the types that are seen are global ones. -/
theorem Filling.global_of_seen (h : tree.Filling globals scope own) {name : Name} {type : TypeId}
    (hs : tree.seen? scope name = some (.type type)) : globals.at? name = some (.type type) := by
  have hseen : tree.seen? scope name = (own.at? name).or (globals.at? name) := by
    rw [seen?_of_nested (parent?_of_scope? h.outer) (parent?_of_scope? h.held) h.inner, held?_of_scope? h.held]
    exact congrArg _ (held?_of_scope? h.outer name)
  rw [hseen] at hs
  rcases Option.or_eq_some_iff.mp hs with hs | ⟨_, hs⟩
  · obtain ⟨v, hv⟩ := h.vars _ (Keyed.mem_of_at? hs)
    cases hv
  · exact hs

private theorem Filling.enter (h : tree.Filling globals scope own) {name : Name} {v : VariableEntry}
    (he : tree.enter? scope name (.var v) = some next) : next.Filling globals scope (own ++ [(name, .var v)]) where
  outer := (scope?_of_enter?_of_ne he (Nat.ne_of_lt h.inner)).trans h.outer
  inner := h.inner
  newest := (count_of_enter? he).trans h.newest
  held := (scope?_of_enter? he h.held).2
  vars := List.forall_mem_append.mpr ⟨h.vars, List.forall_mem_singleton.mpr ⟨v, rfl⟩⟩

private theorem filling_nest (h : tree.scope? globalScope = some ⟨none, globals⟩) :
    (tree.nest globalScope).2.Filling globals tree.count [] where
  outer := by
    rw [scope?_nest, if_neg (Nat.ne_of_lt (lt_count_of_scope? h)), h]
  inner := lt_count_of_scope? h
  newest := rfl
  held := by rw [scope?_nest, if_pos rfl]
  vars := nofun

end
end ScopeTree

/-- Declarations were entered: their entries stand behind the global ones that there were, every procedure has a
new scope, and the older scopes apart from the global one stayed as they were. -/
structure Adds (old new : Context) (globals entries : Keyed Name Entry) (sigs : List Signature) : Prop where
  types : old.types.Extends new.types
  count : new.scopes.count = old.scopes.count + sigs.length
  outer : new.scopes.scope? ScopeTree.globalScope = some ⟨none, globals ++ entries⟩
  bodies : ∀ sig ∈ sigs, new.scopes.scope? sig.scope = some ⟨some ScopeTree.globalScope, sig.own⟩
  older : ∀ scope < old.scopes.count, scope ≠ ScopeTree.globalScope →
    new.scopes.scope? scope = old.scopes.scope? scope

theorem Adds.trans {old middle new : Context} {globals entries entries' : Keyed Name Entry}
    {sigs sigs' : List Signature} (h : Adds old middle globals entries sigs)
    (h' : Adds middle new (globals ++ entries) entries' sigs') :
    Adds old new globals (entries ++ entries') (sigs ++ sigs') where
  types := h.types.trans h'.types
  count := by rw [h'.count, h.count, List.length_append, Nat.add_assoc]
  outer := by rw [h'.outer, List.append_assoc]
  bodies := by
    refine List.forall_mem_append.mpr ⟨fun sig hsig => ?_, h'.bodies⟩
    have hbody := h.bodies sig hsig
    have hinner : sig.scope ≠ ScopeTree.globalScope := by
      intro he
      rw [he, h.outer] at hbody
      cases hbody
    exact (h'.older _ (ScopeTree.lt_count_of_scope? hbody) hinner).trans hbody
  older scope hs hne := by
    have hlt : scope < middle.scopes.count := by
      rw [h.count]
      exact Nat.lt_add_right _ hs
    exact (h'.older scope hlt hne).trans (h.older scope hs hne)

theorem Tables.mono {types next : TypeTable} {globals entries : Keyed Name Entry} {scope : ScopeId}
    {declarations : List Declaration} {sigs : List Signature} (hx : types.Extends next)
    (h : Tables types globals scope declarations entries sigs) :
    Tables next globals scope declarations entries sigs := by
  induction h with
  | nil => exact .nil
  | type hd _ ih => exact .type (hd.mono hx fun _ _ he => he) ih
  | procedure hd _ ih => exact .procedure (hd.mono hx) ih

section
variable {globals own : Keyed Name Entry} {scope : ScopeId} {start finish : Progress}

/-- A type expression that is resolved denotes the type found for it, by what is seen from its scope. -/
theorem TypeExpr.resolve_denotes (expr : TypeExpr) {type : TypeId} {finish : Progress}
    (hr : (expr.resolve scope).run start = .ok type finish) :
    expr.Denotes finish.context.types (start.context.scopes.seen? scope) type := by
  induction expr generalizing type finish with
  | named node name =>
    rw [resolve, run_context_bind] at hr
    split at hr
    · next found hs =>
      obtain ⟨_, middle, -, hr⟩ := run_bind_eq_ok.mp hr
      cases hr
      exact hs
    · cases hr
    · cases hr
  | array node length base ih =>
    obtain ⟨element, based, hb, ha, -⟩ := run_resolve_array hr
    refine ⟨element, ?_, (ih hb).mono (TypeTable.extends_of_addArray? ha) fun _ _ h => h⟩
    obtain ⟨rfl, hn, -⟩ := TypeTable.addArray?_eq_some ha
    rw [TypeTable.array?_eq_some, hn]
    exact Numbered.at?_cons_self _ _

private theorem resolve_keeps {expr : TypeExpr} {type : TypeId}
    (hr : (expr.resolve scope).run start = .ok type finish) :
    start.context.types.Extends finish.context.types ∧ finish.context.scopes = start.context.scopes :=
  have h := (expr.resolve_annotates (List.Subset.refl _) scope start).of_ok hr
  ⟨h.types, h.scopes⟩

private theorem Parameter.declare_fills {parameter : Parameter} {procedure : Name} {slot : Slot}
    (h : start.context.scopes.Filling globals scope own)
    (hr : (parameter.declare procedure scope).run start = .ok slot finish) :
    ∃ type, slot = ⟨type, parameter.byReference, none⟩ ∧
      start.context.types.Extends finish.context.types ∧
      parameter.type.Denotes finish.context.types globals.at? type ∧
      finish.context.scopes.Filling globals scope (own ++ [Signature.parameterEntry (parameter, type)]) := by
  obtain ⟨type, resolved, scopes, ht, -, hent, rfl, hfinish⟩ := run_declare hr
  have hd := parameter.type.resolve_denotes ht
  rw [ScopeTree.seen?_of_outermost h.outer] at hd
  obtain ⟨hx, hscopes⟩ := resolve_keeps ht
  rw [hfinish]
  exact ⟨type, rfl, hx, hd, (hscopes ▸ h).enter hent⟩

private theorem LocalVariable.declare_fills {declaration : LocalVariable} {procedure : Name} {u : Unit}
    (h : start.context.scopes.Filling globals scope own)
    (hr : (declaration.declare procedure scope).run start = .ok u finish) :
    ∃ type, start.context.types.Extends finish.context.types ∧
      declaration.type.Denotes finish.context.types globals.at? type ∧
      finish.context.scopes.Filling globals scope (own ++ [Signature.localEntry (declaration, type)]) := by
  obtain ⟨type, resolved, scopes, ht, hent, hfinish⟩ := run_declare hr
  have hd := (declaration.type.resolve_denotes ht).mono (.refl _) fun _ _ => h.global_of_seen
  obtain ⟨hx, hscopes⟩ := resolve_keeps ht
  rw [hfinish]
  exact ⟨type, hx, hd, (hscopes ▸ h).enter hent⟩

private theorem declareParameters_fill (procedure : Name) (parameters : List Parameter) {slots : List Slot}
    (h : start.context.scopes.Filling globals scope own)
    (hr : (parameters.mapM (Parameter.declare procedure scope)).run start = .ok slots finish) :
    ∃ typed : List (Parameter × TypeId), typed.map (·.1) = parameters ∧
      slots = typed.map (fun p => ⟨p.2, p.1.byReference, none⟩) ∧
      start.context.types.Extends finish.context.types ∧
      (∀ p ∈ typed, p.1.type.Denotes finish.context.types globals.at? p.2) ∧
      finish.context.scopes.Filling globals scope (own ++ typed.map Signature.parameterEntry) :=
  run_mapM_typed (fun p => ⟨p.2, p.1.byReference, none⟩) Signature.parameterEntry
    (fun types p => p.1.type.Denotes types globals.at? p.2) (fun context => context.scopes.Filling globals scope)
    (fun hx hd => hd.mono hx fun _ _ he => he) Parameter.declare_fills parameters h hr

private theorem declareLocals_fill (procedure : Name) (locals : List LocalVariable) {u : Unit}
    (h : start.context.scopes.Filling globals scope own)
    (hr : (locals.forM (·.declare procedure scope)).run start = .ok u finish) :
    ∃ typed : List (LocalVariable × TypeId), typed.map (·.1) = locals ∧
      start.context.types.Extends finish.context.types ∧
      (∀ l ∈ typed, l.1.type.Denotes finish.context.types globals.at? l.2) ∧
      finish.context.scopes.Filling globals scope (own ++ typed.map Signature.localEntry) := by
  obtain ⟨_, hr⟩ := exists_run_mapM_of_forM hr
  obtain ⟨typed, ht, -, hx, hd, hf⟩ := run_mapM_typed (fun _ => ()) Signature.localEntry
    (fun types l => l.1.type.Denotes types globals.at? l.2) (fun context => context.scopes.Filling globals scope)
    (fun hx hd => hd.mono hx fun _ _ he => he)
    (fun h hl => (LocalVariable.declare_fills h hl).imp fun _ hl => ⟨rfl, hl⟩) locals h hr
  exact ⟨typed, ht, hx, hd, hf⟩

/-- A type that is entered stands behind the global entries, and no scope is opened for it. -/
theorem TypeDeclaration.declare_adds {declaration : TypeDeclaration} {u : Unit}
    (h : start.context.scopes.scope? ScopeTree.globalScope = some ⟨none, globals⟩)
    (hr : declaration.declare.run start = .ok u finish) :
    ∃ type, declaration.type.Denotes finish.context.types globals.at? type ∧
      Adds start.context finish.context globals [(declaration.name, .type type)] [] := by
  obtain ⟨type, resolved, scopes, ht, hent, hfinish⟩ := run_declare hr
  have hd := declaration.type.resolve_denotes ht
  rw [ScopeTree.seen?_of_outermost h] at hd
  obtain ⟨hx, hscopes⟩ := resolve_keeps ht
  rw [hscopes] at hent
  rw [hfinish]
  exact ⟨type, hd, hx, ScopeTree.count_of_enter? hent, (ScopeTree.scope?_of_enter? hent h).2, nofun,
    fun _ _ => ScopeTree.scope?_of_enter?_of_ne hent⟩

/-- A procedure that is entered has the next scope, which holds its parameters and locals. -/
theorem Procedure.declare_adds {procedure : Procedure} {u : Unit}
    (h : start.context.scopes.scope? ScopeTree.globalScope = some ⟨none, globals⟩)
    (hr : procedure.declare.run start = .ok u finish) :
    ∃ sig : Signature, sig.Describes finish.context.types globals start.context.scopes.count procedure ∧
      Adds start.context finish.context globals [(procedure.name, .proc sig.entry)] [sig] := by
  obtain ⟨scope, opened, ho, hr⟩ := run_bind_eq_ok.mp hr
  have hopened : Unseen start.context.scopes.count (Declaration.procedure procedure).typeNodes start.context
      opened.context := openScope_unseen.of_ok ho
  cases ho
  obtain ⟨slots, filled, hp, hr⟩ := run_bind_eq_ok.mp hr
  obtain ⟨_, full, hl, hr⟩ := run_bind_eq_ok.mp hr
  obtain ⟨scopes, he, rfl⟩ := run_enter_eq_ok.mp hr
  obtain ⟨parameters, hpe, rfl, hx, hpd, hfilled⟩ := declareParameters_fill _ _ (ScopeTree.filling_nest h) hp
  obtain ⟨locals, hle, hx', hld, hfull⟩ := declareLocals_fill _ _ hfilled hl
  let sig : Signature := ⟨procedure, start.context.scopes.count, parameters, locals⟩
  have hunseen := hopened.trans (((procedure.declareParameters_unseen (Nat.le_refl _) _).of_ok hp).trans
    ((procedure.declareLocals_unseen (Nat.le_refl _) _).of_ok hl))
  refine ⟨sig, ⟨rfl, rfl, hpe, hle, fun p hm => (hpd p hm).mono hx' fun _ _ he => he, hld⟩, hx.trans hx', ?_,
    (ScopeTree.scope?_of_enter? he hfull.outer).2, List.forall_mem_singleton.mpr ?_, fun scope hs hne => ?_⟩
  · exact (ScopeTree.count_of_enter? he).trans hfull.newest
  · exact (ScopeTree.scope?_of_enter?_of_ne he (Nat.ne_of_gt hfull.inner)).trans hfull.held
  · exact (ScopeTree.scope?_of_enter?_of_ne he hne).trans (hunseen.scopes scope hs)

/-- Declarations that are entered leave their tables behind whatever entries and scopes there were. -/
theorem declareAll_adds (declarations : List Declaration) {u : Unit} {start : Progress} {globals : Keyed Name Entry}
    (h : start.context.scopes.scope? ScopeTree.globalScope = some ⟨none, globals⟩)
    (hr : (declarations.forM (·.declare)).run start = .ok u finish) :
    ∃ entries sigs, Tables finish.context.types globals start.context.scopes.count declarations entries sigs ∧
      Adds start.context finish.context globals entries sigs := by
  induction declarations generalizing start globals with
  | nil =>
    cases hr
    exact ⟨[], [], .nil, .refl _, rfl, by rw [List.append_nil, h], nofun, fun _ _ _ => rfl⟩
  | cons declaration rest ih =>
    obtain ⟨_, middle, hd, hrest⟩ := run_bind_eq_ok.mp hr
    cases declaration with
    | type declaration =>
      obtain ⟨type, hdenotes, hadds⟩ := TypeDeclaration.declare_adds h hd
      obtain ⟨entries, sigs, htables, hadds'⟩ := ih hadds.outer hrest
      rw [hadds.count] at htables
      exact ⟨_, _, .type (hdenotes.mono hadds'.types fun _ _ he => he) htables, hadds.trans hadds'⟩
    | procedure procedure =>
      obtain ⟨sig, hdescribes, hadds⟩ := Procedure.declare_adds h hd
      obtain ⟨entries, sigs, htables, hadds'⟩ := ih hadds.outer hrest
      rw [hadds.count] at htables
      exact ⟨_, _, .procedure (hdescribes.mono hadds'.types) htables, hadds.trans hadds'⟩

end

/-- What is left where a declaration fails behind earlier ones, which by themselves leave the middle context. -/
structure LeftHalfway (earlier : List Declaration) (failing : Declaration) (start middle finish : Context) : Prop where
  outer : finish.scopes.scope? ScopeTree.globalScope = middle.scopes.scope? ScopeTree.globalScope
  seen : ∀ name, finish.scopes.seen? ScopeTree.globalScope name = middle.scopes.seen? ScopeTree.globalScope name
  /-- Every scope, every type and what was found stayed, but for the type expressions of what fails. -/
  unseen : Unseen middle.scopes.count failing.typeNodes middle finish
  /-- The earlier declarations have their entries behind those that there were, and the procedures their scopes. -/
  entered : ∃ globals entries sigs, start.scopes.scope? ScopeTree.globalScope = some ⟨none, globals⟩ ∧
    Tables finish.types globals start.scopes.count earlier entries sigs ∧
    finish.scopes.scope? ScopeTree.globalScope = some ⟨none, globals ++ entries⟩ ∧
    ∀ sig ∈ sigs, finish.scopes.scope? sig.scope = some ⟨some ScopeTree.globalScope, sig.own⟩

/-- The program fails at a declaration. What is declared before it succeeds by itself, and with it fails like the
whole. -/
structure Program.FailsHalfway (program : Program) (start finish : Progress) (d : Diagnostic)
    (earlier : List Declaration) (failing : Declaration) (later : List Declaration) (count : DeclarationCount)
    (middle : Progress) : Prop where
  declarations : program.declarations = earlier ++ failing :: later
  succeeds : (Program.mk program.position earlier).declare.run start = .ok count middle
  fails : (Program.mk program.position (earlier ++ [failing])).declare.run start = .error d finish
  left : LeftHalfway earlier failing start.context middle.context finish.context

/-- A program that cannot be declared fails at one of its declarations, whatever stands behind it. Those before it
can be declared by themselves, and what they leave is all that is seen of the program. -/
theorem Program.declare_fails_halfway (program : Program) {start finish : Progress} {d : Diagnostic}
    (hrooted : start.context.scopes.Rooted) (hr : program.declare.run start = .error d finish) :
    ∃ earlier failing later count middle, program.FailsHalfway start finish d earlier failing later count middle := by
  obtain ⟨globals, hglobals⟩ := hrooted.scope?_global
  obtain ⟨earlier, failing, later, entered, heq, hearlier, hfailing⟩ :=
    run_forM_eq_error (Program.run_declare_eq_error.mp hr)
  obtain ⟨count, middle, hmiddle, hsame⟩ := Program.run_declare_of_ok program.position hearlier
  refine ⟨earlier, failing, later, count, middle, heq, hmiddle, Program.run_declare_eq_error.mpr ?_, ?_⟩
  · have happend : (earlier ++ [failing]).forM Declaration.declare =
        earlier.forM Declaration.declare >>= fun _ => [failing].forM Declaration.declare := List.forM_append
    show ((earlier ++ [failing]).forM Declaration.declare).run start = _
    rw [happend]
    exact run_bind_eq_error.mpr (.inr ⟨(), entered, hearlier, run_bind_eq_error.mpr (.inl hfailing)⟩)
  · obtain ⟨entries, sigs, htables, hadds⟩ := declareAll_adds earlier hglobals hearlier
    have hunseen := failing.declare_halts entered d finish hfailing
    have hinner := ScopeTree.lt_count_of_scope? hadds.outer
    have houter := hunseen.scopes _ hinner
    rw [hsame]
    refine ⟨houter, hunseen.seen_global hinner (ScopeTree.parent?_of_scope? hadds.outer) hinner, hunseen, globals,
      entries, sigs, hglobals, htables.mono hunseen.types, houter.trans hadds.outer, fun sig hsig => ?_⟩
    have hbody := hadds.bodies sig hsig
    exact (hunseen.scopes _ (ScopeTree.lt_count_of_scope? hbody)).trans hbody

/-- The last procedure has the name of an earlier one, which is found once its parameters and locals are entered. -/
def rowsFilledTwice : Program where
  position := ⟨1, 1⟩
  declarations := rowsDeclared.declarations ++ [
    .procedure {
      position := ⟨11, 1⟩
      name := "fill"
      parameters := [⟨⟨11, 11⟩, "a", .named ⟨9, ⟨11, 18⟩⟩ "row", true⟩]
      locals := [⟨⟨12, 3⟩, "c", .array ⟨11, ⟨12, 10⟩⟩ 5 (.array ⟨12, ⟨12, 23⟩⟩ 2 (.named ⟨10, ⟨12, 36⟩⟩ "row"))⟩]
      body := [] },
    .type ⟨⟨15, 1⟩, "late", .named ⟨13, ⟨15, 13⟩⟩ "int"⟩]

theorem rowsFilledTwice_fails_halfway : Context.initial.scopes.Rooted ∧ ∃ d finish,
    rowsFilledTwice.declare.run .initial = .error d finish ∧
    ∃ earlier failing later count middle,
      rowsFilledTwice.FailsHalfway .initial finish d earlier failing later count middle := by
  have hfails : (rowsFilledTwice.declare.runFrom .initial).1.isOk = false := by decide +kernel
  obtain ⟨d, finish, hr⟩ := exists_run_error hfails
  have hrooted : Context.initial.scopes.Rooted := ScopeTree.rooted_single predeclared
  exact ⟨hrooted, d, finish, hr, Program.declare_fails_halfway rowsFilledTwice hrooted hr⟩

end SplLang

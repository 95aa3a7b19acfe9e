import SplLang.Proofs.BodyRules
import SplLang.Proofs.Origins

/-! The rules for a program whose declarations are entered, those for `main` before those for the bodies. What names
mean in a body follows from the declarations of the program. -/
namespace SplLang
open Phase

/-- The name under which a declaration is entered. -/
def Declaration.name : Declaration → Name
  | .type declaration => declaration.name
  | .procedure declaration => declaration.name

/-- The names that the global scope holds once the declarations are entered. -/
def Program.globalNames (program : Program) : List Name :=
  predeclared.map (·.1) ++ program.declarations.map (·.name)

/-- The names of the parameters and locals. -/
def Procedure.ownNames (procedure : Procedure) : List Name :=
  procedure.parameters.map (·.name) ++ procedure.locals.map (·.name)

/-- What the body of a procedure is checked against, in a context that holds a scope for the procedure. -/
def Context.around (context : Context) (procedure : Procedure) : Surroundings :=
  ⟨context.types, context.scopes,
    ((context.scopes.procedure? procedure.name).bind (·.scope)).getD ScopeTree.globalScope⟩

/-- A rule for a program whose declarations are entered. -/
inductive CheckingRule where
  | mainDeclared
  | mainProcedure
  | mainParameterless
  | body (procedure : Procedure) (rule : BodyRule)

/-- What breaks a rule in a context that holds the declarations, and what is reported then. -/
def CheckingRule.demand (program : Program) (context : Context) : CheckingRule → Demand
  | .mainDeclared => ⟨⟨program.position, .mainMissing⟩, "main" ∉ program.globalNames⟩
  | .mainProcedure => ⟨⟨program.position, .mainNotProcedure⟩,
      "main" ∈ program.globalNames ∧ ∀ procedure ∈ program.procedures, procedure.name ≠ "main"⟩
  | .mainParameterless => ⟨⟨program.position, .mainHasParameters⟩,
      ∃ procedure ∈ program.procedures, procedure.name = "main" ∧ procedure.parameters ≠ []⟩
  | .body procedure rule => rule.demand (context.around procedure)

theorem CheckingRule.code_le (program : Program) (context : Context) (rule : CheckingRule) :
    (rule.demand program context).diagnostic.code ≤ 128 := by
  cases rule with
  | body procedure rule => exact rule.code_le _
  | _ => simp [demand, Diagnostic.code, Cause.code]

/-- The rules for `main` come before those for the bodies, and these come in the order of the procedures. -/
def Program.checkingRules (program : Program) : List CheckingRule :=
  .mainDeclared :: .mainProcedure :: .mainParameterless ::
    program.procedures.flatMap fun procedure => (allRules procedure.body).map (.body procedure)

/-- What the rule is about stands in the program. -/
def CheckingRule.StandsIn (program : Program) : CheckingRule → Prop
  | .mainDeclared | .mainProcedure | .mainParameterless => True
  | .body procedure rule =>
    procedure ∈ program.procedures ∧ rule.StandsIn (allNodes procedure.body) (allStatements procedure.body)

theorem Program.checkingRules_standIn (program : Program) {rule : CheckingRule} (h : rule ∈ program.checkingRules) :
    rule.StandsIn program := by
  simp only [checkingRules, List.mem_cons, List.mem_flatMap] at h
  rcases h with rfl | rfl | rfl | ⟨procedure, hp, hr⟩
  · trivial
  · trivial
  · trivial
  · obtain ⟨rule, hm, rfl⟩ := List.mem_map.mp hr
    exact ⟨hp, allRules_standIn procedure.body hm⟩

/-- What the names in the body of a procedure mean. -/
structure Program.Sees (program : Program) (procedure : Procedure) (around : Surroundings) : Prop where
  own : ∀ name, (∃ v, around.scopes.seen? around.scope name = some (.var v)) ↔ name ∈ procedure.ownNames
  unseen : ∀ name, around.scopes.seen? around.scope name = none ↔
    name ∉ procedure.ownNames ∧ name ∉ program.globalNames
  outside : ∀ name, around.outside? name = none ↔ name ∉ program.globalNames
  /-- The procedures that can be called, each with whether its parameters are passed by reference. -/
  called : ∀ name kinds, (around.callee? name).map (·.map (·.2)) = some kinds ↔
    (∃ p ∈ library, p.name = name ∧ p.byReference = kinds) ∨
      ∃ p ∈ program.procedures, p.name = name ∧ p.parameters.map (·.byReference) = kinds

private theorem Tables.names {types : TypeTable} {globals entries : Keyed Name Entry} {scope : ScopeId}
    {declarations : List Declaration} {sigs : List Signature}
    (h : Tables types globals scope declarations entries sigs) : entries.map (·.1) = declarations.map (·.name) := by
  induction h with
  | nil => rfl
  | type _ _ ih => exact congrArg (List.cons _) ih
  | procedure _ _ ih => exact congrArg (List.cons _) ih

theorem Signature.Fits.names {sig : Signature} {types : TypeTable} (h : sig.Fits types) :
    sig.own.map (·.1) = sig.procedure.ownNames := by
  rw [Procedure.ownNames, ← h.parameters_eq, ← h.locals_eq, Signature.own, List.map_append]
  simp only [List.map_map]
  rfl

private theorem Signature.own_variable {sig : Signature} {name : Name} {entry : Entry}
    (h : sig.own.at? name = some entry) : ∃ v, entry = .var v := by
  rcases List.mem_append.mp (Keyed.mem_of_at? h) with hm | hm
  · obtain ⟨_, _, he⟩ := List.mem_map.mp hm
    cases he
    exact ⟨_, rfl⟩
  · obtain ⟨_, _, he⟩ := List.mem_map.mp hm
    cases he
    exact ⟨_, rfl⟩

section
variable {program : Program} {count : DeclarationCount} {declared : Progress} {sigs : List Signature}

/-- The global scope holds the global names. -/
theorem Program.held_global_eq_none (hr : program.declare.run .initial = .ok count declared) {name : Name} :
    declared.context.scopes.held? ScopeTree.globalScope name = none ↔ name ∉ program.globalNames := by
  obtain ⟨entries, sigs, ht, hscopes⟩ := Program.declare_tables hr
  rw [hscopes, ScopeTree.held?_of_scope? ScopeTree.scope?_nested_global, Keyed.at?_eq_none_iff, List.map_append,
    ht.names]
  rfl

private theorem Declared.around_eq (h : Declared declared.context sigs) {sig : Signature} (hs : sig ∈ sigs) :
    declared.context.around sig.procedure = sig.around declared.context := by
  rw [Context.around, (h.unplaced hs).scope]
  rfl

private theorem Declared.seen_eq (h : Declared declared.context sigs) {sig : Signature} (hs : sig ∈ sigs)
    (name : Name) : declared.context.scopes.seen? sig.scope name =
      (sig.own.at? name).or (declared.context.scopes.held? ScopeTree.globalScope name) := by
  obtain ⟨hpos, hparent⟩ := h.scoped.inside sig hs
  rw [ScopeTree.seen?_of_nested h.scoped.outermost hparent hpos, h.scoped.held sig hs]
  rfl

private theorem Declared.outside_eq (h : Declared declared.context sigs) {sig : Signature} (hs : sig ∈ sigs)
    (name : Name) :
    (sig.around declared.context).outside? name = declared.context.scopes.held? ScopeTree.globalScope name := by
  obtain ⟨entries, hg, _⟩ := h.globals
  show (declared.context.scopes.parent? sig.scope).bind _ = _
  rw [(h.scoped.inside sig hs).2]
  exact ScopeTree.seen?_of_no_parent (ScopeTree.lt_count_of_scope? hg) h.scoped.outermost name

/-- The signature says which parameters are passed by reference. -/
theorem Signature.Fits.kinds {sig : Signature} {types : TypeTable} (h : sig.Fits types) :
    sig.entry.parameters.map (·.byReference) = sig.procedure.parameters.map (·.byReference) := by
  rw [← h.parameters_eq, Signature.entry, Signature.slots, List.map_map, List.map_map]
  rfl

private theorem library_kinds : ∀ p ∈ library, p.entry.parameters.map (·.byReference) = p.byReference := by decide

private theorem Declared.called_iff (h : Declared declared.context sigs) {sig : Signature} (hs : sig ∈ sigs)
    {name : Name} {kinds : List Bool} : ((sig.around declared.context).callee? name).map (·.map (·.2)) = some kinds ↔
      (∃ p ∈ library, p.name = name ∧ p.byReference = kinds) ∨ ∃ other ∈ sigs, other.procedure.name = name ∧
        other.procedure.parameters.map (·.byReference) = kinds := by
  have hkinds : ((sig.around declared.context).callee? name).map (·.map (·.2)) =
      (declared.context.scopes.callee? sig.scope name).map (·.parameters.map (·.byReference)) := by
    simp [Surroundings.callee?, Signature.around, Function.comp_def]
  rw [hkinds, Option.map_eq_some_iff]
  constructor
  · rintro ⟨entry, he, rfl⟩
    rcases (h.scoped.callee?_iff hs).mp he with ⟨p, hp, hn, rfl⟩ | ⟨other, ho, hn, rfl⟩
    · exact .inl ⟨p, hp, hn, (library_kinds p hp).symm⟩
    · exact .inr ⟨other, ho, hn, (h.fits other ho).kinds.symm⟩
  · rintro (⟨p, hp, hn, rfl⟩ | ⟨other, ho, hn, rfl⟩)
    · exact ⟨_, (h.scoped.callee?_iff hs).mpr (.inl ⟨p, hp, hn, rfl⟩), library_kinds p hp⟩
    · exact ⟨_, (h.scoped.callee?_iff hs).mpr (.inr ⟨other, ho, hn, rfl⟩), (h.fits other ho).kinds⟩

/-- Names in a body mean what is declared around it. -/
theorem Program.sees (hr : program.declare.run .initial = .ok count declared) {procedure : Procedure}
    (hp : procedure ∈ program.procedures) : program.Sees procedure (declared.context.around procedure) := by
  obtain ⟨sigs, hsigs, h⟩ := Program.declare_ok hr
  rw [← hsigs] at hp
  obtain ⟨sig, hs, rfl⟩ := List.mem_map.mp hp
  have hown : ∀ name, sig.own.at? name = none ↔ name ∉ sig.procedure.ownNames := by
    intro name
    rw [Keyed.at?_eq_none_iff, (h.fits sig hs).names]
  rw [h.around_eq hs]
  constructor
  case own =>
    intro name
    show (∃ v, declared.context.scopes.seen? sig.scope name = some (.var v)) ↔ _
    rw [h.seen_eq hs, ← not_iff_not, ← hown]
    cases ho : sig.own.at? name with
    | none =>
      refine iff_of_true ?_ rfl
      rintro ⟨v, hv⟩
      exact h.scoped.no_global_variable name v hv
    | some entry =>
      obtain ⟨v, rfl⟩ := Signature.own_variable ho
      exact iff_of_false (not_not.mpr ⟨v, rfl⟩) (Option.some_ne_none _)
  case unseen =>
    intro name
    show declared.context.scopes.seen? sig.scope name = none ↔ _
    rw [h.seen_eq hs, Option.or_eq_none_iff, hown, Program.held_global_eq_none hr]
  case outside =>
    intro name
    rw [h.outside_eq hs, Program.held_global_eq_none hr]
  case called =>
    intro name kinds
    rw [h.called_iff hs, ← hsigs]
    simp

/-! ### The check of a program -/

private theorem checkMain_refuses (hr : program.declare.run .initial = .ok count declared) :
    (program.checkMain declared.context.scopes).Refuses (CheckingRule.demand program declared.context)
      [.mainDeclared, .mainProcedure, .mainParameterless] := by
  obtain ⟨sigs, hsigs, h⟩ := Program.declare_ok hr
  have hprocedure : ∀ entry, declared.context.scopes.held? ScopeTree.globalScope "main" = some (.proc entry) ↔
      ∃ sig ∈ sigs, sig.procedure.name = "main" ∧ sig.entry = entry := by
    intro entry
    rw [show ScopeTree.globalScope = 0 from rfl, h.scoped.procedure]
    refine or_iff_right ?_
    rintro ⟨p, hp, hn, _⟩
    exact main_not_library p hp hn
  have hdeclared : declared.context.scopes.held? ScopeTree.globalScope "main" = none ↔ _ :=
    Program.held_global_eq_none hr
  unfold Program.checkMain
  rw [h.seen_main]
  split
  · next entry hs =>
    obtain ⟨sig, hsig, hn, rfl⟩ := (hprocedure _).mp hs
    have hmem : sig.procedure ∈ program.procedures := hsigs ▸ List.mem_map_of_mem hsig
    have hmain : "main" ∈ program.globalNames := by simpa [hs] using hdeclared
    refine .skip (not_not.mpr hmain) (.skip ?_ (.require rfl ?_))
    · exact fun hb => hb.2 _ hmem hn
    · rw [(h.fits sig hsig).parameters_eq_nil]
      refine ⟨?_, fun hne => ⟨_, hmem, hn, hne⟩⟩
      rintro ⟨procedure, hp, hmain, hne⟩
      rw [← hsigs] at hp
      obtain ⟨other, ho, rfl⟩ := List.mem_map.mp hp
      rw [h.scoped.eq_of_name hsig ho (hn.trans hmain.symm)]
      exact hne
  · next held hne hs =>
    have hmain : "main" ∈ program.globalNames := by simpa [hs] using hdeclared
    refine .skip (not_not.mpr hmain) (.fail rfl ⟨hmain, ?_⟩)
    intro procedure hp hn
    rw [← hsigs] at hp
    obtain ⟨sig, hsig, rfl⟩ := List.mem_map.mp hp
    exact hne _ (Option.some.inj (hs.symm.trans ((hprocedure _).mpr ⟨sig, hsig, hn, rfl⟩)))
  · next hs => exact .fail rfl (hdeclared.mp hs)

private theorem checkProcedure_refuses (h : Declared declared.context sigs) {sig : Signature} (hs : sig ∈ sigs) :
    (sig.procedure.check declared.context.types declared.context.scopes).Refuses
      (CheckingRule.demand program declared.context)
      ((allRules sig.procedure.body).map (.body sig.procedure)) := by
  unfold Procedure.check Procedure.localScope
  rw [(h.unplaced hs).scope, Trail.expect, pure_bind]
  intro d
  rw [Trail.result_report_bind]
  refine (checkAll_refuses (h.scoped.inside sig hs).2 sig.procedure.body).map (fun rule => ?_) d
  rw [CheckingRule.demand, h.around_eq hs]
  rfl

/-- The check of a program whose declarations are entered reports the first rule that is broken. -/
theorem Program.check_refuses (hr : program.declare.run .initial = .ok count declared) :
    Phase.Refuses (CheckingRule.demand program declared.context) program.checkingRules program.check declared := by
  obtain ⟨sigs, hsigs, h⟩ := Program.declare_ok hr
  have hbodies : (program.checkBodies declared.context.types declared.context.scopes).Refuses
      (CheckingRule.demand program declared.context) program.checkingRules := by
    refine (checkMain_refuses hr).bind fun _ _ => .forM fun procedure hp => ?_
    rw [← hsigs] at hp
    obtain ⟨sig, hs, rfl⟩ := List.mem_map.mp hp
    exact checkProcedure_refuses h hs
  unfold Program.check
  exact .context_bind ((Phase.Refuses.follow hbodies).bind_pure fun _ _ _ => .of_ok rfl)

end
end SplLang

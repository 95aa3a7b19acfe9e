import SplLang.Proofs.Outward
import SplLang.Proofs.Stages

/-! The checker accepts the well-typed programs and no others. What it accepts is well typed by
what is known of successful checks; here every derivation is followed by the checker. -/
namespace SplLang
open Phase

section
variable {around : Surroundings}

private theorem typeOf_accepted {name : Name} {type : TypeId} (h : around.varType? name = some type)
    (position : Position) : (around.typeOf position name).result = .ok type := by
  obtain ⟨v, hv, rfl⟩ := Option.map_eq_some_iff.mp h
  obtain ⟨entry, hs, he⟩ := Option.bind_eq_some_iff.mp hv
  cases entry with
  | var _ =>
    cases he
    simp [Surroundings.typeOf, hs]
  | type _ => cases he
  | proc _ => cases he

private theorem remember_accepted (node : Node) (type : TypeId) : (Check.remember node type).result = .ok type := rfl

mutual

/-- The checker finds the type of a variable if it has one. -/
theorem Variable.HasType.accepted {v : Variable} {type : TypeId} (h : v.HasType around type) :
    (v.check around).result = .ok type := by
  cases h with
  | named hn => rw [Variable.check, Trail.result_bind_of_ok (typeOf_accepted hn _), remember_accepted]
  | element ha hi he =>
    rw [Variable.check, Trail.result_bind_of_ok hi.accepted, Trail.result_bind_of_ok ha.accepted,
      Trail.require_of rfl, pure_bind, he]
    rfl

theorem Expr.HasType.accepted {e : Expr} {type : TypeId} (h : e.HasType around type) :
    (e.check around).result = .ok type := by
  cases h with
  | literal => rw [Expr.check, remember_accepted]
  | load hs => rw [Expr.check, Trail.result_bind_of_ok hs.accepted, remember_accepted]
  | arithmetic hl hr =>
    rw [Expr.check, Trail.result_bind_of_ok hl.accepted, Trail.result_bind_of_ok hr.accepted]
    rfl
  | comparison hl hr =>
    rw [Expr.check, Trail.result_bind_of_ok hl.accepted, Trail.result_bind_of_ok hr.accepted]
    rfl

end

private theorem checkArguments_accepted {callee : Name} {slots : List Slot} {arguments : List Expr}
    (h : List.Forall₂ (Expr.FitsParameter around) arguments (slots.map fun slot => (slot.type, slot.byReference)))
    (number : Nat) : (checkArguments around callee number slots arguments).result = .ok () := by
  induction slots generalizing arguments number with
  | nil =>
    cases h
    rfl
  | cons slot slots ih =>
    rw [List.map_cons] at h
    cases h with
    | @cons argument _ _ _ ha hrest =>
      have href : slot.byReference → argument.isVariable := ha.2
      rw [checkArguments, Trail.result_bind_of_ok ha.1.accepted]
      dsimp only
      rw [Trail.require_of href, pure_bind, Trail.require_of rfl, pure_bind]
      exact ih hrest _

private theorem checkCall_accepted {callee : Name} {arguments : List Expr} {parameters : List (TypeId × Bool)}
    (hc : around.callee? callee = some parameters)
    (ha : List.Forall₂ (Expr.FitsParameter around) arguments parameters) (position : Position) :
    (checkCall around position callee arguments).result = .ok () := by
  obtain ⟨entry, hentry, rfl⟩ := Option.map_eq_some_iff.mp hc
  obtain ⟨outer, hp, hseen⟩ := Option.bind_eq_some_iff.mp hentry
  obtain ⟨held, hs, hproc⟩ := Option.bind_eq_some_iff.mp hseen
  have hlength : arguments.length = entry.parameters.length := by simpa using ha.length_eq
  cases held with
  | proc _ =>
    cases hproc
    simp only [checkCall, hp, hs, Trail.expect, pure_bind]
    rw [Trail.require_of (Nat.le_of_eq hlength), pure_bind, Trail.require_of (Nat.le_of_eq hlength.symm), pure_bind]
    exact checkArguments_accepted ha 1
  | type _ => cases hproc
  | var _ => cases hproc

private theorem checkAll_eq_ok {body : List Stmt} :
    (checkAll around body).result = .ok () ↔ ∀ stmt ∈ body, (stmt.check around).result = .ok () := by
  have hforM : checkAll around body = body.forM (·.check around) := by
    induction body with
    | nil => rw [checkAll]; rfl
    | cons stmt rest ih => rw [checkAll, ih]; rfl
  rw [hforM, Trail.result_forM_eq_ok]

/-- The checker accepts a statement that is well typed. -/
theorem Stmt.Typed.accepted {s : Stmt} (h : s.Typed around) : (s.check around).result = .ok () := by
  induction h with
  | assign ht hv =>
    rw [Stmt.check, Trail.result_bind_of_ok ht.accepted, Trail.result_bind_of_ok hv.accepted]
    rfl
  | ifThen hc _ ih =>
    rw [Stmt.check, Trail.result_bind_of_ok hc.accepted, Trail.require_of rfl, pure_bind, ih]
  | ifElse hc _ _ ih ih' =>
    rw [Stmt.check, Trail.result_bind_of_ok hc.accepted, Trail.require_of rfl, pure_bind,
      Trail.result_bind_of_ok ih, ih']
  | whileDo hc _ ih =>
    rw [Stmt.check, Trail.result_bind_of_ok hc.accepted, Trail.require_of rfl, pure_bind, ih]
  | call hc ha => rw [Stmt.check, checkCall_accepted hc ha]
  | block _ ih => rw [Stmt.check, checkAll_eq_ok.mpr ih]
  | empty => rw [Stmt.check]; rfl

/-- The checker accepts a statement exactly if it is well typed. -/
theorem Stmt.check_eq_ok_iff {s : Stmt} : (s.check around).result = .ok () ↔ s.Typed around := by
  constructor
  · intro h
    exact (s.check_ok (Trail.gives_of_ok h)).1
  · exact Stmt.Typed.accepted

end

/-- `main` takes no parameters, and every body is well typed in the scope of its procedure. -/
structure Program.WellTyped (program : Program) (types : TypeTable) (scopes : ScopeTree) : Prop where
  main : ∃ entry, scopes.held? ScopeTree.globalScope "main" = some (.proc entry) ∧ entry.parameters = []
  bodies : ∀ procedure ∈ program.procedures, ∃ scope,
    (scopes.procedure? procedure.name).bind (·.scope) = some scope ∧
      ∀ stmt ∈ procedure.body, stmt.Typed ⟨types, scopes, scope⟩

/-- What names mean in a body: variables are looked for in its own scope and then in the global one,
procedures in the global one only. -/
structure Surroundings.Lexical (around : Surroundings) : Prop where
  scopes : around.scopes.outward around.scope = [around.scope, ScopeTree.globalScope]
  named : ∀ name type, around.varType? name = some type ↔ ∃ v,
    (around.scopes.outward around.scope).findSome? (around.scopes.held? · name) = some (.var v) ∧ v.type = type
  called : ∀ name parameters, around.callee? name = some parameters ↔ ∃ entry,
    around.scopes.held? ScopeTree.globalScope name = some (.proc entry) ∧
      entry.parameters.map (fun slot => (slot.type, slot.byReference)) = parameters

section
variable {types : TypeTable} {scopes : ScopeTree} {program : Program}

private theorem checkMain_eq_ok_iff : (program.checkMain scopes).result = .ok () ↔
    ∃ entry, scopes.seen? ScopeTree.globalScope "main" = some (.proc entry) ∧ entry.parameters = [] := by
  unfold Program.checkMain
  split
  · next entry hs =>
    rw [Trail.result_require_eq_ok, hs]
    simp
  · next held hne hs =>
    constructor
    · intro h
      cases h
    · rintro ⟨entry, he, _⟩
      rw [hs] at he
      exact absurd (Option.some.inj he) (hne entry)
  · next hs =>
    rw [hs]
    constructor
    · intro h
      cases h
    · rintro ⟨entry, he, _⟩
      cases he

private theorem Procedure.check_eq_ok_iff {procedure : Procedure} :
    (procedure.check types scopes).result = .ok () ↔ ∃ scope,
      (scopes.procedure? procedure.name).bind (·.scope) = some scope ∧
        ∀ stmt ∈ procedure.body, stmt.Typed ⟨types, scopes, scope⟩ := by
  unfold Procedure.check Procedure.localScope
  rw [Trail.result_bind_eq_ok]
  apply exists_congr
  intro scope
  rw [Trail.result_expect_eq_ok]
  apply and_congr_right
  intro _
  rw [Trail.result_report_bind, checkAll_eq_ok]
  exact forall₂_congr fun stmt _ => Stmt.check_eq_ok_iff

private theorem checkBodies_eq_ok_iff : (program.checkBodies types scopes).result = .ok () ↔
    (program.checkMain scopes).result = .ok () ∧
      ∀ procedure ∈ program.procedures, (procedure.check types scopes).result = .ok () := by
  unfold Program.checkBodies
  rw [Trail.result_bind_eq_ok_unit Iff.rfl, Trail.result_forM_eq_ok]

end

/-- In the body of a procedure only the scope made for the procedure and the global one count. -/
theorem Scoped.lexical {scopes : ScopeTree} {sigs : List Signature} {own : Signature → Keyed Name Entry}
    {entryOf : Signature → ProcedureEntry} (h : Scoped scopes sigs own entryOf) {sig : Signature} (hs : sig ∈ sigs)
    (types : TypeTable) : Surroundings.Lexical ⟨types, scopes, sig.scope⟩ where
  scopes := ScopeTree.outward_of_nested h.outermost (h.inside sig hs).2 (h.inside sig hs).1
  named name type := by
    unfold Surroundings.varType?
    rw [← ScopeTree.seen?_eq_findSome?]
    cases scopes.seen? sig.scope name with
    | none => simp
    | some entry => cases entry <;> simp [Entry.var?]
  called name parameters := by
    unfold Surroundings.callee?
    rw [Option.map_eq_some_iff]
    apply exists_congr
    intro entry
    rw [h.callee?_iff hs, ← h.procedure]
    rfl

section
variable {program : Program} {count : DeclarationCount} {declared : Progress}

private theorem check_eq_ok_iff : (∃ bodies checked, program.check.run declared = .ok bodies checked) ↔
    (program.checkBodies declared.context.types declared.context.scopes).result = .ok () := by
  constructor
  · rintro ⟨bodies, checked, hc⟩
    obtain ⟨found, hfound, _⟩ := Program.check_ok hc
    exact hfound.1
  · intro hok
    unfold Program.check
    rw [run_context_bind, EStateM.run_bind, run_follow_eq_ok.mpr ⟨hok, rfl⟩]
    exact ⟨_, _, rfl⟩

theorem main_not_library : ∀ p ∈ library, p.name ≠ "main" := by decide

theorem Signature.Fits.parameters_eq_nil {sig : Signature} {types : TypeTable} (h : sig.Fits types) :
    sig.entry.parameters = [] ↔ sig.procedure.parameters = [] := by
  rw [← h.parameters_eq, List.map_eq_nil_iff]
  exact List.map_eq_nil_iff

/-- The name `main` means in the global scope what that scope holds. -/
theorem Declared.seen_main {context : Context} {sigs : List Signature} (h : Declared context sigs) :
    context.scopes.seen? ScopeTree.globalScope "main" = context.scopes.held? ScopeTree.globalScope "main" := by
  obtain ⟨entries, hg, _⟩ := h.globals
  exact ScopeTree.seen?_of_no_parent (ScopeTree.lt_count_of_scope? hg) h.scoped.outermost "main"

private theorem Declared.checks_iff_wellTyped {sigs : List Signature} (h : Declared declared.context sigs) :
    (∃ bodies checked, program.check.run declared = .ok bodies checked) ↔
      program.WellTyped declared.context.types declared.context.scopes := by
  rw [check_eq_ok_iff, checkBodies_eq_ok_iff, checkMain_eq_ok_iff, h.seen_main]
  constructor
  · rintro ⟨hmain, hbodies⟩
    exact ⟨hmain, fun procedure hp => Procedure.check_eq_ok_iff.mp (hbodies procedure hp)⟩
  · rintro ⟨hmain, hbodies⟩
    exact ⟨hmain, fun procedure hp => Procedure.check_eq_ok_iff.mpr (hbodies procedure hp)⟩

/-- The check succeeds exactly if `main` is declared without parameters and every body is well typed. -/
theorem Declared.checks_iff {sigs : List Signature} (h : Declared declared.context sigs)
    (hsigs : sigs.map (·.procedure) = program.procedures) :
    (∃ bodies checked, program.check.run declared = .ok bodies checked) ↔
      (∃ sig ∈ sigs, sig.procedure.name = "main" ∧ sig.procedure.parameters = []) ∧
        ∀ sig ∈ sigs, ∀ stmt ∈ sig.procedure.body, stmt.Typed (sig.around declared.context) := by
  rw [h.checks_iff_wellTyped]
  constructor
  · rintro ⟨⟨entry, he, hparameters⟩, hbodies⟩
    rw [← hsigs, List.forall_mem_map] at hbodies
    refine ⟨?_, fun sig hs => ?_⟩
    · rcases h.scoped.procedure.mp he with ⟨p, hp, hn, _⟩ | ⟨sig, hs, hn, rfl⟩
      · exact absurd hn (main_not_library p hp)
      · exact ⟨sig, hs, hn, (h.fits sig hs).parameters_eq_nil.mp hparameters⟩
    · obtain ⟨scope, hscope, htyped⟩ := hbodies sig hs
      rw [h.scoped.procedure?_of_mem hs] at hscope
      cases hscope
      exact htyped
  · rintro ⟨⟨sig, hs, hn, hparameters⟩, htyped⟩
    refine ⟨⟨sig.entry, h.scoped.procedure.mpr (.inr ⟨sig, hs, hn, rfl⟩),
      (h.fits sig hs).parameters_eq_nil.mpr hparameters⟩, ?_⟩
    rw [← hsigs, List.forall_mem_map]
    exact fun sig hs => ⟨sig.scope, h.scoped.scope_iff.mpr ⟨sig, hs, rfl, rfl⟩, htyped sig hs⟩

/-- The check of a program whose declarations are entered succeeds exactly if the program is well typed:
the global scope holds a procedure `main` without parameters, and the rules of typing derive every
statement of every body, where names mean what the scopes around the body say. -/
theorem Program.check_succeeds_iff (hd : program.declare.run .initial = .ok count declared) :
    ((∃ bodies checked, program.check.run declared = .ok bodies checked) ↔
      program.WellTyped declared.context.types declared.context.scopes) ∧
    ∀ procedure ∈ program.procedures, ∃ scope,
      (declared.context.scopes.procedure? procedure.name).bind (·.scope) = some scope ∧
        Surroundings.Lexical ⟨declared.context.types, declared.context.scopes, scope⟩ := by
  obtain ⟨sigs, hsigs, h⟩ := Program.declare_ok hd
  refine ⟨h.checks_iff_wellTyped, ?_⟩
  rw [← hsigs, List.forall_mem_map]
  exact fun sig hs => ⟨sig.scope, h.scoped.scope_iff.mpr ⟨sig, hs, rfl, rfl⟩, h.scoped.lexical hs _⟩

end

/-- A procedure that assigns to a local of its own name and then calls itself. -/
def hiddenCalled : Program where
  position := ⟨1, 1⟩
  declarations := [.procedure {
    position := ⟨1, 1⟩
    name := "main"
    parameters := []
    locals := [⟨⟨2, 3⟩, "main", .named ⟨0, ⟨2, 13⟩⟩ "int"⟩]
    body := [.assign ⟨3, 3⟩ (.named ⟨1, ⟨3, 3⟩⟩ "main") (.literal ⟨2, ⟨3, 11⟩⟩ 1), .call ⟨4, 3⟩ "main" []] }]

theorem hiddenCalled_check_succeeds :
    ∃ count declared, hiddenCalled.declare.run .initial = .ok count declared ∧
      (∃ bodies checked, hiddenCalled.check.run declared = .ok bodies checked) ∧
      hiddenCalled.WellTyped declared.context.types declared.context.scopes :=
  ⟨_, _, rfl, ⟨_, _, rfl⟩, (Program.check_succeeds_iff rfl).1.mp ⟨_, _, rfl⟩⟩

end SplLang

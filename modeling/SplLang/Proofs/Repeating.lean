import SplLang.Proofs.Effects
import SplLang.Proofs.Overwriting

/-! Running a stage again. What checking and placing read is not what they write, or it is written before it is read;
so from where a run came to, whether it failed or not, a second run comes to the same and changes nothing. -/
namespace SplLang
open Phase

/-- A step that is run again from where it came to comes to the same, leaves the context as it is and reports what it
reported before. -/
structure Phase.Repeats {α : Type} (x : Phase α) (start : Progress) : Prop where
  result : (x.runFrom (x.runFrom start).2).1 = (x.runFrom start).1
  context : (x.runFrom (x.runFrom start).2).2.context = (x.runFrom start).2.context
  events : ∃ events, (x.runFrom start).2.events = start.events ++ events ∧
    (x.runFrom (x.runFrom start).2).2.events = (x.runFrom start).2.events ++ events

private theorem Phase.Repeats.of_runs {α : Type} {x : Phase α} {context final : Context} {earlier events : List Event}
    {result : Except Diagnostic α} (h : x.runFrom ⟨context, earlier⟩ = (result, ⟨final, earlier ++ events⟩))
    (h' : ∀ before, x.runFrom ⟨final, before⟩ = (result, ⟨final, before ++ events⟩)) :
    x.Repeats ⟨context, earlier⟩ := by
  constructor
  · rw [h, h']
  · rw [h, h']
  · exact ⟨events, by rw [h], by rw [h, h']⟩

/-! ### The check -/

private theorem Context.rememberExprs_twice (context : Context) (found : List Finding) :
    (context.rememberExprs found).rememberExprs found = context.rememberExprs found :=
  congrArg (fun exprs => { context with findings := { context.findings with exprs } })
    (Keyed.putAll_twice context.findings.exprs found)

/-- A check reads the types and the scopes and writes neither. -/
theorem Program.check_repeats (program : Program) (start : Progress) : program.check.Repeats start := by
  obtain ⟨context, earlier⟩ := start
  obtain ⟨t, ht⟩ : ∃ t, program.checkBodies context.types context.scopes = t := ⟨_, rfl⟩
  refine .of_runs (program.check_runFrom context earlier ht) fun before => ?_
  have hsecond := program.check_runFrom (context.rememberExprs t.found) before ht
  rwa [context.rememberExprs_twice] at hsecond

/-! ### What placing reads -/

private theorem Trail.expect_bind_congr {ω α β : Type} {view : α → β} {γ : Type} {value other : Option α}
    {position : Position} {cause : Cause} {next next' : α → Trail ω γ} (hv : value.map view = other.map view)
    (hn : ∀ a a', view a = view a' → next a = next' a') :
    (Trail.expect value position cause >>= next) = (Trail.expect other position cause >>= next') := by
  cases value with
  | none =>
    cases other with
    | none => rfl
    | some a => cases hv
  | some a =>
    cases other with
    | none => cases hv
    | some a' => exact hn a a' (Option.some.inj hv)

private theorem Procedure.localScope_congr {ω : Type} {scopes scopes' : ScopeTree} (h : scopes.bare = scopes'.bare)
    (procedure : Procedure) : (procedure.localScope scopes : Trail ω ScopeId) = procedure.localScope scopes' := by
  rw [localScope, localScope, ← scopes.scope_procedure?_bare, h, scopes'.scope_procedure?_bare]

section
variable {types : TypeTable} {scopes scopes' : ScopeTree}

/-- Of an entry its bytes count, not its place. -/
private theorem held_var_congr (h : scopes.bare = scopes'.bare) (scope : ScopeId) (name : Name) :
    ((scopes.held? scope name).bind (·.var?)).map (fun entry => (entry.type, entry.byReference)) =
      ((scopes'.held? scope name).bind (·.var?)).map fun entry => (entry.type, entry.byReference) := by
  have hbare : ∀ tree : ScopeTree,
      ((tree.held? scope name).bind (·.var?)).map (fun entry => (entry.type, entry.byReference)) =
        ((tree.bare.held? scope name).bind (·.var?)).map fun entry => (entry.type, entry.byReference) := by
    intro tree
    rw [tree.held?_bare]
    cases tree.held? scope name with
    | none => rfl
    | some entry => cases entry <;> rfl
  rw [hbare, h, ← hbare]

private theorem placeParameters_congr (h : scopes.bare = scopes'.bare) (procedure : Name) (scope : ScopeId)
    (start : Nat) (parameters : List Parameter) :
    placeParameters types scopes procedure scope start parameters =
      placeParameters types scopes' procedure scope start parameters := by
  induction parameters generalizing start with
  | nil => rfl
  | cons parameter rest ih =>
    rw [placeParameters, placeParameters]
    refine Trail.expect_bind_congr (held_var_congr h scope parameter.name) fun entry entry' he => ?_
    have hsize : entry.slotSize types = entry'.slotSize types := by
      obtain ⟨ht, hr⟩ := Prod.mk.inj he
      rw [VariableEntry.slotSize, VariableEntry.slotSize, ht, hr]
    simp only [hsize, ih]

private theorem placeLocals_congr (h : scopes.bare = scopes'.bare) (procedure : Name) (scope : ScopeId) (below : Nat)
    (locals : List LocalVariable) :
    placeLocals types scopes procedure scope below locals = placeLocals types scopes' procedure scope below locals := by
  induction locals generalizing below with
  | nil => rfl
  | cons declaration rest ih =>
    rw [placeLocals, placeLocals]
    refine Trail.expect_bind_congr (held_var_congr h scope declaration.name) fun entry entry' he => ?_
    simp only [(Prod.mk.inj he).1, ih]

private theorem Procedure.placeVariables_congr (h : scopes.bare = scopes'.bare) (procedure : Procedure) :
    procedure.placeVariables types scopes = procedure.placeVariables types scopes' := by
  rw [placeVariables, placeVariables, procedure.localScope_congr h]
  simp only [placeParameters_congr h, placeLocals_congr h]

end

/-- What an entry says besides the area for the calls that its procedure makes. -/
def Entry.received : Entry → Entry := Entry.mapProc fun entry => { entry with outgoing := none }

/-- The scopes say the same besides the areas for calls. -/
structure SameReceived (scopes scopes' : ScopeTree) : Prop where
  bare : scopes.bare = scopes'.bare
  held : ∀ scope name, (scopes.held? scope name).map Entry.received = (scopes'.held? scope name).map Entry.received

namespace SameReceived
variable {scopes scopes' middle : ScopeTree}

theorem refl (scopes : ScopeTree) : SameReceived scopes scopes := ⟨rfl, fun _ _ => rfl⟩

theorem trans (h : SameReceived scopes middle) (h' : SameReceived middle scopes') : SameReceived scopes scopes' :=
  ⟨h.bare.trans h'.bare, fun scope name => (h.held scope name).trans (h'.held scope name)⟩

/-- The area for calls is all that such a placement writes. -/
theorem put_outgoing (scopes : ScopeTree) (procedure : Name) (area : OutgoingArea) :
    SameReceived (Placement.put scopes (.outgoing procedure area)) scopes where
  bare := Placement.bare_put _ _
  held scope name := by
    rw [Placement.held?_put]
    split
    · cases scopes.held? scope name with
      | none => rfl
      | some entry => cases entry <;> rfl
    · rfl

/-- A placement writes to what the entries have in common. -/
private theorem received_change (p : Placement) (entry : Entry) :
    (p.change entry).received = (p.change entry.received).received := by
  cases p <;> cases entry <;> rfl

private theorem put (h : SameReceived scopes scopes') (p : Placement) :
    SameReceived (p.put scopes) (p.put scopes') where
  bare := by rw [Placement.bare_put, Placement.bare_put, h.bare]
  held scope name := by
    rw [Placement.held?_put, Placement.held?_put]
    split
    · have hview : ∀ held : Option Entry, (held.map p.change).map Entry.received =
          ((held.map Entry.received).map p.change).map Entry.received := by
        intro held
        cases held with
        | none => rfl
        | some entry => exact congrArg some (received_change p entry)
      rw [hview, h.held, ← hview]
    · exact h.held scope name

private theorem foldl_put (h : SameReceived scopes scopes') (placements : List Placement) :
    SameReceived (placements.foldl Placement.put scopes) (placements.foldl Placement.put scopes') := by
  induction placements generalizing scopes scopes' with
  | nil => exact h
  | cons placement rest ih => exact ih (h.put placement)

/-- Placements of areas for calls change nothing else. -/
theorem foldl_outgoing {placements : List Placement} (h : ∀ p ∈ placements, ∃ name area, p = .outgoing name area)
    (scopes : ScopeTree) : SameReceived (placements.foldl Placement.put scopes) scopes := by
  induction placements generalizing scopes with
  | nil => exact .refl scopes
  | cons placement rest ih =>
    obtain ⟨⟨name, area, rfl⟩, hrest⟩ := List.forall_mem_cons.mp h
    exact (ih hrest _).trans (put_outgoing scopes name area)

private theorem parent? (h : SameReceived scopes scopes') (scope : ScopeId) :
    scopes.parent? scope = scopes'.parent? scope := by
  have hbare : ∀ tree : ScopeTree, tree.bare.parent? scope = tree.parent? scope := by
    intro tree
    rw [ScopeTree.parent?, ScopeTree.parent?, ScopeTree.scope?, ScopeTree.scope?, ScopeTree.bare, Numbered.at?_map]
    cases Numbered.at? tree.newestFirst scope <;> rfl
  rw [← hbare, h.bare, hbare]

private theorem seen? (h : SameReceived scopes scopes') (scope : ScopeId) (name : Name) :
    (scopes.seen? scope name).map Entry.received = (scopes'.seen? scope name).map Entry.received := by
  have houter : scopes.outward scope = scopes'.outward scope := by
    rw [← scopes.outward_bare, h.bare, scopes'.outward_bare]
  rw [ScopeTree.seen?_eq_findSome?, ScopeTree.seen?_eq_findSome?, List.map_findSome?, List.map_findSome?, houter]
  congr 1
  funext outer
  exact h.held outer name

private theorem proc_congr {β : Type} {view : ProcedureEntry → Option β}
    (hv : ∀ entry, view { entry with outgoing := none } = view entry) {held held' : Option Entry}
    (h : held.map Entry.received = held'.map Entry.received) :
    (held.bind (·.proc?)).bind view = (held'.bind (·.proc?)).bind view := by
  have hview : ∀ other : Option Entry,
      (other.bind (·.proc?)).bind view = ((other.map Entry.received).bind (·.proc?)).bind view := by
    intro other
    cases other with
    | none => rfl
    | some entry =>
      cases entry with
      | proc entry => exact (hv entry).symm
      | _ => rfl
  rw [hview, h, ← hview]

private theorem argumentArea (h : SameReceived scopes scopes') (scope : ScopeId) (name : Name) :
    (scopes.callee? scope name).bind (·.argumentArea) = (scopes'.callee? scope name).bind (·.argumentArea) := by
  rw [ScopeTree.callee?, ScopeTree.callee?, h.parent?]
  cases scopes'.parent? scope with
  | none => rfl
  | some outer => exact proc_congr (fun _ => rfl) (h.seen? outer name)

private theorem localArea (h : SameReceived scopes scopes') (name : Name) :
    (scopes.procedure? name).bind (·.localArea) = (scopes'.procedure? name).bind (·.localArea) :=
  proc_congr (fun _ => rfl) (h.held ScopeTree.globalScope name)

end SameReceived

section
variable {scopes scopes' : ScopeTree}

mutual

private theorem Stmt.outgoing_congr (h : SameReceived scopes scopes') (s : Stmt) (scope : ScopeId)
    (area : OutgoingArea) : s.outgoing scopes scope area = s.outgoing scopes' scope area := by
  cases s with
  | assign position target value => rfl
  | ifThen position condition thenPart => exact thenPart.outgoing_congr h scope area
  | ifElse position condition thenPart elsePart =>
    rw [Stmt.outgoing, Stmt.outgoing, thenPart.outgoing_congr h]
    simp only [elsePart.outgoing_congr h]
  | whileDo position condition body => exact body.outgoing_congr h scope area
  | call position callee arguments => rw [Stmt.outgoing, Stmt.outgoing, h.argumentArea]
  | block position body => exact outgoingAll_congr h body scope area
  | empty position => rfl

private theorem outgoingAll_congr (h : SameReceived scopes scopes') (body : List Stmt) (scope : ScopeId)
    (area : OutgoingArea) : outgoingAll scopes scope area body = outgoingAll scopes' scope area body := by
  cases body with
  | nil => rfl
  | cons stmt rest =>
    rw [outgoingAll, outgoingAll, stmt.outgoing_congr h]
    simp only [outgoingAll_congr h rest]

end

/-- Sizing an area for calls reads no such area. -/
theorem Procedure.sizeOutgoing_congr (h : SameReceived scopes scopes') (procedure : Procedure) :
    procedure.sizeOutgoing scopes = procedure.sizeOutgoing scopes' := by
  rw [sizeOutgoing, sizeOutgoing, procedure.localScope_congr h.bare, h.localArea]
  simp only [outgoingAll_congr h]

end

/-! ### Placing -/

/-- Placing reads no place of a variable, and area sizes only after it has written them. -/
theorem Program.place_repeats (program : Program) (start : Progress) : program.place.Repeats start := by
  obtain ⟨context, earlier⟩ := start
  obtain ⟨t, ht⟩ : ∃ t, program.procedures.forM (·.placeVariables context.types context.scopes) = t := ⟨_, rfl⟩
  obtain ⟨t', ht'⟩ : ∃ t', program.procedures.forM (·.sizeOutgoing (context.place t.found).scopes) = t' := ⟨_, rfl⟩
  have hfirst := program.place_runFrom context earlier ht ht'
  have hplaced : ∀ scopes : ScopeTree, scopes.bare = context.scopes.bare →
      program.procedures.forM (·.placeVariables context.types scopes) = t := by
    intro scopes hb
    rw [← ht]
    congr 1
    funext procedure
    exact procedure.placeVariables_congr hb
  cases hr : t.result with
  | error d =>
    rw [hr] at hfirst
    refine .of_runs hfirst fun before => ?_
    have hsecond := program.place_runFrom (context.place t.found) before
      (hplaced _ (bare_foldl_put t.found context.scopes)) rfl
    rwa [hr, context.place_twice] at hsecond
  | ok u =>
    rw [hr] at hfirst
    refine .of_runs hfirst fun before => ?_
    have hbare : ((context.place t.found).place t'.found).scopes.bare = context.scopes.bare :=
      (bare_foldl_put t'.found _).trans (bare_foldl_put t.found _)
    have hsized : program.procedures.forM
        (·.sizeOutgoing (((context.place t.found).place t'.found).place t.found).scopes) = t' := by
      have hareas : ∀ p ∈ t'.found, ∃ name area, p = .outgoing name area := by
        rw [← ht']
        exact Trail.Leaves.forM _ fun procedure _ =>
          procedure.sizeOutgoing_leaves.mono fun _ ⟨area, hp⟩ => ⟨procedure.name, area, hp⟩
      -- The first half writes again what it wrote, over areas that the second half does not read.
      have hsame := (SameReceived.foldl_outgoing hareas (context.place t.found).scopes).foldl_put t.found
      have htwice := Placement.put_overwrites.foldl_twice context.scopes t.found
      rw [show t.found.foldl Placement.put (context.place t.found).scopes = (context.place t.found).scopes from
        htwice] at hsame
      refine Eq.trans ?_ ht'
      congr 1
      funext procedure
      exact procedure.sizeOutgoing_congr hsame
    have hboth : (((context.place t.found).place t'.found).place t.found).place t'.found =
        (context.place t.found).place t'.found := by
      simpa only [Context.place, List.foldl_append] using context.place_twice (t.found ++ t'.found)
    have hsecond := program.place_runFrom ((context.place t.found).place t'.found) before (hplaced _ hbare) hsized
    rwa [hr, hboth] at hsecond

/-- Whatever context a run of checking or of placing starts from and however it ends, a second run comes to the same
and leaves the context that the first one left. -/
theorem Program.stages_repeat (program : Program) (start : Progress) :
    program.check.Repeats start ∧ program.place.Repeats start :=
  ⟨program.check_repeats start, program.place_repeats start⟩

end SplLang

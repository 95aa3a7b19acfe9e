import SplLang.Proofs.Effects
import SplLang.Proofs.Stopping
import SplLang.Report.Frames

/-! What lasts of the declarations when the later stages run. Whether they succeed or fail on the way,
they add types of nodes and write places, and the readable tables stay the same. -/
namespace SplLang
open Phase

/-- The numbers of the expressions and variables in the bodies of a program. -/
def Program.bodyIds (program : Program) : List NodeId :=
  program.procedures.flatMap fun procedure => allNodeIds procedure.body

/-- A check changes nothing but the types of expressions and variables in the bodies. -/
structure Program.CheckKeeps (program : Program) (before after : Context) : Prop where
  types : after.types = before.types
  scopes : after.scopes = before.scopes
  typeExprs : after.findings.typeExprs = before.findings.typeExprs
  exprs : ∀ id, after.findings.exprs.at? id ≠ before.findings.exprs.at? id →
    id ∈ program.bodyIds ∧ ∃ type, after.findings.exprs.at? id = some type

/-- The entry of a name in a scope is that of a procedure of the program, or that of a parameter or
local in the scope made for one. -/
def Program.Places (program : Program) (scopes : ScopeTree) (scope : ScopeId) (name : Name) : Prop :=
  ∃ procedure ∈ program.procedures,
    (scope = ScopeTree.globalScope ∧ name = procedure.name ∧
      ∃ entry, scopes.held? scope name = some (.proc entry)) ∨
    ((scopes.procedure? procedure.name).bind (·.scope) = some scope ∧
      (name ∈ procedure.parameters.map (·.name) ∨ name ∈ procedure.locals.map (·.name)) ∧
      ∃ entry, scopes.held? scope name = some (.var entry))

/-- Placing changes nothing but places, and only those of the program's procedures and variables. -/
structure Program.PlaceKeeps (program : Program) (before after : Context) : Prop where
  types : after.types = before.types
  findings : after.findings = before.findings
  scopes : after.scopes.bare = before.scopes.bare
  places : ∀ scope name, after.scopes.held? scope name ≠ before.scopes.held? scope name →
    program.Places before.scopes scope name

section
variable {program : Program}

private theorem Program.check_keeps (program : Program) (start : Progress) :
    program.CheckKeeps start.context (program.check.runFrom start).2.context := by
  have hctx : (program.check.runFrom start).2.context = start.context.rememberExprs
      (program.checkBodies start.context.types start.context.scopes).found :=
    congrArg (·.2.context) (program.check_runFrom start.context start.events rfl)
  rw [hctx]
  refine ⟨rfl, rfl, rfl, fun id hne => ?_⟩
  have hat : (start.context.rememberExprs
      (program.checkBodies start.context.types start.context.scopes).found).findings.exprs.at? id = _ :=
    Keyed.at?_putAll _ _ id
  rw [hat] at hne ⊢
  cases hf : Keyed.at? (program.checkBodies start.context.types start.context.scopes).found.reverse id with
  | none =>
    rw [hf, Option.none_or] at hne
    exact absurd rfl hne
  | some type =>
    have hm := List.mem_reverse.mp (Keyed.mem_of_at? hf)
    exact ⟨program.checkBodies_among _ _ _ hm, type, rfl⟩

/-- A placement writes to an entry of the kind that it is about. -/
def Placement.Writes (scopes : ScopeTree) (scope : ScopeId) (name : Name) : Placement → Prop
  | .variableAt s n _ => s = scope ∧ n = name ∧ ∃ entry, scopes.held? scope name = some (.var entry)
  | .areas n _ _ _ => ScopeTree.globalScope = scope ∧ n = name ∧
      ∃ entry, scopes.held? scope name = some (.proc entry)
  | .outgoing n _ => ScopeTree.globalScope = scope ∧ n = name ∧
      ∃ entry, scopes.held? scope name = some (.proc entry)

private theorem held?_adjust_ne {scopes : ScopeTree} {s scope : ScopeId} {n name : Name} {f : Entry → Entry}
    (h : (scopes.adjust s n f).held? scope name ≠ scopes.held? scope name) :
    s = scope ∧ n = name ∧ ∃ entry, scopes.held? scope name = some entry ∧ f entry ≠ entry := by
  rw [ScopeTree.held?_adjust] at h
  split at h
  · next hsn =>
    refine ⟨hsn.1, hsn.2, ?_⟩
    cases hh : scopes.held? scope name with
    | none => simp [hh] at h
    | some entry => exact ⟨entry, rfl, fun he => h (by rw [hh, Option.map_some, he])⟩
  · exact absurd rfl h

private theorem Placement.writes_of_ne {scopes : ScopeTree} {scope : ScopeId} {name : Name} (placement : Placement)
    (h : (placement.put scopes).held? scope name ≠ scopes.held? scope name) :
    placement.Writes scopes scope name := by
  cases placement with
  | variableAt s n offset =>
    obtain ⟨hs, hn, entry, hh, hf⟩ := held?_adjust_ne h
    cases entry with
    | var v => exact ⟨hs, hn, v, hh⟩
    | _ => exact absurd rfl hf
  | areas n slots argumentArea localArea =>
    obtain ⟨hs, hn, entry, hh, hf⟩ := held?_adjust_ne h
    cases entry with
    | proc p => exact ⟨hs, hn, p, hh⟩
    | _ => exact absurd rfl hf
  | outgoing n area =>
    obtain ⟨hs, hn, entry, hh, hf⟩ := held?_adjust_ne h
    cases entry with
    | proc p => exact ⟨hs, hn, p, hh⟩
    | _ => exact absurd rfl hf

private theorem Placement.Writes.congr {scopes scopes' : ScopeTree} {scope : ScopeId} {name : Name}
    {placement : Placement} (h : placement.Writes scopes scope name)
    (hh : scopes.held? scope name = scopes'.held? scope name) : placement.Writes scopes' scope name := by
  cases placement <;> simpa only [Writes, hh] using h

/-- An entry that placements change is written by one of them. -/
theorem exists_writes {placements : List Placement} {scopes : ScopeTree} {scope : ScopeId} {name : Name}
    (h : (placements.foldl Placement.put scopes).held? scope name ≠ scopes.held? scope name) :
    ∃ placement ∈ placements, placement.Writes scopes scope name := by
  induction placements generalizing scopes with
  | nil => exact absurd rfl h
  | cons placement rest ih =>
    by_cases hp : (placement.put scopes).held? scope name = scopes.held? scope name
    · have hrest : (rest.foldl Placement.put (placement.put scopes)).held? scope name ≠
          (placement.put scopes).held? scope name := fun he => h (he.trans hp)
      obtain ⟨later, hl, hw⟩ := ih hrest
      exact ⟨later, List.mem_cons_of_mem _ hl, hw.congr hp⟩
    · exact ⟨placement, List.mem_cons_self, placement.writes_of_ne hp⟩

/-- What placing leaves behind: the variables are placed, and some areas sized if it gets that far. -/
private theorem place_context (program : Program) (start : Progress) :
    ∃ first later : List Placement,
      (program.place.runFrom start).2.context = (start.context.place first).place later ∧
      (∀ placement ∈ first, ∃ p ∈ program.procedures, placement.Within start.context.scopes p) ∧
      ∀ placement ∈ later, ∃ p ∈ program.procedures, ∃ area, placement = .outgoing p.name area := by
  have hfirst : ∀ placement ∈
      (program.procedures.forM (·.placeVariables start.context.types start.context.scopes)).found,
      ∃ p ∈ program.procedures, placement.Within start.context.scopes p :=
    Trail.Leaves.forM _ fun p hp => p.placeVariables_leaves.mono fun _ hw => ⟨p, hp, hw.1⟩
  have hsecond : ∀ scopes, ∀ placement ∈ (program.procedures.forM (·.sizeOutgoing scopes)).found,
      ∃ p ∈ program.procedures, ∃ area, placement = .outgoing p.name area :=
    fun scopes => Trail.Leaves.forM _ fun p hp => p.sizeOutgoing_leaves.mono fun _ hw => ⟨p, hp, hw⟩
  have hctx := congrArg (·.2.context) (program.place_runFrom start.context start.events rfl rfl)
  cases hr : (program.procedures.forM (·.placeVariables start.context.types start.context.scopes)).result with
  | error d =>
    rw [hr] at hctx
    exact ⟨_, [], hctx, hfirst, nofun⟩
  | ok u =>
    rw [hr] at hctx
    exact ⟨_, _, hctx, hfirst, hsecond _⟩

theorem Program.place_keeps (program : Program) (start : Progress) :
    program.PlaceKeeps start.context (program.place.runFrom start).2.context := by
  obtain ⟨first, later, hctx, hfirst, hlater⟩ := place_context program start
  rw [hctx]
  refine ⟨rfl, rfl, (bare_foldl_put later _).trans (bare_foldl_put first _), fun scope name hne => ?_⟩
  by_cases hmiddle : (start.context.place first).scopes.held? scope name = start.context.scopes.held? scope name
  · -- Only the area of a call is written to an entry that the first half left alone.
    obtain ⟨placement, hp, hw⟩ := exists_writes (fun he => hne (he.trans hmiddle))
    obtain ⟨procedure, hm, area, rfl⟩ := hlater placement hp
    obtain ⟨hs, hn, entry, hh⟩ := hw
    exact ⟨procedure, hm, .inl ⟨hs.symm, hn.symm, entry, hmiddle.symm.trans hh⟩⟩
  · obtain ⟨placement, hp, hw⟩ := exists_writes hmiddle
    obtain ⟨procedure, hm, hin⟩ := hfirst placement hp
    cases placement with
    | variableAt s n offset =>
      obtain ⟨rfl, rfl, entry, hh⟩ := hw
      exact ⟨procedure, hm, .inr ⟨hin.1, hin.2, entry, hh⟩⟩
    | areas n slots argumentArea localArea =>
      obtain ⟨hs, hn, entry, hh⟩ := hw
      exact ⟨procedure, hm, .inl ⟨hs.symm, hn.symm.trans hin, entry, hh⟩⟩
    | outgoing n area =>
      obtain ⟨hs, hn, entry, hh⟩ := hw
      exact ⟨procedure, hm, .inl ⟨hs.symm, hn.symm.trans hin, entry, hh⟩⟩

/-- The tables of a compiled program read the same after every stage, its frames once they are laid out. -/
structure Program.TextsLast (program : Program) (c : Compilation) : Prop where
  tables : ∀ last, ∃ stopped, (compile program last).1 = .ok stopped ∧
    program.tablesText stopped.context = program.tablesText c.context
  frames : ∃ laidOut, (compile program .placed).1 = .ok laidOut ∧
    program.framesText laidOut.context = program.framesText c.context

/-- Whatever context they start from and whether they succeed or not, checking and placing keep what
the declarations entered; so the tables of a compiled program read the same after every stage, and its
frames the same once they are laid out. -/
theorem Program.declarations_last (program : Program) :
    (∀ start, program.CheckKeeps start.context (program.check.runFrom start).2.context) ∧
    (∀ start, program.PlaceKeeps start.context (program.place.runFrom start).2.context) ∧
    ∀ c, (compile program .generated).1 = .ok c → program.TextsLast c := by
  refine ⟨program.check_keeps, program.place_keeps, fun c h => ?_⟩
  obtain ⟨declared, checked, placed, hruns, hctx, hstops⟩ := compile_stops h
  have hcheck : program.CheckKeeps declared.context checked.context := by
    obtain ⟨bodies, hc⟩ := hruns.check
    have hk := program.check_keeps declared
    rwa [runFrom, hc] at hk
  have hplace : program.PlaceKeeps checked.context placed.context := by
    obtain ⟨frames, hp⟩ := hruns.place
    have hk := program.place_keeps checked
    rwa [runFrom, hp] at hk
  have hafter := program.tablesText_congr hplace.types hplace.scopes
  constructor
  · intro last
    obtain ⟨stopped, hs, hc⟩ := hstops last
    refine ⟨stopped, hs, ?_⟩
    rw [hc, hctx]
    cases last with
    | declared =>
      rw [hafter]
      exact (program.tablesText_congr hcheck.types (congrArg _ hcheck.scopes)).symm
    | checked => exact hafter.symm
    | placed => rfl
    | generated => rfl
  · obtain ⟨laidOut, hl, hc⟩ := hstops .placed
    exact ⟨laidOut, hl, congrArg program.framesText (hc.trans hctx.symm)⟩

end

/-- A variable of `main` is passed by reference to a procedure that assigns to it. -/
def cellSet : Program where
  position := ⟨1, 1⟩
  declarations := [
    .procedure ⟨⟨1, 1⟩, "set", [⟨⟨1, 10⟩, "x", .named ⟨0, ⟨1, 17⟩⟩ "int", true⟩], [],
      [.assign ⟨1, 24⟩ (.named ⟨1, ⟨1, 24⟩⟩ "x") (.literal ⟨2, ⟨1, 29⟩⟩ 1)]⟩,
    .procedure ⟨⟨2, 1⟩, "main", [], [⟨⟨2, 15⟩, "y", .named ⟨3, ⟨2, 22⟩⟩ "int"⟩],
      [.call ⟨2, 27⟩ "set" [.load ⟨5, ⟨2, 31⟩⟩ (.named ⟨4, ⟨2, 31⟩⟩ "y")]]⟩]

theorem cellSet_declarations_last : ∃ c, (compile cellSet .generated).1 = .ok c ∧ cellSet.TextsLast c := by
  obtain ⟨c, assembly, hc, _⟩ := @compile_of_isOk cellSet (by decide +kernel)
  exact ⟨c, hc, (Program.declarations_last cellSet).2.2 c hc⟩

end SplLang

import SplLang.Proofs.Ready

/-! Compilations that get through their stages. What the last stage starts from is prepared, and
the types of all arrays are remembered if no node number occurs twice. -/
namespace SplLang
open Phase Machine

namespace Phase
variable {α : Type} {stage last : Stage} {x : Phase α} {start finish : Progress}

theorem run_within_eq_error {d : Diagnostic} :
    (within stage last x).run start = .error d finish ↔
      stage.runs last ∧ x.run start = .error d finish := by
  unfold within
  split
  · next h =>
    rw [map_eq_pure_bind, run_bind_eq_error]
    simp [h]
  · next h => simp [h]

theorem run_within_eq_ok {a : Option α} :
    (within stage last x).run start = .ok a finish ↔
      (stage.runs last ∧ ∃ b, a = some b ∧ x.run start = .ok b finish) ∨
        (¬ stage.runs last ∧ a = none ∧ finish = start) := by
  unfold within
  split
  · next h =>
    rw [map_eq_pure_bind, run_bind_eq_ok]
    constructor
    · rintro ⟨b, middle, hx, hp⟩
      cases hp
      exact .inl ⟨h, b, rfl, hx⟩
    · rintro (⟨_, b, rfl, hx⟩ | ⟨hn, _⟩)
      · exact ⟨b, finish, hx, rfl⟩
      · exact absurd h hn
  · next h => simp [h, eq_comm]

end Phase

/-- The findings of a check hold a type for each node of the bodies, in the order of the nodes. -/
structure Recorded (context : Context) (sigs : List Signature) (found : List Finding) : Prop where
  kept : ∃ before : Keyed NodeId TypeId, context.findings.exprs = before.putAll found
  finds : List.Forall₂ (FindsIn context.types context.scopes) (occurrences (sigs.map (·.procedure))) found

/-- The scope of a procedure by name is that of its signature. -/
theorem Scoped.scope_iff {scopes : ScopeTree} {sigs : List Signature}
    {own : Signature → Keyed Name Entry} {entryOf : Signature → ProcedureEntry}
    (h : Scoped scopes sigs own entryOf) {name : Name} {scope : ScopeId} :
    (scopes.procedure? name).bind (·.scope) = some scope ↔
      ∃ sig ∈ sigs, sig.procedure.name = name ∧ sig.scope = scope := by
  constructor
  · intro hs
    obtain ⟨entry, he, hscope⟩ := Option.bind_eq_some_iff.mp hs
    rcases h.procedure?_iff.mp he with ⟨p, _, _, rfl⟩ | ⟨sig, hsig, hname, rfl⟩
    · cases hscope
    · rw [h.scope sig hsig] at hscope
      exact ⟨sig, hsig, hname, Option.some.inj hscope⟩
  · rintro ⟨sig, hsig, rfl, rfl⟩
    rw [h.procedure?_of_mem hsig]
    exact h.scope sig hsig

/-- Laying out frames changes no type of a node. -/
theorem Scoped.typeIn {types : TypeTable} {scopes scopes' : ScopeTree} {sigs : List Signature}
    {area : Signature → OutgoingArea} (h : Scoped scopes sigs Signature.own Signature.entry)
    (h' : Scoped scopes' sigs (Signature.placed types) (Signature.framedEntry types area))
    {procedure : Procedure} {type : TypeId} {node : TreeNode}
    (ht : TypeIn types scopes procedure type node) : TypeIn types scopes' procedure type node := by
  obtain ⟨scope, hscope, ht⟩ := ht
  obtain ⟨sig, hs, hname, rfl⟩ := h.scope_iff.mp hscope
  refine ⟨sig.scope, h'.scope_iff.mpr ⟨sig, hs, hname, rfl⟩, ?_⟩
  apply ht.congr
  · rfl
  · exact (h.around_eq h' hs).1

theorem Scoped.typeIn_iff {types : TypeTable} {scopes : ScopeTree} {sigs : List Signature}
    {own : Signature → Keyed Name Entry} {entryOf : Signature → ProcedureEntry}
    (h : Scoped scopes sigs own entryOf) {sig : Signature} (hs : sig ∈ sigs) {type : TypeId}
    {node : TreeNode} :
    TypeIn types scopes sig.procedure type node ↔ node.HasType ⟨types, scopes, sig.scope⟩ type := by
  have hscope := h.scope_iff.mpr ⟨sig, hs, rfl, rfl⟩
  constructor
  · rintro ⟨scope, hother, ht⟩
    rw [hscope] at hother
    cases hother
    exact ht
  · intro ht
    exact ⟨sig.scope, hscope, ht⟩

/-- The check of a declared program finds the bodies of all signatures well typed. -/
theorem Declared.checkBodies_ok {context : Context} {sigs : List Signature} {program : Program}
    {found : List Finding} (h : Declared context sigs)
    (hsigs : sigs.map (·.procedure) = program.procedures)
    (hc : (program.checkBodies context.types context.scopes).Gives () found) :
    List.Forall₂ (FindsIn context.types context.scopes) (occurrences (sigs.map (·.procedure))) found ∧
      ∀ sig ∈ sigs, ∀ stmt ∈ sig.procedure.body, stmt.Typed (sig.around context) := by
  obtain ⟨hfinds, hall⟩ := Program.checkBodies_ok hc
  rw [← hsigs] at hfinds hall
  refine ⟨hfinds, ?_⟩
  intro sig hs
  obtain ⟨scope, hscope, ht⟩ := hall _ (List.mem_map_of_mem hs)
  rw [(h.unplaced hs).scope] at hscope
  cases hscope
  exact ht

section
variable {program : Program} {declared checked placed : Progress} {sigs : List Signature}

/-- A checked program keeps its declarations, and its bodies are well typed. -/
theorem Declared.check_ok {bodies : Nat} (h : Declared declared.context sigs)
    (hsigs : sigs.map (·.procedure) = program.procedures)
    (hc : program.check.run declared = .ok bodies checked) :
    Declared checked.context sigs ∧
      (∀ sig ∈ sigs, ∀ stmt ∈ sig.procedure.body, stmt.Typed (sig.around checked.context)) ∧
      ∃ found, Recorded checked.context sigs found := by
  obtain ⟨found, hfound, hctx⟩ := Program.check_ok hc
  obtain ⟨hfinds, hall⟩ := h.checkBodies_ok hsigs hfound
  rw [hctx]
  exact ⟨h.mono h.built (.refl _) rfl, hall, found, ⟨declared.context.findings.exprs, rfl⟩, hfinds⟩

/-- The frames of a checked program are refused only if they are too large. -/
theorem Program.place_code {count : DeclarationCount} {bodies : Nat} {d : Diagnostic} {finish : Progress}
    (hd : program.declare.run .initial = .ok count declared) (hc : program.check.run declared = .ok bodies checked)
    (hr : program.place.run checked = .error d finish) : d.code = 129 := by
  obtain ⟨sigs, hsigs, hdeclared⟩ := Program.declare_ok hd
  obtain ⟨hchecked, htyped, _⟩ := hdeclared.check_ok hsigs hc
  obtain ⟨sig, _, hcause, _⟩ := hchecked.place_refuses hsigs htyped hr
  rw [Diagnostic.code, hcause]
  rfl

/-- The stages behind the declarations prepare the context for the last one and keep the types. -/
theorem Declared.prepare {bodies frames : Nat} (h : Declared declared.context sigs)
    (hsigs : sigs.map (·.procedure) = program.procedures)
    (hc : program.check.run declared = .ok bodies checked)
    (hp : program.place.run checked = .ok frames placed) :
    ∃ area found, Prepared placed.context sigs area ∧ Recorded placed.context sigs found ∧
      placed.context.types = declared.context.types := by
  obtain ⟨hchecked, htyped, found, hfound⟩ := h.check_ok hsigs hc
  obtain ⟨_, _, hctx⟩ := Program.check_ok hc
  obtain ⟨placements, areas, hplace, harea, hfinal⟩ := Program.place_ok hp
  rw [← hsigs] at hplace harea
  obtain ⟨area, hprepared⟩ := hchecked.place_ok htyped hplace harea
  rw [← hfinal] at hprepared
  have htypes : placed.context.types = checked.context.types := by
    rw [hfinal]
    rfl
  have hkept : placed.context.findings = checked.context.findings := by
    rw [hfinal]
    rfl
  have hdeclared : checked.context.types = declared.context.types := by
    rw [hctx]
    rfl
  refine ⟨area, found, hprepared, ⟨hkept ▸ hfound.kept, ?_⟩, htypes.trans hdeclared⟩
  have hseen := hprepared.seen
  rw [htypes] at hseen ⊢
  exact hfound.finds.imp fun _ _ hf => ⟨hf.1, hchecked.scoped.typeIn hseen hf.2⟩

theorem mem_occurrences {procedures : List Procedure} {procedure : Procedure} {node : TreeNode}
    (hp : procedure ∈ procedures) (hn : node ∈ allNodes procedure.body) :
    (procedure, node) ∈ occurrences procedures :=
  List.mem_flatMap.mpr ⟨procedure, hp, List.mem_map_of_mem hn⟩

private theorem map_id_occurrences (procedures : List Procedure) :
    (occurrences procedures).map (·.2.id) = procedures.flatMap fun p => allNodeIds p.body := by
  rw [occurrences, List.map_flatMap]
  apply List.flatMap_congr
  intro procedure _
  rw [List.map_map, ← map_id_allNodes]
  rfl

/-- The findings have the numbers of the nodes of the bodies. -/
theorem map_fst_finds {types : TypeTable} {scopes : ScopeTree} {procedures : List Procedure} {found : List Finding}
    (h : List.Forall₂ (FindsIn types scopes) (occurrences procedures) found) :
    found.map (·.1) = procedures.flatMap fun procedure => allNodeIds procedure.body := by
  have heq : List.Forall₂ Eq (found.map (·.1)) ((occurrences procedures).map (·.2.id)) := by
    rw [List.forall₂_map_left_iff, List.forall₂_map_right_iff]
    exact (h.imp fun _ _ hf => hf.1).flip
  rw [List.forall₂_eq_eq_eq] at heq
  rw [heq, map_id_occurrences]

private theorem Recorded.nodeIds {context : Context} {found : List Finding} (h : Recorded context sigs found) :
    found.map (·.1) = sigs.flatMap fun sig => allNodeIds sig.procedure.body := by
  rw [map_fst_finds h.finds, List.flatMap_map]

/-- Among the findings is the type of each node. -/
theorem finding_of_mem {types : TypeTable} {scopes : ScopeTree} {found : List Finding}
    {nodes : List (Procedure × TreeNode)} (h : List.Forall₂ (FindsIn types scopes) nodes found)
    {occurrence : Procedure × TreeNode} (ho : occurrence ∈ nodes) :
    ∃ type, (occurrence.2.id, type) ∈ found ∧ TypeIn types scopes occurrence.1 type occurrence.2 := by
  induction h with
  | nil => cases ho
  | @cons node finding _ _ hf _ ih =>
    rcases List.mem_cons.mp ho with rfl | ho
    · refine ⟨finding.2, ?_, hf.2⟩
      rw [← hf.1]
      exact List.mem_cons_self
    · obtain ⟨type, hm, ht⟩ := ih ho
      exact ⟨type, List.mem_cons_of_mem _ hm, ht⟩

/-- The node is the last one in the bodies that has the number. -/
def LastPlace (procedures : List Procedure) (id : NodeId) (occurrence : Procedure × TreeNode) : Prop :=
  ∃ before after, occurrences procedures = before ++ occurrence :: after ∧
    occurrence.2.id = id ∧ ∀ later ∈ after, later.2.id ≠ id

/-- What is remembered for a number is the type of the last node that has it. -/
theorem Recorded.last {context : Context} {found : List Finding} (h : Recorded context sigs found)
    {id : NodeId} (hid : id ∈ found.map (·.1)) :
    ∃ type occurrence, context.findings.exprs.at? id = some type ∧
      LastPlace (sigs.map (·.procedure)) id occurrence ∧
      TypeIn context.types context.scopes occurrence.1 type occurrence.2 := by
  obtain ⟨earlier, hkept⟩ := h.kept
  obtain ⟨before, type, after, rfl, hlast⟩ := Keyed.exists_last hid
  have hfinds := h.finds
  have hdrop := List.forall₂_drop_append _ _ _ hfinds
  obtain ⟨occurrence, rest, hf, hrest, hsplit⟩ := List.forall₂_cons_right_iff.mp hdrop
  refine ⟨type, occurrence, ?_,
    ⟨(occurrences (sigs.map (·.procedure))).take before.length, rest, ?_, hf.1.symm, ?_⟩, hf.2⟩
  · rw [hkept]
    exact Keyed.at?_putAll_of_last earlier hlast
  · rw [← hsplit]
    exact (List.take_append_drop before.length _).symm
  · intro later hl he
    obtain ⟨t, hm, _⟩ := finding_of_mem hrest hl
    rw [he] at hm
    exact hlast (List.mem_map_of_mem hm)

/-- If no number occurs at two places of the tree, every node has its own type remembered. -/
theorem Recorded.noted_node {context : Context} {found : List Finding} {area : Signature → OutgoingArea}
    (h : Recorded context sigs found) (hp : Prepared context sigs area)
    (hsigs : sigs.map (·.procedure) = program.procedures) (hn : program.nodeIds.Nodup)
    {sig : Signature} (hs : sig ∈ sigs) {node : TreeNode} (hnode : node ∈ allNodes sig.procedure.body) :
    ∃ type, node.HasType (sig.around context) type ∧ context.findings.exprs.at? node.id = some type := by
  have hnodup : (found.map (·.1)).Nodup := by
    rw [h.nodeIds]
    have := Program.bodies_nodup hn
    rw [← hsigs, List.flatMap_map] at this
    exact this
  obtain ⟨before, hkept⟩ := h.kept
  obtain ⟨type, hm, ht⟩ := finding_of_mem h.finds (mem_occurrences (List.mem_map_of_mem hs) hnode)
  rw [hkept]
  exact ⟨type, (hp.seen.typeIn_iff hs).mp ht, Keyed.at?_putAll_of_mem before hnodup hm⟩

/-- If no number occurs at two places of the tree, every array has its own type remembered. -/
theorem Recorded.noted {context : Context} {found : List Finding} {area : Signature → OutgoingArea}
    (h : Recorded context sigs found) (hp : Prepared context sigs area)
    (hsigs : sigs.map (·.procedure) = program.procedures) (hn : program.nodeIds.Nodup)
    {sig : Signature} (hs : sig ∈ sigs) :
    NotedIn context (sig.around context) (allSubscripts sig.procedure.body) :=
  fun _ hsub => h.noted_node hp hsigs hn hs (allSubscripts_nodes _ hsub).2

end

theorem compile_eq_error {program : Program} {last : Stage} {d : Diagnostic} :
    (compile program last).1 = .error d ↔
      ∃ finish, (program.runStages last).run .initial = .error d finish := by
  unfold compile runFrom
  cases (program.runStages last).run .initial with
  | ok c finish => simp
  | error e finish => simp

theorem compile_eq_ok {program : Program} {last : Stage} {c : Compilation} :
    (compile program last).1 = .ok c ↔
      ∃ finish, (program.runStages last).run .initial = .ok c finish := by
  unfold compile runFrom
  cases (program.runStages last).run .initial with
  | ok c finish => simp
  | error e finish => simp

/-- The stages that ran before a stage that runs. -/
theorem runs_of_runs {earlier stage last : Stage} (h : stage.runs last)
    (hle : earlier.rank ≤ stage.rank) : earlier.runs last := by
  simp only [Stage.runs, decide_eq_true_eq] at h ⊢
  exact Nat.le_trans hle h

theorem run_of_within {α : Type} {stage last : Stage} {x : Phase α} {a : Option α}
    {start finish : Progress} (hruns : stage.runs last)
    (h : (within stage last x).run start = .ok a finish) :
    ∃ b, a = some b ∧ x.run start = .ok b finish := by
  rcases run_within_eq_ok.mp h with ⟨_, hb⟩ | ⟨hn, _⟩
  · exact hb
  · exact absurd hruns hn

/-- The runs of the first three stages, one after the other. -/
structure Program.Runs (program : Program) (declared checked placed : Progress) : Prop where
  declare : ∃ count, program.declare.run .initial = .ok count declared
  check : ∃ count, program.check.run declared = .ok count checked
  place : ∃ count, program.place.run checked = .ok count placed

theorem Program.Runs.unique {program : Program} {declared checked placed declared' checked' placed' : Progress}
    (h : program.Runs declared checked placed) (h' : program.Runs declared' checked' placed') : placed = placed' := by
  obtain ⟨⟨_, hd⟩, ⟨_, hc⟩, ⟨_, hp⟩⟩ := h
  obtain ⟨⟨_, hd'⟩, ⟨_, hc'⟩, ⟨_, hp'⟩⟩ := h'
  rw [hd] at hd'
  cases hd'
  rw [hc] at hc'
  cases hc'
  rw [hp] at hp'
  cases hp'
  rfl

/-- A compilation that fails does so in one of its stages, behind those before it. -/
theorem Program.runStages_eq_error {program : Program} {last : Stage} {d : Diagnostic}
    {finish : Progress} (h : (program.runStages last).run .initial = .error d finish) :
    program.declare.run .initial = .error d finish ∨
    (∃ count declared, program.declare.run .initial = .ok count declared ∧
      (program.check.run declared = .error d finish ∨
      ∃ count checked, program.check.run declared = .ok count checked ∧
        program.place.run checked = .error d finish)) ∨
    ∃ declared checked placed, program.Runs declared checked placed ∧
      program.generate.run placed = .error d finish := by
  unfold runStages at h
  rcases run_bind_eq_error.mp h with h | ⟨count, declared, hd, h⟩
  · exact .inl h
  rcases run_bind_eq_error.mp h with h | ⟨_, checked, hc, h⟩
  · exact .inr (.inl ⟨count, declared, hd, .inl (run_within_eq_error.mp h).2⟩)
  rcases run_bind_eq_error.mp h with h | ⟨_, placed, hp, h⟩
  · obtain ⟨hruns, h⟩ := run_within_eq_error.mp h
    obtain ⟨bodies, _, hc⟩ := run_of_within (runs_of_runs hruns (by decide)) hc
    exact .inr (.inl ⟨count, declared, hd, .inr ⟨bodies, checked, hc, h⟩⟩)
  rcases run_bind_eq_error.mp h with h | ⟨_, _, _, h⟩
  · obtain ⟨hruns, h⟩ := run_within_eq_error.mp h
    obtain ⟨bodies, _, hc⟩ := run_of_within (runs_of_runs hruns (by decide)) hc
    obtain ⟨frames, _, hp⟩ := run_of_within (runs_of_runs hruns (by decide)) hp
    exact .inr (.inr ⟨declared, checked, placed, ⟨⟨_, hd⟩, ⟨_, hc⟩, ⟨_, hp⟩⟩, h⟩)
  · cases h

theorem Program.generate_ok {program : Program} {assembly : Assembly} {start finish : Progress}
    (h : program.generate.run start = .ok assembly finish) :
    finish.context = start.context ∧ ∃ labels, (program.code start.context).Gives labels assembly := by
  unfold generate at h
  rw [run_context_bind] at h
  obtain ⟨labels, _, hf, h⟩ := run_bind_eq_ok.mp h
  obtain ⟨hok, rfl⟩ := run_follow_eq_ok.mp hf
  cases h
  exact ⟨rfl, labels, Trail.gives_of_ok hok⟩

theorem Program.generate_error {program : Program} {d : Diagnostic} {start finish : Progress}
    (h : program.generate.run start = .error d finish) : (program.code start.context).result = .error d := by
  unfold generate at h
  rw [run_context_bind] at h
  rcases run_bind_eq_error.mp h with h | ⟨_, _, _, h⟩
  · exact (run_follow_eq_error.mp h).1
  · cases h

private theorem runStages_parts {program : Program} {last : Stage} {c : Compilation}
    {finish : Progress} (h : (program.runStages last).run .initial = .ok c finish)
    (hruns : Stage.placed.runs last) :
    ∃ declared checked placed generated, program.Runs declared checked placed ∧
      (within .generated last program.generate).run placed = .ok c.assembly generated ∧
      c.context = generated.context := by
  unfold Program.runStages at h
  obtain ⟨_, declared, hd, h⟩ := run_bind_eq_ok.mp h
  obtain ⟨_, checked, hc, h⟩ := run_bind_eq_ok.mp h
  obtain ⟨_, placed, hp, h⟩ := run_bind_eq_ok.mp h
  obtain ⟨_, generated, hg, h⟩ := run_bind_eq_ok.mp h
  obtain ⟨_, _, hc⟩ := run_of_within (runs_of_runs hruns (by decide)) hc
  obtain ⟨_, _, hp⟩ := run_of_within hruns hp
  cases h
  exact ⟨declared, checked, placed, generated, ⟨⟨_, hd⟩, ⟨_, hc⟩, ⟨_, hp⟩⟩, hg, rfl⟩

theorem exists_ok_of_isOk {α : Type} {result : Except Diagnostic α} (h : result.isOk) : ∃ a, result = .ok a := by
  cases result with
  | ok a => exact ⟨a, rfl⟩
  | error d => cases h

theorem compile_checked_of_isOk {program : Program} (h : (compile program .checked).1.isOk) :
    ∃ declarations bodies declared checked, program.declare.run .initial = .ok declarations declared ∧
      program.check.run declared = .ok bodies checked := by
  obtain ⟨c, hc⟩ := exists_ok_of_isOk h
  obtain ⟨finish, hc⟩ := compile_eq_ok.mp hc
  unfold Program.runStages at hc
  obtain ⟨declarations, declared, hd, hc⟩ := run_bind_eq_ok.mp hc
  obtain ⟨_, checked, hchecked, _⟩ := run_bind_eq_ok.mp hc
  obtain ⟨bodies, _, hchecked⟩ := run_of_within rfl hchecked
  exact ⟨declarations, bodies, declared, checked, hd, hchecked⟩

/-- A compilation up to the frames leaves what generation would start from. -/
theorem compile_placed {program : Program} {c : Compilation}
    (h : (compile program .placed).1 = .ok c) :
    ∃ declared checked placed, program.Runs declared checked placed ∧ c.context = placed.context := by
  obtain ⟨finish, h⟩ := compile_eq_ok.mp h
  obtain ⟨declared, checked, placed, generated, hr, hg, hc⟩ := runStages_parts h rfl
  rcases run_within_eq_ok.mp hg with ⟨hruns, _⟩ | ⟨_, _, hsame⟩
  · cases hruns
  · exact ⟨declared, checked, placed, hr, hsame ▸ hc⟩

/-- What a compilation up to the frames answers is prepared, and its array types are remembered. -/
theorem compile_placed_prepared {program : Program} {c : Compilation}
    (h : (compile program .placed).1 = .ok c) :
    ∃ sigs area found, sigs.map (·.procedure) = program.procedures ∧ Prepared c.context sigs area ∧
      Recorded c.context sigs found := by
  obtain ⟨declared, checked, placed, hruns, hctx⟩ := compile_placed h
  obtain ⟨_, hd⟩ := hruns.declare
  obtain ⟨_, hc⟩ := hruns.check
  obtain ⟨_, hp⟩ := hruns.place
  obtain ⟨sigs, hsigs, hdeclared⟩ := Program.declare_ok hd
  obtain ⟨area, found, hprepared, hrecorded, -⟩ := hdeclared.prepare hsigs hc hp
  rw [hctx]
  exact ⟨sigs, area, found, hsigs, hprepared, hrecorded⟩

/-- A whole compilation generates its code from the context that it answers. -/
theorem compile_generated {program : Program} {c : Compilation}
    (h : (compile program .generated).1 = .ok c) :
    ∃ declared checked placed, program.Runs declared checked placed ∧ c.context = placed.context ∧
      ∃ labels assembly, c.assembly = some assembly ∧
        (program.code c.context).Gives labels assembly := by
  obtain ⟨finish, h⟩ := compile_eq_ok.mp h
  obtain ⟨declared, checked, placed, generated, hr, hg, hc⟩ := runStages_parts h rfl
  obtain ⟨assembly, ha, hg⟩ := run_of_within rfl hg
  obtain ⟨hctx, labels, hcode⟩ := Program.generate_ok hg
  rw [hctx] at hc
  exact ⟨declared, checked, placed, hr, hc, labels, assembly, ha, hc ▸ hcode⟩

theorem compile_of_isOk {program : Program} (h : (compile program .generated).1.isOk) :
    ∃ c assembly, (compile program .generated).1 = .ok c ∧ c.assembly = some assembly := by
  obtain ⟨c, hc⟩ := exists_ok_of_isOk h
  obtain ⟨_, _, _, _, _, _, assembly, ha, _⟩ := compile_generated hc
  exact ⟨c, assembly, hc, ha⟩

/-- What a whole compilation answers is prepared, with the types of the declarations, and its code is generated from
it. -/
theorem compile_declared {program : Program} {c : Compilation} {assembly : Assembly}
    (h : (compile program .generated).1 = .ok c) (ha : c.assembly = some assembly) :
    ∃ count declared, program.declare.run .initial = .ok count declared ∧
      c.context.types = declared.context.types ∧ ∃ sigs area found supply,
        sigs.map (·.procedure) = program.procedures ∧ Declared declared.context sigs ∧
        Prepared c.context sigs area ∧ Recorded c.context sigs found ∧
        (program.code c.context).Gives supply assembly := by
  obtain ⟨declared, checked, placed, hruns, hctx, supply, generated, hgen, hcode⟩ := compile_generated h
  rw [ha] at hgen
  cases hgen
  obtain ⟨count, hd⟩ := hruns.declare
  obtain ⟨_, hc⟩ := hruns.check
  obtain ⟨_, hp⟩ := hruns.place
  obtain ⟨sigs, hsigs, hdeclared⟩ := Program.declare_ok hd
  obtain ⟨area, found, hprepared, hrecorded, htypes⟩ := hdeclared.prepare hsigs hc hp
  rw [hctx] at hcode ⊢
  exact ⟨count, declared, hd, htypes, sigs, area, found, supply, hsigs, hdeclared, hprepared, hrecorded, hcode⟩

/-- What a whole compilation answers is prepared, its array types are remembered, and its code is
generated from it. -/
theorem compile_prepared {program : Program} {c : Compilation} {assembly : Assembly}
    (h : (compile program .generated).1 = .ok c) (ha : c.assembly = some assembly) :
    ∃ sigs area found supply, sigs.map (·.procedure) = program.procedures ∧
      Prepared c.context sigs area ∧ Recorded c.context sigs found ∧
      (program.code c.context).Gives supply assembly := by
  obtain ⟨_, _, _, _, sigs, area, found, supply, hsigs, _, hprepared, hrecorded, hcode⟩ := compile_declared h ha
  exact ⟨sigs, area, found, supply, hsigs, hprepared, hrecorded, hcode⟩

end SplLang

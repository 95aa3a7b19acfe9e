import SplLang.Proofs.Effects
import SplLang.Proofs.Extent

/-! What a refused layout leaves behind. A procedure gets its outgoing area last and only with a frame, so that
an unfinished layout can be told by an area that is missing, and no code is generated from it. -/
namespace SplLang
open Phase

/-- All that there is to decide about the frame of the procedure has been decided. -/
structure ProcedureEntry.Complete (scopes : ScopeTree) (procedure : Procedure) (entry : ProcedureEntry) : Prop where
  argumentArea : entry.argumentArea.isSome
  localArea : entry.localArea.isSome
  outgoing : entry.outgoing.isSome
  frame : entry.frame?.isSome
  slots : ∀ slot ∈ entry.parameters, slot.offset.isSome
  offsets : ∃ scope, entry.scope = some scope ∧
    ∀ name ∈ procedure.parameters.map (·.name) ++ procedure.locals.map (·.name),
      ∃ v, scopes.held? scope name = some (.var v) ∧ v.offset.isSome

section
variable {context : Context} {scopes : ScopeTree} {sigs done : List Signature} {sig : Signature} {types : TypeTable}

/-- Without an area for it among the placements a procedure keeps the one it had. -/
theorem Placement.procedure?_putAll {ps : List Placement} {name : Name} {entry : ProcedureEntry}
    (h : scopes.procedure? name = some entry) (hno : ∀ area, .outgoing name area ∉ ps) :
    ∃ later, (ps.foldl put scopes).procedure? name = some later ∧ later.outgoing = entry.outgoing := by
  induction ps generalizing scopes entry with
  | nil => exact ⟨entry, h, rfl⟩
  | cons p ps ih =>
    have hput : ∃ next, (put scopes p).procedure? name = some next ∧ next.outgoing = entry.outgoing := by
      obtain ⟨held, hh, he⟩ := Option.bind_eq_some_iff.mp h
      unfold ScopeTree.procedure?
      rw [Placement.held?_put, hh]
      cases held with
      | type _ => cases he
      | var _ => cases he
      | proc held =>
        cases he
        split
        · next ht =>
          cases p with
          | variableAt scope own offset => exact ⟨entry, rfl, rfl⟩
          | areas procedure slots argumentArea localArea => exact ⟨_, rfl, rfl⟩
          | outgoing procedure area =>
            obtain ⟨-, rfl⟩ := Prod.mk.inj ht
            exact absurd List.mem_cons_self (hno area)
        · exact ⟨entry, rfl, rfl⟩
    obtain ⟨next, hn, ho⟩ := hput
    obtain ⟨later, hl, hlo⟩ := ih hn fun area hm => hno area (List.mem_cons_of_mem _ hm)
    exact ⟨later, hl, hlo.trans ho⟩

/-- A procedure whose frame is refused gets no area. -/
theorem Procedure.sizeOutgoing_found_of_error {procedure : Procedure} {d : Diagnostic}
    (h : (procedure.sizeOutgoing scopes).result = .error d) : (procedure.sizeOutgoing scopes).found = [] := by
  rw [List.eq_nil_iff_forall_not_mem]
  refine (?_ : Trail.Leaves (fun _ => False) (procedure.sizeOutgoing scopes))
  unfold Procedure.sizeOutgoing Procedure.localScope at h ⊢
  refine (Trail.Leaves.expect _ _ _).bind fun scope hscope => ?_
  rw [Trail.result_bind_of_ok hscope] at h
  refine (outgoingAll_leaves _ _ _).bind fun area harea => ?_
  rw [Trail.result_bind_of_ok harea] at h
  refine (Trail.Leaves.report _).bind fun _ _ => (Trail.Leaves.require _ _ _).bind fun _ hframe => ?_
  rw [Trail.result_report_bind, Trail.result_bind_of_ok hframe] at h
  cases h

/-- Every variable of the procedure is placed. -/
theorem Signature.placed_variable (hf : sig.Fits types) {name : Name}
    (hn : name ∈ sig.procedure.parameters.map (·.name) ++ sig.procedure.locals.map (·.name)) :
    ∃ v, (sig.placed types).at? name = some (.var v) ∧ v.offset.isSome := by
  have hown : name ∈ (sig.placed types).map (·.1) := by
    rw [map_fst_placed, ownNames]
    rwa [← hf.parameters_eq, ← hf.locals_eq, List.map_map, List.map_map] at hn
  cases hat : (sig.placed types).at? name with
  | none => exact absurd hown ((Keyed.at?_eq_none_iff _ _).mp hat)
  | some entry =>
    rcases List.mem_append.mp (Keyed.mem_of_at? hat) with hm | hm
    · obtain ⟨p, -, he⟩ := List.mem_map.mp hm
      cases he
      exact ⟨_, rfl, rfl⟩
    · obtain ⟨d, -, he⟩ := List.mem_map.mp hm
      cases he
      exact ⟨_, rfl, rfl⟩

/-- The first half of a layout gives no procedure its area. -/
private theorem unsized_of_placeVariables (h : Declared context sigs) (hs : sig ∈ sigs) {ps : List Placement}
    (hps : ((sigs.map Signature.procedure).forM (Procedure.placeVariables context.types context.scopes)).found = ps) :
    ∃ entry, (context.place ps).scopes.procedure? sig.procedure.name = some entry ∧ entry.outgoing = none := by
  have hno : ∀ placement ∈ ps, ∀ name area, placement ≠ .outgoing name area :=
    hps ▸ Trail.Leaves.forM _ fun p _ => p.placeVariables_leaves.mono fun _ hw => hw.2
  exact Placement.procedure?_putAll (h.scoped.procedure?_of_mem hs) fun area hm => hno _ hm _ area rfl

/-- Where the second half of a layout fails, the procedures before have got all there is to decide, and that one
has no area. -/
private theorem partlySized_of_sizeOutgoing
    (h : Scoped scopes sigs (Signature.placed types) (Signature.areasEntry types))
    (hfits : ∀ sig ∈ sigs, sig.Fits types) {sized : ScopeTree} {d : Diagnostic}
    (hd : ((sigs.map Signature.procedure).forM (Procedure.sizeOutgoing scopes)).result = .error d)
    (hsized : sized =
      ((sigs.map Signature.procedure).forM (Procedure.sizeOutgoing scopes)).found.foldl Placement.put scopes) :
    (∀ sig ∈ sigs, ∃ entry, sized.procedure? sig.procedure.name = some entry ∧
      (entry.outgoing.isSome → entry.Complete sized sig.procedure)) ∧
      ∃ sig ∈ sigs, sized.procedure? sig.procedure.name = some (sig.areasEntry types) := by
  obtain ⟨earlier, procedure, later, found, hsplit, hgives, hfails, hfound⟩ := Trail.forM_of_error hd
  obtain ⟨done, rest, rfl, rfl, hrest⟩ := List.map_eq_append_iff.mp hsplit
  obtain ⟨refused, others, rfl, rfl, -⟩ := List.map_eq_cons_iff.mp hrest
  have hmem : ∀ sig ∈ done, sig ∈ done ++ refused :: others := fun sig hs => List.mem_append_left _ hs
  obtain ⟨rfl, hframed⟩ := Trail.gives_forM (fun sig hs _ hg =>
    have hok := h.sizeOutgoing_ok (hmem sig hs) hg
    ⟨hok.1, hok.2.1⟩) hgives
  rw [Procedure.sizeOutgoing_found_of_error hfails, List.append_nil, ← List.map_eq_flatMap] at hfound
  have hstored := fun sig (hs : sig ∈ done ++ refused :: others) =>
    h.partlySized (List.sublist_append_left done _) hs (hfound ▸ hsized)
  have hrefused : refused ∈ done ++ refused :: others := List.mem_append_right _ List.mem_cons_self
  constructor
  · intro sig hs
    obtain ⟨hdone, hleft, hown⟩ := hstored sig hs
    by_cases hm : sig ∈ done
    · refine ⟨_, hdone hm, fun _ => ?_⟩
      refine {
        argumentArea := rfl
        localArea := rfl
        outgoing := rfl
        frame := hframed sig hm
        slots := ?_
        offsets := ⟨sig.scope, rfl, fun name hn => ?_⟩ }
      · intro slot hslot
        obtain ⟨p, -, rfl⟩ := List.mem_map.mp hslot
        rfl
      · rw [hown]
        exact Signature.placed_variable (hfits sig hs) hn
    · refine ⟨_, hleft hm, ?_⟩
      intro hsome
      cases hsome
  · refine ⟨refused, hrefused, (hstored refused hrefused).2.1 fun hm => ?_⟩
    have hnames := h.names
    rw [List.map_append, List.map_cons] at hnames
    exact (List.nodup_append.mp hnames).2.2 _ (List.mem_map_of_mem hm) _ List.mem_cons_self rfl

end

section
variable {program : Program} {start finish : Progress}

/-- No code is generated for a program in which the area of some procedure is missing. -/
theorem Program.generate_fails {procedure : Procedure} {entry : ProcedureEntry} (hp : procedure ∈ program.procedures)
    (he : start.context.scopes.procedure? procedure.name = some entry) (ho : entry.outgoing = none) :
    ∃ d finish, program.generate.run start = .error d finish := by
  cases hr : program.generate.run start with
  | error d finish => exact ⟨d, finish, rfl⟩
  | ok assembly finish =>
    obtain ⟨-, labels, hcode⟩ := Program.generate_ok hr
    obtain ⟨_, _, _, _, _, _, _, hframe, -⟩ := Program.code_split hcode hp
    obtain ⟨found, _, area, hf, -, -, harea, -⟩ := Procedure.frame_shape hframe
    rw [he] at hf
    cases hf
    rw [ho] at harea
    cases harea

/-- What a refused layout leaves: the procedures that have their area have all the rest, and there is no code. -/
structure Program.Unfinished (program : Program) (placed : Progress) : Prop where
  complete : ∀ procedure ∈ program.procedures, ∃ entry,
    placed.context.scopes.procedure? procedure.name = some entry ∧
      (entry.outgoing.isSome → entry.Complete placed.context.scopes procedure)
  generate_fails : ∃ refusal finish, program.generate.run placed = .error refusal finish

/-- A refused layout is never turned into code. Each procedure that has got its area has all the rest, and some
procedure has none. -/
theorem Program.place_unfinished {declarations : DeclarationCount} {bodies : Nat} {declared checked placed : Progress}
    {d : Diagnostic} (hd : program.declare.run .initial = .ok declarations declared)
    (hc : program.check.run declared = .ok bodies checked) (hp : program.place.run checked = .error d placed) :
    program.Unfinished placed := by
  obtain ⟨sigs, hsigs, hdeclared⟩ := Program.declare_ok hd
  obtain ⟨hchecked, -, -⟩ := hdeclared.check_ok hsigs hc
  have hrun := program.place_runFrom checked.context checked.events rfl rfl
  rw [runFrom, hp, ← hsigs] at hrun
  cases hfirst : ((sigs.map Signature.procedure).forM
      (Procedure.placeVariables checked.context.types checked.context.scopes)).result with
  | error refusal =>
    rw [hfirst] at hrun
    obtain ⟨-, rfl⟩ := Prod.mk.inj hrun
    have hunsized := fun sig (hs : sig ∈ sigs) => unsized_of_placeVariables hchecked hs rfl
    constructor
    · rw [← hsigs, List.forall_mem_map]
      intro sig hs
      obtain ⟨entry, he, ho⟩ := hunsized sig hs
      refine ⟨entry, he, fun hsome => ?_⟩
      rw [ho] at hsome
      cases hsome
    · obtain ⟨earlier, procedure, later, _, hsplit, -⟩ := Trail.forM_of_error hfirst
      have hp : procedure ∈ sigs.map Signature.procedure := hsplit ▸ List.mem_append_right _ List.mem_cons_self
      obtain ⟨sig, hs, rfl⟩ := List.mem_map.mp hp
      obtain ⟨entry, he, ho⟩ := hunsized sig hs
      exact Program.generate_fails (hsigs ▸ hp) he ho
  | ok u =>
    rw [hfirst] at hrun
    obtain ⟨hplacements, -⟩ := hchecked.placeVariables_ok (Trail.gives_of_ok hfirst)
    rw [hplacements] at hrun
    obtain ⟨hresult, hplaced⟩ := Prod.mk.inj hrun
    cases hsecond : ((sigs.map Signature.procedure).forM (Procedure.sizeOutgoing
        (checked.context.place (sigs.flatMap (·.placements checked.context.types))).scopes)).result with
    | ok u =>
      rw [hsecond] at hresult
      cases hresult
    | error refusal =>
      obtain ⟨hcomplete, sig, hs, hentry⟩ := partlySized_of_sizeOutgoing hchecked.placed hchecked.fits hsecond rfl
      rw [hplaced]
      refine ⟨?_, Program.generate_fails (hsigs ▸ List.mem_map_of_mem hs) hentry rfl⟩
      rw [← hsigs, List.forall_mem_map]
      exact hcomplete

end

/-- The layout of `roomForOneWord` is refused at `main`, behind a `leaf` that has its area. -/
theorem roomForOneWord_place_unfinished : ∃ declarations bodies declared checked d placed,
    roomForOneWord.declare.run .initial = .ok declarations declared ∧
    roomForOneWord.check.run declared = .ok bodies checked ∧
    roomForOneWord.place.run checked = .error d placed ∧
    ((placed.context.scopes.procedure? "leaf").bind (·.outgoing)).isSome ∧ roomForOneWord.Unfinished placed := by
  obtain ⟨declarations, bodies, declared, checked, hd, hc⟩ :=
    @compile_checked_of_isOk roomForOneWord (by decide +kernel)
  have hrun : (roomForOneWord.declare >>= fun _ => roomForOneWord.check >>= fun _ => roomForOneWord.place).run
      .initial = roomForOneWord.place.run checked := by
    rw [EStateM.run_bind, hd]
    dsimp only
    rw [EStateM.run_bind, hc]
  have hfails : ((roomForOneWord.declare >>= fun _ => roomForOneWord.check >>= fun _ => roomForOneWord.place).runFrom
      .initial).1.isOk = false := by decide +kernel
  have hleaf : ((((roomForOneWord.declare >>= fun _ => roomForOneWord.check >>= fun _ => roomForOneWord.place).runFrom
      .initial).2.context.scopes.procedure? "leaf").bind (·.outgoing)).isSome := by decide +kernel
  rw [runFrom, hrun] at hfails hleaf
  obtain ⟨d, placed, hp⟩ := exists_run_error hfails
  rw [hp] at hleaf
  exact ⟨declarations, bodies, declared, checked, d, placed, hd, hc, hp, hleaf, Program.place_unfinished hd hc hp⟩

end SplLang

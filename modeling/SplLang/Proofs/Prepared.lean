import SplLang.Compilation
import SplLang.Proofs.Outgoing
import SplLang.Proofs.Typed

/-! What code generation relies on. After the first three stages every body is well typed, every
variable has its place and every procedure its frame. -/
namespace SplLang
open Phase

/-- What the body of the procedure is checked against. -/
def Signature.around (context : Context) (sig : Signature) : Surroundings :=
  ⟨context.types, context.scopes, sig.scope⟩

/-- What is known of a checked program whose frames are laid out. -/
structure Prepared (context : Context) (sigs : List Signature) (area : Signature → OutgoingArea) :
    Prop where
  built : context.types.Built
  fits : ∀ sig ∈ sigs, sig.Fits context.types
  seen : Scoped context.scopes sigs (Signature.placed context.types)
    (Signature.framedEntry context.types area)
  bounded : ∀ sig ∈ sigs, sig.Bounded context.types
  framed : ∀ sig ∈ sigs, (sig.frame? context.types area).isSome
  covered : ∀ sig ∈ sigs,
    CallsCovered context.scopes sig.scope (area sig) (allCallees sig.procedure.body)
  sized : ∀ sig ∈ sigs,
    SizedBy context.scopes sig.scope .noCalls (area sig) (allCallees sig.procedure.body)
  typed : ∀ sig ∈ sigs, ∀ stmt ∈ sig.procedure.body, stmt.Typed (sig.around context)

/-- The type of an entry for a variable. -/
def Entry.variableType? (entry : Entry) : Option TypeId := entry.var?.map (·.type)

section
variable {context : Context} {sigs : List Signature} {sig : Signature} {types : TypeTable}
  {scopes : ScopeTree} {own : Signature → Keyed Name Entry} {entryOf : Signature → ProcedureEntry}

theorem Scoped.varType?_eq (h : Scoped scopes sigs own entryOf) (hs : sig ∈ sigs) (name : Name) :
    Surroundings.varType? ⟨types, scopes, sig.scope⟩ name =
      ((own sig).at? name).bind (·.variableType?) := by
  unfold Surroundings.varType?
  rw [h.seen_variable hs]
  cases (own sig).at? name <;> rfl

theorem bind_of_map_eq {α β : Type} {f : α → Option β} {x y : Option α}
    (h : x.map f = y.map f) : x.bind f = y.bind f := by
  cases x <;> cases y <;> simp_all

/-- Placing a variable does not change its type. -/
theorem Signature.placed_type (types : TypeTable) (sig : Signature) (name : Name) :
    ((sig.placed types).at? name).bind (·.variableType?) =
      (sig.own.at? name).bind (·.variableType?) := by
  have hm : (sig.placed types).map (fun pair => (pair.1, pair.2.variableType?)) =
      sig.own.map fun pair => (pair.1, pair.2.variableType?) := by
    unfold placed own depths
    rw [List.map_append, List.map_append, List.map_map, List.map_map, List.map_map, List.map_map]
    congr 1
    · exact map_zipIdx_fst (fun p : Parameter × TypeId => (p.1.name, some p.2)) _ _
    · exact map_depthsFrom_fst (fun l : LocalVariable × TypeId => (l.1.name, some l.2)) _ _ _
  have hat : ((sig.placed types).at? name).map (·.variableType?) =
      (sig.own.at? name).map (·.variableType?) := by
    rw [← Keyed.at?_map, hm, Keyed.at?_map]
  exact bind_of_map_eq hat

/-- For each parameter its type and whether it is passed by reference. -/
def Signature.parameterKinds (sig : Signature) : List (TypeId × Bool) :=
  sig.parameters.map fun p => (p.2, p.1.byReference)

def ProcedureEntry.parameterKinds (entry : ProcedureEntry) : List (TypeId × Bool) :=
  entry.parameters.map fun slot => (slot.type, slot.byReference)

/-- What a well-typed call passes fits the parameters of the procedure that is called. -/
theorem Stmt.Typed.arguments_fit {around : Surroundings} {position : Position} {callee : Name} {arguments : List Expr}
    {entry : ProcedureEntry} (h : (Stmt.call position callee arguments).Typed around)
    (he : around.scopes.callee? around.scope callee = some entry) :
    List.Forall₂ (Expr.FitsParameter around) arguments entry.parameterKinds := by
  cases h with
  | call hc hfit =>
    have hkinds : around.callee? callee = some entry.parameterKinds :=
      congrArg (Option.map ProcedureEntry.parameterKinds) he
    rw [hkinds] at hc
    cases hc
    exact hfit

theorem Stmt.Typed.length_arguments {around : Surroundings} {position : Position} {callee : Name}
    {arguments : List Expr} {entry : ProcedureEntry} (h : (Stmt.call position callee arguments).Typed around)
    (he : around.scopes.callee? around.scope callee = some entry) : arguments.length = entry.parameters.length :=
  (h.arguments_fit he).length_eq.trans (List.length_map _)

private theorem Signature.entry_kinds (sig : Signature) : sig.entry.parameterKinds = sig.parameterKinds := by
  unfold ProcedureEntry.parameterKinds entry slots parameterKinds
  rw [List.map_map]
  rfl

theorem Signature.framedEntry_kinds (types : TypeTable) (area : Signature → OutgoingArea)
    (sig : Signature) : (sig.framedEntry types area).parameterKinds = sig.parameterKinds := by
  unfold ProcedureEntry.parameterKinds framedEntry areasEntry placedSlots parameterKinds
  rw [List.map_map]
  exact map_zipIdx_fst (fun p : Parameter × TypeId => (p.2, p.1.byReference)) _ _

theorem forall₂_exists_of_mem {α β : Type} {R : α → β → Prop} {xs : List α} {ys : List β} (h : List.Forall₂ R xs ys)
    {x : α} (hx : x ∈ xs) : ∃ y ∈ ys, R x y := by
  obtain ⟨i, hi, rfl⟩ := List.getElem_of_mem hx
  have hi' : i < ys.length := h.length_eq ▸ hi
  exact ⟨ys[i], List.getElem_mem hi', h.get hi hi'⟩

/-- What is the same of the entries in two sets, of procedures with the same names, calls see alike. -/
theorem Scoped.callee?_map_eq_of_mem {β : Type} {sigs' : List Signature} {entryOf' : Signature → ProcedureEntry}
    {scopes' : ScopeTree} {own' : Signature → Keyed Name Entry} (h : Scoped scopes sigs own entryOf)
    (h' : Scoped scopes' sigs' own' entryOf') (g g' : ProcedureEntry → β) (hl : ∀ p ∈ library, g' p.entry = g p.entry)
    (hg : ∀ sig ∈ sigs, ∃ sig' ∈ sigs', sig.procedure.name = sig'.procedure.name ∧ g' (entryOf' sig') = g (entryOf sig))
    (hg' : ∀ sig' ∈ sigs', ∃ sig ∈ sigs, sig.procedure.name = sig'.procedure.name ∧
      g' (entryOf' sig') = g (entryOf sig))
    {sig' : Signature} (hs : sig ∈ sigs) (hs' : sig' ∈ sigs') (name : Name) :
    (scopes'.callee? sig'.scope name).map g' = (scopes.callee? sig.scope name).map g := by
  apply Option.ext
  intro b
  rw [Option.map_eq_some_iff, Option.map_eq_some_iff]
  constructor
  · rintro ⟨entry, he, rfl⟩
    rcases (h'.callee?_iff hs').mp he with ⟨p, hp, hn, rfl⟩ | ⟨other, ho, hn, rfl⟩
    · exact ⟨_, (h.callee?_iff hs).mpr (.inl ⟨p, hp, hn, rfl⟩), (hl p hp).symm⟩
    · obtain ⟨same, hm, hname, he⟩ := hg' other ho
      exact ⟨_, (h.callee?_iff hs).mpr (.inr ⟨same, hm, hname.trans hn, rfl⟩), he.symm⟩
  · rintro ⟨entry, he, rfl⟩
    rcases (h.callee?_iff hs).mp he with ⟨p, hp, hn, rfl⟩ | ⟨other, ho, hn, rfl⟩
    · exact ⟨_, (h'.callee?_iff hs').mpr (.inl ⟨p, hp, hn, rfl⟩), hl p hp⟩
    · obtain ⟨same, hm, hname, he⟩ := hg other ho
      exact ⟨_, (h'.callee?_iff hs').mpr (.inr ⟨same, hm, hname.symm.trans hn, rfl⟩), he⟩

theorem Scoped.callee?_map_eq_of_forall₂ {β : Type} {sigs' : List Signature} {entryOf' : Signature → ProcedureEntry}
    {scopes' : ScopeTree} {own' : Signature → Keyed Name Entry} (h : Scoped scopes sigs own entryOf)
    (h' : Scoped scopes' sigs' own' entryOf') (g g' : ProcedureEntry → β) (hl : ∀ p ∈ library, g' p.entry = g p.entry)
    (hg : List.Forall₂ (fun sig sig' => sig.procedure.name = sig'.procedure.name ∧ g' (entryOf' sig') = g (entryOf sig))
      sigs sigs') {sig' : Signature} (hs : sig ∈ sigs) (hs' : sig' ∈ sigs') (name : Name) :
    (scopes'.callee? sig'.scope name).map g' = (scopes.callee? sig.scope name).map g :=
  h.callee?_map_eq_of_mem h' g g' hl (fun _ hm => forall₂_exists_of_mem hg hm)
    (fun _ hm => forall₂_exists_of_mem hg.flip hm) hs hs' name

theorem Scoped.callee?_map_eq {β : Type} {entryOf' : Signature → ProcedureEntry} {scopes' : ScopeTree}
    {own' : Signature → Keyed Name Entry} (h : Scoped scopes sigs own entryOf)
    (h' : Scoped scopes' sigs own' entryOf') (g g' : ProcedureEntry → β)
    (hl : ∀ p ∈ library, g' p.entry = g p.entry) (hg : ∀ sig ∈ sigs, g' (entryOf' sig) = g (entryOf sig))
    (hs : sig ∈ sigs) (name : Name) :
    (scopes'.callee? sig.scope name).map g' = (scopes.callee? sig.scope name).map g :=
  h.callee?_map_eq_of_forall₂ h' g g' hl (List.forall₂_same.mpr fun sig hs => ⟨rfl, hg sig hs⟩) hs hs name

private theorem Scoped.callee?_eq {β : Type} {entryOf' : Signature → ProcedureEntry} {scopes' : ScopeTree}
    {own' : Signature → Keyed Name Entry} (h : Scoped scopes sigs own entryOf)
    (h' : Scoped scopes' sigs own' entryOf') (g : ProcedureEntry → β)
    (hg : ∀ sig ∈ sigs, g (entryOf' sig) = g (entryOf sig)) (hs : sig ∈ sigs) (name : Name) :
    (scopes'.callee? sig.scope name).map g = (scopes.callee? sig.scope name).map g :=
  h.callee?_map_eq h' g g (fun _ _ => rfl) hg hs name

/-- Laying out frames changes no type that a body sees. -/
theorem Scoped.around_eq {area : Signature → OutgoingArea} {scopes' : ScopeTree}
    (h : Scoped scopes sigs Signature.own Signature.entry)
    (h' : Scoped scopes' sigs (Signature.placed types) (Signature.framedEntry types area))
    (hs : sig ∈ sigs) :
    (∀ name, Surroundings.varType? ⟨types, scopes', sig.scope⟩ name =
      Surroundings.varType? ⟨types, scopes, sig.scope⟩ name) ∧
    ∀ name, Surroundings.callee? ⟨types, scopes', sig.scope⟩ name =
      Surroundings.callee? ⟨types, scopes, sig.scope⟩ name := by
  constructor
  · intro name
    rw [h'.varType?_eq hs, h.varType?_eq hs, Signature.placed_type]
  · intro name
    apply h.callee?_eq h' ProcedureEntry.parameterKinds _ hs
    intro sig _
    rw [Signature.framedEntry_kinds, Signature.entry_kinds]

/-- In the scope of a procedure every variable has a type that can be declared. -/
theorem Scoped.sound (h : Scoped scopes sigs own entryOf) (hb : types.Built) (hs : sig ∈ sigs)
    (hf : sig.Fits types)
    (ho : ∀ name, ((own sig).at? name).bind (·.variableType?) =
      (sig.own.at? name).bind (·.variableType?)) :
    Surroundings.Sound ⟨types, scopes, sig.scope⟩ where
  built := hb
  declarable := by
    intro name type ht
    rw [h.varType?_eq hs, ho] at ht
    obtain ⟨entry, he, ht⟩ := Option.bind_eq_some_iff.mp ht
    rcases List.mem_append.mp (Keyed.mem_of_at? he) with hm | hm
    · obtain ⟨p, hp, hpair⟩ := List.mem_map.mp hm
      cases hpair
      cases ht
      exact (hf.parameters p hp).1
    · obtain ⟨l, hl, hpair⟩ := List.mem_map.mp hm
      cases hpair
      cases ht
      exact hf.locals l hl

end

mutual

/-- The procedures called in a well-typed statement are declared. -/
theorem Stmt.Typed.callee_isSome {around : Surroundings} (s : Stmt) (h : s.Typed around) :
    ∀ callee ∈ s.callees, (around.callee? callee).isSome := by
  cases h with
  | assign => simp [Stmt.callees]
  | @ifThen _ _ thenPart _ hp => exact hp.callee_isSome thenPart
  | @ifElse _ _ thenPart elsePart _ hp he =>
    exact List.forall_mem_append.mpr ⟨hp.callee_isSome thenPart, he.callee_isSome elsePart⟩
  | @whileDo _ _ body _ hb => exact hb.callee_isSome body
  | call hc =>
    intro other ho
    cases List.mem_singleton.mp ho
    rw [hc]
    rfl
  | @block _ body hb => exact allTyped_callee_isSome body hb
  | empty => simp [Stmt.callees]

theorem allTyped_callee_isSome {around : Surroundings} (body : List Stmt)
    (h : ∀ stmt ∈ body, stmt.Typed around) :
    ∀ callee ∈ allCallees body, (around.callee? callee).isSome := by
  cases body with
  | nil => simp [allCallees]
  | cons stmt rest =>
    obtain ⟨hs, hr⟩ := List.forall_mem_cons.mp h
    exact List.forall_mem_append.mpr ⟨hs.callee_isSome stmt, allTyped_callee_isSome rest hr⟩

end

/-- Once the signatures are placed, every call in a well-typed body is sized. -/
theorem Scoped.callsSized {types : TypeTable} {scopes scopes' : ScopeTree} {sig : Signature}
    (h : Scoped scopes sigs Signature.own Signature.entry)
    (h' : Scoped scopes' sigs (Signature.placed types) (Signature.areasEntry types)) (hs : sig ∈ sigs)
    (ht : ∀ stmt ∈ sig.procedure.body, stmt.Typed ⟨types, scopes, sig.scope⟩) :
    CallsSized scopes' sig.scope (allCallees sig.procedure.body) := by
  intro callee hc
  obtain ⟨kinds, hk⟩ := Option.isSome_iff_exists.mp (allTyped_callee_isSome _ ht callee hc)
  obtain ⟨entry, he, _⟩ := Option.map_eq_some_iff.mp hk
  rcases (h.callee?_iff hs).mp he with hl | ⟨other, ho, hn, _⟩
  · obtain ⟨p, _, _, rfl⟩ := id hl
    exact ⟨p.argumentArea, by rw [(h'.callee?_iff hs).mpr (.inl hl)]; rfl⟩
  · exact ⟨_, by rw [(h'.callee?_iff hs).mpr (.inr ⟨other, ho, hn, rfl⟩)]; rfl⟩

section
variable {program : Program} {sigs : List Signature} {start finish : Progress}

/-- A check that succeeds adds its findings and changes nothing else. -/
theorem Program.check_ok {count : Nat} (hr : program.check.run start = .ok count finish) :
    ∃ found, (program.checkBodies start.context.types start.context.scopes).Gives () found ∧
      finish.context = start.context.rememberExprs found := by
  unfold check at hr
  rw [run_context_bind] at hr
  obtain ⟨_, middle, hf, hr⟩ := run_bind_eq_ok.mp hr
  obtain ⟨hok, rfl⟩ := run_follow_eq_ok.mp hf
  cases hr
  exact ⟨_, Trail.gives_of_ok hok, rfl⟩

/-- Two rounds of placements, the second one from what the first one leaves. -/
theorem Program.place_ok {count : Nat} (hr : program.place.run start = .ok count finish) :
    ∃ placements areas,
      (program.procedures.forM (·.placeVariables start.context.types start.context.scopes)).Gives ()
        placements ∧
      (program.procedures.forM (·.sizeOutgoing (start.context.place placements).scopes)).Gives ()
        areas ∧
      finish.context = (start.context.place placements).place areas := by
  unfold place at hr
  rw [run_context_bind] at hr
  obtain ⟨_, placed, hp, hr⟩ := run_bind_eq_ok.mp hr
  obtain ⟨hpok, rfl⟩ := run_follow_eq_ok.mp hp
  rw [run_context_bind] at hr
  obtain ⟨_, sized, hs, hr⟩ := run_bind_eq_ok.mp hr
  obtain ⟨hsok, rfl⟩ := run_follow_eq_ok.mp hs
  cases hr
  exact ⟨_, _, Trail.gives_of_ok hpok, Trail.gives_of_ok hsok, rfl⟩

end

namespace Trail
variable {ω α : Type}

/-- What is left by a computation that is repeated for every member of a list. -/
theorem gives_forM {β : Type} {k : β → α} {f : α → Trail ω Unit} {g : β → List ω} {P : β → Prop}
    {xs : List β} {u : Unit} {found : List ω}
    (hf : ∀ x ∈ xs, ∀ found, (f (k x)).Gives () found → found = g x ∧ P x)
    (h : ((xs.map k).forM f).Gives u found) : found = xs.flatMap g ∧ ∀ x ∈ xs, P x := by
  induction xs generalizing found with
  | nil =>
    obtain ⟨_, rfl⟩ := gives_pure.mp h
    exact ⟨rfl, by simp⟩
  | cons x xs ih =>
    obtain ⟨_, first, rest, hx, hxs, rfl⟩ := gives_bind.mp h
    obtain ⟨rfl, hp⟩ := hf x List.mem_cons_self _ hx
    obtain ⟨rfl, hps⟩ := ih (fun y hy => hf y (List.mem_cons_of_mem _ hy)) hxs
    exact ⟨rfl, List.forall_mem_cons.mpr ⟨hp, hps⟩⟩

end Trail

section
variable {context : Context} {sigs : List Signature}

/-- The first round of placements, as the signatures give it. -/
theorem Declared.placeVariables_ok (h : Declared context sigs) {placements : List Placement}
    (hp : ((sigs.map Signature.procedure).forM
      (Procedure.placeVariables context.types context.scopes)).Gives () placements) :
    placements = sigs.flatMap (·.placements context.types) ∧
      ∀ sig ∈ sigs, sig.Bounded context.types :=
  Trail.gives_forM (fun _ hs _ hg => (h.unplaced hs).placeVariables_ok hg) hp

/-- The parameters or the locals of the procedure are too large, or else it has no frame once the variables of all
procedures are placed. -/
def Signature.Oversized (context : Context) (sigs : List Signature) (sig : Signature) : Prop :=
  2^31 ≤ 4 * sig.parameters.length ∨ 2^31 ≤ 4 * sig.localWords context.types ∨
    (∀ other ∈ sigs, other.Bounded context.types) ∧
      sig.frame? context.types
        (Signature.outgoing (context.place (sigs.flatMap (·.placements context.types))).scopes) = none

/-- The cause is the frame of some procedure that is too large. -/
def RefusedFor (context : Context) (sigs : List Signature) (cause : Cause) : Prop :=
  ∃ sig ∈ sigs, cause = .frameTooLarge sig.procedure.name ∧ sig.Oversized context sigs

/-- Frames are refused only because of a procedure that is too large. -/
theorem Declared.place_refuses {program : Program} {start : Progress} (h : Declared start.context sigs)
    (hsigs : sigs.map (·.procedure) = program.procedures)
    (ht : ∀ sig ∈ sigs, ∀ stmt ∈ sig.procedure.body, stmt.Typed (sig.around start.context))
    {d : Diagnostic} {finish : Progress} (hr : program.place.run start = .error d finish) :
    RefusedFor start.context sigs d.cause := by
  unfold Program.place at hr
  rw [← hsigs, Phase.run_context_bind] at hr
  rcases Phase.run_bind_eq_error.mp hr with hr | ⟨_, placed, hp, hr⟩
  · refine (?_ : Trail.FailsOnly (RefusedFor start.context sigs) _) d (Phase.run_follow_eq_error.mp hr).1
    refine Trail.FailsOnly.forM_map fun sig hs => (h.unplaced hs).placeVariables_refuses.mono ?_
    rintro cause ⟨rfl, hlarge⟩
    exact ⟨rfl, hlarge.imp_right .inl⟩
  obtain ⟨hok, rfl⟩ := Phase.run_follow_eq_ok.mp hp
  obtain ⟨hplacements, hbounded⟩ := h.placeVariables_ok (Trail.gives_of_ok hok)
  rw [hplacements, Phase.run_context_bind] at hr
  rcases Phase.run_bind_eq_error.mp hr with hr | ⟨_, _, _, hr⟩
  · refine (?_ : Trail.FailsOnly (RefusedFor start.context sigs) _) d (Phase.run_follow_eq_error.mp hr).1
    refine Trail.FailsOnly.forM_map fun sig hs =>
      (h.placed.sizeOutgoing_refuses hs (h.scoped.callsSized h.placed hs (ht sig hs))).mono ?_
    rintro cause ⟨rfl, hnone⟩
    exact ⟨rfl, .inr (.inr ⟨hbounded, hnone⟩)⟩
  · cases hr

/-- Laying out the frames of a checked program prepares it for code generation. -/
theorem Declared.place_ok (h : Declared context sigs)
    (ht : ∀ sig ∈ sigs, ∀ stmt ∈ sig.procedure.body, stmt.Typed (sig.around context))
    {placements areas : List Placement}
    (hp : ((sigs.map Signature.procedure).forM
      (Procedure.placeVariables context.types context.scopes)).Gives () placements)
    (ha : ((sigs.map Signature.procedure).forM
      (Procedure.sizeOutgoing (context.place placements).scopes)).Gives () areas) :
    ∃ area, Prepared ((context.place placements).place areas) sigs area := by
  obtain ⟨rfl, hbounded⟩ := h.placeVariables_ok hp
  have hplaced := h.placed
  obtain ⟨rfl, hsized⟩ := Trail.gives_forM (fun sig hs _ hg => hplaced.sizeOutgoing_ok hs hg) ha
  have hseen := hplaced.outgoing
  rw [← List.map_eq_flatMap] at ha ⊢
  have hsame : ∀ {sig : Signature} (_ : sig ∈ sigs) (callee : Name), _ :=
    fun hs callee => bind_of_map_eq
      (hplaced.callee?_eq hseen ProcedureEntry.argumentArea (fun _ _ => rfl) hs callee)
  refine ⟨Signature.outgoing _, h.built, h.fits, hseen, hbounded, fun sig hs => (hsized sig hs).1, ?_, ?_, ?_⟩
  · intro sig hs callee hc
    obtain ⟨size, hsize, hcov⟩ := (hsized sig hs).2.1 callee hc
    exact ⟨size, (hsame hs callee).trans hsize, hcov⟩
  · intro sig hs
    rcases (hsized sig hs).2.2 with he | ⟨callee, hc, hsize⟩
    · exact .inl he
    · exact .inr ⟨callee, hc, (hsame hs callee).trans hsize⟩
  · intro sig hs stmt hstmt
    obtain ⟨hv, hc⟩ := h.scoped.around_eq hseen hs
    apply (ht sig hs stmt hstmt).congr
    · rfl
    · exact hv
    · exact hc

end
end SplLang

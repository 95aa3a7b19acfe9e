import SplLang.Proofs.Blocks
import SplLang.Proofs.Convention
import SplLang.Proofs.Shifted

/-! A change of one body stays local. It may give other numbers to the types, nodes and labels behind it, but every
other procedure keeps its frame, and its block keeps its lines but for the numbers of generated labels. -/
namespace SplLang
open Machine

/-- A parameter for which callers pass an argument in the same place, of the same type. -/
structure Slot.Same (types types' : TypeTable) (slot slot' : Slot) : Prop where
  type : types.SameType types' slot.type slot'.type
  byReference : slot'.byReference = slot.byReference
  offset : ∃ offset, slot.offset = some offset ∧ slot'.offset = some offset

/-- Callers pass the arguments in the same places. -/
structure ProcedureEntry.SameSlots (types types' : TypeTable) (entry entry' : ProcedureEntry) : Prop where
  slots : List.Forall₂ (Slot.Same types types') entry.parameters entry'.parameters
  argumentArea : ∃ size, entry.argumentArea = some size ∧ entry'.argumentArea = some size

/-- The frames of two procedures with these entries are laid out in the same way. -/
structure Procedure.SameFrame (procedure : Procedure) (context context' : Context) (entry entry' : ProcedureEntry) :
    Prop where
  slots : entry.SameSlots context.types context'.types entry'
  offsets : ∃ scope scope', entry.scope = some scope ∧ entry'.scope = some scope' ∧
    ∀ name ∈ procedure.parameters.map (·.name) ++ procedure.locals.map (·.name), ∃ offset,
      context.scopes.OffsetIs scope name offset ∧ context'.scopes.OffsetIs scope' name offset
  localArea : ∃ size, entry.localArea = some size ∧ entry'.localArea = some size
  outgoing : ∃ area, entry.outgoing = some area ∧ entry'.outgoing = some area

/-- A variable of the same type in the same place of its frame. -/
inductive Entry.SameVariable (types types' : TypeTable) : Entry → Entry → Prop
  | var {type type' : TypeId} {byReference : Bool} {offset : Int32} : types.SameType types' type type' →
      SameVariable types types' (.var ⟨type, byReference, some offset⟩) (.var ⟨type', byReference, some offset⟩)

/-- The two declarations are alike, and they have the same type. -/
structure TypeTable.SameTyped {α : Type} (types types' : TypeTable) (Alike : α → α → Prop) (typed typed' : α × TypeId) :
    Prop where
  alike : Alike typed.1 typed'.1
  type : types.SameType types' typed.2 typed'.2

/-- Parameters and locals are alike, and they have the same types. -/
structure Signature.Matches (types types' : TypeTable) (sig sig' : Signature) : Prop where
  parameters : List.Forall₂ (types.SameTyped types' Parameter.Alike) sig.parameters sig'.parameters
  locals : List.Forall₂ (types.SameTyped types' LocalVariable.Alike) sig.locals sig'.locals

section
variable {types types' : TypeTable} {sig sig' : Signature}

private theorem forall₂_zipIdx {α β : Type} {R : α → β → Prop} {xs : List α} {ys : List β} (h : List.Forall₂ R xs ys)
    (i : Nat) : List.Forall₂ (fun x y => R x.1 y.1 ∧ y.2 = x.2) (xs.zipIdx i) (ys.zipIdx i) := by
  induction h generalizing i with
  | nil => exact .nil
  | cons hxy _ ih => exact .cons ⟨hxy, rfl⟩ (ih (i + 1))

private theorem Signature.placedSlots_same
    (h : List.Forall₂ (types.SameTyped types' Parameter.Alike) sig.parameters sig'.parameters) :
    List.Forall₂ (Slot.Same types types') sig.placedSlots sig'.placedSlots := by
  refine List.rel_map (fun p p' hp => ?_) (forall₂_zipIdx h 0)
  obtain ⟨⟨halike, htype⟩, hnumber⟩ := hp
  exact ⟨htype, halike.byReference.symm, _, rfl, by rw [hnumber]⟩

/-- Parameters of the same types are in the same slots. -/
theorem Signature.sameSlots
    (h : List.Forall₂ (types.SameTyped types' Parameter.Alike) sig.parameters sig'.parameters)
    (area area' : Signature → OutgoingArea) :
    (sig.framedEntry types area).SameSlots types types' (sig'.framedEntry types' area') :=
  ⟨Signature.placedSlots_same h, _, rfl, by rw [h.length_eq]; rfl⟩

private theorem ProcedureEntry.SameSlots.passing_eq {entry entry' : ProcedureEntry}
    (h : entry.SameSlots types types' entry') : entry'.passing = entry.passing := by
  have hpassing : List.Forall₂ Eq entry.passing entry'.passing := by
    refine List.rel_map (fun slot slot' hslot => ?_) h.slots
    obtain ⟨offset, ho, ho'⟩ := hslot.offset
    rw [Slot.passing, Slot.passing, hslot.byReference, ho, ho']
  rw [List.forall₂_eq_eq_eq] at hpassing
  exact hpassing.symm

private theorem depthsFrom_same (hb : types.Built) (hb' : types'.Built) {locals locals' : List (LocalVariable × TypeId)}
    (h : List.Forall₂ (types.SameTyped types' LocalVariable.Alike) locals locals') (below : Nat) :
    List.Forall₂ (fun d d' => types.SameTyped types' LocalVariable.Alike d.1 d'.1 ∧ d'.2 = d.2)
      (Signature.depthsFrom types below locals) (Signature.depthsFrom types' below locals') := by
  induction h generalizing below with
  | nil => exact .nil
  | cons hl _ ih =>
    unfold Signature.depthsFrom
    rw [hl.type.words_eq hb hb']
    exact .cons ⟨hl, rfl⟩ (ih _)

namespace Signature.Matches

/-- Variables are placed alike. -/
theorem placed_same (h : sig.Matches types types' sig') (hb : types.Built) (hb' : types'.Built) :
    List.Forall₂ (fun e e' => e.1 = e'.1 ∧ Entry.SameVariable types types' e.2 e'.2) (sig.placed types)
      (sig'.placed types') := by
  refine List.rel_append ?_ ?_
  · refine List.rel_map (fun p p' hp => ?_) (forall₂_zipIdx h.parameters 0)
    obtain ⟨⟨halike, htype⟩, hnumber⟩ := hp
    rw [hnumber, ← halike.byReference]
    exact ⟨halike.name, .var htype⟩
  · refine List.rel_map (fun d d' hd => ?_) (depthsFrom_same hb hb' h.locals 0)
    obtain ⟨⟨halike, htype⟩, hdepth⟩ := hd
    rw [hdepth]
    exact ⟨halike.name, .var htype⟩

theorem localWords_eq (h : sig.Matches types types' sig') (hb : types.Built) (hb' : types'.Built) :
    sig'.localWords types' = sig.localWords types := by
  have hwords : List.Forall₂ Eq (sig.locals.map fun l => types.words l.2) (sig'.locals.map fun l => types'.words l.2) :=
    List.rel_map (fun _ _ hl => (hl.type.words_eq hb hb').symm) h.locals
  rw [List.forall₂_eq_eq_eq] at hwords
  rw [localWords, localWords, hwords]

end Signature.Matches

end

section
variable {program program' : Program} {context context' : Context} {assembly assembly' : Assembly}
  {sigs sigs' : List Signature} {area area' : Signature → OutgoingArea} {sig sig' : Signature}

namespace Program.Declares

private theorem parameters_same (h : program.Declares context sigs) (h' : program'.Declares context' sigs')
    (hd : program.TypesAlike program') (hs : sig ∈ sigs) (hs' : sig' ∈ sigs')
    (ha : List.Forall₂ Parameter.Alike sig.procedure.parameters sig'.procedure.parameters) :
    List.Forall₂ (context.types.SameTyped context'.types Parameter.Alike) sig.parameters sig'.parameters := by
  rw [← (h.declared.fits sig hs).parameters_eq, ← (h'.declared.fits sig' hs').parameters_eq, List.forall₂_map_left_iff,
    List.forall₂_map_right_iff] at ha
  refine forall₂_of_mem ha fun p hp p' hp' halike => ⟨halike, ?_⟩
  exact h.sameType h' hd hs hs' (List.mem_append_left _ (List.mem_map_of_mem hp))
    (List.mem_append_left _ (List.mem_map_of_mem hp')) halike.type

/-- Procedures whose parameters and locals are alike have matching signatures. -/
theorem matched (h : program.Declares context sigs) (h' : program'.Declares context' sigs')
    (hd : program.TypesAlike program') (hs : sig ∈ sigs) (hs' : sig' ∈ sigs')
    (hparameters : List.Forall₂ Parameter.Alike sig.procedure.parameters sig'.procedure.parameters)
    (hlocals : List.Forall₂ LocalVariable.Alike sig.procedure.locals sig'.procedure.locals) :
    sig.Matches context.types context'.types sig' := by
  refine ⟨h.parameters_same h' hd hs hs' hparameters, ?_⟩
  rw [← (h.declared.fits sig hs).locals_eq, ← (h'.declared.fits sig' hs').locals_eq, List.forall₂_map_left_iff,
    List.forall₂_map_right_iff] at hlocals
  refine forall₂_of_mem hlocals fun l hl l' hl' halike => ⟨halike, ?_⟩
  exact h.sameType h' hd hs hs' (List.mem_append_right _ (List.mem_map_of_mem hl))
    (List.mem_append_right _ (List.mem_map_of_mem hl')) halike.type

end Program.Declares

namespace Program.Laid

private theorem parameters_same (h : program.Laid context sigs area) (h' : program'.Laid context' sigs' area')
    (hd : program.TypesAlike program') (hs : sig ∈ sigs) (hs' : sig' ∈ sigs')
    (ha : List.Forall₂ Parameter.Alike sig.procedure.parameters sig'.procedure.parameters) :
    List.Forall₂ (context.types.SameTyped context'.types Parameter.Alike) sig.parameters sig'.parameters := by
  obtain ⟨_, hstart, htypes⟩ := h.declares
  obtain ⟨_, hstart', htypes'⟩ := h'.declares
  rw [htypes, htypes']
  exact hstart.parameters_same hstart' hd hs hs' ha

private theorem matched (h : program.Laid context sigs area) (h' : program'.Laid context' sigs' area')
    (hd : program.TypesAlike program') (hs : sig ∈ sigs) (hs' : sig' ∈ sigs')
    (hparameters : List.Forall₂ Parameter.Alike sig.procedure.parameters sig'.procedure.parameters)
    (hlocals : List.Forall₂ LocalVariable.Alike sig.procedure.locals sig'.procedure.locals) :
    sig.Matches context.types context'.types sig' := by
  obtain ⟨_, hstart, htypes⟩ := h.declares
  obtain ⟨_, hstart', htypes'⟩ := h'.declares
  rw [htypes, htypes']
  exact hstart.matched hstart' hd hs hs' hparameters hlocals

/-- Bodies with the same calls need the same area for them, where every procedure takes its arguments in the same
places. -/
theorem area_eq (h : program.Laid context sigs area) (h' : program'.Laid context' sigs' area')
    (hslots : ∀ sig ∈ sigs, ∃ sig' ∈ sigs', sig.procedure.name = sig'.procedure.name ∧
      (sig.framedEntry context.types area).SameSlots context.types context'.types
        (sig'.framedEntry context'.types area'))
    (hslots' : ∀ sig' ∈ sigs', ∃ sig ∈ sigs, sig.procedure.name = sig'.procedure.name ∧
      (sig.framedEntry context.types area).SameSlots context.types context'.types
        (sig'.framedEntry context'.types area'))
    (hs : sig ∈ sigs) (hs' : sig' ∈ sigs') (ha : allCallees sig'.procedure.body = allCallees sig.procedure.body) :
    area' sig' = area sig := by
  have hsize : ∀ {entry entry' : ProcedureEntry}, entry.SameSlots context.types context'.types entry' →
      entry'.argumentArea = entry.argumentArea := by
    intro entry entry' hsame
    obtain ⟨_, hsize, hsize'⟩ := hsame.argumentArea
    rw [hsize, hsize']
  have hsame : ∀ name, (context'.scopes.callee? sig'.scope name).map (·.argumentArea) =
      (context.scopes.callee? sig.scope name).map (·.argumentArea) := by
    refine h.prepared.seen.callee?_map_eq_of_mem h'.prepared.seen _ _ (fun _ _ => rfl) ?_ ?_ hs hs'
    · intro sig hs
      obtain ⟨sig', hs', hname, hslots⟩ := hslots sig hs
      exact ⟨sig', hs', hname, hsize hslots⟩
    · intro sig' hs'
      obtain ⟨sig, hs, hname, hslots⟩ := hslots' sig' hs'
      exact ⟨sig, hs, hname, hsize hslots⟩
  have hsized := h'.prepared.sized sig' hs'
  have hcovered := h'.prepared.covered sig' hs'
  rw [ha] at hsized hcovered
  exact SizedBy.unique (fun name => bind_of_map_eq (hsame name)) (h.prepared.sized sig hs) (h.prepared.covered sig hs)
    hsized hcovered

/-- Matching procedures with the same area for their calls have frames that are laid out in the same way. -/
theorem sameFrame (h : program.Laid context sigs area) (h' : program'.Laid context' sigs' area') (hs : sig ∈ sigs)
    (hs' : sig' ∈ sigs') (hm : sig.Matches context.types context'.types sig') (harea : area' sig' = area sig) :
    sig.procedure.SameFrame context context' (sig.framedEntry context.types area)
      (sig'.framedEntry context'.types area') := by
  have hfits := h.prepared.fits sig hs
  refine ⟨Signature.sameSlots hm.parameters _ _, ⟨sig.scope, sig'.scope, rfl, rfl, fun name hname => ?_⟩, ⟨_, rfl, ?_⟩,
    ⟨_, rfl, ?_⟩⟩
  · have hown : name ∈ (sig.placed context.types).map (·.1) := by
      rw [← hfits.parameters_eq, ← hfits.locals_eq, List.map_map, List.map_map] at hname
      rw [Signature.map_fst_placed]
      exact hname
    obtain ⟨⟨_, entry⟩, hplaced, rfl⟩ := List.mem_map.mp hown
    obtain ⟨⟨_, entry'⟩, hplaced', rfl, hsame⟩ :=
      forall₂_exists_of_mem (hm.placed_same h.prepared.built h'.prepared.built) hplaced
    have hheld := h.prepared.held hs hplaced
    have hheld' := h'.prepared.held hs' hplaced'
    cases hsame with
    | var => exact ⟨_, ⟨_, _, hheld, rfl, rfl⟩, ⟨_, _, hheld', rfl, rfl⟩⟩
  · exact congrArg (fun words => some (UInt32.ofNat (4 * words))) (hm.localWords_eq h.prepared.built h'.prepared.built)
  · exact congrArg some harea

end Program.Laid

namespace Program.Compiled

/-- Callers pass arguments to all procedures in the same places as before the change. -/
theorem slots (h : program.Compiled context assembly sigs area)
    (h' : program'.Compiled context' assembly' sigs' area') (change : program.BodyChange program') :
    List.Forall₂ (fun sig sig' => sig.procedure.name = sig'.procedure.name ∧
      (sig.framedEntry context.types area).SameSlots context.types context'.types
        (sig'.framedEntry context'.types area'))
      sigs sigs' := by
  have hheads := change.heads
  rw [← h.procedures, ← h'.procedures, List.forall₂_map_left_iff, List.forall₂_map_right_iff] at hheads
  refine forall₂_of_mem hheads fun sig hs sig' hs' hhead => ⟨hhead.name, ?_⟩
  exact Signature.sameSlots (h.parameters_same h'.toLaid change.declared hs hs' hhead.parameters) _ _

/-- A name means no variable in either body, or in both a variable of the same type in the same place. -/
theorem seen_same (h : program.Compiled context assembly sigs area)
    (h' : program'.Compiled context' assembly' sigs' area') (hs : sig ∈ sigs) (hs' : sig' ∈ sigs')
    (hm : sig.Matches context.types context'.types sig') (name : Name) :
    ((context.scopes.seen? sig.scope name).bind (·.var?) = none ∧
      (context'.scopes.seen? sig'.scope name).bind (·.var?) = none) ∨
    ∃ type type' byReference offset, context.types.SameType context'.types type type' ∧
      (context.scopes.seen? sig.scope name).bind (·.var?) = some ⟨type, byReference, some offset⟩ ∧
      (context'.scopes.seen? sig'.scope name).bind (·.var?) = some ⟨type', byReference, some offset⟩ := by
  rw [h.prepared.seen.seen_variable hs, h'.prepared.seen.seen_variable hs']
  have hplaced := Keyed.at?_forall₂ (hm.placed_same h.prepared.built h'.prepared.built) name
  generalize (sig.placed context.types).at? name = e, (sig'.placed context'.types).at? name = e' at hplaced
  cases hplaced with
  | none => exact .inl ⟨rfl, rfl⟩
  | some hv =>
    cases hv with
    | var ht => exact .inr ⟨_, _, _, _, ht, rfl, rfl⟩

/-- Bodies of matching procedures agree on what names mean. -/
theorem agrees (h : program.Compiled context assembly sigs area)
    (h' : program'.Compiled context' assembly' sigs' area') (change : program.BodyChange program') (hs : sig ∈ sigs)
    (hs' : sig' ∈ sigs') (hm : sig.Matches context.types context'.types sig') :
    (sig.body context).Agrees (sig'.body context') := by
  refine ⟨h.prepared.built, h'.prepared.built, fun name => ?_, fun {name _ _} ht ht' => ?_, ?_⟩
  · show Option.bind ((context'.scopes.seen? sig'.scope name).bind _) _ =
      Option.bind ((context.scopes.seen? sig.scope name).bind _) _
    rcases h.seen_same h' hs hs' hm name with ⟨hn, hn'⟩ | ⟨_, _, _, _, _, hv, hv'⟩
    · rw [hn, hn']
    · rw [hv, hv']
      rfl
  · obtain ⟨_, hv, rfl⟩ := Option.map_eq_some_iff.mp ht
    obtain ⟨_, hv', rfl⟩ := Option.map_eq_some_iff.mp ht'
    rcases h.seen_same h' hs hs' hm name with ⟨hn, _⟩ | ⟨_, _, _, _, hsame, hseen, hseen'⟩
    · cases hn.symm.trans hv
    · cases hseen.symm.trans hv
      cases hseen'.symm.trans hv'
      exact hsame
  · refine h.prepared.seen.callee?_map_eq_of_forall₂ h'.prepared.seen _ _ (fun _ _ => rfl) ?_ hs hs'
    exact (h.slots h' change).imp fun _ _ hsame => ⟨hsame.1, hsame.2.passing_eq⟩

/-- Bodies that are alike need the same area for their calls. -/
theorem area_eq (h : program.Compiled context assembly sigs area)
    (h' : program'.Compiled context' assembly' sigs' area') (change : program.BodyChange program') (hs : sig ∈ sigs)
    (hs' : sig' ∈ sigs') (ha : List.Forall₂ Stmt.Alike sig.procedure.body sig'.procedure.body) :
    area' sig' = area sig := by
  have hslots := h.slots h' change
  exact h.toLaid.area_eq h'.toLaid (fun _ hm => forall₂_exists_of_mem hslots hm)
    (fun _ hm => forall₂_exists_of_mem hslots.flip hm) hs hs' (allAlike_same ha).2

/-- Procedures that are alike have frames that are laid out in the same way. -/
theorem sameFrame (h : program.Compiled context assembly sigs area)
    (h' : program'.Compiled context' assembly' sigs' area') (change : program.BodyChange program') (hs : sig ∈ sigs)
    (hs' : sig' ∈ sigs') (ha : sig.procedure.Alike sig'.procedure) :
    sig.procedure.SameFrame context context' (sig.framedEntry context.types area)
      (sig'.framedEntry context'.types area') :=
  h.toLaid.sameFrame h'.toLaid hs hs' (h.matched h'.toLaid change.declared hs hs' ha.parameters ha.locals)
    (h.area_eq h' change hs hs' ha.body)

end Program.Compiled

private theorem Prepared.frame_eq (h : Prepared context sigs area) (hs : sig ∈ sigs) {scope : ScopeId}
    {frame : FrameLayout} {found : Assembly} (hf : (sig.procedure.frame context.scopes).Gives (scope, frame) found) :
    scope = sig.scope ∧ sig.frame? context.types area = some frame := by
  obtain ⟨entry, localArea, outgoing, hentry, hscope, hlocal, hout, hframe, -⟩ := Procedure.frame_shape hf
  rw [h.seen.procedure?_of_mem hs] at hentry
  cases hentry
  cases hscope
  cases hlocal
  cases hout
  exact ⟨rfl, hframe⟩

private theorem Block.before_issued {earlier : List Procedure} {procedure : Procedure}
    (block : Block context earlier procedure) : block.before.issued = (earlier.map fun p => labelCountAll p.body).sum := by
  rw [(proceduresCode_labels block.issued).1, LabelSupply.new, Nat.zero_add]

namespace Program.Compiled

/-- Every procedure has its signature and its block. -/
theorem exists_block (h : program.Compiled context assembly sigs area) {i : Nat} {procedure : Procedure}
    (hi : program.procedures[i]? = some procedure) :
    ∃ sig, sigs[i]? = some sig ∧ sig.procedure = procedure ∧
      ∃ block : Block context (program.procedures.take i) procedure, block.StandsIn assembly := by
  obtain ⟨_, hcode⟩ := h.code
  obtain ⟨hlt, hget⟩ := List.getElem?_eq_some_iff.mp hi
  have hsplit : program.procedures = program.procedures.take i ++ procedure :: program.procedures.drop (i + 1) := by
    rw [← hget, List.getElem_cons_drop, List.take_append_drop]
  have hsig := hi
  rw [← h.procedures, List.getElem?_map] at hsig
  obtain ⟨sig, hs, hp⟩ := Option.map_eq_some_iff.mp hsig
  exact ⟨sig, hs, hp, Program.exists_block hcode hsplit⟩

/-- The type of the array of each subscript is remembered. -/
theorem noted (h : program.Compiled context assembly sigs area) (hn : program.nodeIds.Nodup) (hs : sig ∈ sigs) :
    NotedIn context (sig.around context) (allSubscripts sig.procedure.body) := by
  obtain ⟨_, hrecorded⟩ := h.recorded
  exact hrecorded.noted h.prepared h.procedures hn hs

/-- The block of a procedure that does not change is moved to other labels and keeps its lines otherwise. -/
theorem block_shifted (h : program.Compiled context assembly sigs area)
    (h' : program'.Compiled context' assembly' sigs' area') (change : program.BodyChange program')
    (hn : program.nodeIds.Nodup) (hn' : program'.nodeIds.Nodup) (hs : sig ∈ sigs) (hs' : sig' ∈ sigs')
    (ha : sig.procedure.Alike sig'.procedure) {i : Nat}
    (block : Block context (program.procedures.take i) sig.procedure)
    (block' : Block context' (program'.procedures.take i) sig'.procedure) :
    List.Forall₂ (Line.Shifted (change.shiftAt i)) block.code block'.code := by
  have hm := h.matched h'.toLaid change.declared hs hs' ha.parameters ha.locals
  obtain ⟨hscope, hframe⟩ := h.prepared.frame_eq hs block.framed
  obtain ⟨hscope', hframe'⟩ := h'.prepared.frame_eq hs' block'.framed
  have hsame : sig'.frame? context'.types area' = sig.frame? context.types area := by
    rw [Signature.frame?, Signature.frame?, hm.localWords_eq h.prepared.built h'.prepared.built,
      h.area_eq h' change hs hs' ha.body]
  have hemitted := block.emitted
  have hemitted' := block'.emitted
  rw [hframe', hframe, Option.some.injEq] at hsame
  rw [hscope] at hemitted
  rw [hscope', hsame] at hemitted'
  refine ha.code_shifted (h.agrees h' change hs hs' hm) (h.noted hn hs) (h'.noted hn' hs') ?_ hemitted hemitted'
  rw [block.before_issued, block'.before_issued]
  exact change.labels_before i

end Program.Compiled

end

/-- What stays as it is where the two programs are compiled to the two assemblies. -/
structure Program.BodyChange.Local {program program' : Program} (change : program.BodyChange program')
    (context context' : Context) (assembly assembly' : Assembly) : Prop where
  count : program'.procedures.length = program.procedures.length
  /-- The procedure that changes takes its arguments as before. -/
  arguments : ∃ entry entry', context.scopes.procedure? change.old.name = some entry ∧
    context'.scopes.procedure? change.new.name = some entry' ∧ entry.SameSlots context.types context'.types entry'
  /-- Every other procedure has its frame laid out as before. -/
  frames : ∀ i procedure procedure', program.procedures[i]? = some procedure →
    program'.procedures[i]? = some procedure' → i ≠ change.index → procedure.Alike procedure' ∧
    ∃ entry entry', context.scopes.procedure? procedure.name = some entry ∧
      context'.scopes.procedure? procedure'.name = some entry' ∧ procedure.SameFrame context context' entry entry'
  /-- Its block is as before, with one number added to those of all generated labels: 0 in front of the change, and
  behind it as many as the changed body needs more. -/
  blocks : ∀ i procedure procedure', program.procedures[i]? = some procedure →
    program'.procedures[i]? = some procedure' → i ≠ change.index →
    ∃ (block : Block context (program.procedures.take i) procedure)
      (block' : Block context' (program'.procedures.take i) procedure'),
      block.StandsIn assembly ∧ block'.StandsIn assembly' ∧
      List.Forall₂ (Line.Shifted (change.shiftAt i)) block.code block'.code

/-- A change of one body disturbs no other procedure. -/
theorem compile_local {program program' : Program} (change : program.BodyChange program') {c c' : Compilation}
    {assembly assembly' : Assembly} (hn : program.nodeIds.Nodup) (hn' : program'.nodeIds.Nodup)
    (hc : (compile program .generated).1 = .ok c) (ha : c.assembly = some assembly)
    (hc' : (compile program' .generated).1 = .ok c') (ha' : c'.assembly = some assembly') :
    change.Local c.context c'.context assembly assembly' := by
  obtain ⟨sigs, area, h⟩ := compile_compiled hc ha
  obtain ⟨sigs', area', h'⟩ := compile_compiled hc' ha'
  refine ⟨change.heads.length_eq.symm, ?_, ?_, ?_⟩
  · obtain ⟨sig, hs, hp, _⟩ := h.exists_block change.old_eq
    obtain ⟨sig', hs', hp', _⟩ := h'.exists_block change.new_eq
    have hslots := (forall₂_getElem? (h.slots h' change) hs hs').2
    rw [← hp, ← hp']
    exact ⟨_, _, h.prepared.seen.procedure?_of_mem (List.mem_of_getElem? hs),
      h'.prepared.seen.procedure?_of_mem (List.mem_of_getElem? hs'), hslots⟩
  · intro i procedure procedure' hi hi' hne
    have halike := change.alike hi hi' hne
    obtain ⟨sig, hs, rfl, _⟩ := h.exists_block hi
    obtain ⟨sig', hs', rfl, _⟩ := h'.exists_block hi'
    have hm := List.mem_of_getElem? hs
    have hm' := List.mem_of_getElem? hs'
    exact ⟨halike, _, _, h.prepared.seen.procedure?_of_mem hm, h'.prepared.seen.procedure?_of_mem hm',
      h.sameFrame h' change hm hm' halike⟩
  · intro i procedure procedure' hi hi' hne
    obtain ⟨sig, hs, rfl, block, hstands⟩ := h.exists_block hi
    obtain ⟨sig', hs', rfl, block', hstands'⟩ := h'.exists_block hi'
    have hm := List.mem_of_getElem? hs
    have hm' := List.mem_of_getElem? hs'
    exact ⟨block, block', hstands, hstands',
      h.block_shifted h' change hn hn' hm hm' (change.alike hi hi' hne) block block'⟩

/-- Declarations in front of the procedure that changes: a type, and a procedure with a loop over an array of it. -/
def rowCleared : List Declaration := [
  .type ⟨⟨1, 1⟩, "row", .array ⟨0, ⟨1, 12⟩⟩ 3 (.named ⟨1, ⟨1, 25⟩⟩ "int")⟩,
  .procedure {
    position := ⟨2, 1⟩
    name := "clear"
    parameters := [⟨⟨2, 12⟩, "r", .named ⟨2, ⟨2, 19⟩⟩ "row", true⟩]
    locals := [⟨⟨3, 3⟩, "i", .named ⟨3, ⟨3, 10⟩⟩ "int"⟩]
    body := [
      .assign ⟨4, 3⟩ (.named ⟨4, ⟨4, 3⟩⟩ "i") (.literal ⟨5, ⟨4, 8⟩⟩ 0),
      .whileDo ⟨5, 3⟩
        (.binary ⟨6, ⟨5, 12⟩⟩ (.comparison .lt) (.load ⟨7, ⟨5, 10⟩⟩ (.named ⟨8, ⟨5, 10⟩⟩ "i"))
          (.literal ⟨9, ⟨5, 14⟩⟩ 3))
        (.block ⟨5, 17⟩ [
          .assign ⟨6, 5⟩
            (.element ⟨10, ⟨6, 5⟩⟩ (.named ⟨11, ⟨6, 5⟩⟩ "r") (.load ⟨12, ⟨6, 7⟩⟩ (.named ⟨13, ⟨6, 7⟩⟩ "i")))
            (.literal ⟨14, ⟨6, 13⟩⟩ 0),
          .assign ⟨7, 5⟩ (.named ⟨15, ⟨7, 5⟩⟩ "i")
            (.binary ⟨16, ⟨7, 12⟩⟩ (.arithmetic .add) (.load ⟨17, ⟨7, 10⟩⟩ (.named ⟨18, ⟨7, 10⟩⟩ "i"))
              (.literal ⟨19, ⟨7, 14⟩⟩ 1))])] }]

/-- The procedure behind the one that changes, which calls the others, with nodes numbered from the given number. -/
def rowPassed (first : NodeId) : List Declaration := [
  .procedure {
    position := ⟨14, 1⟩
    name := "main"
    parameters := []
    locals := [⟨⟨15, 3⟩, "r", .named ⟨first, ⟨15, 10⟩⟩ "row"⟩]
    body := [
      .call ⟨16, 3⟩ "clear" [.load ⟨first + 1, ⟨16, 9⟩⟩ (.named ⟨first + 2, ⟨16, 9⟩⟩ "r")],
      .ifThen ⟨17, 3⟩
        (.binary ⟨first + 3, ⟨17, 12⟩⟩ (.comparison .eq)
          (.load ⟨first + 4, ⟨17, 7⟩⟩
            (.element ⟨first + 5, ⟨17, 7⟩⟩ (.named ⟨first + 6, ⟨17, 7⟩⟩ "r") (.literal ⟨first + 7, ⟨17, 9⟩⟩ 1)))
          (.literal ⟨first + 8, ⟨17, 14⟩⟩ 0))
        (.call ⟨17, 17⟩ "wait" [.literal ⟨first + 9, ⟨17, 22⟩⟩ 5])] }]

/-- Waits in a loop, with two labels. -/
def loopWaited : Procedure where
  position := ⟨10, 1⟩
  name := "wait"
  parameters := [⟨⟨10, 11⟩, "n", .named ⟨20, ⟨10, 14⟩⟩ "int", false⟩]
  locals := []
  body := [
    .whileDo ⟨11, 3⟩
      (.binary ⟨21, ⟨11, 12⟩⟩ (.comparison .lt) (.literal ⟨22, ⟨11, 10⟩⟩ 0)
        (.load ⟨23, ⟨11, 14⟩⟩ (.named ⟨24, ⟨11, 14⟩⟩ "n")))
      (.assign ⟨11, 17⟩ (.named ⟨25, ⟨11, 17⟩⟩ "n")
        (.binary ⟨26, ⟨11, 24⟩⟩ (.arithmetic .sub) (.load ⟨27, ⟨11, 22⟩⟩ (.named ⟨28, ⟨11, 22⟩⟩ "n"))
          (.literal ⟨29, ⟨11, 26⟩⟩ 1)))]

/-- Needs no label, but a local variable of an array type of its own. -/
def numberStored : Procedure where
  position := ⟨10, 1⟩
  name := "wait"
  parameters := [⟨⟨10, 11⟩, "n", .named ⟨20, ⟨10, 14⟩⟩ "int", false⟩]
  locals := [⟨⟨11, 3⟩, "a", .array ⟨21, ⟨11, 10⟩⟩ 2 (.named ⟨22, ⟨11, 23⟩⟩ "int")⟩]
  body := [
    .assign ⟨12, 3⟩ (.element ⟨23, ⟨12, 3⟩⟩ (.named ⟨24, ⟨12, 3⟩⟩ "a") (.literal ⟨25, ⟨12, 5⟩⟩ 1))
      (.load ⟨26, ⟨12, 11⟩⟩ (.named ⟨27, ⟨12, 11⟩⟩ "n"))]

def waitLooping : Program := ⟨⟨1, 1⟩, rowCleared ++ .procedure loopWaited :: rowPassed 30⟩

def waitStoring : Program := ⟨⟨1, 1⟩, rowCleared ++ .procedure numberStored :: rowPassed 28⟩

def waitChanged : waitLooping.BodyChange waitStoring where
  before := rowCleared
  before' := rowCleared
  old := loopWaited
  new := numberStored
  after := rowPassed 30
  after' := rowPassed 28
  split := rfl
  split' := rfl
  before_alike := by repeat constructor
  head := by repeat constructor
  after_alike := by repeat constructor

theorem waitChanged_local :
    waitLooping.nodeIds.Nodup ∧ waitStoring.nodeIds.Nodup ∧ waitChanged.index = 1 ∧ waitChanged.labelShift = -2 ∧
    ∃ c c' assembly assembly', (compile waitLooping .generated).1 = .ok c ∧ c.assembly = some assembly ∧
      (compile waitStoring .generated).1 = .ok c' ∧ c'.assembly = some assembly' ∧
      waitChanged.Local c.context c'.context assembly assembly' := by
  obtain ⟨c, assembly, hc, ha⟩ := @compile_of_isOk waitLooping (by decide +kernel)
  obtain ⟨c', assembly', hc', ha'⟩ := @compile_of_isOk waitStoring (by decide +kernel)
  have hn : waitLooping.nodeIds.Nodup := by decide +kernel
  have hn' : waitStoring.nodeIds.Nodup := by decide +kernel
  exact ⟨hn, hn', rfl, rfl, c, c', assembly, assembly', hc, ha, hc', ha',
    compile_local waitChanged hn hn' hc ha hc' ha'⟩

end SplLang

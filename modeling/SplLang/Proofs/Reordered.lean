import SplLang.Proofs.Counterparts
import SplLang.Proofs.Extent
import SplLang.Proofs.Locality
import SplLang.Proofs.Stopping

/-! Procedures may be declared in any order behind the types. A program is accepted in every order of its procedures
or in none, and their frames are laid out in the same way. -/
namespace SplLang
open Phase

/-- The types are declared first and then the procedures. -/
def Program.ofParts (position : Position) (types : List TypeDeclaration) (procedures : List Procedure) : Program where
  position := position
  declarations := types.map .type ++ procedures.map .procedure

/-! ### Declarations -/

private theorem legalFrom_procedures_iff {known : Name → Option Spelled} {taken : List Name}
    {procedures : List Procedure} : LegalFrom known taken (procedures.map .procedure) ↔
      (∀ procedure ∈ procedures, procedure.Legal known ∧ procedure.name ∉ taken) ∧
        (procedures.map (·.name)).Nodup := by
  induction procedures generalizing taken with
  | nil => simp [LegalFrom.nil]
  | cons procedure procedures ih =>
    rw [List.map_cons, legalFrom_procedure_iff, ih, List.forall_mem_cons, List.map_cons, List.nodup_cons]
    constructor
    · rintro ⟨hfirst, hrest, hnodup⟩
      refine ⟨⟨hfirst, fun other ho => ⟨(hrest other ho).1, fun ht => (hrest other ho).2 ?_⟩⟩, ?_, hnodup⟩
      · exact List.mem_append_left _ ht
      · intro hm
        obtain ⟨other, ho, hn⟩ := List.mem_map.mp hm
        exact (hrest other ho).2 (hn ▸ List.mem_append_right _ (List.mem_singleton_self _))
    · rintro ⟨⟨hfirst, hrest⟩, hfresh, hnodup⟩
      refine ⟨hfirst, fun other ho => ⟨(hrest other ho).1, fun ht => ?_⟩, hnodup⟩
      rcases List.mem_append.mp ht with ht | ht
      · exact (hrest other ho).2 ht
      · rw [List.mem_singleton] at ht
        exact hfresh (ht ▸ List.mem_map_of_mem ho)

private theorem legalFrom_types_congr {rest rest' : List Declaration}
    (h : ∀ known taken, LegalFrom known taken rest ↔ LegalFrom known taken rest') {types : List TypeDeclaration}
    {known : Name → Option Spelled} {taken : List Name} :
    LegalFrom known taken (types.map .type ++ rest) ↔ LegalFrom known taken (types.map .type ++ rest') := by
  induction types generalizing known taken with
  | nil => exact h known taken
  | cons declaration types ih =>
    rw [List.map_cons, List.cons_append, List.cons_append, legalFrom_type_iff, legalFrom_type_iff]
    exact and_congr_right fun _ => forall₂_congr fun _ _ => ih

section
variable {position : Position} {types : List TypeDeclaration} {procedures procedures' : List Procedure}

private theorem Program.ofParts_legal_iff (h : procedures.Perm procedures') :
    (Program.ofParts position types procedures).Legal ↔ (Program.ofParts position types procedures').Legal := by
  refine legalFrom_types_congr fun known taken => ?_
  rw [legalFrom_procedures_iff, legalFrom_procedures_iff, (h.map _).nodup_iff]
  simp only [h.mem_iff]

private theorem Program.ofParts_subset (h : procedures.Perm procedures') :
    (Program.ofParts position types procedures).declarations ⊆
      (Program.ofParts position types procedures').declarations :=
  ((h.map Declaration.procedure).append_left (types.map Declaration.type)).subset

private theorem Program.ofParts_procedures : (Program.ofParts position types procedures).procedures = procedures := by
  rw [Program.procedures_eq]
  simp [ofParts, Declaration.procedure?, List.filterMap_append, List.filterMap_map]

end

/-- The two programs have the same declarations, and they are legal in both orders or in neither. -/
structure Program.Reordered (program program' : Program) : Prop where
  legal : program.Legal ↔ program'.Legal
  subset : program.declarations ⊆ program'.declarations
  superset : program'.declarations ⊆ program.declarations

theorem Program.Reordered.symm {program program' : Program} (h : program.Reordered program') :
    program'.Reordered program :=
  ⟨h.legal.symm, h.superset, h.subset⟩

private theorem Program.ofParts_reordered {position : Position} {types : List TypeDeclaration}
    {procedures procedures' : List Procedure} (h : procedures.Perm procedures') :
    (Program.ofParts position types procedures).Reordered (Program.ofParts position types procedures') :=
  ⟨Program.ofParts_legal_iff h, Program.ofParts_subset h, Program.ofParts_subset h.symm⟩

section
variable {program program' : Program} {declared checked placed declared' checked' placed' : Progress}

private theorem Program.declare_ok_iff :
    (∃ count declared, program.declare.run .initial = .ok count declared) ↔ program.Legal :=
  ⟨fun ⟨count, declared, hr⟩ => (program.declare_exact.sound count declared hr).1, program.declare_exact.succeeds⟩

/-! ### Bodies -/

/-- The check of a program keeps its declarations, and its bodies are well typed. -/
theorem Program.Declares.check {sigs : List Signature} {bodies : Nat} (h : program.Declares declared.context sigs)
    (hc : program.check.run declared = .ok bodies checked) :
    program.Declares checked.context sigs ∧
      ∀ sig ∈ sigs, ∀ stmt ∈ sig.procedure.body, stmt.Typed (sig.around checked.context) := by
  obtain ⟨hchecked, htyped, _⟩ := h.declared.check_ok h.procedures hc
  obtain ⟨typed, hgiven⟩ := h.given
  obtain ⟨_, _, hctx⟩ := Program.check_ok hc
  rw [hctx] at hchecked htyped ⊢
  obtain ⟨hextends, htakes, hcount, hfound⟩ := hgiven.resolves
  exact ⟨⟨h.procedures, hchecked, typed, hgiven.sites, hgiven.distinct, hgiven.free, hgiven.held,
    hextends, htakes, hcount, hfound⟩, htyped⟩

/-- A program that passes the check passes it in the other order. -/
theorem Program.Reordered.checks (h : program.Reordered program')
    (hc : ∃ count declared bodies checked, program.declare.run .initial = .ok count declared ∧
      program.check.run declared = .ok bodies checked) :
    ∃ count declared bodies checked, program'.declare.run .initial = .ok count declared ∧
      program'.check.run declared = .ok bodies checked := by
  obtain ⟨count, declared, bodies, checked, hd, hc⟩ := hc
  obtain ⟨count', declared', hd'⟩ := Program.declare_ok_iff.mpr (h.legal.mp (Program.declare_ok_iff.mp ⟨_, _, hd⟩))
  obtain ⟨sigs, hdeclares⟩ := Program.declares hd
  obtain ⟨sigs', hdeclares'⟩ := Program.declares hd'
  obtain ⟨⟨sig, hs, hname, hparameters⟩, htyped⟩ :=
    (hdeclares.declared.checks_iff hdeclares.procedures).mp ⟨_, _, hc⟩
  obtain ⟨sig', hs', he⟩ := hdeclares.exists_signature hdeclares' h.subset hs
  rw [he] at hname hparameters
  obtain ⟨bodies', checked', hc'⟩ := (hdeclares'.declared.checks_iff hdeclares'.procedures).mpr
    ⟨⟨sig', hs', hname, hparameters⟩, hdeclares.typed_of_typed hdeclares' h.subset htyped h.superset⟩
  exact ⟨count', declared', bodies', checked', hd', hc'⟩

/-! ### Frames -/

section
variable {context context' : Context} {sigs sigs' : List Signature} {sig sig' : Signature}

private theorem Program.typesAlike_of_subset (hd : program.declarations ⊆ program'.declarations) :
    program.TypesAlike program' :=
  fun _ expr hm => ⟨expr, .refl expr, Program.typeSites_subset hd hm⟩

/-- A procedure has matching signatures. -/
theorem Program.Declares.matched_same (h : program.Declares context sigs) (h' : program'.Declares context' sigs')
    (hd : program.declarations ⊆ program'.declarations) (hs : sig ∈ sigs) (hs' : sig' ∈ sigs')
    (he : sig.procedure = sig'.procedure) : sig.Matches context.types context'.types sig' := by
  refine h.matched h' (Program.typesAlike_of_subset hd) hs hs' ?_ ?_
  · rw [he]
    exact List.forall₂_same.mpr fun p _ => .refl p
  · rw [he]
    exact List.forall₂_same.mpr fun l _ => .refl l

/-- Calls pass arguments of the same size. -/
theorem Program.Declares.callee_bytes (h : program.Declares context sigs) (h' : program'.Declares context' sigs')
    (hp : program.Reordered program') (hs : sig ∈ sigs) (hs' : sig' ∈ sigs') (name : Name) :
    (context'.scopes.callee? sig'.scope name).map (·.argumentBytes context'.types) =
      (context.scopes.callee? sig.scope name).map (·.argumentBytes context.types) := by
  have hsame : ∀ sig ∈ sigs, ∀ sig' ∈ sigs', sig.procedure = sig'.procedure →
      sig'.entry.argumentBytes context'.types = sig.entry.argumentBytes context.types := by
    intro sig hs sig' hs' he
    have hcount := List.Forall₂.length_eq (h.parameters_counterparts h' hp.subset hs hs' he)
    rw [(h.declared.fits sig hs).argumentBytes_eq h.declared.built,
      (h'.declared.fits sig' hs').argumentBytes_eq h'.declared.built, hcount]
  refine h.declared.scoped.callee?_map_eq_of_mem h'.declared.scoped _ _ ?_ ?_ ?_ hs hs' name
  · intro p _
    rw [p.argumentBytes_eq h.declared.built, p.argumentBytes_eq h'.declared.built]
  · intro sig hs
    obtain ⟨sig', hs', he⟩ := h.exists_signature h' hp.subset hs
    exact ⟨sig', hs', congrArg _ he, hsame sig hs sig' hs' he⟩
  · intro sig' hs'
    obtain ⟨sig, hs, he⟩ := h'.exists_signature h hp.superset hs'
    exact ⟨sig, hs, congrArg _ he.symm, hsame sig hs sig' hs' he.symm⟩

/-- A procedure has the same extent in both orders. -/
theorem Program.Declares.tooLarge (h : program.Declares context sigs) (h' : program'.Declares context' sigs')
    (hp : program.Reordered program') (hs : sig ∈ sigs) (hs' : sig' ∈ sigs') (he : sig.procedure = sig'.procedure)
    (extent : Extent context sig.procedure) (extent' : Extent context' sig'.procedure) (hlarge : extent'.TooLarge) :
    extent.TooLarge := by
  have harguments : extent'.argumentBytes = extent.argumentBytes := by
    have hcount := List.Forall₂.length_eq (h.parameters_counterparts h' hp.subset hs hs' he)
    rw [h.declared.argumentBytes_eq hs extent, h'.declared.argumentBytes_eq hs' extent', hcount]
  have hm := h.matched_same h' hp.subset hs hs' he
  have hlocals : extent'.localBytes = extent.localBytes := by
    rw [h.declared.localBytes_eq hs extent, h'.declared.localBytes_eq hs' extent',
      hm.localWords_eq h.declared.built h'.declared.built]
  have hcalls : extent'.largestCall = extent.largestCall := by
    have hcalled := extent.called_map (·.argumentBytes context.types)
    have hcalled' := extent'.called_map (·.argumentBytes context'.types)
    rw [(h.declared.extent_eq hs extent).2.1] at hcalled
    have hcallees : allCallees sig'.procedure.body = allCallees sig.procedure.body := by rw [he]
    rw [(h'.declared.extent_eq hs' extent').2.1, hcallees,
      List.map_congr_left fun name _ => h.callee_bytes h' hp hs hs' name, hcalled] at hcalled'
    exact congrArg List.max? (map_some_inj hcalled').symm
  unfold Extent.TooLarge Extent.frameBytes at hlarge ⊢
  rwa [harguments, hlocals, hcalls] at hlarge

end

/-- Frames that can be laid out can be laid out in the other order. -/
theorem Program.Reordered.runs (h : program.Reordered program') (hr : program.Runs declared checked placed) :
    ∃ declared' checked' placed', program'.Runs declared' checked' placed' := by
  obtain ⟨count, hd⟩ := hr.declare
  obtain ⟨bodies, hc⟩ := hr.check
  obtain ⟨frames, hp⟩ := hr.place
  obtain ⟨count', declared', bodies', checked', hd', hc'⟩ := h.checks ⟨count, declared, bodies, checked, hd, hc⟩
  cases hp' : program'.place.run checked' with
  | ok frames' placed' => exact ⟨declared', checked', placed', ⟨_, hd'⟩, ⟨_, hc'⟩, _, hp'⟩
  | error d finish =>
    -- Frames are refused for a procedure that is too large, and then it is so in the first order, too.
    exfalso
    obtain ⟨sigs, hdeclares⟩ := Program.declares hd
    obtain ⟨sigs', hdeclares'⟩ := Program.declares hd'
    obtain ⟨area, _, hprepared, _, htypes⟩ := hdeclares.declared.prepare hdeclares.procedures hc hp
    obtain ⟨_, _, hctx⟩ := Program.check_ok hc
    obtain ⟨hdeclares, htyped⟩ := hdeclares.check hc
    obtain ⟨hdeclares', htyped'⟩ := hdeclares'.check hc'
    obtain ⟨sig', hs', _, hoversized⟩ := hdeclares'.declared.place_refuses hdeclares'.procedures htyped' hp'
    obtain ⟨sig, hs, he⟩ := hdeclares'.exists_signature hdeclares h.superset hs'
    obtain ⟨extent⟩ := hdeclares.declared.exists_extent hs (htyped sig hs)
    obtain ⟨extent'⟩ := hdeclares'.declared.exists_extent hs' (htyped' sig' hs')
    have hlarge := hdeclares'.declared.tooLarge_of_oversized hs' (htyped' sig' hs') hoversized extent'
    have hkept : placed.context.types = checked.context.types := by rw [htypes, hctx]; rfl
    exact (hdeclares.declared.stored hprepared hkept hs extent).1
      (hdeclares.tooLarge hdeclares' h hs hs' he.symm extent extent' hlarge)

private theorem Program.Runs.laid (h : program.Runs declared checked placed) :
    ∃ sigs area, program.Laid placed.context sigs area := by
  obtain ⟨_, hd⟩ := h.declare
  obtain ⟨_, hc⟩ := h.check
  obtain ⟨_, hp⟩ := h.place
  obtain ⟨sigs, hdeclares⟩ := Program.declares hd
  obtain ⟨area, _, hprepared, _, htypes⟩ := hdeclares.declared.prepare hdeclares.procedures hc hp
  exact ⟨sigs, area, ⟨_, hdeclares, htypes⟩, hprepared⟩

/-- Each procedure has its frame laid out in the same way in both orders. -/
theorem Program.Reordered.sameFrame (h : program.Reordered program') (hr : program.Runs declared checked placed)
    (hr' : program'.Runs declared' checked' placed') {procedure : Procedure} (hm : procedure ∈ program.procedures) :
    ∃ entry entry', placed.context.scopes.procedure? procedure.name = some entry ∧
      placed'.context.scopes.procedure? procedure.name = some entry' ∧
      procedure.SameFrame placed.context placed'.context entry entry' := by
  obtain ⟨sigs, area, hlaid⟩ := hr.laid
  obtain ⟨sigs', area', hlaid'⟩ := hr'.laid
  obtain ⟨_, hstart, htypes⟩ := hlaid.declares
  obtain ⟨_, hstart', htypes'⟩ := hlaid'.declares
  have hmatched : ∀ sig ∈ sigs, ∀ sig' ∈ sigs', sig.procedure = sig'.procedure →
      sig.Matches placed.context.types placed'.context.types sig' := by
    intro sig hs sig' hs' he
    rw [htypes, htypes']
    exact hstart.matched_same hstart' h.subset hs hs' he
  rw [← hlaid.procedures] at hm
  obtain ⟨sig, hs, rfl⟩ := List.mem_map.mp hm
  obtain ⟨sig', hs', he⟩ := hstart.exists_signature hstart' h.subset hs
  have harea : area' sig' = area sig := by
    refine hlaid.area_eq hlaid' (fun sig hs => ?_) (fun sig' hs' => ?_) hs hs' (by rw [he])
    · obtain ⟨sig', hs', he⟩ := hstart.exists_signature hstart' h.subset hs
      exact ⟨sig', hs', congrArg _ he, Signature.sameSlots (hmatched sig hs sig' hs' he).parameters _ _⟩
    · obtain ⟨sig, hs, he⟩ := hstart'.exists_signature hstart h.superset hs'
      exact ⟨sig, hs, congrArg _ he.symm, Signature.sameSlots (hmatched sig hs sig' hs' he.symm).parameters _ _⟩
  refine ⟨_, _, hlaid.prepared.seen.procedure?_of_mem hs, ?_,
    hlaid.sameFrame hlaid' hs hs' (hmatched sig hs sig' hs' he) harea⟩
  rw [he]
  exact hlaid'.prepared.seen.procedure?_of_mem hs'

/-- A program that is accepted up to a stage before code generation is accepted in the other order. -/
theorem Program.Reordered.accepted (h : program.Reordered program') {last : Stage} (hl : last ≠ .generated)
    (hc : ∃ c, (compile program last).1 = .ok c) : ∃ c, (compile program' last).1 = .ok c := by
  obtain ⟨c, hc⟩ := hc
  cases last with
  | declared =>
    obtain ⟨count, declared, hd, _⟩ := compile_declared_iff.mp hc
    obtain ⟨count', declared', hd'⟩ := Program.declare_ok_iff.mpr (h.legal.mp (Program.declare_ok_iff.mp ⟨_, _, hd⟩))
    exact ⟨_, compile_declared_iff.mpr ⟨count', declared', hd', rfl⟩⟩
  | checked =>
    obtain ⟨count, declared, bodies, checked, hd, hc, _⟩ := compile_checked_iff.mp hc
    obtain ⟨count', declared', bodies', checked', hd', hc'⟩ := h.checks ⟨count, declared, bodies, checked, hd, hc⟩
    exact ⟨_, compile_checked_iff.mpr ⟨count', declared', bodies', checked', hd', hc', rfl⟩⟩
  | placed =>
    obtain ⟨declared, checked, placed, hr, _⟩ := compile_placed_iff.mp hc
    obtain ⟨declared', checked', placed', hr'⟩ := h.runs hr
    exact ⟨_, compile_placed_iff.mpr ⟨declared', checked', placed', hr', rfl⟩⟩
  | generated => exact absurd rfl hl

end

/-- Both programs are accepted or neither is, and the procedures have the same frames in both. -/
structure Program.SameFrames (program program' : Program) (procedures : List Procedure) : Prop where
  accepted_iff : ∀ last, last ≠ .generated →
    ((∃ c, (compile program last).1 = .ok c) ↔ ∃ c, (compile program' last).1 = .ok c)
  frames : ∀ c c', (compile program .placed).1 = .ok c → (compile program' .placed).1 = .ok c' →
    ∀ procedure ∈ procedures, ∃ entry entry', c.context.scopes.procedure? procedure.name = some entry ∧
      c'.context.scopes.procedure? procedure.name = some entry' ∧
      procedure.SameFrame c.context c'.context entry entry'

/-- Procedures may be declared in any order. Behind the same types, a program is accepted up to the declarations, the
checks or the frames in both orders of its procedures or in neither, and when frames are laid out, each procedure has
the same areas and the same offsets of its parameters and locals. -/
theorem compile_any_order {position : Position} {types : List TypeDeclaration} {procedures procedures' : List Procedure}
    (h : procedures.Perm procedures') :
    (Program.ofParts position types procedures).SameFrames (.ofParts position types procedures') procedures := by
  have hreordered := @Program.ofParts_reordered position types _ _ h
  refine ⟨fun last hl => ⟨hreordered.accepted hl, hreordered.symm.accepted hl⟩, ?_⟩
  intro c c' hc hc' procedure hm
  obtain ⟨declared, checked, placed, hr, rfl⟩ := compile_placed_iff.mp hc
  obtain ⟨declared', checked', placed', hr', rfl⟩ := compile_placed_iff.mp hc'
  exact hreordered.sameFrame hr hr' (Program.ofParts_procedures ▸ hm)

/-- A type, and three procedures of which two call each other and two have array types of their own. -/
def rowTypes : List TypeDeclaration := [⟨⟨1, 1⟩, "row", .array ⟨0, ⟨1, 12⟩⟩ 3 (.named ⟨1, ⟨1, 25⟩⟩ "int")⟩]

def evenOdd : List Procedure := [
  { position := ⟨2, 1⟩
    name := "even"
    parameters := [⟨⟨2, 11⟩, "n", .named ⟨2, ⟨2, 14⟩⟩ "int", false⟩, ⟨⟨2, 19⟩, "r", .named ⟨3, ⟨2, 26⟩⟩ "row", true⟩]
    locals := [⟨⟨3, 3⟩, "a", .array ⟨4, ⟨3, 10⟩⟩ 2 (.named ⟨5, ⟨3, 23⟩⟩ "row")⟩]
    body := [
      .assign ⟨4, 3⟩
        (.element ⟨6, ⟨4, 3⟩⟩
          (.element ⟨7, ⟨4, 3⟩⟩ (.named ⟨8, ⟨4, 3⟩⟩ "a") (.literal ⟨9, ⟨4, 5⟩⟩ 0)) (.literal ⟨10, ⟨4, 8⟩⟩ 1))
        (.load ⟨11, ⟨4, 14⟩⟩ (.named ⟨12, ⟨4, 14⟩⟩ "n")),
      .call ⟨5, 3⟩ "odd" [
        .load ⟨13, ⟨5, 7⟩⟩ (.element ⟨14, ⟨5, 7⟩⟩ (.named ⟨15, ⟨5, 7⟩⟩ "a") (.literal ⟨16, ⟨5, 9⟩⟩ 1))]] },
  { position := ⟨6, 1⟩
    name := "odd"
    parameters := [⟨⟨6, 10⟩, "r", .named ⟨17, ⟨6, 17⟩⟩ "row", true⟩]
    locals := [⟨⟨7, 3⟩, "b", .array ⟨18, ⟨7, 10⟩⟩ 5 (.named ⟨19, ⟨7, 23⟩⟩ "int")⟩]
    body := [
      .call ⟨8, 3⟩ "even" [
        .load ⟨20, ⟨8, 8⟩⟩ (.element ⟨21, ⟨8, 8⟩⟩ (.named ⟨22, ⟨8, 8⟩⟩ "b") (.literal ⟨23, ⟨8, 10⟩⟩ 4)),
        .load ⟨24, ⟨8, 14⟩⟩ (.named ⟨25, ⟨8, 14⟩⟩ "r")]] },
  { position := ⟨9, 1⟩
    name := "main"
    parameters := []
    locals := [⟨⟨10, 3⟩, "r", .named ⟨26, ⟨10, 10⟩⟩ "row"⟩]
    body := [.call ⟨11, 3⟩ "odd" [.load ⟨27, ⟨11, 7⟩⟩ (.named ⟨28, ⟨11, 7⟩⟩ "r")]] }]

theorem evenOdd_any_order : evenOdd.Perm evenOdd.reverse ∧ evenOdd ≠ evenOdd.reverse ∧
    (Program.ofParts ⟨1, 1⟩ rowTypes evenOdd).SameFrames (.ofParts ⟨1, 1⟩ rowTypes evenOdd.reverse) evenOdd ∧
    ∃ c c', (compile (.ofParts ⟨1, 1⟩ rowTypes evenOdd) .placed).1 = .ok c ∧
      (compile (.ofParts ⟨1, 1⟩ rowTypes evenOdd.reverse) .placed).1 = .ok c' := by
  have hperm : evenOdd.Perm evenOdd.reverse := evenOdd.reverse_perm.symm
  have hsame := @compile_any_order ⟨1, 1⟩ rowTypes _ _ hperm
  have hok : (compile (.ofParts ⟨1, 1⟩ rowTypes evenOdd) .placed).1.isOk := by decide +kernel
  obtain ⟨c, hc⟩ := exists_ok_of_isOk hok
  obtain ⟨c', hc'⟩ := (hsame.accepted_iff .placed (by decide)).mp ⟨c, hc⟩
  refine ⟨hperm, fun he => ?_, hsame, c, c', hc, hc'⟩
  exact absurd (congrArg (fun ps => ps.head?.map Procedure.name) he) (by decide)

end SplLang

import Mathlib.Algebra.BigOperators.Ring.List
import SplLang.Proofs.Convention

/-! How large frames are, as unbounded numbers. The frames of a program are refused exactly if one of these
numbers is too large for a signed word, and otherwise every size and offset that is stored is the exact one. -/
namespace SplLang
open Phase

/-- Bytes of an argument, without any bound: a reference takes one word. -/
def Slot.bytes (types : TypeTable) (slot : Slot) : Nat := if slot.byReference then 4 else 4 * types.words slot.type

/-- Bytes of all arguments, without any bound. -/
def ProcedureEntry.argumentBytes (types : TypeTable) (entry : ProcedureEntry) : Nat :=
  (entry.parameters.map (·.bytes types)).sum

/-- The frame for the areas of the procedure, once it has them. -/
def ProcedureEntry.frame? (entry : ProcedureEntry) : Option FrameLayout := do
  FrameLayout.of? (← entry.localArea) (← entry.outgoing)

theorem map_some_inj {α : Type} {xs ys : List α} (h : xs.map some = ys.map some) : xs = ys :=
  (List.map_injective_iff.mpr fun _ _ he => Option.some.inj he) h

/-- What the frame of a procedure is made of. -/
structure Extent (context : Context) (procedure : Procedure) where
  entry : ProcedureEntry
  scope : ScopeId
  locals : List VariableEntry
  /-- The entries of what is called in the body, one for each call. -/
  callees : List ProcedureEntry
  found : context.scopes.procedure? procedure.name = some entry
  own : entry.scope = some scope
  held : procedure.locals.map (fun declaration => (context.scopes.held? scope declaration.name).bind (·.var?)) =
    locals.map some
  called : (allCallees procedure.body).map (context.scopes.callee? scope) = callees.map some

namespace Extent
variable {context : Context} {procedure : Procedure} (extent : Extent context procedure)

def argumentBytes : Nat := extent.entry.argumentBytes context.types

/-- Bytes of the first parameters, as many as the given number says. -/
def bytesBefore (i : Nat) : Nat := ((extent.entry.parameters.take i).map (·.bytes context.types)).sum

/-- Bytes of the first locals, as many as the given number says. -/
def depth (i : Nat) : Nat := ((extent.locals.take i).map fun entry => 4 * context.types.words entry.type).sum

def localBytes : Nat := (extent.locals.map fun entry => 4 * context.types.words entry.type).sum

/-- Bytes of the largest argument area among those of the procedures called, if there are calls. -/
def largestCall : Option Nat := (extent.callees.map (·.argumentBytes context.types)).max?

/-- Bytes of the frame: the locals, the arguments of the largest call, and one or two words for what is saved. -/
def frameBytes : Nat := extent.largestCall.elim (extent.localBytes + 4) fun bytes => extent.localBytes + bytes + 8

/-- The parameters or the frame have more bytes than a signed word can count. -/
def TooLarge : Prop := 2^31 - 1 < extent.argumentBytes ∨ 2^31 - 1 < extent.frameBytes

/-- Each size and each offset that is stored for the procedure is the exact one. -/
structure StoredIn (scopes : ScopeTree) (stored : ProcedureEntry) : Prop where
  entry : scopes.procedure? procedure.name = some stored
  parameters : ∀ i parameter, procedure.parameters[i]? = some parameter →
    scopes.OffsetIs extent.scope parameter.name (extent.bytesBefore i)
  slots : ∀ i < procedure.parameters.length, ∃ slot, stored.parameters[i]? = some slot ∧
    slot.offset.map UInt32.toNat = some (extent.bytesBefore i)
  locals : ∀ i declaration, procedure.locals[i]? = some declaration →
    scopes.OffsetIs extent.scope declaration.name (-extent.depth (i + 1))
  argumentArea : stored.argumentArea.map UInt32.toNat = some extent.argumentBytes
  localArea : stored.localArea.map UInt32.toNat = some extent.localBytes
  outgoing : stored.outgoing.map (·.bytes?) = some extent.largestCall
  frame : ∃ frame, stored.frame? = some frame ∧ frame.size.toNat = extent.frameBytes ∧
    frame.savedFramePointer.toNat = extent.largestCall.elim 0 (· + 4) ∧
    frame.savedReturnAddress.map Int32.toInt = extent.largestCall.map fun _ => -(extent.localBytes + 8 : Int)

theorem called_map {α : Type} (g : ProcedureEntry → α) :
    (allCallees procedure.body).map (fun name => (context.scopes.callee? extent.scope name).map g) =
      (extent.callees.map g).map some := by
  have hcalled := congrArg (List.map (Option.map g)) extent.called
  rw [List.map_map, List.map_map] at hcalled
  rw [List.map_map]
  exact hcalled

/-- A procedure has no two extents. -/
theorem unique (other : Extent context procedure) : other = extent := by
  obtain ⟨entry, scope, locals, callees, found, own, held, called⟩ := extent
  obtain ⟨entry', scope', locals', callees', found', own', held', called'⟩ := other
  obtain rfl := Option.some.inj (found'.symm.trans found)
  obtain rfl := Option.some.inj (own'.symm.trans own)
  obtain rfl := map_some_inj (held'.symm.trans held)
  obtain rfl := map_some_inj (called'.symm.trans called)
  rfl

end Extent

private theorem FrameLayout.exactSize_eq (localArea : UInt32) (area : OutgoingArea) :
    exactSize localArea area = area.bytes?.elim (localArea.toNat + 4) fun bytes => localArea.toNat + bytes + 8 := by
  cases area <;> rfl

private theorem sum_map_bytes {types : TypeTable} {slots : List Slot} (h : ∀ slot ∈ slots, slot.bytes types = 4) :
    (slots.map (·.bytes types)).sum = 4 * slots.length := by
  induction slots with
  | nil => rfl
  | cons slot slots ih =>
    obtain ⟨hslot, hslots⟩ := List.forall_mem_cons.mp h
    rw [List.map_cons, List.sum_cons, hslot, ih hslots, List.length_cons]
    omega

theorem LibraryProcedure.argumentBytes_eq {types : TypeTable} (hb : types.Built) (p : LibraryProcedure) :
    p.entry.argumentBytes types = 4 * p.byReference.length := by
  have hslots : ∀ slot ∈ p.slots, slot.bytes types = 4 := by
    intro slot hm
    rw [p.slots_eq] at hm
    obtain ⟨r, _, rfl⟩ := List.mem_map.mp hm
    unfold Slot.bytes
    split
    · rfl
    · rw [hb.words_int]
  have hlength : p.slots.length = p.byReference.length := by
    rw [p.slots_eq, List.length_map, List.length_zipIdx]
  rw [← hlength]
  exact sum_map_bytes hslots

section
variable {context : Context} {sigs : List Signature} {sig : Signature}

/-- Each parameter of a declared procedure takes one word. -/
theorem Signature.Fits.slot_bytes {types : TypeTable} (hf : sig.Fits types) (hb : types.Built) :
    ∀ slot ∈ sig.slots, slot.bytes types = 4 := by
  intro slot hm
  obtain ⟨p, hp, rfl⟩ := List.mem_map.mp hm
  unfold Slot.bytes
  split
  · rfl
  · next hr => rw [(hf.parameters p hp).2 (by simpa using hr), hb.words_int]

theorem Signature.Fits.argumentBytes_eq {types : TypeTable} (hf : sig.Fits types) (hb : types.Built) :
    sig.entry.argumentBytes types = 4 * sig.parameters.length := by
  have hlength : sig.slots.length = sig.parameters.length := List.length_map _
  rw [← hlength]
  exact sum_map_bytes (hf.slot_bytes hb)

private theorem Signature.depthsFrom_get {types : TypeTable} {below : Nat}
    {locals : List (LocalVariable × TypeId)} {i : Nat}
    {d : (LocalVariable × TypeId) × Nat} (h : (depthsFrom types below locals)[i]? = some d) :
    4 * d.2 = 4 * below + ((locals.take (i + 1)).map fun l => 4 * types.words l.2).sum := by
  induction locals generalizing below i with
  | nil => cases h
  | cons l locals ih =>
    rw [List.take_succ_cons, List.map_cons, List.sum_cons]
    cases i with
    | zero =>
      cases h
      show 4 * (below + types.words l.2) = _
      rw [List.take_zero, List.map_nil, List.sum_nil]
      omega
    | succ i =>
      rw [ih h]
      omega

/-- The local with the given number has its depth. -/
theorem Signature.exists_depth_get {types : TypeTable} (hf : sig.Fits types) {i : Nat} {declaration : LocalVariable}
    (hi : sig.procedure.locals[i]? = some declaration) :
    ∃ type depth, (sig.depths types)[i]? = some ((declaration, type), depth) := by
  have hmap := map_depthsFrom_fst (fun l : LocalVariable × TypeId => l.1) types 0 sig.locals
  rw [hf.locals_eq] at hmap
  rw [← hmap, List.getElem?_map] at hi
  obtain ⟨⟨⟨l, type⟩, depth⟩, hd, rfl⟩ := Option.map_eq_some_iff.mp hi
  exact ⟨type, depth, hd⟩

/-- What the locals of the procedure are before they are placed. -/
def Signature.localEntries (sig : Signature) : List VariableEntry := sig.locals.map fun l => ⟨l.2, false, none⟩

private theorem Declared.map_locals (h : Declared context sigs) (hs : sig ∈ sigs) :
    sig.procedure.locals.map (fun declaration => (context.scopes.held? sig.scope declaration.name).bind (·.var?)) =
      sig.localEntries.map some := by
  rw [← (h.fits sig hs).locals_eq, Signature.localEntries, List.map_map, List.map_map]
  apply List.map_congr_left
  intro l hl
  have hheld := (h.unplaced hs).localVariable hl
  rw [Function.comp_apply, hheld]
  rfl

private theorem exists_map_some {α β : Type} {f : α → Option β} {xs : List α} (h : ∀ x ∈ xs, (f x).isSome) :
    ∃ ys : List β, xs.map f = ys.map some := by
  induction xs with
  | nil => exact ⟨[], rfl⟩
  | cons x xs ih =>
    obtain ⟨hx, hxs⟩ := List.forall_mem_cons.mp h
    obtain ⟨y, hy⟩ := Option.isSome_iff_exists.mp hx
    obtain ⟨ys, hys⟩ := ih hxs
    exact ⟨y :: ys, by rw [List.map_cons, List.map_cons, hy, hys]⟩

/-- Every procedure of a checked program has its extent. -/
theorem Declared.exists_extent (h : Declared context sigs) (hs : sig ∈ sigs)
    (ht : ∀ stmt ∈ sig.procedure.body, stmt.Typed (sig.around context)) : Nonempty (Extent context sig.procedure) := by
  have hsome : ∀ name ∈ allCallees sig.procedure.body, (context.scopes.callee? sig.scope name).isSome := by
    intro name hname
    have hkinds := allTyped_callee_isSome _ ht name hname
    rwa [Surroundings.callee?, Option.isSome_map] at hkinds
  obtain ⟨callees, hcallees⟩ := exists_map_some hsome
  exact ⟨⟨sig.entry, sig.scope, sig.localEntries, callees, h.scoped.procedure?_of_mem hs, rfl, h.map_locals hs, hcallees⟩⟩

/-- The extent of a declared procedure is read off its signature. -/
theorem Declared.extent_eq (h : Declared context sigs) (hs : sig ∈ sigs) (extent : Extent context sig.procedure) :
    extent.entry = sig.entry ∧ extent.scope = sig.scope ∧ extent.locals = sig.localEntries := by
  have hentry : extent.entry = sig.entry :=
    Option.some.inj (extent.found.symm.trans (h.scoped.procedure?_of_mem hs))
  have hscope : extent.scope = sig.scope := by
    have hown := extent.own
    rw [hentry] at hown
    exact (Option.some.inj hown).symm
  refine ⟨hentry, hscope, ?_⟩
  have hheld := extent.held
  rw [hscope, h.map_locals hs] at hheld
  exact map_some_inj hheld.symm

theorem Declared.argumentBytes_eq (h : Declared context sigs) (hs : sig ∈ sigs)
    (extent : Extent context sig.procedure) : extent.argumentBytes = 4 * sig.parameters.length := by
  rw [Extent.argumentBytes, (h.extent_eq hs extent).1, (h.fits sig hs).argumentBytes_eq h.built]

private theorem Declared.bytesBefore_eq (h : Declared context sigs) (hs : sig ∈ sigs)
    (extent : Extent context sig.procedure)
    {i : Nat} (hi : i ≤ sig.parameters.length) : extent.bytesBefore i = 4 * i := by
  have hlength : (sig.slots.take i).length = i := by
    rw [List.length_take, Signature.slots, List.length_map, Nat.min_eq_left hi]
  rw [Extent.bytesBefore, (h.extent_eq hs extent).1]
  refine (sum_map_bytes fun slot hm => (h.fits sig hs).slot_bytes h.built slot (List.mem_of_mem_take hm)).trans ?_
  rw [hlength]

theorem Declared.localBytes_eq (h : Declared context sigs) (hs : sig ∈ sigs) (extent : Extent context sig.procedure) :
    extent.localBytes = 4 * sig.localWords context.types := by
  rw [Extent.localBytes, (h.extent_eq hs extent).2.2, Signature.localEntries, List.map_map, Signature.localWords,
    ← List.sum_map_mul_left]
  rfl

private theorem Declared.depth_eq (h : Declared context sigs) (hs : sig ∈ sigs)
    (extent : Extent context sig.procedure) {i : Nat}
    {d : (LocalVariable × TypeId) × Nat} (hd : (sig.depths context.types)[i]? = some d) :
    extent.depth (i + 1) = 4 * d.2 := by
  rw [Signature.depthsFrom_get hd, Extent.depth, (h.extent_eq hs extent).2.2, Signature.localEntries, ← List.map_take,
    List.map_map, Nat.mul_zero, Nat.zero_add]
  rfl

/-- The area that is found for the calls of a procedure is as large as the largest call. -/
theorem Declared.largestCall_eq (h : Declared context sigs) {scopes : ScopeTree} {own : Signature → Keyed Name Entry}
    {entryOf : Signature → ProcedureEntry} (h' : Scoped scopes sigs own entryOf)
    (harea : ∀ other ∈ sigs, (entryOf other).argumentArea = some (UInt32.ofNat (4 * other.parameters.length)))
    (hbounded : ∀ other ∈ sigs, other.Bounded context.types) (hs : sig ∈ sigs) (extent : Extent context sig.procedure)
    {area : OutgoingArea} (hsized : SizedBy scopes sig.scope .noCalls area (allCallees sig.procedure.body))
    (hcovered : CallsCovered scopes sig.scope area (allCallees sig.procedure.body)) :
    area.bytes? = extent.largestCall := by
  have hlibrary : ∀ p ∈ library, p.argumentArea.toNat = 4 * p.byReference.length := by decide
  have hsame : ∀ name, (scopes.callee? sig.scope name).map (fun entry => entry.argumentArea.map UInt32.toNat) =
      (context.scopes.callee? sig.scope name).map fun entry => some (entry.argumentBytes context.types) := by
    refine h.scoped.callee?_map_eq h' _ _ ?_ ?_ hs
    · intro p hp
      rw [p.argumentBytes_eq h.built, ← hlibrary p hp]
      rfl
    · intro other ho
      have hlt := (hbounded other ho).parameters
      rw [harea other ho, (h.fits other ho).argumentBytes_eq h.built, Option.map_some,
        UInt32.toNat_ofNat_of_lt' (Nat.lt_trans hlt (by decide))]
  refine hsized.bytes?_eq hcovered ((List.map_congr_left fun name _ => hsame name).trans ?_)
  have hcalled := extent.called_map fun entry => some (entry.argumentBytes context.types)
  rw [(h.extent_eq hs extent).2.1] at hcalled
  rw [hcalled, List.map_map, List.map_map]
  rfl

/-- The exact size of a frame whose locals fit is that of its extent. -/
theorem Declared.exactSize_eq (h : Declared context sigs) (hs : sig ∈ sigs) (extent : Extent context sig.procedure)
    (hbounded : sig.Bounded context.types) {area : OutgoingArea} (harea : area.bytes? = extent.largestCall) :
    FrameLayout.exactSize (UInt32.ofNat (4 * sig.localWords context.types)) area = extent.frameBytes := by
  have hlocals : (UInt32.ofNat (4 * sig.localWords context.types)).toNat = extent.localBytes := by
    rw [h.localBytes_eq hs extent]
    exact UInt32.toNat_ofNat_of_lt' (Nat.lt_of_le_of_lt hbounded.locals (by decide))
  rw [FrameLayout.exactSize_eq, harea, hlocals]
  rfl

private theorem Extent.localBytes_lt {procedure : Procedure} (extent : Extent context procedure) :
    extent.localBytes < extent.frameBytes := by
  unfold Extent.frameBytes
  cases extent.largestCall with
  | none => exact Nat.lt_add_of_pos_right (by decide)
  | some bytes =>
    show extent.localBytes < extent.localBytes + bytes + 8
    omega

/-- A procedure for which frames are refused is too large. -/
theorem Declared.tooLarge_of_oversized (h : Declared context sigs) (hs : sig ∈ sigs)
    (ht : ∀ stmt ∈ sig.procedure.body, stmt.Typed (sig.around context)) (ho : sig.Oversized context sigs)
    (extent : Extent context sig.procedure) : extent.TooLarge := by
  rcases ho with hparameters | hlocals | ⟨hbounded, hnone⟩
  · left
    rw [h.argumentBytes_eq hs extent]
    omega
  · right
    have hlt := extent.localBytes_lt
    rw [h.localBytes_eq hs extent] at hlt
    omega
  · right
    have hcalls := h.scoped.callsSized h.placed hs ht
    obtain ⟨hcovered, hsized⟩ := Signature.outgoing_sized hcalls
    have harea := h.largestCall_eq h.placed (fun _ _ => rfl) hbounded hs extent hsized hcovered
    have hsize := h.exactSize_eq hs extent (hbounded sig hs) harea
    rw [Signature.frame?, FrameLayout.of?_eq_none_iff] at hnone
    have hle : 2^31 ≤ extent.frameBytes := hsize ▸ hnone
    omega

section
variable {placed : Context} {area : Signature → OutgoingArea}

/-- What is prepared is not too large, and exactly so much is stored. -/
theorem Declared.stored (h : Declared context sigs) (hprepared : Prepared placed sigs area)
    (htypes : placed.types = context.types) (hs : sig ∈ sigs) (extent : Extent context sig.procedure) :
    ¬ extent.TooLarge ∧ ∃ stored, extent.StoredIn placed.scopes stored := by
  have hbounded : ∀ other ∈ sigs, other.Bounded context.types := htypes ▸ hprepared.bounded
  have harea := h.largestCall_eq hprepared.seen (fun _ _ => rfl) hbounded hs extent (hprepared.sized sig hs)
    (hprepared.covered sig hs)
  obtain ⟨frame, hframe⟩ := Option.isSome_iff_exists.mp (hprepared.framed sig hs)
  rw [Signature.frame?, htypes] at hframe
  obtain ⟨hentry, hscope, -⟩ := h.extent_eq hs extent
  have hbound := hbounded sig hs
  have hsize := h.exactSize_eq hs extent hbound harea
  have hlt : extent.frameBytes < 2^31 := by
    rw [← hsize, ← Nat.not_le, ← FrameLayout.of?_eq_none_iff, hframe]
    exact Option.some_ne_none frame
  have harguments := h.argumentBytes_eq hs extent
  have hlocals := h.localBytes_eq hs extent
  refine ⟨?_, sig.framedEntry context.types area, ?_⟩
  · rintro (hlarge | hlarge)
    · have := hbound.parameters
      omega
    · omega
  obtain ⟨hexact, hpointer, haddress⟩ := FrameLayout.of?_exact hframe
  have hlocalArea : (UInt32.ofNat (4 * sig.localWords context.types)).toNat = extent.localBytes := by
    rw [hlocals]
    exact UInt32.toNat_ofNat_of_lt' (Nat.lt_of_le_of_lt hbound.locals (by decide))
  refine {
    entry := ?_
    parameters := ?_
    slots := ?_
    locals := ?_
    argumentArea := ?_
    localArea := congrArg some hlocalArea
    outgoing := congrArg some harea
    frame := ⟨frame, hframe, hexact.trans hsize, harea ▸ hpointer, harea ▸ hlocalArea ▸ haddress⟩ }
  · rw [hprepared.seen.procedure?_of_mem hs, htypes]
  · intro i parameter hi
    obtain ⟨type, hown⟩ := Signature.exists_parameter (h.fits sig hs) hi
    obtain ⟨hle, -⟩ := List.getElem?_eq_some_iff.mp hown
    rw [hscope, h.bytesBefore_eq hs extent (Nat.le_of_lt hle)]
    exact hprepared.parameter_offset hs hi
  · intro i hi
    rw [← (h.fits sig hs).parameters_eq, List.length_map] at hi
    have hslot : sig.placedSlots[i]? =
        some ⟨sig.parameters[i].2, sig.parameters[i].1.byReference, some (UInt32.ofNat (4 * i))⟩ := by
      rw [Signature.placedSlots, List.getElem?_map, List.getElem?_zipIdx, List.getElem?_eq_getElem hi, Nat.zero_add]
      rfl
    have hlimit := hbound.parameters
    rw [h.bytesBefore_eq hs extent (Nat.le_of_lt hi)]
    exact ⟨_, hslot, congrArg some (UInt32.toNat_ofNat_of_lt' (show 4 * i < 2^32 by omega))⟩
  · intro i declaration hi
    obtain ⟨type, depth, hdepth⟩ := Signature.exists_depth_get (h.fits sig hs) hi
    rw [hscope, h.depth_eq hs extent hdepth]
    exact hprepared.local_offset hs (htypes ▸ List.mem_of_getElem? hdepth)
  · rw [harguments]
    exact congrArg some (UInt32.toNat_ofNat_of_lt' (Nat.lt_trans hbound.parameters (by decide)))

end

/-- Frames are placed by the extents of the procedures. -/
structure Program.PlacesExactly (program : Program) (checked : Progress) : Prop where
  extents : ∀ procedure ∈ program.procedures, ∃ extent : Extent checked.context procedure, ∀ other, other = extent
  refuses_iff : (∃ d finish, program.place.run checked = .error d finish) ↔
    ∃ procedure ∈ program.procedures, ∃ extent : Extent checked.context procedure, extent.TooLarge
  names : ∀ d finish, program.place.run checked = .error d finish → ∃ procedure ∈ program.procedures,
    d.cause = .frameTooLarge procedure.name ∧ ∃ extent : Extent checked.context procedure, extent.TooLarge
  stored : ∀ frames placed, program.place.run checked = .ok frames placed → ∀ procedure ∈ program.procedures,
    ∀ extent : Extent checked.context procedure, ∃ stored, extent.StoredIn placed.context.scopes stored

/-- Sizes and offsets in frames are exact. Every procedure of a checked program has one extent. Frames are refused
exactly if the extent of some procedure is too large, with an error that names such a procedure. Otherwise all that
is stored for a procedure, and all that its frame is laid out by, are the numbers of its extent. -/
theorem Program.place_exact {program : Program} {declarations : DeclarationCount} {bodies : Nat}
    {declared checked : Progress} (hd : program.declare.run .initial = .ok declarations declared)
    (hc : program.check.run declared = .ok bodies checked) : program.PlacesExactly checked := by
  obtain ⟨sigs, hsigs, h⟩ := Program.declare_ok hd
  obtain ⟨h, htyped, -⟩ := h.check_ok hsigs hc
  have hextent : ∀ procedure ∈ program.procedures, ∃ extent : Extent checked.context procedure,
      ∀ other, other = extent := by
    rw [← hsigs, List.forall_mem_map]
    intro sig hs
    obtain ⟨extent⟩ := h.exists_extent hs (htyped sig hs)
    exact ⟨extent, extent.unique⟩
  have hrefused : ∀ d finish, program.place.run checked = .error d finish → ∃ procedure ∈ program.procedures,
      d.cause = .frameTooLarge procedure.name ∧ ∃ extent : Extent checked.context procedure, extent.TooLarge := by
    intro d finish hr
    obtain ⟨sig, hs, hcause, hoversized⟩ := h.place_refuses hsigs htyped hr
    obtain ⟨extent⟩ := h.exists_extent hs (htyped sig hs)
    exact ⟨sig.procedure, hsigs ▸ List.mem_map_of_mem hs, hcause, extent,
      h.tooLarge_of_oversized hs (htyped sig hs) hoversized extent⟩
  have hstored : ∀ frames placed, program.place.run checked = .ok frames placed → ∀ procedure ∈ program.procedures,
      ∀ extent : Extent checked.context procedure,
        ¬ extent.TooLarge ∧ ∃ stored, extent.StoredIn placed.context.scopes stored := by
    intro frames placed hr procedure hp extent
    obtain ⟨placements, areas, hplace, harea, hfinal⟩ := Program.place_ok hr
    rw [← hsigs] at hplace harea
    obtain ⟨area, hprepared⟩ := h.place_ok htyped hplace harea
    rw [← hfinal] at hprepared
    rw [← hsigs] at hp
    obtain ⟨sig, hs, rfl⟩ := List.mem_map.mp hp
    exact h.stored hprepared (by rw [hfinal]; rfl) hs extent
  refine ⟨hextent, ⟨?_, ?_⟩, hrefused, fun frames placed hr procedure hp extent => (hstored _ _ hr _ hp extent).2⟩
  · rintro ⟨d, finish, hr⟩
    obtain ⟨procedure, hp, _, extent, hlarge⟩ := hrefused d finish hr
    exact ⟨procedure, hp, extent, hlarge⟩
  · rintro ⟨procedure, hp, extent, hlarge⟩
    cases hr : program.place.run checked with
    | ok frames placed => exact absurd hlarge (hstored frames placed hr procedure hp extent).1
    | error d finish => exact ⟨d, finish, rfl⟩

end

/-- Two procedures with locals of 2^31 - 8 bytes; only in `main`, which makes a call, they leave too little room. -/
def roomForOneWord : Program where
  position := ⟨1, 1⟩
  declarations := [
    .type ⟨⟨1, 1⟩, "most", .array ⟨1, ⟨1, 13⟩⟩ 536870910 (.named ⟨0, ⟨1, 34⟩⟩ "int")⟩,
    .procedure ⟨⟨3, 1⟩, "leaf", [⟨⟨3, 11⟩, "i", .named ⟨2, ⟨3, 14⟩⟩ "int", false⟩],
      [⟨⟨4, 3⟩, "a", .named ⟨3, ⟨4, 10⟩⟩ "most"⟩], []⟩,
    .procedure ⟨⟨7, 1⟩, "main", [], [⟨⟨8, 3⟩, "a", .named ⟨4, ⟨8, 10⟩⟩ "most"⟩],
      [.call ⟨9, 3⟩ "leaf" [.literal ⟨5, ⟨9, 8⟩⟩ 1]]⟩]

theorem roomForOneWord_place_exact : ∃ declarations bodies declared checked,
    roomForOneWord.declare.run .initial = .ok declarations declared ∧
    roomForOneWord.check.run declared = .ok bodies checked ∧ roomForOneWord.PlacesExactly checked := by
  obtain ⟨declarations, bodies, declared, checked, hd, hc⟩ := @compile_checked_of_isOk roomForOneWord (by decide +kernel)
  exact ⟨declarations, bodies, declared, checked, hd, hc, Program.place_exact hd hc⟩

end SplLang

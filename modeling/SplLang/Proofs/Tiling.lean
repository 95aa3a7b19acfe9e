import SplLang.Proofs.Convention

/-! The bytes of a frame. What a procedure keeps in its frame fills it without gaps and without overlaps, and so
do its parameters fill the area of the arguments. -/
namespace SplLang

/-- Consecutive bytes, from the one with the given number on. -/
structure ByteRange where
  start : Int
  bytes : Nat
  deriving DecidableEq

namespace ByteRange

def Holds (range : ByteRange) (k : Int) : Prop := range.start ≤ k ∧ k < range.start + range.bytes

/-- The same bytes, counted from a base that lies so many bytes lower. -/
def above (range : ByteRange) (distance : Nat) : ByteRange := { range with start := range.start + distance }

private theorem holds_above {range : ByteRange} {distance : Nat} {k : Int} :
    (range.above distance).Holds k ↔ range.Holds (k - distance) := by
  unfold Holds above
  dsimp only
  omega

end ByteRange

/-- The ranges consist of the bytes from `low` up to `high`, each of them in one range, and start at words. -/
structure Tiles (low high : Int) (ranges : List ByteRange) : Prop where
  ordered : low ≤ high
  apart : ranges.Pairwise fun r r' => ∀ k, ¬ (r.Holds k ∧ r'.Holds k)
  covered : ∀ k, (∃ r ∈ ranges, r.Holds k) ↔ low ≤ k ∧ k < high
  aligned : ∀ r ∈ ranges, 4 ∣ r.start

namespace Tiles
variable {low middle high : Int} {ranges : List ByteRange} {r : ByteRange}

theorem nil (low : Int) : Tiles low low [] where
  ordered := Int.le_refl low
  apart := .nil
  covered k := by
    simp only [List.not_mem_nil, false_and, exists_false, false_iff]
    omega
  aligned := by simp

/-- One more range, none of whose bytes belong to the others. -/
private theorem cons {low' high' : Int} (h : Tiles low high ranges) (ho : low' ≤ high') (ha : 4 ∣ r.start)
    (hk : ∀ k, r.Holds k ∨ (low ≤ k ∧ k < high) ↔ low' ≤ k ∧ k < high')
    (hd : ∀ k, r.Holds k → ¬ (low ≤ k ∧ k < high)) : Tiles low' high' (r :: ranges) where
  ordered := ho
  apart := by
    refine List.pairwise_cons.mpr ⟨?_, h.apart⟩
    rintro other hm k ⟨hr, hother⟩
    exact hd k hr ((h.covered k).mp ⟨other, hm, hother⟩)
  covered k := by rw [← hk, ← h.covered, List.exists_mem_cons_iff]
  aligned := List.forall_mem_cons.mpr ⟨ha, h.aligned⟩

/-- One more range below the others. -/
theorem cons_below (h : Tiles (r.start + r.bytes) high ranges) (ha : 4 ∣ r.start) :
    Tiles r.start high (r :: ranges) := by
  have ho := h.ordered
  apply h.cons (by omega) ha
  all_goals
    intro k
    unfold ByteRange.Holds
    omega

/-- One more range above the others. -/
theorem cons_above (h : Tiles low r.start ranges) (ha : 4 ∣ r.start) :
    Tiles low (r.start + r.bytes) (r :: ranges) := by
  have ho := h.ordered
  apply h.cons (by omega) ha
  all_goals
    intro k
    unfold ByteRange.Holds
    omega

/-- The same ranges, counted from another base. -/
theorem above (h : Tiles low high ranges) {distance : Nat} (hd : 4 ∣ distance) :
    Tiles (low + distance) (high + distance) (ranges.map (·.above distance)) where
  ordered := Int.add_le_add_right h.ordered _
  apart := by
    refine List.pairwise_map.mpr (h.apart.imp ?_)
    rintro r r' hr k ⟨hk, hk'⟩
    exact hr _ ⟨ByteRange.holds_above.mp hk, ByteRange.holds_above.mp hk'⟩
  covered k := by
    simp only [List.mem_map, exists_exists_and_eq_and, ByteRange.holds_above, h.covered]
    omega
  aligned := by
    refine List.forall_mem_map.mpr fun r hr => ?_
    exact Int.dvd_add (h.aligned r hr) (Int.natCast_dvd_natCast.mpr hd)

end Tiles

/-- The parts of a frame in bytes from the new stack pointer: the outgoing arguments, the return address if it is
saved, the caller's frame pointer, and the locals, which are given in bytes from the frame pointer. -/
def FrameLayout.parts (frame : FrameLayout) (outgoing : Nat) (locals : List ByteRange) : List ByteRange :=
  ⟨0, outgoing⟩ ::
    (frame.savedReturnAddress.toList.map fun offset => (⟨offset.toInt, 4⟩ : ByteRange).above frame.size.toNat) ++
    ⟨frame.savedFramePointer.toNat, 4⟩ :: locals.map (·.above frame.size.toNat)

/-- The bytes from a variable's offset on, as many as its entry needs. -/
def ScopeTree.Occupies (scopes : ScopeTree) (scope : ScopeId) (size : VariableEntry → Nat) (name : Name)
    (range : ByteRange) : Prop :=
  ∃ entry offset, scopes.held? scope name = some (.var entry) ∧ entry.offset = some offset ∧
    range = ⟨offset.toInt, size entry⟩

/-- What a procedure's frame consists of, as the tables have it. Parameters and locals are in bytes from the
frame pointer. -/
structure FrameParts (context : Context) (procedure : Procedure) where
  entry : ProcedureEntry
  scope : ScopeId
  argumentArea : UInt32
  localArea : UInt32
  outgoing : OutgoingArea
  frame : FrameLayout
  parameters : List ByteRange
  locals : List ByteRange
  found : context.scopes.procedure? procedure.name = some entry
  own : entry.scope = some scope
  argumentBytes : entry.argumentArea = some argumentArea
  localBytes : entry.localArea = some localArea
  calls : entry.outgoing = some outgoing
  laid : FrameLayout.of? localArea outgoing = some frame
  parameterBytes : List.Forall₂ (fun declaration => context.scopes.Occupies scope (fun _ => 4) declaration.name)
    procedure.parameters parameters
  variableBytes : List.Forall₂ (fun declaration =>
    context.scopes.Occupies scope (fun entry => (context.types.byteSize entry.type).toNat) declaration.name)
    procedure.locals locals

/-- The frame has neither gaps nor overlaps, and neither has the area of the parameters. All parts start at words,
whichever pointer they are counted from. -/
structure FrameParts.Tiled {context : Context} {procedure : Procedure} (parts : FrameParts context procedure) :
    Prop where
  /-- From the new stack pointer up to the frame pointer. -/
  frame : Tiles 0 parts.frame.size.toNat (parts.frame.parts parts.outgoing.size.toNat parts.locals)
  /-- The return address has its part exactly if the body makes calls. -/
  linked : parts.frame.savedReturnAddress.isSome ↔ allCalls procedure.body ≠ []
  /-- From the frame pointer downwards. -/
  locals : Tiles (-parts.localArea.toNat) 0 parts.locals
  /-- From the frame pointer upwards. -/
  parameters : Tiles 0 parts.argumentArea.toNat parts.parameters
  size : 4 ∣ parts.frame.size.toNat
  returnAddress : ∀ offset, parts.frame.savedReturnAddress = some offset → 4 ∣ offset.toInt

namespace Signature
variable {types : TypeTable}

/-- The word of each parameter, from the frame pointer. -/
def parameterRanges (sig : Signature) : List ByteRange := sig.parameters.zipIdx.map fun p => ⟨(4 * p.2 : Nat), 4⟩

/-- The bytes of each local, from the frame pointer. -/
def localRanges (types : TypeTable) (sig : Signature) : List ByteRange :=
  (sig.depths types).map fun d => ⟨-(4 * d.2 : Nat), 4 * types.words d.1.2⟩

private theorem zipIdx_tiles (parameters : List (Parameter × TypeId)) (i : Nat) :
    Tiles (4 * i : Nat) (4 * (i + parameters.length) : Nat)
      ((parameters.zipIdx i).map fun p => ⟨(4 * p.2 : Nat), 4⟩) := by
  induction parameters generalizing i with
  | nil => exact .nil _
  | cons p parameters ih =>
    have hrest := ih (i + 1)
    rw [Nat.add_assoc, Nat.add_comm 1, show ((4 * (i + 1) : Nat) : Int) = (4 * i : Nat) + (4 : Nat) by omega] at hrest
    exact hrest.cons_below (r := ⟨_, 4⟩) (Int.natCast_dvd_natCast.mpr (Nat.dvd_mul_right 4 i))

private theorem parameterRanges_tiles (sig : Signature) :
    Tiles 0 (4 * sig.parameters.length : Nat) sig.parameterRanges := by
  have hall := zipIdx_tiles sig.parameters 0
  rwa [Nat.zero_add] at hall

/-- Each local lies right below the one before. -/
private theorem depthsFrom_tiles (types : TypeTable) (locals : List (LocalVariable × TypeId)) (below : Nat) :
    Tiles (-(4 * (below + (locals.map fun l => types.words l.2).sum) : Nat)) (-(4 * below : Nat))
      ((depthsFrom types below locals).map fun d => ⟨-(4 * d.2 : Nat), 4 * types.words d.1.2⟩) := by
  induction locals generalizing below with
  | nil => exact .nil _
  | cons l locals ih =>
    have hrest := ih (below + types.words l.2)
    rw [Nat.add_assoc] at hrest
    have habove := hrest.cons_above (r := ⟨_, 4 * types.words l.2⟩)
      (Int.dvd_neg.mpr (Int.natCast_dvd_natCast.mpr (Nat.dvd_mul_right 4 _)))
    rw [show -((4 * (below + types.words l.2) : Nat) : Int) + (4 * types.words l.2 : Nat) = -(4 * below : Nat) by omega]
      at habove
    exact habove

private theorem localRanges_tiles (sig : Signature) :
    Tiles (-(4 * sig.localWords types : Nat)) 0 (sig.localRanges types) := by
  have hall := depthsFrom_tiles types sig.locals 0
  rwa [Nat.zero_add] at hall

end Signature

/-- The parts of a frame fill it, if the locals fill their area and the outgoing arguments are whole words. -/
theorem FrameLayout.parts_tile {localArea : UInt32} {area : OutgoingArea} {frame : FrameLayout}
    (h : FrameLayout.of? localArea area = some frame) {locals : List ByteRange}
    (hl : Tiles (-localArea.toNat) 0 locals) (hlocal : 4 ∣ localArea.toNat) (harea : 4 ∣ area.size.toNat) :
    4 ∣ frame.size.toNat ∧ Tiles 0 frame.size.toNat (frame.parts area.size.toNat locals) := by
  obtain ⟨hsize, hpointer, haddress⟩ := FrameLayout.of?_exact h
  have hwords : 4 ∣ frame.size.toNat := by
    rw [hsize]
    cases area with
    | noCalls => exact Nat.dvd_add hlocal (Nat.dvd_refl 4)
    | bytes outgoing => exact Nat.dvd_add (Nat.dvd_add hlocal harea) (by decide)
  refine ⟨hwords, ?_⟩
  have hlocals := hl.above hwords
  rw [Int.zero_add] at hlocals
  unfold parts
  rw [hpointer]
  cases area with
  | noCalls =>
    rw [Option.map_eq_none_iff.mp haddress]
    have hfirst : -(localArea.toNat : Int) + frame.size.toNat = 0 + (4 : Nat) := by
      rw [hsize]
      show -(localArea.toNat : Int) + (localArea.toNat + 4 : Nat) = _
      omega
    rw [hfirst] at hlocals
    have hsaved := hlocals.cons_below (r := ⟨0, 4⟩) (Int.dvd_zero 4)
    exact Tiles.cons_below (r := ⟨0, 0⟩) hsaved (Int.dvd_zero 4)
  | bytes outgoing =>
    obtain ⟨offset, ho, hoffset⟩ := Option.map_eq_some_iff.mp haddress
    rw [ho]
    have hbytes : frame.size.toNat = localArea.toNat + outgoing.toNat + 8 := hsize
    have hoffset : offset.toInt = -(localArea.toNat + 8) := hoffset
    have hfirst : -(localArea.toNat : Int) + frame.size.toNat = (outgoing.toNat + 4 : Nat) + (4 : Nat) := by omega
    have hlink : offset.toInt + frame.size.toNat = outgoing.toNat := by omega
    have houtgoing : (4 : Int) ∣ outgoing.toNat := Int.natCast_dvd_natCast.mpr harea
    rw [hfirst] at hlocals
    have hsaved := hlocals.cons_below (r := ⟨(outgoing.toNat + 4 : Nat), 4⟩) (by dsimp only; omega)
    have hlinked := Tiles.cons_below (r := ⟨outgoing.toNat, 4⟩) hsaved houtgoing
    have hall := Tiles.cons_below (r := ⟨0, outgoing.toNat⟩) (by rwa [Int.zero_add]) (Int.dvd_zero 4)
    show Tiles 0 _ (_ :: ⟨offset.toInt + frame.size.toNat, 4⟩ :: _)
    rw [hlink]
    exact hall

section
variable {context : Context} {sigs : List Signature} {area : Signature → OutgoingArea} {sig : Signature}
  {program : Program}

private theorem Prepared.parameterRanges (h : Prepared context sigs area) (hs : sig ∈ sigs) :
    List.Forall₂ (fun declaration => context.scopes.Occupies sig.scope (fun _ => 4) declaration.name)
      sig.procedure.parameters sig.parameterRanges := by
  rw [← (h.fits sig hs).parameters_eq, ← Signature.map_zipIdx_fst _ _ 0, Signature.parameterRanges,
    List.forall₂_map_left_iff, List.forall₂_map_right_iff, List.forall₂_same]
  intro p hp
  have hget := List.mem_zipIdx_iff_getElem?.mp hp
  obtain ⟨hlt, -⟩ := List.getElem?_eq_some_iff.mp hget
  have hbound := (h.bounded sig hs).parameters
  have hoffset : (Signature.parameterOffset p.2).toInt = (4 * p.2 : Nat) :=
    Int32.toInt_ofInt_of_le (by omega) (by omega)
  refine ⟨_, _, h.held hs (Signature.parameter_placed hget), rfl, ?_⟩
  rw [hoffset]

private theorem Prepared.localRanges (h : Prepared context sigs area) (hs : sig ∈ sigs) :
    List.Forall₂ (fun declaration => context.scopes.Occupies sig.scope
        (fun entry => (context.types.byteSize entry.type).toNat) declaration.name)
      sig.procedure.locals (sig.localRanges context.types) := by
  rw [← (h.fits sig hs).locals_eq, ← Signature.map_depthsFrom_fst _ context.types 0, Signature.localRanges,
    List.forall₂_map_left_iff, List.forall₂_map_right_iff]
  refine List.forall₂_same.mpr fun d hd => ?_
  obtain ⟨-, hle⟩ := Signature.depth_bounds hd
  have hbound := (h.bounded sig hs).locals
  have hoffset : (Signature.localOffset d.2).toInt = -(4 * d.2 : Nat) :=
    Int32.toInt_ofInt_of_le (by omega) (by omega)
  refine ⟨_, _, h.held hs (Signature.local_placed hd), rfl, ?_⟩
  dsimp only
  rw [hoffset, h.built.byteSize_eq]

/-- Every frame is tiled. For each procedure the outgoing arguments, the saved return address, the saved frame
pointer and the locals are the bytes from the new stack pointer up to the frame pointer, each byte in one of
them; and the parameters are the bytes of the argument area in the same way. -/
theorem compile_frames_tiled {c : Compilation} (hc : (compile program .placed).1 = .ok c) {procedure : Procedure}
    (hp : procedure ∈ program.procedures) : ∃ parts : FrameParts c.context procedure, parts.Tiled := by
  obtain ⟨sigs, area, -, hsigs, h, -⟩ := compile_placed_prepared hc
  rw [← hsigs] at hp
  obtain ⟨sig, hs, rfl⟩ := List.mem_map.mp hp
  obtain ⟨frame, hframe⟩ := Option.isSome_iff_exists.mp (h.framed sig hs)
  let parts : FrameParts c.context sig.procedure := {
    entry := sig.framedEntry c.context.types area
    scope := sig.scope
    argumentArea := UInt32.ofNat (4 * sig.parameters.length)
    localArea := UInt32.ofNat (4 * sig.localWords c.context.types)
    outgoing := area sig
    frame := frame
    parameters := sig.parameterRanges
    locals := sig.localRanges c.context.types
    found := h.seen.procedure?_of_mem hs
    own := rfl
    argumentBytes := rfl
    localBytes := rfl
    calls := rfl
    laid := hframe
    parameterBytes := h.parameterRanges hs
    variableBytes := h.localRanges hs }
  have hbound := h.bounded sig hs
  have hlocalArea : parts.localArea.toNat = 4 * sig.localWords c.context.types :=
    UInt32.toNat_ofNat_of_lt' (Nat.lt_of_le_of_lt hbound.locals (by decide))
  have hargumentArea : parts.argumentArea.toNat = 4 * sig.parameters.length :=
    UInt32.toNat_ofNat_of_lt' (Nat.lt_trans hbound.parameters (by decide))
  have hlocals : Tiles (-parts.localArea.toNat) 0 parts.locals := by
    rw [hlocalArea]
    exact sig.localRanges_tiles
  obtain ⟨words, hwords⟩ := h.outgoing_words hs
  obtain ⟨hsize, htiles⟩ := FrameLayout.parts_tile hframe hlocals (Dvd.intro _ hlocalArea.symm)
    (Dvd.intro _ hwords.symm)
  obtain ⟨hsaved, -⟩ := FrameLayout.of?_eq_some hframe
  refine ⟨parts, htiles, by rw [hsaved, h.hasCalls_iff hs], hlocals, ?_, hsize, ?_⟩
  · rw [hargumentArea]
    exact sig.parameterRanges_tiles
  · intro offset ho
    -- Counted from the stack pointer it is a multiple of four, and so is the size of the frame.
    have hpart : (⟨offset.toInt, 4⟩ : ByteRange).above frame.size.toNat ∈
        frame.parts (area sig).size.toNat (sig.localRanges c.context.types) := by
      have ho : frame.savedReturnAddress = some offset := ho
      simp [FrameLayout.parts, ho]
    exact (Int.dvd_add_left (Int.natCast_dvd_natCast.mpr hsize)).mp (htiles.aligned _ hpart)

end

/-- A procedure with locals of several sizes, one of them without any bytes, that calls another one. -/
def severalLocals : Program where
  position := ⟨1, 1⟩
  declarations := [
    .procedure ⟨⟨1, 1⟩, "fill", [⟨⟨1, 11⟩, "a", .array ⟨0, ⟨1, 18⟩⟩ 3 (.named ⟨1, ⟨1, 31⟩⟩ "int"), true⟩,
      ⟨⟨1, 36⟩, "i", .named ⟨2, ⟨1, 39⟩⟩ "int", false⟩], [], []⟩,
    .procedure ⟨⟨2, 1⟩, "main", [],
      [⟨⟨3, 3⟩, "a", .array ⟨3, ⟨3, 10⟩⟩ 3 (.named ⟨4, ⟨3, 23⟩⟩ "int")⟩,
        ⟨⟨4, 3⟩, "none", .array ⟨5, ⟨4, 13⟩⟩ 0 (.named ⟨6, ⟨4, 26⟩⟩ "int")⟩,
        ⟨⟨5, 3⟩, "i", .named ⟨7, ⟨5, 10⟩⟩ "int"⟩],
      [.call ⟨6, 3⟩ "printi" [.literal ⟨8, ⟨6, 10⟩⟩ 1]]⟩]

theorem severalLocals_tiled : ∃ c, (compile severalLocals .placed).1 = .ok c ∧
    ∃ procedure ∈ severalLocals.procedures, procedure.name = "main" ∧
      ∃ parts : FrameParts c.context procedure, parts.Tiled := by
  obtain ⟨c, hc⟩ := exists_ok_of_isOk (show (compile severalLocals .placed).1.isOk by decide +kernel)
  exact ⟨c, hc, _, List.mem_cons_of_mem _ List.mem_cons_self, rfl,
    compile_frames_tiled hc (List.mem_cons_of_mem _ List.mem_cons_self)⟩

end SplLang

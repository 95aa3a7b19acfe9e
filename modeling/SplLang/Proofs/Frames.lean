import SplLang.Proofs.Arguments

/-! Frames in words of the stack, and the code that sets one up and takes it down again. -/
namespace SplLang
open Machine

section
variable {context : Context} {sigs : List Signature} {area : Signature → OutgoingArea} {sig : Signature}

private theorem slotted_zipIdx {α : Type} (kind : α → TypeId × Bool) (xs : List α) (k : Nat)
    (hv : ∀ x ∈ xs, (kind x).2 = false → (kind x).1 = TypeId.int) :
    Slotted k ((xs.zipIdx k).map fun p => ⟨(kind p.1).1, (kind p.1).2, some (UInt32.ofNat (4 * p.2))⟩) := by
  induction xs generalizing k with
  | nil => trivial
  | cons x xs ih =>
    obtain ⟨hx, hxs⟩ := List.forall_mem_cons.mp hv
    exact ⟨rfl, hx, ih (k + 1) hxs⟩

theorem LibraryProcedure.slots_eq (procedure : LibraryProcedure) :
    procedure.slots =
      procedure.byReference.zipIdx.map fun p => ⟨TypeId.int, p.1, some (UInt32.ofNat (4 * p.2))⟩ := by
  rw [slots, List.mapIdx_eq_zipIdx_map]
  apply List.map_congr_left
  rintro ⟨r, i⟩ -
  rw [UInt32.ofNat_mul, UInt32.mul_comm]
  rfl

/-- What a caller knows of the procedure that it calls. -/
structure ProcedureEntry.Callable (entry : ProcedureEntry) : Prop where
  slotted : Slotted 0 entry.parameters
  argumentArea : entry.argumentArea = some (UInt32.ofNat (4 * entry.parameters.length))
  fits : 4 * entry.parameters.length < 2^32

private theorem LibraryProcedure.callable {procedure : LibraryProcedure} (hp : procedure ∈ library) :
    procedure.entry.Callable where
  slotted := by
    show Slotted 0 procedure.slots
    rw [slots_eq]
    exact slotted_zipIdx (fun r => (TypeId.int, r)) _ 0 fun _ _ _ => rfl
  argumentArea := by
    show some procedure.argumentArea = some (UInt32.ofNat (4 * procedure.slots.length))
    rw [slots_eq, List.length_map, List.length_zipIdx, UInt32.ofNat_mul, UInt32.mul_comm]
    rfl
  fits := by
    show 4 * procedure.slots.length < 2^32
    rw [slots_eq, List.length_map, List.length_zipIdx]
    have hlength : ∀ p ∈ library, p.byReference.length ≤ 5 := by decide
    have hle := hlength procedure hp
    omega

theorem Prepared.callable (h : Prepared context sigs area) {name : Name} {entry : ProcedureEntry}
    (hg : GlobalProcedure sigs (Signature.framedEntry context.types area) name entry) : entry.Callable := by
  rcases hg with ⟨p, hp, _, rfl⟩ | ⟨sig, hs, _, rfl⟩
  · exact p.callable hp
  · have hbound := (h.bounded sig hs).parameters
    have hlength : (sig.framedEntry context.types area).parameters.length = sig.parameters.length := by
      show sig.placedSlots.length = _
      rw [Signature.placedSlots, List.length_map, List.length_zipIdx]
    refine ⟨?_, ?_, ?_⟩
    · exact slotted_zipIdx (fun p : Parameter × TypeId => (p.2, p.1.byReference)) _ 0
        fun p hp hv => ((h.fits sig hs).parameters p hp).2 hv
    · rw [hlength]
      rfl
    · omega

/-- The outgoing area consists of whole words. -/
theorem Prepared.outgoing_words (h : Prepared context sigs area) (hs : sig ∈ sigs) :
    ∃ words, (area sig).size.toNat = 4 * words := by
  rcases h.sized sig hs with he | ⟨callee, _, hsize⟩
  · exact ⟨0, by rw [he]; rfl⟩
  · obtain ⟨entry, he, ha⟩ := Option.bind_eq_some_iff.mp hsize
    have hcallable := h.callable ((h.seen.callee?_iff hs).mp he)
    rw [hcallable.argumentArea] at ha
    refine ⟨entry.parameters.length, ?_⟩
    rw [← Option.some.inj ha]
    exact UInt32.toNat_ofNat_of_lt' hcallable.fits

end

/-- From the stack pointer upwards a frame has words for outgoing arguments, the return address if
`linked`, the frame pointer and the locals. -/
structure FrameLayout.Spans (frame : FrameLayout) (outgoing linked locals : Nat) : Prop where
  size : frame.size = UInt32.ofNat (4 * (outgoing + linked + 1 + locals))
  framePointer : frame.savedFramePointer = UInt32.ofNat (4 * (outgoing + linked))
  returnAddress : linked = 0 ∧ frame.savedReturnAddress = none ∨
    linked = 1 ∧ frame.savedReturnAddress = some (Int32.ofInt (-(4 * (1 + 1 + locals) : Nat)))

/-- The frame of a procedure in words. -/
structure Signature.Framed (sig : Signature) (types : TypeTable) (area : OutgoingArea) (frame : FrameLayout)
    (outgoing linked : Nat) : Prop where
  spans : frame.Spans outgoing linked (sig.localWords types)
  arguments : 4 * outgoing = area.size.toNat
  size : FrameLayout.exactSize (UInt32.ofNat (4 * sig.localWords types)) area =
    4 * (outgoing + linked + 1 + sig.localWords types)
  leaf : linked = 0 → area = .noCalls

theorem Prepared.framing {context : Context} {sigs : List Signature} {area : Signature → OutgoingArea}
    {sig : Signature} (h : Prepared context sigs area) (hs : sig ∈ sigs) :
    ∃ frame outgoing linked, sig.frame? context.types area = some frame ∧
      sig.Framed context.types (area sig) frame outgoing linked := by
  obtain ⟨frame, hframe⟩ := Option.isSome_iff_exists.mp (h.framed sig hs)
  obtain ⟨words, hwords⟩ := h.outgoing_words hs
  have hlocals : (UInt32.ofNat (4 * sig.localWords context.types)).toNat = 4 * sig.localWords context.types := by
    have hbound := (h.bounded sig hs).locals
    exact UInt32.toNat_ofNat_of_lt' (Nat.lt_of_le_of_lt hbound (by decide))
  have hsome := hframe
  unfold Signature.frame? FrameLayout.of? at hsome
  cases ha : area sig with
  | noCalls =>
    rw [ha] at hsome hwords
    dsimp only at hsome
    have hexact : FrameLayout.exactSize (UInt32.ofNat (4 * sig.localWords context.types)) .noCalls =
        4 * (0 + 0 + 1 + sig.localWords context.types) := by
      rw [FrameLayout.exactSize, hlocals]
      omega
    rw [hexact] at hsome
    split at hsome
    · cases hsome
      exact ⟨_, 0, 0, hframe, ⟨rfl, rfl, .inl ⟨rfl, rfl⟩⟩, rfl, hexact, fun _ => rfl⟩
    · cases hsome
  | bytes size =>
    rw [ha] at hsome hwords
    dsimp only at hsome
    have hexact : FrameLayout.exactSize (UInt32.ofNat (4 * sig.localWords context.types)) (.bytes size) =
        4 * (words + 1 + 1 + sig.localWords context.types) := by
      rw [FrameLayout.exactSize, hlocals, show size.toNat = 4 * words from hwords]
      omega
    rw [hexact] at hsome
    split at hsome
    · cases hsome
      refine ⟨_, words, 1, hframe, ⟨rfl, ?_, .inr ⟨rfl, ?_⟩⟩, hwords.symm, hexact, by simp⟩
      · rw [show size.toNat = 4 * words from hwords]
        rfl
      · dsimp only
        rw [hlocals]
        congr 2
        omega
    · cases hsome

/-- A negative offset as it stands in an instruction. -/
theorem ofInt_neg_toInt (n : Nat) : BitVec.ofInt 32 (Int32.ofInt (-(n : Int))).toInt = -BitVec.ofNat 32 n := by
  show BitVec.ofInt 32 (BitVec.ofInt 32 (-(n : Int))).toInt = _
  rw [BitVec.ofInt_toInt, BitVec.ofInt_neg, BitVec.ofInt_natCast]

section
variable {World : Type} {target : Target World} {frame : FrameLayout} {outgoing linked locals n room : Nat}
  {s after : State World} {rest : Assembly}

/-- The state behind the code that sets up a frame whose lowest word is the one with the number
`room`. -/
structure Opening (target : Target World) (outgoing linked locals room : Nat) (s after : State World) :
    Prop where
  calls : after.calls = s.calls
  world : after.world = s.world
  stackPointer : after.get .stackPointer = target.slot room
  framePointer : after.get .framePointer = target.slot (room + (outgoing + linked + 1 + locals))
  returnAddress : after.get .returnAddress = s.get .returnAddress
  memory : ∀ a, (∀ k ≤ linked, a ≠ target.slot (room + (outgoing + k))) → after.memory a = s.memory a
  savedPointer : after.memory (target.slot (room + (outgoing + linked))) = s.get .framePointer
  savedAddress : linked = 1 → after.memory (target.slot (room + outgoing)) = s.get .returnAddress

/-- What the code that takes down a frame starts from, and what it has to restore. -/
structure Closing (target : Target World) (outgoing linked locals room : Nat) (pointer address : Word)
    (s : State World) : Prop where
  stackPointer : s.get .stackPointer = target.slot room
  framePointer : s.get .framePointer = target.slot (room + (outgoing + linked + 1 + locals))
  savedPointer : s.memory (target.slot (room + (outgoing + linked))) = pointer
  savedAddress : linked = 1 → s.memory (target.slot (room + outgoing)) = address
  returnAddress : linked = 0 → s.get .returnAddress = address

/-- The return address is saved above the outgoing arguments. -/
private theorem returnAddress_slot (h : s.get .framePointer = target.slot (room + (outgoing + 1 + 1 + locals))) :
    s.get .framePointer + BitVec.ofInt 32 (Int32.ofInt (-(4 * (1 + 1 + locals) : Nat))).toInt =
      target.slot (room + outgoing) := by
  have hsum : room + (outgoing + 1 + 1 + locals) = room + outgoing + (1 + 1 + locals) := by omega
  rw [h, ofInt_neg_toInt, ← BitVec.sub_eq_add_neg, hsum, Target.slot_sub]

section
variable (hf : frame.Spans outgoing linked locals) (hl : target.Loaded) (ha : Aligned target.stack)
include hf hl ha

/-- The first three instructions of a procedure move both pointers and save one. -/
private theorem pointers_reach (hat : target.CodeAt n (prologue frame)) (hpc : s.pc = target.codeAddress n)
    (hsp : s.get .stackPointer = target.slot (room + (outgoing + linked + 1 + locals))) :
    ∃ after, target.Reaches s after ∧ after.pc = target.codeAddress (n + 3) ∧
      after.calls = s.calls ∧ after.world = s.world ∧ after.get .stackPointer = target.slot room ∧
      after.get .framePointer = target.slot (room + (outgoing + linked + 1 + locals)) ∧
      after.get .returnAddress = s.get .returnAddress ∧
      after.memory = Function.update s.memory (target.slot (room + (outgoing + linked))) (s.get .framePointer) := by
  have hsub := hat.subConstant hl hpc
  rw [hf.size, BitVec.ofInt_natCast, ofNat_toNat, hsp, Target.slot_sub] at hsub
  have hmoved : (s.put .stackPointer (target.slot room)).get .stackPointer = target.slot room :=
    State.get_put (by decide)
  have hpointer : (s.put .stackPointer (target.slot room)).get .framePointer = s.get .framePointer :=
    State.get_put_of_ne (by decide)
  have haddress : (s.put .stackPointer (target.slot room)).get .stackPointer +
      BitVec.ofInt 32 frame.savedFramePointer.toNat = target.slot (room + (outgoing + linked)) := by
    rw [hmoved, hf.framePointer, BitVec.ofInt_natCast, ofNat_toNat, Target.slot_add]
  have hstore := hat.tail.store hl (Target.put_pc_eq hpc) (by rw [haddress]; exact Target.aligned_slot ha _)
  rw [haddress, hpointer] at hstore
  have hpc' : ((s.put .stackPointer (target.slot room)).store (target.slot (room + (outgoing + linked)))
      (s.get .framePointer)).pc = target.codeAddress (n + 1 + 1) := Target.store_pc_eq (Target.put_pc_eq hpc)
  have hadd := hat.tail.tail.addConstant hl hpc'
  rw [State.get_store, hmoved, hf.size, BitVec.ofInt_natCast, ofNat_toNat, Target.slot_add] at hadd
  refine ⟨_, (hsub.trans hstore).trans hadd, ?_, rfl, rfl, ?_, State.get_put (by decide), ?_, rfl⟩
  · exact Target.put_pc_eq hpc'
  · rw [State.get_put_of_ne (by decide), State.get_store, hmoved]
  · rw [State.get_put_of_ne (by decide), State.get_store, State.get_put_of_ne (by decide)]

theorem prologue_reaches (hat : target.CodeAt n (prologue frame)) (hpc : s.pc = target.codeAddress n)
    (hsp : s.get .stackPointer = target.slot (room + (outgoing + linked + 1 + locals)))
    (hfits : 4 * (room + (outgoing + linked + 1 + locals)) ≤ 2^32) :
    ∃ after, target.Reaches s after ∧ after.pc = target.codeAddress (n + Assembly.size (prologue frame)) ∧
      Opening target outgoing linked locals room s after := by
  obtain ⟨middle, hr, hpc', hcalls, hworld, hstack, hframe, hreturn, hm⟩ :=
    pointers_reach hf hl ha hat hpc hsp
  have htail := hat.tail.tail.tail
  rcases hf.returnAddress with ⟨rfl, hnone⟩ | ⟨rfl, hsome⟩
  · refine ⟨middle, hr, ?_, hcalls, hworld, hstack, hframe, hreturn, ?_, ?_, by simp⟩
    · rw [hpc', prologue, returnAddressLines, hnone]
      rfl
    · intro a hne
      rw [hm, Function.update_of_ne (hne 0 (Nat.le_refl 0))]
    · rw [hm, Function.update_self]
  · rw [returnAddressLines, hsome] at htail
    have haddress := returnAddress_slot hframe
    have hstore := htail.store hl hpc' (by rw [haddress]; exact Target.aligned_slot ha _)
    rw [haddress, hreturn] at hstore
    have hne : target.slot (room + (outgoing + 1)) ≠ target.slot (room + outgoing) := by
      intro he
      have hsame := Target.slot_inj (by omega) (by omega) he
      omega
    refine ⟨_, hr.trans hstore, ?_, hcalls, hworld, hstack, hframe, hreturn, ?_, ?_, ?_⟩
    · rw [Target.store_pc_eq hpc', prologue, returnAddressLines, hsome]
      rfl
    · intro a hfree
      have hfirst : a ≠ target.slot (room + outgoing) := hfree 0 (Nat.zero_le 1)
      rw [State.store_memory, Function.update_of_ne hfirst, hm, Function.update_of_ne (hfree 1 (Nat.le_refl 1))]
    · rw [State.store_memory, Function.update_of_ne hne, hm, Function.update_self]
    · intro _
      rw [State.store_memory, Function.update_self]

private theorem returnAddress_reaches {pointer address : Word}
    (hat : target.CodeAt n (returnAddressLines frame .ldw ++ rest)) (hpc : s.pc = target.codeAddress n)
    (hs : Closing target outgoing linked locals room pointer address s) :
    ∃ after, target.Reaches s after ∧
      after.pc = target.codeAddress (n + Assembly.size (returnAddressLines frame .ldw)) ∧
      after.get .returnAddress = address ∧ after.get .stackPointer = s.get .stackPointer ∧
      after.memory = s.memory ∧ after.calls = s.calls ∧ after.world = s.world := by
  rcases hf.returnAddress with ⟨rfl, hnone⟩ | ⟨rfl, hsome⟩
  · refine ⟨s, .refl s, ?_, hs.returnAddress rfl, rfl, rfl, rfl, rfl⟩
    rw [hpc, returnAddressLines, hnone]
    rfl
  · rw [returnAddressLines, hsome] at hat
    have haddress := returnAddress_slot hs.framePointer
    have hload := hat.load hl hpc (by rw [haddress]; exact Target.aligned_slot ha _)
    rw [haddress, hs.savedAddress rfl] at hload
    refine ⟨_, hload, ?_, State.get_put (by decide), State.get_put_of_ne (by decide), rfl, rfl, rfl⟩
    rw [Target.put_pc_eq hpc, returnAddressLines, hsome]
    rfl

theorem epilogue_reaches {pointer address : Word} (hat : target.CodeAt n (epilogue frame))
    (hpc : s.pc = target.codeAddress n)
    (hs : Closing target outgoing linked locals room pointer address s) :
    ∃ after, target.Reaches s after ∧ after.pc = address ∧
      after.get .stackPointer = target.slot (room + (outgoing + linked + 1 + locals)) ∧
      after.get .framePointer = pointer ∧ after.memory = s.memory ∧ after.calls = s.calls ∧
      after.world = s.world := by
  obtain ⟨middle, hr, hpc', hreturn, hstack, hm, hcalls, hworld⟩ := returnAddress_reaches hf hl ha hat hpc hs
  have htail := hat.right
  have haddress : middle.get .stackPointer + BitVec.ofInt 32 frame.savedFramePointer.toNat =
      target.slot (room + (outgoing + linked)) := by
    rw [hstack, hs.stackPointer, hf.framePointer, BitVec.ofInt_natCast, ofNat_toNat, Target.slot_add]
  have hload := htail.load hl hpc' (by rw [haddress]; exact Target.aligned_slot ha _)
  rw [haddress, hm, hs.savedPointer] at hload
  have hmoved : (middle.put .framePointer pointer).get .stackPointer = target.slot room := by
    rw [State.get_put_of_ne (by decide), hstack, hs.stackPointer]
  have hloaded : (middle.put .framePointer pointer).pc = _ := Target.put_pc_eq hpc'
  have hadd := htail.tail.addConstant hl hloaded
  rw [hmoved, hf.size, BitVec.ofInt_natCast, ofNat_toNat, Target.slot_add] at hadd
  obtain ⟨last, hlast⟩ : ∃ last, last = (middle.put .framePointer pointer).put .stackPointer
    (target.slot (room + (outgoing + linked + 1 + locals))) := ⟨_, rfl⟩
  have hrestored : last.pc = _ := hlast ▸ Target.put_pc_eq hloaded
  rw [← hlast] at hadd
  have hjump := htail.tail.tail.return hl hrestored
  have hsp : last.get .stackPointer = target.slot (room + (outgoing + linked + 1 + locals)) := by
    rw [hlast, State.get_put (by decide)]
  have hfp : last.get .framePointer = pointer := by
    rw [hlast, State.get_put_of_ne (by decide), State.get_put (by decide)]
  have hra : last.get .returnAddress = address := by
    rw [hlast, State.get_put_of_ne (by decide), State.get_put_of_ne (by decide), hreturn]
  refine ⟨_, ((hr.trans hload).trans hadd).trans hjump, hra, hsp, hfp, ?_, ?_, ?_⟩
  · rw [hlast]
    exact hm
  · rw [hlast]
    exact hcalls
  · rw [hlast]
    exact hworld

end
end
end SplLang

import SplLang.Proofs.Calls

/-! Compiled code does what its program means. Whatever a run of a procedure comes to, the machine
comes to from the procedure's label. -/
namespace SplLang
open Machine

section
variable {World : Type} {target : Target World} {context : Context} {supply : LabelSupply}

/-- How many words of stack an activation of the procedure takes. -/
def Context.frameWords (context : Context) (name : Name) : Nat :=
  match context.scopes.procedure? name with
  | some ⟨_, _, _, some localArea, some outgoing⟩ => FrameLayout.exactSize localArea outgoing / 4
  | _ => 0

/-- What a compiled program means, for a given meaning of the library. -/
def Compilation.source (c : Compilation) (program : Program) (library : LibraryMeaning World) : Source World where
  context := c.context
  procedures := program.procedures
  library
  frameWords := c.context.frameWords

/-- The target has loaded the program: all addresses fit into a word, the stack is made of whole
words, and the library is there. -/
structure Machine.Target.Carries (target : Target World) (code : Assembly) (meaning : LibraryMeaning World) :
    Prop where
  assembly : target.assembly = code
  fits : 4 * Assembly.size code ≤ 2^32
  aligned : Aligned target.stack
  serves : target.Serves meaning

/-- A procedure is started with arguments above the stack pointer: the machine is at its label.
References lead to places of the caller. -/
structure Machine.Target.Starts (target : Target World) (context : Context) (name : Name)
    (places : Places target) (arguments : List Argument) (room : Nat) (s : Machine.State World) : Prop where
  pc : s.pc = target.address (.named name)
  stackPointer : s.get .stackPointer = target.slot room
  passed : ∃ entry, context.scopes.procedure? name = some entry ∧
    places.Passed context.types s.memory room entry.parameterKinds arguments
  fits : room + arguments.length ≤ places.limit
  recent : places.next ≤ s.calls

section
variable {program : Program} {c : Compilation} {assembly : Assembly} {meaning : LibraryMeaning World}
  {sigs : List Signature} {area : Signature → OutgoingArea}

private theorem Prepared.frameWords_eq (h : Prepared context sigs area) {sig : Signature} (hs : sig ∈ sigs) :
    4 * context.frameWords sig.procedure.name =
      FrameLayout.exactSize (UInt32.ofNat (4 * sig.localWords context.types)) (area sig) := by
  obtain ⟨frame, outgoing, linked, -, hf⟩ := h.framing hs
  have hwords : context.frameWords sig.procedure.name =
      FrameLayout.exactSize (UInt32.ofNat (4 * sig.localWords context.types)) (area sig) / 4 := by
    rw [Context.frameWords, h.seen.procedure?_of_mem hs]
    rfl
  rw [hwords, hf.size]
  omega

/-- Code defines no names but those of its procedures. -/
theorem Program.named_not_mem_labels (hcode : (program.code context).Gives supply assembly) {name : Name}
    (hne : ∀ p ∈ program.procedures, p.name ≠ name) : .named name ∉ Assembly.labels assembly := by
  rw [(Program.code_labels hcode).mem_iff, List.mem_append, not_or]
  constructor
  · intro hl
    obtain ⟨own, ho, he⟩ := List.mem_map.mp hl
    exact hne own ho (Label.named.inj he)
  · intro hl
    obtain ⟨n, he, -⟩ := exists_of_mem_drawn hl
    cases he

/-- What a compilation has generated, a target that carries it runs. -/
theorem Prepared.linked {found : List Finding} (hp : Prepared c.context sigs area)
    (hr : Recorded c.context sigs found) (hsigs : sigs.map (·.procedure) = program.procedures)
    (hn : program.nodeIds.Nodup) (hcode : (program.code c.context).Gives supply assembly)
    (ht : target.Carries assembly meaning) : Linked target (c.source program meaning) sigs area := by
  have hnames : (program.procedures.map (·.name)).Nodup := by
    rw [← hsigs, List.map_map]
    exact hp.seen.names
  refine ⟨⟨?_, ?_⟩, ht.aligned, hp, fun sig hs => hr.noted hp hsigs hn hs, hsigs.symm, ?_,
    fun sig hs => hp.frameWords_eq hs, ht.serves, ?_⟩
  · rw [ht.assembly]
    exact ht.fits
  · rw [ht.assembly]
    exact Program.code_labels_nodup hcode hnames
  · intro sig hs
    have hmem : sig.procedure ∈ program.procedures := hsigs ▸ List.mem_map_of_mem hs
    obtain ⟨scope, frame, labels, labels', inner, before, after, hf, hi, rfl⟩ := Program.code_split hcode hmem
    obtain ⟨entry, localArea, outgoing, hentry, hscope, hlocal, hout, hframe, -⟩ := Procedure.frame_shape hf
    rw [hp.seen.procedure?_of_mem hs] at hentry
    cases hentry
    cases hscope
    cases hlocal
    cases hout
    exact ⟨frame, labels, labels', inner, _, hframe, hi, before, after, ht.assembly, rfl⟩
  · intro procedure hm
    apply Target.address_of_not_mem
    rw [ht.assembly]
    apply Program.named_not_mem_labels hcode
    intro own ho
    rw [← hsigs] at ho
    obtain ⟨sig, hs, rfl⟩ := List.mem_map.mp ho
    exact (hp.seen.ne_library hs hm).symm

/-- There is a store for every start of a procedure. -/
theorem Places.exists_store (places : Places target) (context : Context) (name : Name) {s : State World}
    (hrecent : places.next ≤ s.calls) :
    ∃ store, places.Stores store s.memory ∧ Leftover target context name s store := by
  obtain ⟨store, hleft, hsame⟩ := exists_leftover target context name s
    fun cell => ((places.place? cell).map s.memory).getD 0
  refine ⟨store, ?_, hleft⟩
  intro cell a hc
  have hpast := places.past hc
  rw [hsame cell (by omega), hc]
  rfl

/-- Compilation preserves what programs mean. From the label of a procedure the machine comes back with
the caller's variables as the source run leaves them, whenever that run ends, and gets to the routine for
subscripts out of bounds whenever that run finds one. The variables of new activations hold whatever
the memory holds. -/
theorem compile_preserves (hn : program.nodeIds.Nodup) (hc : (compile program .generated).1 = .ok c)
    (ha : c.assembly = some assembly) (hindex : ∀ p ∈ program.procedures, p.name ≠ "_indexError")
    (ht : target.Carries assembly meaning) {procedure : Procedure} (hp : procedure ∈ program.procedures)
    {places : Places target} {arguments : List Argument} {room : Nat} {s : State World}
    (hs : target.Starts c.context procedure.name places arguments room s) :
    (∃ store, places.Stores store s.memory ∧ Leftover target c.context procedure.name s store) ∧
    ∀ store, places.Stores store s.memory → Leftover target c.context procedure.name s store → ∀ fuel,
      (∀ src, (c.source program meaning).run fuel procedure.name arguments room ⟨store, s.calls, s.world⟩ = .ok src →
        ∃ after, target.Reaches s after ∧ after.pc = s.get .returnAddress ∧
          after.get .stackPointer = s.get .stackPointer ∧ after.get .framePointer = s.get .framePointer ∧
          after.world = src.world ∧ places.Stores src.store after.memory) ∧
      ((c.source program meaning).run fuel procedure.name arguments room ⟨store, s.calls, s.world⟩ =
          .error .subscript →
        ∃ after, target.Reaches s after ∧ after.pc = target.outside "_indexError") := by
  refine ⟨places.exists_store c.context procedure.name hs.recent, ?_⟩
  intro store hstores hleft fuel
  obtain ⟨sigs, area, found, supply, hsigs, hprepared, hrecorded, hcode⟩ := compile_prepared hc ha
  have hlinked := hprepared.linked hrecorded hsigs hn hcode ht
  have hmem := hp
  rw [← hsigs] at hmem
  obtain ⟨sig, hsig, rfl⟩ := List.mem_map.mp hmem
  obtain ⟨entry, hentry, hpassed⟩ := hs.passed
  rw [hprepared.seen.procedure?_of_mem hsig] at hentry
  cases hentry
  rw [Signature.framedEntry_kinds] at hpassed
  have hfits := hs.fits
  rw [hpassed.length, Signature.parameterKinds, List.length_map] at hfits
  have hentering : Entering places c.context.types store sig arguments room ⟨store, s.calls, s.world⟩ s :=
    ⟨hs.pc, hs.stackPointer, ⟨rfl, rfl, hs.recent, fun _ _ => rfl, hstores⟩, hpassed, hfits,
      hleft.primed hprepared hsig .start⟩
  have hfollows := run_follows hlinked hleft fuel sig hsig hentering (.refl s)
  constructor
  · intro src hrun
    rw [hrun] at hfollows
    obtain ⟨after, hr, hret⟩ := hfollows
    exact ⟨after, hr, hret.pc, hret.stackPointer, hret.framePointer, hret.holds.world, hret.holds.stored⟩
  · intro hrun
    rw [hrun] at hfollows
    obtain ⟨after, hr, hpc⟩ := hfollows
    refine ⟨after, hr, hpc.trans (Target.address_of_not_mem ?_)⟩
    rw [ht.assembly]
    exact Program.named_not_mem_labels hcode hindex

end
end

/-- A procedure that adds to its reference parameter and prints it. -/
def raisedPrinted : Program where
  position := ⟨1, 1⟩
  declarations := [
    .procedure {
      position := ⟨1, 1⟩
      name := "raise"
      parameters := [⟨⟨1, 12⟩, "i", .named ⟨0, ⟨1, 19⟩⟩ "int", true⟩]
      locals := []
      body := [
        .assign ⟨2, 3⟩ (.named ⟨1, ⟨2, 3⟩⟩ "i")
          (.binary ⟨2, ⟨2, 10⟩⟩ (.arithmetic .add) (.load ⟨3, ⟨2, 8⟩⟩ (.named ⟨4, ⟨2, 8⟩⟩ "i"))
            (.literal ⟨5, ⟨2, 12⟩⟩ 41)),
        .call ⟨3, 3⟩ "printi" [.load ⟨6, ⟨3, 10⟩⟩ (.named ⟨7, ⟨3, 10⟩⟩ "i")]] },
    .procedure { position := ⟨5, 1⟩, name := "main", parameters := [], locals := [], body := [] }]

def raisedCompiled : Compilation :=
  match (compile raisedPrinted .generated).1 with
  | .ok c => c
  | .error _ => ⟨.initial, none, .generated⟩

def raisedCode : Assembly := raisedCompiled.assembly.getD []

/-- A library in which `printi` prints its argument, and nothing else returns. -/
def printing : LibraryMeaning (List Word) := fun name words output =>
  if name = "printi" then words.head?.map fun word => ([word], output ++ [word]) else none

/-- A target with such a library behind the code. -/
def printingTarget : Target (List Word) where
  assembly := raisedCode
  origin := 0x1000
  outside name := 0x8000 + BitVec.ofNat 32 (4 * library.findIdx (·.name = name))
  service s :=
    if s.pc = 0x8000 then
      some { s with pc := s.get .returnAddress, world := s.world ++ [s.memory (s.get .stackPointer)] }
    else none
  stack := 0

private theorem printingTarget_serves : printingTarget.Serves printing where
  outside := by decide
  serves := by
    intro procedure hp top s words world harrival hmeaning
    unfold printing at hmeaning
    split at hmeaning
    · next hname =>
      have hkinds : procedure.byReference = [false] :=
        (by decide : ∀ p ∈ library, p.name = "printi" → p.byReference = [false]) procedure hp hname
      rw [hkinds, argumentWords, argumentWords] at hmeaning
      cases hmeaning
      have hpc : s.pc = 0x8000 := by
        rw [harrival.pc, hname]
        rfl
      refine ⟨_, if_pos hpc, rfl, rfl, rfl, ?_, ?_⟩
      · show s.world ++ [s.memory (s.get .stackPointer)] = _
        rw [harrival.stackPointer]
        rfl
      · intro a _
        rw [hkinds]
        rfl
    · cases hmeaning

/-- The caller sees one variable, at the address 2000. -/
def callerPlaces : Places printingTarget where
  place? cell := if cell = ⟨0, "x", 0⟩ then some 0x2000 else none
  limit := 16
  next := 1
  fits := by decide
  injective := by
    intro cell other a hc ho
    split at hc <;> split at ho <;> simp_all
  aligned := by
    intro cell a hc
    split at hc <;> cases hc
    decide
  apart := by
    intro cell a k hc hk
    split at hc <;> cases hc
    exact (by decide : ∀ k < 16, (0x2000 : Word) ≠ printingTarget.slot k) k hk
  past := by
    intro cell a hc
    split at hc
    · next he => exact he ▸ Nat.one_pos
    · cases hc

/-- The procedure is called for that variable. -/
def raiseCalled : State (List Word) where
  pc := printingTarget.address (.named "raise")
  registers r := if r = 29 then 48 else if r = 31 then 0x4000 else 0
  memory a := if a = 48 then 0x2000 else if a = 0x2000 then 1 else 0
  calls := 1
  world := []

private theorem raiseCalled_starts :
    printingTarget.Starts raisedCompiled.context "raise" callerPlaces [.reference ⟨0, "x", 0⟩] 12 raiseCalled where
  pc := rfl
  stackPointer := by decide
  passed := by
    refine ⟨_, rfl, ⟨rfl, ?_⟩, trivial⟩
    intro k hk
    obtain rfl : k = 0 := Nat.lt_one_iff.mp hk
    rfl
  fits := by decide
  recent := by decide

/-- The machine adds 41 to the caller's variable, prints it and comes back. -/
theorem raisedPrinted_preserved :
    raisedPrinted.nodeIds.Nodup ∧ (compile raisedPrinted .generated).1 = .ok raisedCompiled ∧
    ∃ after, printingTarget.Reaches raiseCalled after ∧ after.pc = 0x4000 ∧
      after.memory 0x2000 = 42 ∧ after.world = [42] := by
  have hcarries : printingTarget.Carries raisedCode printing := ⟨rfl, by decide, by decide, printingTarget_serves⟩
  have hcompiled : (compile raisedPrinted .generated).1 = .ok raisedCompiled := rfl
  obtain ⟨⟨store, hstores, hleft⟩, hruns⟩ := compile_preserves (by decide) hcompiled rfl (by decide) hcarries
    List.mem_cons_self raiseCalled_starts
  have hx : store ⟨0, "x", 0⟩ = 1 := (hstores ⟨0, "x", 0⟩ 0x2000 rfl).symm
  have hrun : (raisedCompiled.source raisedPrinted printing).run 4 "raise" [.reference ⟨0, "x", 0⟩] 12
      ⟨store, raiseCalled.calls, raiseCalled.world⟩ =
        .ok ⟨Function.update store ⟨0, "x", 0⟩ (store ⟨0, "x", 0⟩ + 41), 2,
          [Function.update store ⟨0, "x", 0⟩ (store ⟨0, "x", 0⟩ + 41) ⟨0, "x", 0⟩]⟩ := rfl
  obtain ⟨after, hr, hpc, -, -, hworld, hafter⟩ := (hruns store hstores hleft 4).1 _ hrun
  refine ⟨by decide, hcompiled, after, hr, hpc, ?_, ?_⟩
  · rw [hafter ⟨0, "x", 0⟩ 0x2000 rfl]
    dsimp only
    rw [Function.update_self, hx]
    rfl
  · rw [hworld]
    dsimp only
    rw [Function.update_self, hx]
    rfl

end SplLang

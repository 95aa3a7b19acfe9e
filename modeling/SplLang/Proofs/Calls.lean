import SplLang.Proofs.Leftover
import SplLang.Proofs.Stages
import SplLang.Proofs.Statements

/-! The machine follows the procedures that a body calls, and so all of its statements. A procedure
finds its arguments above the stack pointer and sets up its frame below it. -/
namespace SplLang
open Machine

section
variable {World : Type} {target : Target World} {source : Source World} {sigs : List Signature}
  {area : Signature → OutgoingArea} {garbage : Store} {first : Name} {start : State World}

theorem Leftover.primed {context : Context} (h : Leftover target context first start garbage)
    (hp : Prepared context sigs area) {sig : Signature} (hs : sig ∈ sigs) {s : State World}
    (hb : target.Begins first start sig.procedure.name s) : sig.Primed context.types garbage s := by
  intro d hd k hk
  obtain ⟨hplaced, -⟩ := hp.placed hs (Signature.local_placed hd)
  exact (h _ s hb sig.scope (hp.seen.scope_iff.mpr ⟨sig, hs, rfl, rfl⟩) _ _ _ hplaced k).symm

private theorem Linked.find? (hk : Linked target source sigs area) {sig : Signature} (hs : sig ∈ sigs) :
    source.procedures.find? (·.name = sig.procedure.name) = some sig.procedure := by
  rw [hk.procedures, List.find?_map]
  have hfound : sigs.find? (fun other => decide (other.procedure.name = sig.procedure.name)) = some sig := by
    obtain ⟨other, ho⟩ := Option.isSome_iff_exists.mp
      (List.find?_isSome.mpr ⟨sig, hs, decide_eq_true rfl⟩ :
        (sigs.find? fun other => decide (other.procedure.name = sig.procedure.name)).isSome)
    have hname : other.procedure.name = sig.procedure.name := by
      simpa using List.find?_some ho
    rw [ho, hk.prepared.seen.eq_of_name (List.mem_of_find?_eq_some ho) hs hname]
  exact congrArg (Option.map _) hfound

/-- A procedure with a leaf frame calls nothing. -/
theorem Signature.Framed.no_calls {context : Context} {sig : Signature} {frame : FrameLayout}
    {outgoing linked : Nat} {size : OutgoingArea} (hf : sig.Framed context.types size frame outgoing linked)
    (hzero : linked = 0) {callees : List Name} (hc : CallsCovered context.scopes sig.scope size callees) :
    callees = [] := by
  rw [hf.leaf hzero] at hc
  refine List.eq_nil_iff_forall_not_mem.mpr fun callee hm => ?_
  obtain ⟨_, _, hcalls, _⟩ := hc callee hm
  cases hcalls

/-- The procedure that is entered, with its own variables in the frame. -/
def Places.Fresh.site {places : Places target} {types : TypeTable} {sig : Signature}
    {activation bottom limit : Nat} (h : places.Fresh types sig activation bottom limit)
    (arguments : List Argument) (room : Nat) : Site target where
  sig := sig
  cells := parameterCells activation sig.procedure.parameters arguments ++
    sig.procedure.locals.map fun declaration => (declaration.name, ⟨activation, declaration.name, 0⟩)
  places := h.entered
  framePointer := target.slot (bottom + sig.localWords types)
  room := room

section
variable {sig : Signature} {places : Places target} {arguments : List Argument} {room : Nat}
  {src : Source.State World} {s after : State World} {outgoing linked : Nat}

/-- A frame finds room under the arguments of the call. -/
theorem Entering.fresh (ha : Aligned target.stack)
    (he : Entering places source.context.types garbage sig arguments
      (room + (outgoing + linked + 1 + sig.localWords source.context.types)) src s) :
    places.Fresh source.context.types sig src.calls (room + outgoing + linked + 1) (room + outgoing) where
  aligned := ha
  unused := he.holds.recent
  room := by
    have hfits := he.fits
    omega
  under := by omega

/-- Behind the code that sets up the frame the body runs. -/
theorem Entering.running (hk : Linked target source sigs area) (hs : sig ∈ sigs)
    (he : Entering places source.context.types garbage sig arguments
      (room + (outgoing + linked + 1 + sig.localWords source.context.types)) src s)
    (ho : Opening target outgoing linked (sig.localWords source.context.types) room s after) :
    ((he.fresh hk.aligned).site arguments room).Running source.context garbage
      { src with store := copyValues src.calls sig.procedure.parameters arguments src.store } after := by
  have hfresh := he.fresh hk.aligned
  have hfits := he.fits
  have hlimit := places.fits
  have hsum : room + (outgoing + linked + 1 + sig.localWords source.context.types) =
      room + outgoing + linked + 1 + sig.localWords source.context.types := by omega
  have hpassed : places.Passed source.context.types after.memory
      (room + outgoing + linked + 1 + sig.localWords source.context.types) sig.parameterKinds arguments := by
    have hbefore := he.passed
    rw [hsum] at hbefore
    refine hbefore.congr fun i hi hlt => ho.memory _ fun k hk' heq => ?_
    rw [Signature.parameterKinds, List.length_map] at hlt
    have hsame := places.slot_inj (by omega) (by omega) heq
    omega
  have hwritten : ∀ a, (∀ k, room + outgoing ≤ k → k < room + outgoing + linked + 1 → a ≠ target.slot k) →
      after.memory a = s.memory a := by
    intro a hne
    refine ho.memory a fun k hk' => hne _ (by omega) (by omega)
  have hprimed : Places.Primed target source.context.types sig src.calls (room + outgoing + linked + 1)
      src.store s.memory := by
    intro d hd k hk'
    obtain ⟨-, hle⟩ := Signature.depth_bounds hd
    have hword := he.primed d hd k hk'
    have htop : room + outgoing + linked + 1 + sig.localWords source.context.types =
        room + outgoing + linked + 1 + (sig.localWords source.context.types - d.2) + d.2 := by omega
    rw [he.stackPointer, hsum, htop, Target.local_slot, Target.slot_add, Nat.add_assoc (_ + 1)] at hword
    rw [hword, he.holds.calls]
    exact (he.holds.fresh _ (Nat.le_refl _)).symm
  have hbefore := he.passed
  rw [hsum] at hbefore
  refine ⟨?_, ho.stackPointer, ⟨?_, ?_, Nat.le_refl _, ?_, ?_⟩, ?_⟩
  · rw [ho.framePointer, hsum]
    rfl
  · exact ho.calls.trans he.holds.calls
  · exact ho.world.trans he.holds.world
  · intro cell hc
    have hc' : src.calls + 1 ≤ cell.activation := hc
    rw [← he.holds.fresh cell (by omega)]
    refine copyValues_of_ne fun p _ hcell => ?_
    rw [hcell] at hc'
    exact absurd hc' (Nat.not_succ_le_self _)
  · exact hfresh.stores hk.prepared hs hbefore he.holds.stored hprimed hwritten
  · exact hfresh.binds hk.prepared hs hpassed

/-- What the frame saves is still there when the body has run. -/
theorem Entering.closing (hk : Linked target source sigs area)
    (he : Entering places source.context.types garbage sig arguments
      (room + (outgoing + linked + 1 + sig.localWords source.context.types)) src s)
    (ho : Opening target outgoing linked (sig.localWords source.context.types) room s after)
    {callees : List Name} (hnone : linked = 0 → callees = []) {n : Nat} {src' : Source.State World}
    {last : State World}
    (hr : ((he.fresh hk.aligned).site arguments room).Ran source.context garbage callees n after src' last) :
    Closing target outgoing linked (sig.localWords source.context.types) room (s.get .framePointer)
      (s.get .returnAddress) last := by
  have hfresh := he.fresh hk.aligned
  have hsum : room + (outgoing + linked + 1 + sig.localWords source.context.types) =
      room + outgoing + linked + 1 + sig.localWords source.context.types := by omega
  refine ⟨hr.running.stackPointer, ?_, ?_, ?_, ?_⟩
  · rw [hsum]
    exact hr.running.framePointer
  · rw [hr.kept _ (hfresh.kept_saved (by omega) (by omega)), ho.savedPointer]
  · intro hlinked
    rw [hr.kept _ (hfresh.kept_saved (by omega) (by omega)), ho.savedAddress hlinked]
  · intro hzero
    rw [hr.returnAddress (hnone hzero), ho.returnAddress]

/-- Back from the procedure, the variables of the caller are as the source has them. -/
theorem Entering.returned (hk : Linked target source sigs area)
    (he : Entering places source.context.types garbage sig arguments
      (room + (outgoing + linked + 1 + sig.localWords source.context.types)) src s)
    (ho : Opening target outgoing linked (sig.localWords source.context.types) room s after)
    {callees : List Name} {n : Nat} {src' : Source.State World} {last final : State World}
    (hr : ((he.fresh hk.aligned).site arguments room).Ran source.context garbage callees n after src' last)
    (hpc : final.pc = s.get .returnAddress) (hsp : final.get .stackPointer = s.get .stackPointer)
    (hfp : final.get .framePointer = s.get .framePointer) (hm : final.memory = last.memory)
    (hcalls : final.calls = last.calls) (hworld : final.world = last.world) :
    places.Returned garbage s src' final where
  pc := hpc
  stackPointer := hsp
  framePointer := hfp
  holds := by
    have hfresh := he.fresh hk.aligned
    have hrecent : src.calls + 1 ≤ src'.calls + 1 := hr.running.holds.recent
    have hbefore := he.holds.recent
    refine ⟨hcalls.trans hr.running.holds.calls, hworld.trans hr.running.holds.world, by omega,
      hr.running.holds.fresh, ?_⟩
    intro cell a hc
    have hpast := places.past hc
    rw [hm]
    exact hr.running.holds.stored cell a ((hfresh.place?_of_ne (by omega)).trans hc)
  kept a ha := by
    have hfits := he.fits
    rw [hm, hr.kept a ((he.fresh hk.aligned).kept ha)]
    exact ho.memory a fun k hk' => ha.above _ (by omega)

end

/-- The machine follows a procedure, if it follows the statements of bodies. -/
theorem enter_follows (hk : Linked target source sigs area) {fuel : Nat}
    (hexec : Executes target source.context sigs area garbage start (source.exec fuel)) :
    Enters target source.context sigs garbage start (source.enter (source.exec fuel)) := by
  intro sig hs places arguments top src s he hreach
  have hl := hk.loaded
  rw [Source.enter, hk.find? hs, hk.prepared.seen.scope_iff.mpr ⟨sig, hs, rfl, rfl⟩]
  dsimp only
  split
  -- The source has found as many free words as the frame takes, so the frame ends above address zero.
  · next hroom =>
    obtain ⟨frame, labels, labels', inner, n, hframe, hg, hat⟩ := hk.coded sig hs
    obtain ⟨frame', outgoing, linked, hframe', hf⟩ := hk.prepared.framing hs
    rw [hframe] at hframe'
    cases hframe'
    have hwords : source.frameWords sig.procedure.name =
        outgoing + linked + 1 + sig.localWords source.context.types := by
      have hsize := (hk.frameWords sig hs).trans hf.size
      omega
    obtain ⟨room, rfl⟩ := Nat.exists_eq_add_of_le' hroom
    rw [Nat.add_sub_cancel]
    rw [hwords] at he
    have hlimit := places.fits
    have hfits := he.fits
    have hentry := hat.tail
    rw [Assembly.size_label, Assembly.size_nil, Nat.add_zero] at hentry
    obtain ⟨after, hr, hpc, ho⟩ := prologue_reaches hf.spans hl hk.aligned hentry.left.left
      (he.pc.trans (hat.address hl)) he.stackPointer (by omega)
    have hcovered := hk.prepared.covered sig hs
    have hcoded : ((he.fresh hk.aligned).site arguments room).Coded source.context area
        (.block sig.procedure.position sig.procedure.body) (n + Assembly.size (prologue frame)) inner := by
      refine ⟨.block (hk.prepared.typed sig hs), hk.noted sig hs, hcovered, ⟨labels, labels', ?_⟩, hentry.left.right⟩
      rw [Stmt.code]
      exact hg
    have hbelow : ((he.fresh hk.aligned).site arguments room).Fits area := by
      show 4 * room + (area sig).size.toNat ≤ 4 * (room + outgoing)
      have harguments := hf.arguments
      omega
    have hbody := hexec _ hs hbelow hcoded (he.running hk hs ho) hpc (hreach.trans hr)
    refine .behind hr (hbody.further fun src' last _ hran => ?_)
    have hclosing := he.closing hk ho (fun hzero => hf.no_calls hzero hcovered) hran
    have hback := hentry.right
    rw [Assembly.size_append, ← Nat.add_assoc] at hback
    obtain ⟨final, hrf, hpcf, hspf, hfpf, hmf, hcf, hwf⟩ :=
      epilogue_reaches hf.spans hl hk.aligned hback hran.pc hclosing
    exact ⟨final, hrf, he.returned hk ho hran hpcf (hspf.trans he.stackPointer.symm) hfpf hmf hcf hwf⟩
  · trivial

private theorem LibraryProcedure.entry_kinds (procedure : LibraryProcedure) :
    procedure.entry.parameterKinds = intKinds procedure.byReference := by
  show procedure.slots.map (fun slot => (slot.type, slot.byReference)) = intKinds procedure.byReference
  rw [LibraryProcedure.slots_eq, List.map_map]
  exact Signature.map_zipIdx_fst (fun r : Bool => (TypeId.int, r)) _ _

/-- The machine follows whatever procedure of the library is called. -/
theorem library_follows (hk : Linked target source sigs area) {procedure : LibraryProcedure}
    (hp : procedure ∈ library) {places : Places target} {arguments : List Argument} {room : Nat}
    {src : Source.State World} {s : State World}
    (hpc : s.pc = target.address (.named procedure.name)) (hsp : s.get .stackPointer = target.slot room)
    (hh : places.Holds garbage src.calls src s)
    (hpassed : places.Passed source.context.types s.memory room (intKinds procedure.byReference) arguments)
    (hfits : room + procedure.byReference.length ≤ places.limit) :
    target.Follows s (source.callLibrary procedure.name arguments src) (places.Returned garbage s) := by
  have hb := hk.prepared.built
  rw [hk.outside procedure hp] at hpc
  have hwords := argumentWords_eq hb hpassed hh.stored
  have harrival : target.Arrival procedure room s := by
    refine ⟨hpc, hsp, ?_, ?_⟩
    · have hlimit := places.fits
      omega
    · intro a ha
      obtain ⟨cell, hc⟩ := references_placed hb hpassed ha
      exact ⟨places.aligned hc, fun k hlt => places.apart hc (by omega)⟩
  rw [Source.callLibrary]
  split
  · next words world hmeaning =>
    rw [← hwords, ← hh.world] at hmeaning
    obtain ⟨after, hservice, hpc', hsp', hfp', hworld, hm⟩ :=
      hk.serves.serves procedure hp room s words world harrival hmeaning
    have hstep : target.step? s = some { after with calls := s.calls } := by
      have hfetch : target.fetch? s.pc = none := hpc ▸ hk.serves.outside procedure hp
      rw [Target.step?, hfetch, hservice]
      rfl
    refine ⟨{ after with calls := s.calls }, Relation.ReflTransGen.single hstep,
      hpc', hsp', hfp', ⟨hh.calls, hworld, Nat.le_succ_of_le hh.recent, ?_, ?_⟩, ?_⟩
    · intro cell hc
      have hc' : src.calls + 1 ≤ cell.activation := hc
      have hrecent := hh.recent
      rw [← hh.fresh cell (by omega)]
      exact putResults_of_past hb hpassed (by omega)
    · exact (putWords_stores hb hpassed hh.stored).congr
        fun cell a hc => hm a fun k hlt => places.apart hc (by omega)
    · intro a ha
      have hfree : some a ∉ references s.memory (target.slot room) procedure.byReference := by
        intro hreference
        obtain ⟨cell, hc⟩ := references_placed hb hpassed hreference
        exact ha.free cell hc
      exact (hm a fun k hlt => ha.above k (by omega)).trans (putWords_of_not_mem hfree)
  · trivial

section
variable {site : Site target} {n : Nat} {src src' : Source.State World} {s middle after : State World} {a : Word}

/-- The states belong together when the arguments are stored and the call is made. -/
theorem Site.Running.called (hr : site.Running source.context garbage src s)
    (hw : site.places.Wrote site.room s middle) :
    site.places.Holds garbage (src.calls + 1) { src with calls := src.calls + 1 } (middle.call a) where
  calls := congrArg (· + 1) (hw.calls.trans hr.holds.calls)
  world := hw.world.trans hr.holds.world
  recent := hr.holds.recent
  fresh := hr.holds.fresh
  stored := hw.stores hr.holds.stored

/-- Behind a call the body runs on. -/
theorem Site.Running.ran_of_returned (hr : site.Running source.context garbage src s)
    (hw : site.places.Wrote site.room s middle) (hpc : middle.pc = target.codeAddress n)
    (hret : site.places.Returned garbage (middle.call a) src' after) (callee : Name) :
    site.Ran source.context garbage [callee] (n + 1) s src' after := by
  have hkept : ∀ b, site.places.Kept b → after.memory b = s.memory b := by
    intro b hb
    rw [hret.kept b hb]
    exact hw.kept hb
  refine ⟨?_, ⟨?_, ?_, hret.holds, hr.binds.congr hkept⟩, hkept, by simp⟩
  · rw [hret.pc, State.call_returnAddress, hpc, Target.codeAddress_succ]
  · rw [hret.framePointer, State.get_call (by decide), hw.get (by decide), hr.framePointer]
  · rw [hret.stackPointer, State.get_call (by decide), hw.get (by decide), hr.stackPointer]

end

/-- What is known of a call in a body: the words that it stores lie under the limit of the places. -/
theorem Site.Coded.call (hk : Linked target source sigs area) {site : Site target} {n : Nat} {found : Assembly}
    {position : Position} {callee : Name} {arguments : List Expr} (hs : site.sig ∈ sigs) (hfits : site.Fits area)
    (hc : site.Coded source.context area (.call position callee arguments) n found) :
    ∃ entry rest, source.context.scopes.callee? site.sig.scope callee = some entry ∧
      GlobalProcedure sigs (Signature.framedEntry source.context.types area) callee entry ∧
      (argumentsCode (site.sig.body source.context) callee entry.parameters arguments).Gives () rest ∧
      found = rest ++ [instr .jal [Label.named callee]] ∧ Slotted 0 entry.parameters ∧
      List.Forall₂ (Expr.FitsParameter (site.sig.body source.context).around) arguments entry.parameterKinds ∧
      site.room + entry.parameterKinds.length ≤ site.places.limit := by
  obtain ⟨labels, labels', hg⟩ := hc.code
  obtain ⟨entry, rest, -, he, hga, hfound⟩ := Stmt.call_shape hg
  have he' : source.context.scopes.callee? site.sig.scope callee = some entry := he
  have hglobal := (hk.prepared.seen.callee?_iff hs).mp he'
  have hcallable := hk.prepared.callable hglobal
  obtain ⟨size, hsize, -, hle⟩ := hc.covered callee (List.mem_singleton_self callee)
  rw [he', Option.bind_some, hcallable.argumentArea] at hsize
  cases hsize
  have hle' := UInt32.le_iff_toNat_le.mp hle
  rw [UInt32.toNat_ofNat_of_lt' hcallable.fits] at hle'
  have hunder : 4 * site.room + (area site.sig).size.toNat ≤ 4 * site.places.limit := hfits
  refine ⟨entry, rest, he', hglobal, hga, hfound, hcallable.slotted, hc.typed.arguments_fit he', ?_⟩
  rw [ProcedureEntry.parameterKinds, List.length_map]
  omega

/-- The machine follows a call, if it follows the procedures of the program. -/
theorem call_follows {fuel : Nat} {site : Site target} {n : Nat} {found : Assembly}
    {src : Source.State World} {s : State World} {position : Position} {callee : Name} {arguments : List Expr}
    (hk : Linked target source sigs area) (hleft : Leftover target source.context first start garbage)
    (henters : Enters target source.context sigs garbage start (source.enter (source.exec fuel)))
    (hr : site.Running source.context garbage src s) (hpc : s.pc = target.codeAddress n)
    (hs : site.sig ∈ sigs) (hfits : site.Fits area) (hreach : target.Reaches start s)
    (hc : site.Coded source.context area (.call position callee arguments) n found) :
    target.Follows s
      (source.exec (fuel + 1) (site.act source.context) site.room (.call position callee arguments) src)
      (site.Ran source.context garbage (Stmt.call position callee arguments).callees
        (n + Assembly.size found) s) := by
  have hl := hk.loaded
  have hat := hc.located
  obtain ⟨entry, rest, he, hglobal, hga, rfl, hslotted, hfit, hroom⟩ := hc.call hk hs hfits
  have hsize : n + Assembly.size (rest ++ [instr .jal [Label.named callee]]) = n + Assembly.size rest + 1 := by
    simp only [Assembly.size_append, Assembly.size_instr, Assembly.size_nil, Nat.zero_add, Nat.add_assoc]
  have hslots : site.room + 0 + entry.parameters.length ≤ site.places.limit := by
    rw [ProcedureEntry.parameterKinds, List.length_map] at hroom
    exact hroom
  rw [Source.exec, hsize, show (site.act source.context).around.scopes.callee?
    (site.act source.context).around.scope callee = some entry from he]
  refine (arguments_follow hl hk.prepared.built entry.parameters arguments hslotted hfit hc.noted hga hat.left hpc
    hr.ready hr.stackPointer hk.aligned hslots).bind ?_
  rintro passed middle hr' ⟨hpc', hwrote, hpassed⟩
  rw [Nat.add_zero] at hwrote hpassed
  have hkinds : site.places.Passed source.context.types middle.memory site.room entry.parameterKinds passed := hpassed
  obtain ⟨hfetch, hstep⟩ := hat.right.call hl hpc'
  have hholds := hr.called (a := target.address (.named callee)) hwrote
  have hsp : (middle.call (target.address (.named callee))).get .stackPointer = target.slot site.room := by
    rw [State.get_call (by decide), hwrote.get (by decide), hr.stackPointer]
  refine .behind (Relation.ReflTransGen.single hstep) ?_
  have hback : ∀ src' after, site.places.Returned garbage (middle.call (target.address (.named callee))) src' after →
      site.Ran source.context garbage [callee] (n + Assembly.size rest + 1) s src' after :=
    fun src' after hret => hr.ran_of_returned hwrote hpc' hret callee
  refine Target.Follows.mono ?_ hback
  rcases hglobal with ⟨procedure, hp, rfl, rfl⟩ | ⟨sig, hsig, rfl, rfl⟩
  · rw [LibraryProcedure.entry_kinds] at hkinds hroom
    rw [intKinds, List.length_map] at hroom
    exact library_follows hk hp rfl hsp hholds hkinds hroom
  · rw [Signature.framedEntry_kinds] at hkinds hroom
    rw [Signature.parameterKinds, List.length_map] at hroom
    rw [hk.prepared.seen.scope sig hsig]
    have hprimed := hleft.primed hk.prepared hsig (.call (hreach.trans hr') hfetch hstep)
    exact henters sig hsig ⟨rfl, hsp, hholds, hkinds, hroom, hprimed⟩
      (hreach.trans (hr'.trans (Relation.ReflTransGen.single hstep)))

/-- The machine follows every statement, whatever it calls. -/
theorem exec_follows (hk : Linked target source sigs area)
    (hleft : Leftover target source.context first start garbage) (fuel : Nat) :
    Executes target source.context sigs area garbage start (source.exec fuel) := by
  induction fuel with
  | zero =>
    intro site _ _ stmt n found src s _ _ _ _
    rw [Source.exec]
    trivial
  -- Every part of a statement runs on less fuel, and so does the procedure that it calls: `ih` serves both.
  | succ fuel ih =>
    intro site hs hfits stmt n found src s hc hr hpc hreach
    cases stmt with
    | assign position v e => exact assign_follows hk hr hpc hc
    | ifThen position condition thenPart => exact ifThen_follows hk hr hpc hs hfits hreach ih hc
    | ifElse position condition thenPart elsePart => exact ifElse_follows hk hr hpc hs hfits hreach ih hc
    | whileDo position condition loopBody => exact whileDo_follows hk hr hpc hs hfits hreach ih hc
    | call position callee arguments =>
      exact call_follows hk hleft (enter_follows hk ih) hr hpc hs hfits hreach hc
    | block position stmts => exact block_follows hk hr hpc hs hfits hreach ih hc
    | empty position =>
      have hat := hc.located
      obtain ⟨labels, labels', hg⟩ := hc.code
      rw [Stmt.code] at hg
      obtain ⟨-, rfl⟩ := Trail.gives_pure.mp hg
      rw [Source.exec]
      exact .ok (.refl s) (hr.ran (.refl 0 s) hpc)

/-- The machine follows every run of a procedure. -/
theorem run_follows (hk : Linked target source sigs area)
    (hleft : Leftover target source.context first start garbage) (fuel : Nat) :
    Enters target source.context sigs garbage start (source.run fuel) :=
  enter_follows hk (exec_follows hk hleft fuel)

end
end SplLang

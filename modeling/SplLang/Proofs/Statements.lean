import SplLang.Proofs.Service

/-! The machine follows the statements of a body, if it follows the procedures that they call. -/
namespace SplLang
open Machine

section
variable {World : Type}

/-- The program stands in the target as it was generated, and what it calls is there. -/
structure Linked (target : Target World) (source : Source World) (sigs : List Signature)
    (area : Signature → OutgoingArea) : Prop where
  loaded : target.Loaded
  aligned : Aligned target.stack
  prepared : Prepared source.context sigs area
  noted : ∀ sig ∈ sigs,
    NotedIn source.context (sig.around source.context) (allSubscripts sig.procedure.body)
  procedures : source.procedures = sigs.map (·.procedure)
  coded : ∀ sig ∈ sigs, ∃ frame labels labels' inner n,
    sig.frame? source.context.types area = some frame ∧
      (codeAll (sig.body source.context) labels sig.procedure.body).Gives labels' inner ∧
      target.CodeAt n (.label (.named sig.procedure.name) :: (prologue frame ++ inner ++ epilogue frame))
  frameWords : ∀ sig ∈ sigs, 4 * source.frameWords sig.procedure.name =
    FrameLayout.exactSize (UInt32.ofNat (4 * sig.localWords source.context.types)) (area sig)
  serves : target.Serves source.library
  outside : ∀ procedure ∈ library, target.address (.named procedure.name) = target.outside procedure.name

/-- The machine is back from a call, with the memory as the source has it. -/
structure Places.Returned {target : Target World} (places : Places target) (garbage : Store) (s : State World)
    (src : Source.State World) (after : State World) : Prop where
  pc : after.pc = s.get .returnAddress
  stackPointer : after.get .stackPointer = s.get .stackPointer
  framePointer : after.get .framePointer = s.get .framePointer
  holds : places.Holds garbage (src.calls + 1) src after
  kept : ∀ a, places.Kept a → after.memory a = s.memory a

/-- The locals of a procedure that is called hold what the store has for them. -/
def Signature.Primed (sig : Signature) (types : TypeTable) (garbage : Store) (s : State World) : Prop :=
  ∀ d ∈ sig.depths types, ∀ k < types.words d.1.2,
    s.memory (s.get .stackPointer + (localOffset d.2).toBitVec + BitVec.ofNat 32 (4 * k)) =
      garbage ⟨s.calls, d.1.1.name, k⟩

/-- A procedure is called: the machine is at its first instruction. -/
structure Entering {target : Target World} (places : Places target) (types : TypeTable) (garbage : Store)
    (sig : Signature) (arguments : List Argument) (room : Nat) (src : Source.State World) (s : State World) :
    Prop where
  pc : s.pc = target.address (.named sig.procedure.name)
  stackPointer : s.get .stackPointer = target.slot room
  holds : places.Holds garbage src.calls src s
  passed : places.Passed types s.memory room sig.parameterKinds arguments
  fits : room + sig.parameters.length ≤ places.limit
  primed : sig.Primed types garbage s

/-- What stays as it is while the body of an activation runs. -/
structure Site (target : Target World) where
  sig : Signature
  cells : Keyed Name Cell
  places : Places target
  framePointer : Word
  /-- How many words of the stack are left. -/
  room : Nat

namespace Site
variable {target : Target World} (site : Site target) (context : Context)

abbrev act : Activation := ⟨(site.sig.body context).around, site.cells⟩

/-- The outgoing arguments lie under the limit of the places. -/
def Fits (area : Signature → OutgoingArea) : Prop :=
  4 * site.room + (area site.sig).size.toNat ≤ 4 * site.places.limit

/-- The machine runs the body of the activation. -/
structure Running (garbage : Store) (src : Source.State World) (s : State World) : Prop where
  framePointer : s.get .framePointer = site.framePointer
  stackPointer : s.get .stackPointer = target.slot site.room
  holds : site.places.Holds garbage (src.calls + 1) src s
  binds : site.places.Binds (site.sig.body context) site.cells site.framePointer s.memory

/-- The machine has run a statement to the end of its code. -/
structure Ran (garbage : Store) (callees : List Name) (n : Nat) (s : State World) (src : Source.State World)
    (after : State World) : Prop where
  pc : after.pc = target.codeAddress n
  running : site.Running context garbage src after
  kept : ∀ a, site.places.Kept a → after.memory a = s.memory a
  returnAddress : callees = [] → after.get .returnAddress = s.get .returnAddress

/-- The statement belongs to the body, and its code stands behind n instructions. -/
structure Coded (area : Signature → OutgoingArea) (stmt : Stmt) (n : Nat) (found : Assembly) : Prop where
  typed : stmt.Typed (site.sig.body context).around
  noted : NotedIn context (site.sig.body context).around stmt.subscripts
  covered : CallsCovered context.scopes site.sig.scope (area site.sig) stmt.callees
  code : ∃ labels labels', (stmt.code (site.sig.body context) labels).Gives labels' found
  located : target.CodeAt n found

variable {site} {context} {garbage : Store} {src src' : Source.State World} {s after last : State World}
  {stmt : Stmt} {n m : Nat}

theorem Running.ready (h : site.Running context garbage src s) :
    site.places.Ready (site.sig.body context) site.cells src.store s := by
  refine ⟨?_, h.holds.stored⟩
  rw [h.framePointer]
  exact h.binds

/-- Evaluation does not disturb a body that runs. -/
theorem Running.scratched {low : Nat} (h : site.Running context garbage src s) (hs : s.Scratched low after) :
    site.Running context garbage src after where
  framePointer := (hs.get (.inr (Nat.le_succ 24))).trans h.framePointer
  stackPointer := (hs.get (.inr (by decide))).trans h.stackPointer
  holds := by
    refine ⟨hs.calls.trans h.holds.calls, hs.world.trans h.holds.world, h.holds.recent, h.holds.fresh, ?_⟩
    rw [hs.memory]
    exact h.holds.stored
  binds := by
    rw [hs.memory]
    exact h.binds

/-- Evaluation is a run that calls nothing. -/
theorem Running.ran {low : Nat} (h : site.Running context garbage src s) (hs : s.Scratched low after)
    (hpc : after.pc = target.codeAddress n) : site.Ran context garbage [] n s src after where
  pc := hpc
  running := h.scratched hs
  kept a _ := by rw [hs.memory]
  returnAddress _ := hs.get (.inr (by decide))

/-- Storing in a variable. -/
theorem Running.assign (h : site.Running context garbage src s) {cell : Cell} {a w : Word}
    (hc : site.places.place? cell = some a) :
    site.Running context garbage { src with store := Function.update src.store cell w } (s.store a w) where
  framePointer := h.framePointer
  stackPointer := h.stackPointer
  holds := by
    refine ⟨h.holds.calls, h.holds.world, h.holds.recent, ?_, h.holds.stored.update hc⟩
    intro other ho
    have hpast := site.places.past hc
    have hrecent := h.holds.recent
    have hne : other ≠ cell := by
      rintro rfl
      dsimp only at ho
      omega
    rw [← h.holds.fresh other ho]
    exact Function.update_of_ne hne _ _
  binds := by
    apply h.binds.congr
    intro b hb
    have hne : b ≠ a := by
      rintro rfl
      exact hb.free cell hc
    rw [State.store_memory, Function.update_of_ne hne]

/-- Running one statement behind another. -/
theorem Ran.trans {first rest : List Name} (h : site.Ran context garbage first m s src after)
    (h' : site.Ran context garbage rest n after src' last) :
    site.Ran context garbage (first ++ rest) n s src' last where
  pc := h'.pc
  running := h'.running
  kept a ha := (h'.kept a ha).trans (h.kept a ha)
  returnAddress hw := by
    obtain ⟨hfirst, hrest⟩ := List.append_eq_nil_iff.mp hw
    exact (h'.returnAddress hrest).trans (h.returnAddress hfirst)

/-- The return address is kept if none of the calls was made. -/
theorem Ran.of_nil {callees others : List Name} (h : site.Ran context garbage callees n s src after)
    (hc : others = [] → callees = []) : site.Ran context garbage others n s src after :=
  ⟨h.pc, h.running, h.kept, fun ho => h.returnAddress (hc ho)⟩

theorem Ran.skip {callees : List Name} (h : site.Ran context garbage [] n s src after) :
    site.Ran context garbage callees n s src after := h.of_nil fun _ => rfl

end Site

/-- The machine follows whatever statement of a body is executed. -/
def Executes (target : Target World) (context : Context) (sigs : List Signature)
    (area : Signature → OutgoingArea) (garbage : Store) (start : State World)
    (exec : Activation → Nat → Stmt → Source.State World → Except Fault (Source.State World)) : Prop :=
  ∀ site : Site target, site.sig ∈ sigs → site.Fits area → ∀ {stmt n found src s},
    site.Coded context area stmt n found → site.Running context garbage src s →
      s.pc = target.codeAddress n → target.Reaches start s →
        target.Follows s (exec (site.act context) site.room stmt src)
          (site.Ran context garbage stmt.callees (n + Assembly.size found) s)

/-- The machine follows whatever procedure of the program is called. -/
def Enters (target : Target World) (context : Context) (sigs : List Signature) (garbage : Store)
    (start : State World)
    (enter : Name → List Argument → Nat → Source.State World → Except Fault (Source.State World)) : Prop :=
  ∀ sig ∈ sigs, ∀ {places : Places target} {arguments room src s},
    Entering places context.types garbage sig arguments room src s → target.Reaches start s →
      target.Follows s (enter sig.procedure.name arguments room src) (places.Returned garbage s)

section
variable {target : Target World} {source : Source World} {sigs : List Signature}
  {area : Signature → OutgoingArea} {garbage : Store} {start : State World} {fuel : Nat} {site : Site target}
  {n : Nat} {found : Assembly} {src : Source.State World} {s : State World} {position : Position}
  (hk : Linked target source sigs area) (hr : site.Running source.context garbage src s)
  (hpc : s.pc = target.codeAddress n)
include hk hr hpc

theorem assign_follows {v : Variable} {e : Expr}
    (hc : site.Coded source.context area (.assign position v e) n found) :
    target.Follows s (source.exec (fuel + 1) (site.act source.context) site.room (.assign position v e) src)
      (site.Ran source.context garbage (Stmt.assign position v e).callees (n + Assembly.size found) s) := by
  have hl := hk.loaded
  have hb : (site.sig.body source.context).context.types.Built := hk.prepared.built
  have hat := hc.located
  obtain ⟨labels, labels', hg⟩ := hc.code
  obtain ⟨_, _, first, rest, -, hgv, hge, rfl⟩ := Stmt.assign_shape hg
  obtain rfl := v.addressCode_scratch hgv
  obtain rfl := e.valueCode_scratch hge
  obtain ⟨hnv, hne⟩ := List.forall_mem_append.mp hc.noted
  have htail := hat.right
  rw [Assembly.size_append, ← Nat.add_assoc] at htail
  cases hc.typed with
  | assign htv hte =>
    rw [Source.exec]
    refine (v.locate_follows hl hb htv hnv hgv hat.left.left hpc hr.ready).bind ?_
    rintro ⟨cell, type⟩ middle - ⟨hm, -, hregion⟩
    refine (e.eval_follows hl hb hte hne hge hat.left.right hm.pc (hr.ready.evaluated hm)).bind ?_
    rintro word after - ⟨ha, rfl⟩
    rw [hb.words_int] at hregion
    have hplace := hregion.place Nat.one_pos
    have hsame : after.get Scratch.empty.next.next.second + BitVec.ofInt 32 0 =
        middle.get Scratch.empty.next.top := (BitVec.add_zero _).trans ha.scratched.kept
    have hstore := htail.store hl ha.pc (by rw [hsame]; exact site.places.aligned hplace)
    rw [hsame] at hstore
    have hrun := (hr.scratched hm.scratched).scratched ha.scratched
    have hmemory : after.memory = s.memory := ha.scratched.memory.trans hm.scratched.memory
    refine .ok hstore ⟨?_, hrun.assign hplace, ?_, ?_⟩
    · rw [Target.store_pc_eq ha.pc, Assembly.size_append, Assembly.size_append, ← Nat.add_assoc,
        ← Nat.add_assoc]
      rfl
    · intro a hkept
      have hne : a ≠ middle.get Scratch.empty.next.top := by
        rintro rfl
        exact hkept.free cell hplace
      rw [State.store_memory, Function.update_of_ne hne, hmemory]
    · intro _
      exact (ha.scratched.get (.inr (by decide))).trans (hm.scratched.get (.inr (by decide)))

variable (hs : site.sig ∈ sigs) (hfits : site.Fits area) (hreach : target.Reaches start s)
  (hexec : Executes target source.context sigs area garbage start (source.exec fuel))
include hs hfits hreach hexec

theorem ifThen_follows {condition : Expr} {thenPart : Stmt}
    (hc : site.Coded source.context area (.ifThen position condition thenPart) n found) :
    target.Follows s
      (source.exec (fuel + 1) (site.act source.context) site.room (.ifThen position condition thenPart) src)
      (site.Ran source.context garbage (Stmt.ifThen position condition thenPart).callees
        (n + Assembly.size found) s) := by
  have hl := hk.loaded
  have hat := hc.located
  obtain ⟨labels, labels', hg⟩ := hc.code
  obtain ⟨first, rest, hgc, hgp, rfl⟩ := Stmt.ifThen_shape hg
  obtain ⟨hnc, hnp⟩ := List.forall_mem_append.mp hc.noted
  have hend := hat.right.address hl
  rw [Assembly.size_append, ← Nat.add_assoc] at hend
  rw [Assembly.size_append, Assembly.size_append, ← Nat.add_assoc, ← Nat.add_assoc]
  cases hc.typed with
  | ifThen htc htp =>
    rw [Source.exec]
    refine (condition.test_follows hl hk.prepared.built htc hnc hgc hat.left.left hpc hr.ready).bind ?_
    rintro holds after hr' ⟨hjump, hsame⟩
    cases holds with
    | false => exact .ok (.refl after) (hr.ran hsame (hjump.trans hend)).skip
    | true =>
      have hran := hr.ran hsame hjump
      have hpart : site.Coded source.context area thenPart (n + Assembly.size first) rest :=
        ⟨htp, hnp, hc.covered, ⟨_, _, hgp⟩, hat.left.right⟩
      exact (hexec site hs hfits hpart hran.running hjump (hreach.trans hr')).mono fun _ _ => hran.trans

theorem ifElse_follows {condition : Expr} {thenPart elsePart : Stmt}
    (hc : site.Coded source.context area (.ifElse position condition thenPart elsePart) n found) :
    target.Follows s
      (source.exec (fuel + 1) (site.act source.context) site.room
        (.ifElse position condition thenPart elsePart) src)
      (site.Ran source.context garbage (Stmt.ifElse position condition thenPart elsePart).callees
        (n + Assembly.size found) s) := by
  have hl := hk.loaded
  have hat := hc.located
  obtain ⟨labels, labels', hg⟩ := hc.code
  obtain ⟨middle, first, rest, last, hgc, hgp, hge, rfl⟩ := Stmt.ifElse_shape hg
  obtain ⟨hn, hne⟩ := List.forall_mem_append.mp hc.noted
  obtain ⟨hnc, hnp⟩ := List.forall_mem_append.mp hn
  have hthen := hat.left.left.left
  have hjumps := hat.left.left.right
  have helse := hat.left.right
  have hlabel := hjumps.tail.address hl
  have hend := hat.right.address hl
  simp only [Assembly.size_append, Assembly.size_instr, Assembly.size_label, Assembly.size_nil,
    Nat.add_zero, Nat.zero_add, ← Nat.add_assoc] at hjumps helse hlabel hend ⊢
  cases hc.typed with
  | ifElse htc htp hte =>
    rw [Source.exec]
    refine (condition.test_follows hl hk.prepared.built htc hnc hgc hthen.left hpc hr.ready).bind ?_
    rintro holds after hr' ⟨hjump, hsame⟩
    cases holds with
    | false =>
      have hran := hr.ran hsame (hjump.trans hlabel)
      have hpart : site.Coded source.context area elsePart _ last :=
        ⟨hte, hne, fun c hm => hc.covered c (List.mem_append_right _ hm), ⟨_, _, hge⟩, helse⟩
      refine (hexec site hs hfits hpart hran.running hran.pc (hreach.trans hr')).mono fun src' after' hrest => ?_
      exact (hran.skip.trans hrest)
    | true =>
      have hran := hr.ran hsame hjump
      have hpart : site.Coded source.context area thenPart _ rest :=
        ⟨htp, hnp, fun c hm => hc.covered c (List.mem_append_left _ hm), ⟨_, _, hgp⟩, hthen.right⟩
      refine (hexec site hs hfits hpart hran.running hran.pc (hreach.trans hr')).further ?_
      intro src' middle _ hmiddle
      have hover := hmiddle.running.ran (State.scratched_jump 0 _ _) hend
      exact ⟨_, hjumps.jump hl hmiddle.pc, (hran.trans hmiddle).trans hover.skip⟩

/-- Each further round is a run of the same loop with less fuel. -/
theorem whileDo_follows {condition : Expr} {loopBody : Stmt}
    (hc : site.Coded source.context area (.whileDo position condition loopBody) n found) :
    target.Follows s
      (source.exec (fuel + 1) (site.act source.context) site.room (.whileDo position condition loopBody) src)
      (site.Ran source.context garbage (Stmt.whileDo position condition loopBody).callees
        (n + Assembly.size found) s) := by
  have hl := hk.loaded
  have hat := hc.located
  obtain ⟨labels, labels', hg⟩ := hc.code
  obtain ⟨first, rest, hgc, hgb, rfl⟩ := Stmt.whileDo_shape hg
  obtain ⟨hnc, hnb⟩ := List.forall_mem_append.mp hc.noted
  have hbegin := hat.address hl
  have hcondition : target.CodeAt n first := hat.left.left.tail
  have hbody : target.CodeAt (n + Assembly.size first) rest := hat.left.right
  have hjumps := hat.right
  have hend := hat.right.tail.address hl
  simp only [Assembly.size_append, Assembly.size_instr, Assembly.size_label, Assembly.size_nil,
    Nat.zero_add, ← Nat.add_assoc] at hjumps hend ⊢
  have htyped := hc.typed
  cases htyped with
  | whileDo htc htb =>
    rw [Source.exec]
    refine (condition.test_follows hl hk.prepared.built htc hnc hgc hcondition hpc hr.ready).bind ?_
    rintro holds after hr' ⟨hjump, hsame⟩
    cases holds with
    | false => exact .ok (.refl after) (hr.ran hsame (hjump.trans hend)).skip
    | true =>
      have hran := hr.ran hsame hjump
      have hpart : site.Coded source.context area loopBody _ rest := ⟨htb, hnb, hc.covered, ⟨_, _, hgb⟩, hbody⟩
      refine (hexec site hs hfits hpart hran.running hran.pc (hreach.trans hr')).bind ?_
      intro src' middle hr'' hmiddle
      have hover := hmiddle.running.ran (State.scratched_jump 0 _ _) hbegin
      have hback := hjumps.jump hl hmiddle.pc
      have hagain := hexec site hs hfits hc hover.running hover.pc (((hreach.trans hr').trans hr'').trans hback)
      simp only [Assembly.size_append, Assembly.size_instr, Assembly.size_label, Assembly.size_nil,
        Nat.zero_add, ← Nat.add_assoc] at hagain
      refine (hagain.behind hback).mono fun src'' last hlast => ?_
      refine (((hran.trans hmiddle).trans hover).trans hlast).of_nil fun hnone => ?_
      have hbody : loopBody.callees = [] := hnone
      simp [Stmt.callees, hbody]

theorem block_follows {stmts : List Stmt}
    (hc : site.Coded source.context area (.block position stmts) n found) :
    target.Follows s (source.exec (fuel + 1) (site.act source.context) site.room (.block position stmts) src)
      (site.Ran source.context garbage (Stmt.block position stmts).callees (n + Assembly.size found) s) := by
  have hl := hk.loaded
  have hat := hc.located
  obtain ⟨labels, labels', hg⟩ := hc.code
  rw [Stmt.code] at hg
  cases hc.typed with
  | block hall =>
    cases stmts with
    | nil =>
      rw [codeAll] at hg
      obtain ⟨rfl, rfl⟩ := Trail.gives_pure.mp hg
      rw [Source.exec]
      exact .ok (.refl s) (hr.ran (.refl 0 s) hpc)
    | cons stmt stmts =>
      obtain ⟨middle, first, rest, hgf, hgr, rfl⟩ := codeAll_shape hg
      obtain ⟨htf, htr⟩ := List.forall_mem_cons.mp hall
      obtain ⟨hnf, hnr⟩ := List.forall_mem_append.mp hc.noted
      have hfirst : site.Coded source.context area stmt n first :=
        ⟨htf, hnf, fun c hm => hc.covered c (List.mem_append_left _ hm), ⟨_, _, hgf⟩, hat.left⟩
      have hrest : site.Coded source.context area (.block position stmts) (n + Assembly.size first) rest := by
        refine ⟨.block htr, hnr, fun c hm => hc.covered c (List.mem_append_right _ hm), ⟨middle, labels', ?_⟩, hat.right⟩
        rw [Stmt.code]
        exact hgr
      rw [Source.exec, Assembly.size_append, ← Nat.add_assoc]
      refine (hexec site hs hfits hfirst hr hpc hreach).bind ?_
      intro src' after hr' hran
      exact (hexec site hs hfits hrest hran.running hran.pc (hreach.trans hr')).mono fun _ _ => hran.trans

end
end
end SplLang

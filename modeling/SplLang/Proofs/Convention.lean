import SplLang.Proofs.Activations
import SplLang.Proofs.Lines
import SplLang.Proofs.Stages

/-! The agreement between callers and callees. A caller stores one word for each argument above its stack
pointer, where the callee finds its parameters, and its frame keeps these words apart from the rest. -/
namespace SplLang
open Machine

/-- A call in a body. -/
structure CallSite where
  callee : Name
  arguments : List Expr

mutual

/-- The calls in a statement, in the order of their code. -/
def Stmt.calls : Stmt → List CallSite
  | .assign _ _ _ | .empty _ => []
  | .ifThen _ _ thenPart => thenPart.calls
  | .ifElse _ _ thenPart elsePart => thenPart.calls ++ elsePart.calls
  | .whileDo _ _ body => body.calls
  | .call _ callee arguments => [⟨callee, arguments⟩]
  | .block _ body => allCalls body

def allCalls : List Stmt → List CallSite
  | [] => []
  | stmt :: rest => stmt.calls ++ allCalls rest

end

mutual

private theorem Stmt.map_callee_calls (s : Stmt) : s.calls.map (·.callee) = s.callees := by
  cases s with
  | assign position target value => rfl
  | ifThen position condition thenPart => exact thenPart.map_callee_calls
  | ifElse position condition thenPart elsePart =>
    rw [Stmt.calls, Stmt.callees, List.map_append, thenPart.map_callee_calls, elsePart.map_callee_calls]
  | whileDo position condition body => exact body.map_callee_calls
  | call position callee arguments => rfl
  | block position body => exact map_callee_allCalls body
  | empty position => rfl

private theorem map_callee_allCalls (body : List Stmt) : (allCalls body).map (·.callee) = allCallees body := by
  cases body with
  | nil => rfl
  | cons stmt rest => rw [allCalls, allCallees, List.map_append, stmt.map_callee_calls, map_callee_allCalls rest]

end

/-- The line neither calls a procedure nor stores relative to the stack pointer. -/
def Machine.Line.isQuiet : Line → Bool
  | .instruction ⟨.jal, _⟩ => false
  | .instruction ⟨.stw, [_, .reg base, _]⟩ => base ≠ Register.stackPointer
  | _ => true

/-- Code that stores the arguments of a call from the one with the given number on. What each of them
passes is computed without other stores, and then stored in the word of the stack with its number. -/
inductive StoresArguments (body : Body) : Nat → List Slot → List Expr → Assembly → Prop
  | nil {i : Nat} : StoresArguments body i [] [] []
  | cons {i : Nat} {slot : Slot} {slots : List Slot} {argument : Expr} {arguments : List Expr} {last : Scratch}
      {first rest : Assembly} :
      (argument.argumentCode body slot.byReference).Gives last first → (∀ line ∈ first, line.isQuiet) →
        StoresArguments body (i + 1) slots arguments rest →
          StoresArguments body i (slot :: slots) (argument :: arguments)
            (first ++ instr .stw [last.top, Register.stackPointer, .imm (4 * i : Nat)] :: rest)

/-- The calls in a piece of code, in order: the arguments of each are stored before it. Outside of calls all
lines are quiet. -/
inductive Calling (body : Body) : Assembly → List CallSite → Prop
  | nil : Calling body [] []
  | quiet {line : Line} : line.isQuiet → Calling body [line] []
  | append {first rest : Assembly} {sites others : List CallSite} :
      Calling body first sites → Calling body rest others → Calling body (first ++ rest) (sites ++ others)
  | call {site : CallSite} {entry : ProcedureEntry} {code : Assembly} :
      body.context.scopes.callee? body.scope site.callee = some entry →
        StoresArguments body 0 entry.parameters site.arguments code →
          Calling body (code ++ [instr .jal [Label.named site.callee]]) [site]

section
variable {body : Body} {first rest found : Assembly} {line : Line} {sites : List CallSite}

private theorem Calling.of_quiet (h : ∀ line ∈ found, line.isQuiet) : Calling body found [] := by
  induction found with
  | nil => exact .nil
  | cons line found ih =>
    obtain ⟨hline, hfound⟩ := List.forall_mem_cons.mp h
    exact (Calling.quiet hline).append (ih hfound)

private theorem Calling.append_quiet (h : Calling body first sites) (hr : ∀ line ∈ rest, line.isQuiet) :
    Calling body (first ++ rest) sites := by
  have happend := h.append (.of_quiet hr)
  rwa [List.append_nil] at happend

private theorem Calling.quiet_append (hf : ∀ line ∈ first, line.isQuiet) (h : Calling body rest sites) :
    Calling body (first ++ rest) sites := (Calling.of_quiet hf).append h

/-- The code makes calls. -/
def Machine.Assembly.MakesCalls (code : Assembly) : Prop := ∃ operands, instr .jal operands ∈ code

private theorem not_makesCalls_of_quiet (h : ∀ line ∈ found, line.isQuiet) : ¬ Assembly.MakesCalls found := by
  rintro ⟨operands, hm⟩
  cases h _ hm

/-- Code makes calls if there are any in the tree. -/
theorem Calling.makesCalls_iff (h : Calling body found sites) : Assembly.MakesCalls found ↔ sites ≠ [] := by
  induction h with
  | nil => simp [Assembly.MakesCalls]
  | quiet hq =>
    have hnone := not_makesCalls_of_quiet (List.forall_mem_singleton.mpr hq)
    simp [hnone]
  | @append first rest sites others _ _ ih ih' =>
    have happend : Assembly.MakesCalls (first ++ rest) ↔ Assembly.MakesCalls first ∨ Assembly.MakesCalls rest := by
      simp only [Assembly.MakesCalls, List.mem_append, exists_or]
    rw [happend, ih, ih']
    simp only [ne_eq, List.append_eq_nil_iff, not_and_or]
  | call => exact iff_of_true ⟨_, List.mem_append_right _ List.mem_cons_self⟩ (by simp)

private theorem Machine.Line.Straight.isQuiet (h : line.Straight) : line.isQuiet := by
  cases h with
  | registers op target left right => cases op <;> rfl
  | constant op target left value => cases op <;> rfl
  | load target base offset => rfl
  | check index bound => rfl

private theorem quiet_of_straight (h : ∀ line ∈ found, line.Straight) : ∀ line ∈ found, line.isQuiet :=
  fun line hm => (h line hm).isQuiet

private theorem Expr.conditionCode_quiet {condition : Expr} {target : Label} {u : Unit}
    (h : (condition.conditionCode body target).Gives u found) : ∀ line ∈ found, line.isQuiet := by
  obtain ⟨_, comparison, left, right, _, _, _, _, rfl, hl, hr, rfl⟩ := Expr.condition_shape h
  simp only [List.forall_mem_append]
  refine ⟨⟨quiet_of_straight (left.valueCode_straight hl), quiet_of_straight (right.valueCode_straight hr)⟩,
    List.forall_mem_singleton.mpr ?_⟩
  cases comparison <;> rfl

private theorem arguments_stored {callee : Name} (slots : List Slot) (arguments : List Expr) {i : Nat} {u : Unit}
    (hlength : arguments.length = slots.length) (hs : Slotted i slots) (hfits : 4 * (i + slots.length) ≤ 2^32)
    (h : (argumentsCode body callee slots arguments).Gives u found) :
    StoresArguments body i slots arguments found := by
  induction slots generalizing arguments i found with
  | nil =>
    obtain rfl := List.length_eq_zero_iff.mp hlength
    obtain ⟨_, rfl⟩ := Trail.gives_pure.mp h
    exact .nil
  | cons slot slots ih =>
    cases arguments with
    | nil => cases hlength
    | cons argument arguments =>
      obtain ⟨hoffset, -, hrest⟩ := hs
      obtain ⟨offset, last, first, rest, ho, ha, hr, rfl⟩ := arguments_shape h
      rw [List.length_cons] at hfits
      cases hoffset.symm.trans ho
      rw [UInt32.toNat_ofNat_of_lt' (show 4 * i < 2^32 by omega)]
      exact .cons ha (quiet_of_straight (Expr.argumentCode_straight ha)) (ih arguments (Nat.succ.inj hlength) hrest (by omega) hr)

/-- The arguments of every procedure that the body can call have their slots. -/
def Body.CallsSlotted (body : Body) : Prop :=
  ∀ ⦃callee entry⦄, body.context.scopes.callee? body.scope callee = some entry → entry.Callable

mutual

/-- Code for a well-typed statement makes its calls. -/
theorem Stmt.code_calling (hcalls : body.CallsSlotted) (s : Stmt) (ht : s.Typed body.around)
    {before after : LabelSupply} {found : Assembly} (h : (s.code body before).Gives after found) : Calling body found s.calls := by
  cases s with
  | assign position target value =>
    obtain ⟨_, _, _, _, _, htarget, hv, rfl⟩ := Stmt.assign_shape h
    obtain rfl := target.addressCode_scratch htarget
    obtain rfl := value.valueCode_scratch hv
    apply Calling.of_quiet
    simp only [List.forall_mem_append]
    exact ⟨⟨quiet_of_straight (target.addressCode_straight htarget), quiet_of_straight (value.valueCode_straight hv)⟩,
      List.forall_mem_singleton.mpr rfl⟩
  | ifThen position condition thenPart =>
    obtain ⟨_, _, hc, hp, rfl⟩ := Stmt.ifThen_shape h
    cases ht with
    | ifThen _ htp =>
      apply Calling.append_quiet _ (List.forall_mem_singleton.mpr rfl)
      exact .quiet_append (Expr.conditionCode_quiet hc) (thenPart.code_calling hcalls htp hp)
  | ifElse position condition thenPart elsePart =>
    obtain ⟨_, _, _, _, hc, hp, he, rfl⟩ := Stmt.ifElse_shape h
    cases ht with
    | ifElse _ htp hte =>
      apply Calling.append_quiet _ (List.forall_mem_singleton.mpr rfl)
      apply Calling.append _ (elsePart.code_calling hcalls hte he)
      apply Calling.append_quiet _ (by simp [Line.isQuiet])
      exact .quiet_append (Expr.conditionCode_quiet hc) (thenPart.code_calling hcalls htp hp)
  | whileDo position condition loopBody =>
    obtain ⟨_, _, hc, hb, rfl⟩ := Stmt.whileDo_shape h
    cases ht with
    | whileDo _ htb =>
      apply Calling.append_quiet _ (by simp [Line.isQuiet])
      apply Calling.quiet_append _ (loopBody.code_calling hcalls htb hb)
      exact List.forall_mem_cons.mpr ⟨rfl, Expr.conditionCode_quiet hc⟩
  | call position callee arguments =>
    obtain ⟨entry, _, _, he, ha, rfl⟩ := Stmt.call_shape h
    have hlength := ht.length_arguments he
    have hentry := hcalls he
    have hfits := hentry.fits
    have hstored := arguments_stored entry.parameters arguments hlength hentry.slotted (by omega) ha
    exact @Calling.call body ⟨callee, arguments⟩ entry _ he hstored
  | block position stmts =>
    rw [Stmt.code] at h
    cases ht with
    | block hts => exact codeAll_calling hcalls stmts hts h
  | empty position =>
    rw [Stmt.code] at h
    obtain ⟨_, rfl⟩ := Trail.gives_pure.mp h
    exact .nil

theorem codeAll_calling (hcalls : body.CallsSlotted) (stmts : List Stmt) (ht : ∀ stmt ∈ stmts, stmt.Typed body.around)
    {before after : LabelSupply} {found : Assembly} (h : (codeAll body before stmts).Gives after found) :
    Calling body found (allCalls stmts) := by
  cases stmts with
  | nil =>
    rw [codeAll] at h
    obtain ⟨_, rfl⟩ := Trail.gives_pure.mp h
    exact .nil
  | cons stmt stmts =>
    obtain ⟨_, _, _, hs, hr, rfl⟩ := codeAll_shape h
    obtain ⟨hst, hrt⟩ := List.forall_mem_cons.mp ht
    exact (stmt.code_calling hcalls hst hs).append (codeAll_calling hcalls stmts hrt hr)

end

end

/-- The slots of the parameters: the one with number i lies i words from the start of the arguments, inside
their area. -/
structure ProcedureEntry.Slots (entry : ProcedureEntry) (size : UInt32) : Prop where
  area : entry.argumentArea = some size
  offset : ∀ i slot, entry.parameters[i]? = some slot →
    ∃ offset, slot.offset = some offset ∧ offset.toNat = 4 * i ∧ 4 * i + 4 ≤ size.toNat

/-- The variable lies at an offset from the frame pointer. -/
def ScopeTree.OffsetIs (scopes : ScopeTree) (scope : ScopeId) (name : Name) (offset : Int) : Prop :=
  ∃ entry placed, scopes.held? scope name = some (.var entry) ∧ entry.offset = some placed ∧ placed.toInt = offset

/-- What a call by a name means: a procedure of the library, or one of the program that finds its parameters
one word after the other from its frame pointer upwards. -/
def Program.Callee (program : Program) (scopes : ScopeTree) (name : Name) (entry : ProcedureEntry) : Prop :=
  (∃ procedure ∈ library, procedure.name = name ∧ procedure.entry = entry) ∨
  ∃ procedure ∈ program.procedures, procedure.name = name ∧
    entry.parameters.length = procedure.parameters.length ∧ ∃ scope, entry.scope = some scope ∧
      ∀ i parameter, procedure.parameters[i]? = some parameter →
        scopes.OffsetIs scope parameter.name (4 * i : Nat)

/-- Above the outgoing arguments in its frame a procedure has what it saves, and its locals. -/
structure FrameLayout.Clears (frame : FrameLayout) (scopes : ScopeTree) (scope : ScopeId)
    (locals : List LocalVariable) (outgoing : Nat) : Prop where
  framePointer : outgoing ≤ frame.savedFramePointer.toNat
  returnAddress : ∀ offset, frame.savedReturnAddress = some offset → outgoing ≤ frame.size.toNat + offset.toInt
  locals : ∀ declaration ∈ locals, ∃ offset, scopes.OffsetIs scope declaration.name offset ∧
    outgoing ≤ frame.size.toNat + offset

/-- The code stores the register. -/
def Machine.Assembly.Saves (register : Register) (code : Assembly) : Prop :=
  ∃ base offset, instr .stw [register, base, offset] ∈ code

/-- The code loads the register. -/
def Machine.Assembly.Restores (register : Register) (code : Assembly) : Prop :=
  ∃ base offset, instr .ldw [register, base, offset] ∈ code

private theorem saves_returnAddress {frame : FrameLayout} :
    Assembly.Saves .returnAddress (prologue frame) ↔ frame.savedReturnAddress.isSome := by
  unfold Assembly.Saves prologue returnAddressLines
  cases frame.savedReturnAddress with
  | none => simp [Register.framePointer, Register.returnAddress]
  | some offset => exact iff_of_true ⟨Register.framePointer, .imm offset.toInt, by simp⟩ rfl

private theorem restores_returnAddress {frame : FrameLayout} :
    Assembly.Restores .returnAddress (epilogue frame) ↔ frame.savedReturnAddress.isSome := by
  unfold Assembly.Restores epilogue returnAddressLines
  cases frame.savedReturnAddress with
  | none => simp [Register.framePointer, Register.returnAddress]
  | some offset => exact iff_of_true ⟨Register.framePointer, .imm offset.toInt, by simp⟩ rfl

/-- What a frame is like whose size a signed word can hold. -/
theorem FrameLayout.of?_eq_some {localArea : UInt32} {area : OutgoingArea} {frame : FrameLayout}
    (h : FrameLayout.of? localArea area = some frame) :
    frame.savedReturnAddress.isSome = area.hasCalls ∧ area.size.toNat ≤ frame.savedFramePointer.toNat ∧
      area.size.toNat + localArea.toNat ≤ frame.size.toNat ∧
      ∀ offset, frame.savedReturnAddress = some offset → area.size.toNat ≤ frame.size.toNat + offset.toInt := by
  obtain ⟨hsize, hpointer, haddress⟩ := FrameLayout.of?_exact h
  rw [hsize, hpointer]
  cases area with
  | noCalls =>
    rw [Option.map_eq_none_iff.mp haddress]
    refine ⟨rfl, Nat.le_refl _, ?_, fun _ ho => nomatch ho⟩
    show 0 + localArea.toNat ≤ localArea.toNat + 4
    omega
  | bytes size =>
    obtain ⟨offset, ho, hoffset⟩ := Option.map_eq_some_iff.mp haddress
    rw [ho]
    refine ⟨rfl, Nat.le_add_right size.toNat 4, ?_, ?_⟩
    · show size.toNat + localArea.toNat ≤ localArea.toNat + size.toNat + 8
      omega
    · rintro _ ⟨⟩
      rw [hoffset]
      show (size.toNat : Int) ≤ ↑(localArea.toNat + size.toNat + 8) + -(localArea.toNat + 8)
      omega

theorem Slotted.get {k : Nat} {slots : List Slot} (h : Slotted k slots) {i : Nat} {slot : Slot}
    (hi : slots[i]? = some slot) : slot.offset = some (UInt32.ofNat (4 * (k + i))) := by
  induction slots generalizing k i with
  | nil => cases hi
  | cons first slots ih =>
    cases i with
    | zero =>
      cases hi
      exact h.1
    | succ i =>
      rw [List.getElem?_cons_succ] at hi
      have hget := ih h.2.2 hi
      rwa [Nat.add_assoc, Nat.add_comm 1 i] at hget

private theorem ProcedureEntry.Callable.slots {entry : ProcedureEntry} (h : entry.Callable) :
    entry.Slots (UInt32.ofNat (4 * entry.parameters.length)) where
  area := h.argumentArea
  offset := by
    intro i slot hi
    obtain ⟨hlt, -⟩ := List.getElem?_eq_some_iff.mp hi
    have hfits := h.fits
    have hoffset := h.slotted.get hi
    rw [Nat.zero_add] at hoffset
    refine ⟨_, hoffset, UInt32.toNat_ofNat_of_lt' (show 4 * i < 2^32 by omega), ?_⟩
    rw [UInt32.toNat_ofNat_of_lt' hfits]
    omega

section
variable {context : Context} {sigs : List Signature} {area : Signature → OutgoingArea} {sig : Signature}
  {program : Program}

theorem Prepared.held (h : Prepared context sigs area) (hs : sig ∈ sigs) {name : Name} {entry : Entry}
    (hm : (name, entry) ∈ sig.placed context.types) : context.scopes.held? sig.scope name = some entry := by
  rw [h.seen.held sig hs]
  apply Keyed.at?_of_mem _ hm
  rw [Signature.map_fst_placed, ← Signature.map_fst_own]
  exact (h.fits sig hs).distinct

/-- A parameter lies where the callers store its argument. -/
theorem Prepared.parameter_offset (h : Prepared context sigs area) (hs : sig ∈ sigs) {i : Nat}
    {parameter : Parameter} (hi : sig.procedure.parameters[i]? = some parameter) :
    context.scopes.OffsetIs sig.scope parameter.name (4 * i : Nat) := by
  obtain ⟨type, hown⟩ := Signature.exists_parameter (h.fits sig hs) hi
  obtain ⟨hlt, -⟩ := List.getElem?_eq_some_iff.mp hown
  have hbound := (h.bounded sig hs).parameters
  exact ⟨_, _, h.held hs (Signature.parameter_placed hown), rfl, Int32.toInt_ofInt_of_le (by omega) (by omega)⟩

theorem Prepared.callee (h : Prepared context sigs area) (hsigs : sigs.map (·.procedure) = program.procedures)
    {name : Name} {entry : ProcedureEntry}
    (hg : GlobalProcedure sigs (Signature.framedEntry context.types area) name entry) :
    program.Callee context.scopes name entry := by
  rcases hg with hlibrary | ⟨callee, hs, hname, rfl⟩
  · exact .inl hlibrary
  · have hlength : (callee.framedEntry context.types area).parameters.length = callee.procedure.parameters.length := by
      show callee.placedSlots.length = _
      rw [← (h.fits callee hs).parameters_eq, Signature.placedSlots, List.length_map, List.length_zipIdx,
        List.length_map]
    exact .inr ⟨callee.procedure, hsigs ▸ List.mem_map_of_mem hs, hname, hlength, callee.scope,
      h.seen.scope callee hs, fun _ _ hi => h.parameter_offset hs hi⟩

/-- A procedure has an outgoing area if there are calls in its body. -/
theorem Prepared.hasCalls_iff (h : Prepared context sigs area) (hs : sig ∈ sigs) :
    (area sig).hasCalls ↔ allCalls sig.procedure.body ≠ [] := by
  have hcallees : allCalls sig.procedure.body ≠ [] ↔ allCallees sig.procedure.body ≠ [] := by
    rw [← map_callee_allCalls, ne_eq, ne_eq, List.map_eq_nil_iff]
  rw [hcallees]
  constructor
  · intro hcalls hnone
    rcases h.sized sig hs with he | ⟨callee, hm, -⟩
    · rw [he] at hcalls
      cases hcalls
    · rw [hnone] at hm
      cases hm
  · intro hsome
    obtain ⟨callee, hm⟩ := List.exists_mem_of_ne_nil _ hsome
    obtain ⟨_, _, hcalls, _⟩ := h.covered sig hs callee hm
    exact hcalls

/-- A local lies its depth in words under the frame pointer. -/
theorem Prepared.local_offset (h : Prepared context sigs area) (hs : sig ∈ sigs) {d : (LocalVariable × TypeId) × Nat}
    (hd : d ∈ sig.depths context.types) : context.scopes.OffsetIs sig.scope d.1.1.name (-(4 * d.2 : Nat)) := by
  obtain ⟨-, hle⟩ := Signature.depth_bounds hd
  have hbound := (h.bounded sig hs).locals
  exact ⟨_, _, h.held hs (Signature.local_placed hd), rfl, Int32.toInt_ofInt_of_le (by omega) (by omega)⟩

/-- The frame of a procedure keeps its outgoing arguments apart. -/
theorem Prepared.clears (h : Prepared context sigs area) (hs : sig ∈ sigs) {frame : FrameLayout}
    (hf : sig.frame? context.types area = some frame) :
    frame.Clears context.scopes sig.scope sig.procedure.locals (area sig).size.toNat := by
  obtain ⟨-, hpointer, hsize, haddress⟩ := FrameLayout.of?_eq_some hf
  refine ⟨hpointer, haddress, ?_⟩
  intro declaration hd
  -- No local is deeper than the words of all locals.
  obtain ⟨type, depth, hdepth⟩ := Signature.exists_depth (h.fits sig hs) hd
  obtain ⟨-, hle⟩ := Signature.depth_bounds hdepth
  have hbound := (h.bounded sig hs).locals
  rw [UInt32.toNat_ofNat_of_lt' (Nat.lt_of_le_of_lt hbound (by decide))] at hsize
  exact ⟨-(4 * depth : Nat), h.local_offset hs hdepth, by dsimp only at hle; omega⟩

/-- How a procedure passes arguments, by what is known of it: its scope, its outgoing area, its frame and the code of
its body. -/
structure Program.PassesArguments (program : Program) (context : Context) (assembly : Assembly) (procedure : Procedure)
    (scope : ScopeId) (outgoing : OutgoingArea) (frame : FrameLayout) (inner : Assembly) : Prop where
  scope_eq : (context.scopes.procedure? procedure.name).bind (·.scope) = some scope
  outgoing_eq : (context.scopes.procedure? procedure.name).bind (·.outgoing) = some outgoing
  code : ∃ before after,
    assembly = before ++ .label (.named procedure.name) :: (prologue frame ++ inner ++ epilogue frame) ++ after
  calls : Calling ⟨context, scope⟩ inner (allCalls procedure.body)
  /-- The arguments of each call lie where the callee expects them, inside the outgoing area. -/
  callees : ∀ site ∈ allCalls procedure.body, ∃ entry size, context.scopes.callee? scope site.callee = some entry ∧
    program.Callee context.scopes site.callee entry ∧ entry.Slots size ∧ size ≤ outgoing.size
  clears : frame.Clears context.scopes scope procedure.locals outgoing.size.toNat
  saves_iff : Assembly.Saves .returnAddress (prologue frame) ↔ Assembly.MakesCalls inner
  restores_iff : Assembly.Restores .returnAddress (epilogue frame) ↔ Assembly.MakesCalls inner

/-- Callers and callees agree on where arguments lie. For every procedure, each call in its body, however deep,
stores one word for each parameter of what is called; the i-th one goes i words above the stack pointer, which
is where the callee has its i-th parameter. These words lie in the outgoing area of the frame, apart from what
the procedure saves and from its locals. The frame saves and restores the return address exactly if the
body makes calls. -/
theorem compile_calling_convention {c : Compilation} {assembly : Assembly}
    (hc : (compile program .generated).1 = .ok c) (ha : c.assembly = some assembly)
    {procedure : Procedure} (hp : procedure ∈ program.procedures) :
    ∃ scope outgoing frame inner, program.PassesArguments c.context assembly procedure scope outgoing frame inner := by
  obtain ⟨sigs, area, found, supply, hsigs, hprepared, -, hcode⟩ := compile_prepared hc ha
  have hmem := hp
  rw [← hsigs] at hmem
  obtain ⟨sig, hs, rfl⟩ := List.mem_map.mp hmem
  obtain ⟨scope, frame, labels, labels', inner, before, after, hf, hi, rfl⟩ := Program.code_split hcode hp
  obtain ⟨entry, localArea, outgoing, hentry, hscope, hlocal, hout, hframe, -⟩ := Procedure.frame_shape hf
  have hlookup := hentry
  rw [hprepared.seen.procedure?_of_mem hs] at hentry
  cases hentry
  cases hscope
  cases hlocal
  cases hout
  have hslotted : Body.CallsSlotted ⟨c.context, sig.scope⟩ :=
    fun callee entry he => hprepared.callable ((hprepared.seen.callee?_iff hs).mp he)
  have hcalling := codeAll_calling hslotted sig.procedure.body (hprepared.typed sig hs) hi
  have hleaf := hprepared.hasCalls_iff hs
  obtain ⟨hsome, -⟩ := FrameLayout.of?_eq_some hframe
  refine ⟨sig.scope, area sig, frame, inner, {
    scope_eq := by rw [hlookup]; rfl
    outgoing_eq := by rw [hlookup]; rfl
    code := ⟨before, after, rfl⟩
    calls := hcalling
    callees := ?_
    clears := hprepared.clears hs hframe
    saves_iff := by rw [saves_returnAddress, hsome, hleaf, hcalling.makesCalls_iff]
    restores_iff := by rw [restores_returnAddress, hsome, hleaf, hcalling.makesCalls_iff] }⟩
  · intro site hsite
    have hcallee : site.callee ∈ allCallees sig.procedure.body := by
      rw [← map_callee_allCalls]
      exact List.mem_map_of_mem hsite
    obtain ⟨size, hsize, -, hle⟩ := hprepared.covered sig hs site.callee hcallee
    obtain ⟨entry, he, hsize⟩ := Option.bind_eq_some_iff.mp hsize
    have hglobal := (hprepared.seen.callee?_iff hs).mp he
    have hslots := (hprepared.callable hglobal).slots
    have hsame := hslots.area.symm.trans hsize
    cases hsame
    exact ⟨entry, _, he, hprepared.callee hsigs hglobal, hslots, hle⟩

end

/-- A procedure that calls itself and a later one with two arguments. -/
def countedDown : Program where
  position := ⟨1, 1⟩
  declarations := [
    .procedure {
      position := ⟨1, 1⟩
      name := "main"
      parameters := []
      locals := [⟨⟨2, 3⟩, "i", .named ⟨0, ⟨2, 10⟩⟩ "int"⟩]
      body := [
        .whileDo ⟨3, 3⟩
          (.binary ⟨1, ⟨3, 12⟩⟩ (.comparison .gt) (.load ⟨2, ⟨3, 10⟩⟩ (.named ⟨3, ⟨3, 10⟩⟩ "i")) (.literal ⟨4, ⟨3, 14⟩⟩ 0))
          (.call ⟨3, 17⟩ "step" [.load ⟨5, ⟨3, 22⟩⟩ (.named ⟨6, ⟨3, 22⟩⟩ "i"), .literal ⟨7, ⟨3, 25⟩⟩ 1]),
        .call ⟨4, 3⟩ "main" []] },
    .procedure {
      position := ⟨6, 1⟩
      name := "step"
      parameters := [⟨⟨6, 11⟩, "i", .named ⟨8, ⟨6, 18⟩⟩ "int", true⟩, ⟨⟨6, 23⟩, "by", .named ⟨9, ⟨6, 27⟩⟩ "int", false⟩]
      locals := []
      body := [
        .assign ⟨7, 3⟩ (.named ⟨10, ⟨7, 3⟩⟩ "i")
          (.binary ⟨11, ⟨7, 10⟩⟩ (.arithmetic .sub) (.load ⟨12, ⟨7, 8⟩⟩ (.named ⟨13, ⟨7, 8⟩⟩ "i"))
            (.load ⟨14, ⟨7, 12⟩⟩ (.named ⟨15, ⟨7, 12⟩⟩ "by")))] }]

theorem countedDown_calling_convention :
    ∃ c assembly, (compile countedDown .generated).1 = .ok c ∧ c.assembly = some assembly ∧
      ∃ procedure ∈ countedDown.procedures, procedure.name = "main" ∧ ∃ scope outgoing frame inner,
        countedDown.PassesArguments c.context assembly procedure scope outgoing frame inner := by
  obtain ⟨c, assembly, hc, ha⟩ := @compile_of_isOk countedDown (by decide +kernel)
  exact ⟨c, assembly, hc, ha, _, List.mem_cons_self, rfl, compile_calling_convention hc ha List.mem_cons_self⟩

end SplLang

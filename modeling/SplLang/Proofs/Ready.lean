import SplLang.Proofs.Prepared

/-! What code generation asks of a tree, node by node. A tree for which all of it holds has code,
unless the scratch registers run out. -/
namespace SplLang
open Machine

mutual

/-- Every named variable has an offset, and every array that is indexed an array type. -/
def Variable.Ready (body : Body) : Variable → Prop
  | .named _ name => ∃ entry offset,
    (body.context.scopes.seen? body.scope name).bind (·.var?) = some entry ∧
      entry.offset = some offset
  | .element _ array index => array.Ready body ∧ index.ValueReady body ∧
    ∃ type element length, body.context.findings.exprs.at? array.node.id = some type ∧
      body.context.types.array? type = some (element, length)

/-- No comparison stands where a value is computed. -/
def Expr.ValueReady (body : Body) : Expr → Prop
  | .literal _ _ => True
  | .load _ source => source.Ready body
  | .binary _ op left right =>
    op.isArithmetic ∧ left.ValueReady body ∧ right.ValueReady body

end

/-- A condition is a comparison. -/
def Expr.ConditionReady (body : Body) : Expr → Prop
  | .binary _ op left right => op.isComparison ∧ left.ValueReady body ∧ right.ValueReady body
  | .literal _ _ | .load _ _ => False

/-- An argument passed by reference is a variable, and its slot has an offset. -/
def Expr.ArgumentReady (body : Body) (argument : Expr) (slot : Slot) : Prop :=
  argument.ValueReady body ∧ (slot.byReference → argument.isVariable) ∧ slot.offset.isSome

mutual

def Stmt.Ready (body : Body) : Stmt → Prop
  | .assign _ target value => target.Ready body ∧ value.ValueReady body
  | .ifThen _ condition thenPart => condition.ConditionReady body ∧ thenPart.Ready body
  | .ifElse _ condition thenPart elsePart =>
    condition.ConditionReady body ∧ thenPart.Ready body ∧ elsePart.Ready body
  | .whileDo _ condition loopBody => condition.ConditionReady body ∧ loopBody.Ready body
  | .call _ callee arguments => ∃ entry,
    body.context.scopes.callee? body.scope callee = some entry ∧
      List.Forall₂ (Expr.ArgumentReady body) arguments entry.parameters
  | .block _ stmts => AllReady body stmts
  | .empty _ => True

def AllReady (body : Body) : List Stmt → Prop
  | [] => True
  | stmt :: rest => stmt.Ready body ∧ AllReady body rest

end

/-- The procedure has a scope, areas and an addressable frame, and its body is ready. -/
def Procedure.Ready (context : Context) (procedure : Procedure) : Prop :=
  ∃ entry scope localArea outgoing frame,
    context.scopes.procedure? procedure.name = some entry ∧ entry.scope = some scope ∧
      entry.argumentArea.isSome ∧ entry.localArea = some localArea ∧
      entry.outgoing = some outgoing ∧ FrameLayout.of? localArea outgoing = some frame ∧
      AllReady ⟨context, scope⟩ procedure.body

/-- Something is ready for code generation, or any inconsistency is allowed as a failure. -/
def ReadyOr (allowed : Cause → Prop) (ready : Prop) : Prop := ready ∨ ∀ i, allowed (.internal i)

/-- The only failure of code generation that is left where everything is ready. -/
abbrev Exhausted (cause : Cause) : Prop := cause = .registersExhausted

theorem ReadyOr.imp {allowed : Cause → Prop} {ready part : Prop} (h : ReadyOr allowed ready) (hp : ready → part) :
    ReadyOr allowed part := Or.imp_left hp h

section
variable {body : Body} {scratch : Scratch} {allowed : Cause → Prop}

private theorem instruction (mnemonic : Mnemonic) (operands : List Operand) :
    Trail.FailsOnly allowed (Emit.instruction mnemonic operands) := .leave _

private theorem follow (byReference : Bool) :
    Trail.FailsOnly allowed (Emit.follow byReference scratch) := by
  unfold Emit.follow
  split
  · exact instruction _ _
  · exact .pure _

private theorem place?_fails {node : Node} {name : Name} (h : ReadyOr allowed ((Variable.named node name).Ready body)) :
    Trail.FailsOnly allowed (body.place? node.position name) := by
  unfold Body.place?
  refine Trail.FailsOnly.bind (.expect fun hn => ?_) fun held hheld => ?_
  · rcases h with ⟨entry, offset, he, _⟩ | hi
    · rw [hn] at he
      cases he
    · exact hi _
  · refine Trail.FailsOnly.bind (.expect fun hn => ?_) fun _ _ => .pure _
    rcases h with ⟨entry, offset, he, ho⟩ | hi
    · cases (Trail.result_expect_eq_ok.mp hheld).symm.trans he
      rw [hn] at ho
      cases ho
    · exact hi _

private theorem array?_fails {node : Node} {array : Variable} {index : Expr}
    (h : ReadyOr allowed ((Variable.element node array index).Ready body)) :
    Trail.FailsOnly allowed (body.array? node.position array) := by
  refine .expect fun hn => ?_
  rcases h with ⟨_, _, type, element, length, ht, ha⟩ | hi
  · rw [ht, Option.bind_some, ha] at hn
    cases hn
  · exact hi _

private theorem push (hx : allowed .registersExhausted) (position : Position) :
    Trail.FailsOnly allowed (Emit.push scratch position) := .expect fun _ => hx

mutual

private theorem Variable.addressCode_fails (hx : allowed .registersExhausted) (v : Variable)
    (h : ReadyOr allowed (v.Ready body)) (scratch : Scratch) :
    Trail.FailsOnly allowed (v.addressCode body scratch) := by
  cases v with
  | named node name =>
    rw [Variable.addressCode]
    refine (place?_fails h).bind fun _ _ => ?_
    refine (push hx _).bind fun _ _ => ?_
    exact (instruction _ _).bind fun _ _ => (follow _).bind fun _ _ => .pure _
  | element node array index =>
    rw [Variable.addressCode]
    refine (array?_fails h).bind fun _ _ => ?_
    refine (array.addressCode_fails hx (h.imp fun hr => hr.1) _).bind fun _ _ => ?_
    refine (index.valueCode_fails hx (h.imp fun hr => hr.2.1) _).bind fun _ _ => ?_
    refine (push hx _).bind fun _ _ => ?_
    refine (instruction _ _).bind fun _ _ => (instruction _ _).bind fun _ _ => ?_
    exact (instruction _ _).bind fun _ _ => (instruction _ _).bind fun _ _ => .pure _

private theorem Expr.valueCode_fails (hx : allowed .registersExhausted) (e : Expr)
    (h : ReadyOr allowed (e.ValueReady body)) (scratch : Scratch) :
    Trail.FailsOnly allowed (e.valueCode body scratch) := by
  cases e with
  | literal node value =>
    rw [Expr.valueCode]
    exact (push hx _).bind fun _ _ => (instruction _ _).bind fun _ _ => .pure _
  | load node source =>
    rw [Expr.valueCode]
    refine (source.addressCode_fails hx h _).bind fun _ _ => ?_
    exact (instruction _ _).bind fun _ _ => .pure _
  | binary node op left right =>
    cases op with
    | comparison op =>
      rcases h with ⟨hop, _⟩ | hi
      · cases hop
      · rw [Expr.valueCode]
        exact .fail (hi _)
    | arithmetic op =>
      rw [Expr.valueCode]
      refine (left.valueCode_fails hx (h.imp fun hr => hr.2.1) _).bind fun _ _ => ?_
      refine (right.valueCode_fails hx (h.imp fun hr => hr.2.2) _).bind fun _ _ => ?_
      exact (instruction _ _).bind fun _ _ => .pure _

end

theorem Variable.addressCode_failsOnly (v : Variable) (h : v.Ready body) (scratch : Scratch) :
    Trail.FailsOnly Exhausted (v.addressCode body scratch) :=
  @Variable.addressCode_fails body Exhausted rfl v (.inl h) scratch

theorem Expr.valueCode_failsOnly (e : Expr) (h : e.ValueReady body) (scratch : Scratch) :
    Trail.FailsOnly Exhausted (e.valueCode body scratch) :=
  @Expr.valueCode_fails body Exhausted rfl e (.inl h) scratch

private theorem Expr.conditionCode_fails (hx : allowed .registersExhausted) (e : Expr)
    (h : ReadyOr allowed (e.ConditionReady body)) (target : Label) :
    Trail.FailsOnly allowed (e.conditionCode body target) := by
  cases e with
  | literal node value =>
    rcases h with h | hi
    · cases h
    · exact .fail (hi _)
  | load node source =>
    rcases h with h | hi
    · cases h
    · exact .fail (hi _)
  | binary node op left right =>
    cases op with
    | arithmetic op =>
      rcases h with ⟨hop, _⟩ | hi
      · cases hop
      · exact .fail (hi _)
    | comparison op =>
      rw [Expr.conditionCode]
      refine (left.valueCode_fails hx (h.imp fun hr => hr.2.1) _).bind fun _ _ => ?_
      exact (right.valueCode_fails hx (h.imp fun hr => hr.2.2) _).bind fun _ _ => instruction _ _

private theorem argumentCode_fails {argument : Expr} {slot : Slot} (hx : allowed .registersExhausted)
    (h : ReadyOr allowed (argument.ArgumentReady body slot)) :
    Trail.FailsOnly allowed (argument.argumentCode body slot.byReference) := by
  cases hr : slot.byReference with
  | false => exact argument.valueCode_fails hx (h.imp fun ha => ha.1) _
  | true =>
    cases argument with
    | load node source => exact source.addressCode_fails hx (h.imp fun ha => ha.1) _
    | literal node value =>
      rcases h with ⟨_, hvar, _⟩ | hi
      · cases hvar hr
      · exact .fail (hi _)
    | binary node op left right =>
      rcases h with ⟨_, hvar, _⟩ | hi
      · cases hvar hr
      · exact .fail (hi _)

private theorem argumentsCode_fails {callee : Name} {slots : List Slot} {arguments : List Expr}
    (hx : allowed .registersExhausted)
    (h : ReadyOr allowed (List.Forall₂ (Expr.ArgumentReady body) arguments slots)) :
    Trail.FailsOnly allowed (argumentsCode body callee slots arguments) := by
  induction slots generalizing arguments with
  | nil => exact .pure _
  | cons slot slots ih =>
    cases arguments with
    | nil => exact .pure _
    | cons argument arguments =>
      have ha := h.imp fun hr => (List.forall₂_cons.mp hr).1
      rw [argumentsCode]
      refine (argumentCode_fails hx ha).bind fun _ _ => ?_
      refine Trail.FailsOnly.bind (.expect fun hn => ?_) fun _ _ => (instruction _ _).bind fun _ _ => ?_
      · rcases ha with ⟨_, _, hoffset⟩ | hi
        · rw [hn] at hoffset
          cases hoffset
        · exact hi _
      · exact ih (h.imp fun hr => (List.forall₂_cons.mp hr).2)

mutual

private theorem Stmt.code_fails (hx : allowed .registersExhausted) (s : Stmt) (h : ReadyOr allowed (s.Ready body))
    (labels : LabelSupply) :
    Trail.FailsOnly allowed (s.code body labels) := by
  cases s with
  | assign position target value =>
    rw [Stmt.code]
    refine (target.addressCode_fails hx (h.imp fun hr => hr.1) _).bind fun _ _ => ?_
    refine (value.valueCode_fails hx (h.imp fun hr => hr.2) _).bind fun _ _ => ?_
    exact (instruction _ _).bind fun _ _ => .pure _
  | ifThen position condition thenPart =>
    rw [Stmt.code]
    refine Trail.FailsOnly.bind (.report _) fun _ _ => ?_
    refine (condition.conditionCode_fails hx (h.imp fun hr => hr.1) _).bind fun _ _ => ?_
    refine (thenPart.code_fails hx (h.imp fun hr => hr.2) _).bind fun _ _ => ?_
    exact Trail.FailsOnly.bind (.leave _) fun _ _ => .pure _
  | ifElse position condition thenPart elsePart =>
    rw [Stmt.code]
    refine Trail.FailsOnly.bind (.report _) fun _ _ => ?_
    refine (condition.conditionCode_fails hx (h.imp fun hr => hr.1) _).bind fun _ _ => ?_
    refine (thenPart.code_fails hx (h.imp fun hr => hr.2.1) _).bind fun _ _ => ?_
    refine (instruction _ _).bind fun _ _ => Trail.FailsOnly.bind (.leave _) fun _ _ => ?_
    refine (elsePart.code_fails hx (h.imp fun hr => hr.2.2) _).bind fun _ _ => ?_
    exact Trail.FailsOnly.bind (.leave _) fun _ _ => .pure _
  | whileDo position condition loopBody =>
    rw [Stmt.code]
    refine Trail.FailsOnly.bind (.report _) fun _ _ => ?_
    refine Trail.FailsOnly.bind (.leave _) fun _ _ => ?_
    refine (condition.conditionCode_fails hx (h.imp fun hr => hr.1) _).bind fun _ _ => ?_
    refine (loopBody.code_fails hx (h.imp fun hr => hr.2) _).bind fun _ _ => ?_
    refine (instruction _ _).bind fun _ _ => ?_
    exact Trail.FailsOnly.bind (.leave _) fun _ _ => .pure _
  | call position callee arguments =>
    rw [Stmt.code]
    refine Trail.FailsOnly.bind (.expect fun hn => ?_) fun held hheld => ?_
    · rcases h with ⟨entry, he, _⟩ | hi
      · rw [hn] at he
        cases he
      · exact hi _
    · have harguments : ReadyOr allowed (List.Forall₂ (Expr.ArgumentReady body) arguments held.parameters) := by
        refine h.imp fun ⟨entry, he, ha⟩ => ?_
        cases (Trail.result_expect_eq_ok.mp hheld).symm.trans he
        exact ha
      refine (argumentsCode_fails hx harguments).bind fun _ _ => ?_
      exact (instruction _ _).bind fun _ _ => .pure _
  | block position stmts =>
    rw [Stmt.code]
    exact codeAll_fails hx stmts h _
  | empty position =>
    rw [Stmt.code]
    exact .pure _

private theorem codeAll_fails (hx : allowed .registersExhausted) (stmts : List Stmt)
    (h : ReadyOr allowed (AllReady body stmts)) (labels : LabelSupply) :
    Trail.FailsOnly allowed (codeAll body labels stmts) := by
  cases stmts with
  | nil =>
    rw [codeAll]
    exact .pure _
  | cons stmt rest =>
    rw [codeAll]
    refine (stmt.code_fails hx (h.imp fun hr => hr.1) _).bind fun _ _ => ?_
    exact codeAll_fails hx rest (h.imp fun hr => hr.2) _

end

end

section
variable {context : Context} {allowed : Cause → Prop}

private theorem returnAddressCode_fails (frame : FrameLayout) (mnemonic : Mnemonic) :
    Trail.FailsOnly allowed (frame.returnAddressCode mnemonic) := by
  unfold FrameLayout.returnAddressCode
  split
  · exact .leave _
  · exact .pure _

private theorem Procedure.code_fails {scope : ScopeId} {frame : FrameLayout} {labels : LabelSupply}
    {procedure : Procedure} (hx : allowed .registersExhausted)
    (h : ReadyOr allowed (AllReady ⟨context, scope⟩ procedure.body)) :
    Trail.FailsOnly allowed (procedure.code context scope frame labels) := by
  unfold Procedure.code
  refine Trail.FailsOnly.bind (.leave _) fun _ _ => ?_
  refine Trail.FailsOnly.bind (.leave _) fun _ _ => Trail.FailsOnly.bind (.leave _) fun _ _ => ?_
  refine Trail.FailsOnly.bind (.leave _) fun _ _ => ?_
  refine (returnAddressCode_fails _ _).bind fun _ _ => ?_
  refine (codeAll_fails hx _ h _).bind fun _ _ => (returnAddressCode_fails _ _).bind fun _ _ => ?_
  refine Trail.FailsOnly.bind (.leave _) fun _ _ => Trail.FailsOnly.bind (.leave _) fun _ _ => ?_
  exact Trail.FailsOnly.bind (.leave _) fun _ _ => .pure _

/-- A procedure that is ready has its frame. -/
private theorem Procedure.frame_fails {procedure : Procedure} (h : ReadyOr allowed (procedure.Ready context)) :
    Trail.FailsOnly allowed (procedure.frame context.scopes) ∧
      ∀ scope frame, (procedure.frame context.scopes).result = .ok (scope, frame) →
        ReadyOr allowed (AllReady ⟨context, scope⟩ procedure.body) := by
  rcases h with ⟨entry, scope, localArea, outgoing, frame, he, hs, _, hl, ho, hf, hb⟩ | hi
  · have hframe : procedure.frame context.scopes = pure (scope, frame) := by
      simp only [Procedure.frame, he, hs, hl, ho, hf, Trail.expect, pure_bind]
    rw [hframe]
    refine ⟨.pure _, ?_⟩
    rintro _ _ ⟨⟩
    exact .inl hb
  · refine ⟨?_, fun _ _ _ => .inr hi⟩
    unfold Procedure.frame
    refine Trail.FailsOnly.bind (.expect fun _ => hi _) fun _ _ => ?_
    refine Trail.FailsOnly.bind (.expect fun _ => hi _) fun _ _ => ?_
    refine Trail.FailsOnly.bind (.expect fun _ => hi _) fun _ _ => ?_
    refine Trail.FailsOnly.bind (.expect fun _ => hi _) fun _ _ => ?_
    exact Trail.FailsOnly.bind (.expect fun _ => hi _) fun _ _ => .pure _

private theorem proceduresCode_fails (procedures : List Procedure) (hx : allowed .registersExhausted)
    (h : ReadyOr allowed (∀ procedure ∈ procedures, procedure.Ready context)) (labels : LabelSupply) :
    Trail.FailsOnly allowed (proceduresCode context labels procedures) := by
  induction procedures generalizing labels with
  | nil => exact .pure _
  | cons procedure rest ih =>
    obtain ⟨hframe, hbody⟩ := Procedure.frame_fails (h.imp fun hr => hr procedure List.mem_cons_self)
    rw [proceduresCode]
    refine hframe.bind fun ⟨scope, frame⟩ hf => ?_
    refine Trail.FailsOnly.bind (.report _) fun _ _ => Trail.FailsOnly.bind (.leave _) fun _ _ => ?_
    refine (Procedure.code_fails hx (hbody scope frame hf)).bind fun _ _ => ?_
    exact ih (h.imp fun hr p hp => hr p (List.mem_cons_of_mem _ hp)) _

theorem Program.code_fails {program : Program} (hx : allowed .registersExhausted)
    (h : ReadyOr allowed (∀ procedure ∈ program.procedures, procedure.Ready context)) :
    Trail.FailsOnly allowed (program.code context) := by
  unfold Program.code
  exact Trail.FailsOnly.bind (.leave _) fun _ _ => proceduresCode_fails _ hx h _

/-- A program whose procedures are ready has code, unless the scratch registers run out. -/
theorem Program.code_failsOnly {program : Program}
    (h : ∀ procedure ∈ program.procedures, procedure.Ready context) :
    Trail.FailsOnly Exhausted (program.code context) := Program.code_fails rfl (.inl h)

end
section
variable {context : Context} {sigs : List Signature} {area : Signature → OutgoingArea} {sig : Signature}

/-- What a body is checked against. -/
def Body.around (body : Body) : Surroundings := ⟨body.context.types, body.context.scopes, body.scope⟩

/-- The body of the procedure as code is generated from it. -/
def Signature.body (context : Context) (sig : Signature) : Body := ⟨context, sig.scope⟩

private theorem Prepared.sound (h : Prepared context sigs area) (hs : sig ∈ sigs) :
    (sig.around context).Sound :=
  h.seen.sound h.built hs (h.fits sig hs) fun name => sig.placed_type context.types name

/-- A variable that has a type is placed. -/
theorem Prepared.offset (h : Prepared context sigs area) (hs : sig ∈ sigs) {name : Name}
    {type : TypeId} (ht : (sig.around context).varType? name = some type) :
    ∃ entry offset, (context.scopes.seen? sig.scope name).bind (·.var?) = some entry ∧
      entry.offset = some offset := by
  obtain ⟨entry, he, _⟩ := Option.map_eq_some_iff.mp ht
  refine ⟨entry, ?_⟩
  have hown := he
  rw [Signature.around, h.seen.seen_variable hs] at hown
  obtain ⟨held, hheld, hv⟩ := Option.bind_eq_some_iff.mp hown
  rcases List.mem_append.mp (Keyed.mem_of_at? hheld) with hm | hm
  · obtain ⟨p, _, hp⟩ := List.mem_map.mp hm
    cases hp
    cases hv
    exact ⟨_, he, rfl⟩
  · obtain ⟨d, _, hd⟩ := List.mem_map.mp hm
    cases hd
    cases hv
    exact ⟨_, he, rfl⟩

/-- For the array of every subscript of a list its type is remembered. -/
def NotedIn (context : Context) (around : Surroundings) (subscripts : List Subscript) : Prop :=
  ∀ sub ∈ subscripts, ∃ type, sub.array.HasType around type ∧
    context.findings.exprs.at? sub.array.node.id = some type

mutual

private theorem Variable.HasType.ready (h : Prepared context sigs area) (hs : sig ∈ sigs) (v : Variable)
    {type : TypeId} (ht : v.HasType (sig.around context) type)
    (hn : NotedIn context (sig.around context) v.subscripts) : v.Ready (sig.body context) := by
  cases ht with
  | named hname => exact h.offset hs hname
  | @element node array index arrayType _ length ha hi he =>
    obtain ⟨hn, hown⟩ := List.forall_mem_append.mp hn
    obtain ⟨hna, hni⟩ := List.forall_mem_append.mp hn
    obtain ⟨found, hfound, hat⟩ := hown _ (List.mem_singleton_self _)
    refine ⟨ha.ready h hs array hna, hi.ready h hs index (by decide) hni, found, type, length,
      hat, ?_⟩
    rw [hfound.unique ha]
    exact he

private theorem Expr.HasType.ready (h : Prepared context sigs area) (hs : sig ∈ sigs) (e : Expr)
    {type : TypeId} (ht : e.HasType (sig.around context) type) (hb : type ≠ TypeId.boolean)
    (hn : NotedIn context (sig.around context) e.subscripts) : e.ValueReady (sig.body context) := by
  cases ht with
  | literal => trivial
  | @load node source _ hv => exact hv.ready h hs source hn
  | @arithmetic node op left right hl hr =>
    obtain ⟨hnl, hnr⟩ := List.forall_mem_append.mp hn
    exact ⟨rfl, hl.ready h hs left (by decide) hnl, hr.ready h hs right (by decide) hnr⟩
  | comparison => exact absurd rfl hb

end

private theorem Expr.HasType.conditionReady (h : Prepared context sigs area) (hs : sig ∈ sigs) {e : Expr}
    (ht : e.HasType (sig.around context) TypeId.boolean)
    (hn : NotedIn context (sig.around context) e.subscripts) : e.ConditionReady (sig.body context) := by
  obtain ⟨node, op, left, right, rfl, hl, hr⟩ := ht.of_boolean (h.sound hs)
  obtain ⟨hnl, hnr⟩ := List.forall_mem_append.mp hn
  exact ⟨rfl, hl.ready h hs left (by decide) hnl, hr.ready h hs right (by decide) hnr⟩

/-- The slots of a procedure that is called have offsets and types that can be declared. -/
theorem Prepared.slot (h : Prepared context sigs area) {name : Name} {entry : ProcedureEntry}
    (hg : GlobalProcedure sigs (Signature.framedEntry context.types area) name entry) :
    ∀ slot ∈ entry.parameters, slot.offset.isSome ∧ slot.type ≠ TypeId.boolean := by
  intro slot hslot
  rcases hg with ⟨p, _, _, rfl⟩ | ⟨other, ho, _, rfl⟩
  · obtain ⟨i, _, rfl⟩ := List.mem_mapIdx.mp hslot
    exact ⟨rfl, by simp [TypeId.int, TypeId.boolean]⟩
  · obtain ⟨p, hp, rfl⟩ := List.mem_map.mp hslot
    exact ⟨rfl, ((h.fits other ho).parameters _ (List.fst_mem_of_mem_zipIdx hp)).1.2⟩

private theorem argumentsReady (h : Prepared context sigs area) (hs : sig ∈ sigs)
    {arguments : List Expr} {slots : List Slot}
    (hslots : ∀ slot ∈ slots, slot.offset.isSome ∧ slot.type ≠ TypeId.boolean)
    (ha : List.Forall₂ (Expr.FitsParameter (sig.around context)) arguments
      (slots.map fun slot => (slot.type, slot.byReference)))
    (hn : NotedIn context (sig.around context) (arguments.flatMap (·.subscripts))) :
    List.Forall₂ (Expr.ArgumentReady (sig.body context)) arguments slots := by
  induction slots generalizing arguments with
  | nil =>
    cases ha
    exact .nil
  | cons slot slots ih =>
    obtain ⟨⟨hoffset, htype⟩, hrest⟩ := List.forall_mem_cons.mp hslots
    cases ha with
    | @cons argument _ arguments _ hfit ha =>
      rw [List.flatMap_cons] at hn
      obtain ⟨hna, hnrest⟩ := List.forall_mem_append.mp hn
      exact .cons ⟨hfit.1.ready h hs argument htype hna, hfit.2, hoffset⟩ (ih hrest ha hnrest)

mutual

private theorem Stmt.Typed.ready (h : Prepared context sigs area) (hs : sig ∈ sigs) (s : Stmt)
    (ht : s.Typed (sig.around context)) (hn : NotedIn context (sig.around context) s.subscripts) :
    s.Ready (sig.body context) := by
  cases s with
  | assign position target value =>
    cases ht with
    | assign htarget hvalue =>
      obtain ⟨hnt, hnv⟩ := List.forall_mem_append.mp hn
      exact ⟨htarget.ready h hs target hnt, hvalue.ready h hs value (by decide) hnv⟩
  | ifThen position condition thenPart =>
    cases ht with
    | ifThen hc hp =>
      obtain ⟨hnc, hnp⟩ := List.forall_mem_append.mp hn
      exact ⟨hc.conditionReady h hs hnc, hp.ready h hs thenPart hnp⟩
  | ifElse position condition thenPart elsePart =>
    cases ht with
    | ifElse hc hp he =>
      obtain ⟨hn, hne⟩ := List.forall_mem_append.mp hn
      obtain ⟨hnc, hnp⟩ := List.forall_mem_append.mp hn
      exact ⟨hc.conditionReady h hs hnc, hp.ready h hs thenPart hnp, he.ready h hs elsePart hne⟩
  | whileDo position condition body =>
    cases ht with
    | whileDo hc hb =>
      obtain ⟨hnc, hnb⟩ := List.forall_mem_append.mp hn
      exact ⟨hc.conditionReady h hs hnc, hb.ready h hs body hnb⟩
  | call position callee arguments =>
    cases ht with
    | call hc ha =>
      obtain ⟨entry, he, rfl⟩ := Option.map_eq_some_iff.mp hc
      exact ⟨entry, he, argumentsReady h hs (h.slot ((h.seen.callee?_iff hs).mp he)) ha hn⟩
  | block position body =>
    cases ht with
    | block hb => exact allTyped_ready h hs body hb hn
  | empty position => trivial

private theorem allTyped_ready (h : Prepared context sigs area) (hs : sig ∈ sigs) (body : List Stmt)
    (ht : ∀ stmt ∈ body, stmt.Typed (sig.around context))
    (hn : NotedIn context (sig.around context) (allSubscripts body)) :
    AllReady (sig.body context) body := by
  cases body with
  | nil => trivial
  | cons stmt rest =>
    obtain ⟨hst, hrt⟩ := List.forall_mem_cons.mp ht
    obtain ⟨hns, hnr⟩ := List.forall_mem_append.mp hn
    exact ⟨hst.ready h hs stmt hns, allTyped_ready h hs rest hrt hnr⟩

end

/-- A prepared procedure whose arrays have their types remembered is ready. -/
theorem Prepared.ready (h : Prepared context sigs area) (hs : sig ∈ sigs)
    (hn : NotedIn context (sig.around context) (allSubscripts sig.procedure.body)) :
    sig.procedure.Ready context := by
  obtain ⟨frame, hframe⟩ := Option.isSome_iff_exists.mp (h.framed sig hs)
  exact ⟨_, sig.scope, _, area sig, frame, h.seen.procedure?_of_mem hs, rfl, rfl, rfl, rfl, hframe,
    allTyped_ready h hs _ (h.typed sig hs) hn⟩

end
end SplLang

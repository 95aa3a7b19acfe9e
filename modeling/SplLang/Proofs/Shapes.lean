import SplLang.Code.Program
import SplLang.Proofs.Steps

/-! What the code of each form of tree is made of. -/
namespace SplLang
open Machine

/-- A line that holds an instruction. -/
abbrev instr (mnemonic : Mnemonic) (operands : List Operand) : Line :=
  .instruction ⟨mnemonic, operands⟩

/-- The scratch registers with one more in use. -/
def Machine.Scratch.next (scratch : Scratch) : Scratch := ⟨scratch.inUse + 1⟩

section
variable {body : Body} {scratch result : Scratch} {found : Assembly} {node : Node}

@[simp]
theorem gives_instruction {mnemonic : Mnemonic} {operands : List Operand} {u : Unit} :
    (Emit.instruction mnemonic operands).Gives u found ↔ found = [instr mnemonic operands] :=
  Trail.gives_leave

private theorem gives_instruction_bind {α : Type} {mnemonic : Mnemonic} {operands : List Operand}
    {next : Unit → Emit α} {a : α} :
    (Emit.instruction mnemonic operands >>= next).Gives a found ↔
      ∃ rest, (next ()).Gives a rest ∧ found = instr mnemonic operands :: rest :=
  Trail.gives_leave_bind

private theorem gives_label_bind {α : Type} {l : Label} {next : Unit → Emit α} {a : α} :
    (Emit.label l >>= next).Gives a found ↔
      ∃ rest, (next ()).Gives a rest ∧ found = .label l :: rest :=
  Trail.gives_leave_bind

private theorem gives_push_bind {α : Type} {position : Position} {next : Scratch → Emit α} {a : α} :
    (Emit.push scratch position >>= next).Gives a found ↔
      scratch.inUse < Scratch.capacity ∧ (next scratch.next).Gives a found := by
  unfold Emit.push
  rw [Trail.gives_expect_bind]
  constructor
  · rintro ⟨pushed, hp, h⟩
    obtain ⟨hlt, rfl⟩ := Scratch.push?_eq_some_iff.mp hp
    exact ⟨hlt, h⟩
  · rintro ⟨hlt, h⟩
    exact ⟨_, Scratch.push?_eq_some_iff.mpr ⟨hlt, rfl⟩, h⟩

/-- The place of a named variable. -/
def Body.placed? (body : Body) (name : Name) : Option (Int32 × Bool) := do
  let entry ← (body.context.scopes.seen? body.scope name).bind (·.var?)
  let offset ← entry.offset
  return (offset, entry.byReference)

/-- The array type remembered for a variable. -/
def Body.noted? (body : Body) (array : Variable) : Option (TypeId × UInt32) :=
  (body.context.findings.exprs.at? array.node.id).bind body.context.types.array?

private theorem gives_place?_bind {α : Type} {position : Position} {name : Name}
    {next : Int32 × Bool → Emit α} {a : α} (h : (body.place? position name >>= next).Gives a found) :
    ∃ place, body.placed? name = some place ∧ (next place).Gives a found := by
  unfold Body.place? at h
  rw [bind_assoc, Trail.gives_expect_bind] at h
  obtain ⟨entry, he, h⟩ := h
  rw [bind_assoc, Trail.gives_expect_bind] at h
  obtain ⟨offset, ho, h⟩ := h
  rw [pure_bind] at h
  refine ⟨_, ?_, h⟩
  simp [Body.placed?, he, ho]

/-- What follows a reference, if there is one to follow. -/
def followCode (byReference : Bool) (register : Register) : Assembly :=
  if byReference then [instr .ldw [register, register, .imm 0]] else []

private theorem gives_follow_bind {α : Type} {byReference : Bool} {next : Unit → Emit α} {a : α} :
    (Emit.follow byReference scratch >>= next).Gives a found ↔
      ∃ rest, (next ()).Gives a rest ∧ found = followCode byReference scratch.top ++ rest := by
  unfold Emit.follow followCode
  cases byReference with
  | true => exact gives_instruction_bind
  | false => simp

theorem Variable.named_shape {name : Name}
    (h : ((Variable.named node name).addressCode body scratch).Gives result found) :
    ∃ offset byReference, body.placed? name = some (offset, byReference) ∧
      scratch.inUse < Scratch.capacity ∧ result = scratch.next ∧
      found = instr .add [scratch.next.top, Register.framePointer, .imm offset.toInt] ::
        followCode byReference scratch.next.top := by
  rw [addressCode] at h
  obtain ⟨⟨offset, byReference⟩, hp, h⟩ := gives_place?_bind h
  rw [gives_push_bind, gives_instruction_bind] at h
  obtain ⟨hlt, rest, hf, rfl⟩ := h
  obtain ⟨last, hr, rfl⟩ := gives_follow_bind.mp hf
  obtain ⟨rfl, rfl⟩ := Trail.gives_pure.mp hr
  exact ⟨offset, byReference, hp, hlt, rfl, by rw [List.append_nil]⟩

/-- The check of an index and the address of the element behind it: the address of the array is
in the second register from the top and the index in the top one. -/
def elementCode (scratch : Scratch) (length elementSize : UInt32) : Assembly :=
  [instr .add [scratch.next.top, Register.zero, .imm length.toNat],
    instr .bgeu [scratch.top, scratch.next.top, Label.indexError],
    instr .mul [scratch.top, scratch.top, .imm elementSize.toNat],
    instr .add [scratch.second, scratch.second, scratch.top]]

theorem Variable.element_shape {array : Variable} {index : Expr}
    (h : ((Variable.element node array index).addressCode body scratch).Gives result found) :
    ∃ element length middle last first rest, body.noted? array = some (element, length) ∧
      (array.addressCode body scratch).Gives middle first ∧ (index.valueCode body middle).Gives last rest ∧
      last.inUse < Scratch.capacity ∧ result = last.pop ∧
      found = first ++ rest ++ elementCode last length (body.context.types.byteSize element) := by
  rw [addressCode, Body.array?, Trail.gives_expect_bind] at h
  obtain ⟨⟨element, length⟩, hn, h⟩ := h
  obtain ⟨middle, first, _, ha, hindex, rfl⟩ := Trail.gives_bind.mp h
  obtain ⟨last, rest, _, hi, htail, rfl⟩ := Trail.gives_bind.mp hindex
  rw [gives_push_bind] at htail
  simp only [gives_instruction_bind, Trail.gives_pure] at htail
  obtain ⟨hlt, _, ⟨_, ⟨_, ⟨_, ⟨rfl, rfl⟩, rfl⟩, rfl⟩, rfl⟩, rfl⟩ := htail
  exact ⟨element, length, middle, last, first, rest, hn, ha, hi, hlt, rfl, by simp [elementCode]⟩

theorem Expr.literal_shape {value : Int32}
    (h : ((Expr.literal node value).valueCode body scratch).Gives result found) :
    scratch.inUse < Scratch.capacity ∧ result = scratch.next ∧
      found = [instr .add [scratch.next.top, Register.zero, .imm value.toInt]] := by
  rw [valueCode, gives_push_bind, gives_instruction_bind] at h
  obtain ⟨hlt, _, hr, rfl⟩ := h
  obtain ⟨rfl, rfl⟩ := Trail.gives_pure.mp hr
  exact ⟨hlt, rfl, rfl⟩

theorem Expr.load_shape {source : Variable}
    (h : ((Expr.load node source).valueCode body scratch).Gives result found) :
    ∃ first, (source.addressCode body scratch).Gives result first ∧
      found = first ++ [instr .ldw [result.top, result.top, .imm 0]] := by
  rw [valueCode, Trail.gives_bind] at h
  obtain ⟨middle, first, _, hs, hl, rfl⟩ := h
  rw [gives_instruction_bind] at hl
  obtain ⟨_, hr, rfl⟩ := hl
  obtain ⟨rfl, rfl⟩ := Trail.gives_pure.mp hr
  exact ⟨first, hs, rfl⟩

theorem Expr.binary_shape {op : Operator} {left right : Expr}
    (h : ((Expr.binary node op left right).valueCode body scratch).Gives result found) :
    ∃ arithmetic middle last first rest, op = .arithmetic arithmetic ∧
      (left.valueCode body scratch).Gives middle first ∧ (right.valueCode body middle).Gives last rest ∧
      result = last.pop ∧
      found = first ++ rest ++ [instr arithmetic.mnemonic [last.second, last.second, last.top]] := by
  cases op with
  | comparison op =>
    rw [valueCode] at h
    cases Trail.gives_fail.mp h
  | arithmetic op =>
    rw [valueCode, Trail.gives_bind] at h
    obtain ⟨middle, first, _, hl, hright, rfl⟩ := h
    obtain ⟨last, rest, _, hr, htail, rfl⟩ := Trail.gives_bind.mp hright
    rw [gives_instruction_bind] at htail
    obtain ⟨_, hp, rfl⟩ := htail
    obtain ⟨rfl, rfl⟩ := Trail.gives_pure.mp hp
    exact ⟨op, middle, last, first, rest, rfl, hl, hr, rfl, by simp⟩

theorem Expr.condition_shape {target : Label} {condition : Expr} {u : Unit}
    (h : (condition.conditionCode body target).Gives u found) :
    ∃ node comparison left right middle last first rest,
      condition = .binary node (.comparison comparison) left right ∧
      (left.valueCode body .empty).Gives middle first ∧ (right.valueCode body middle).Gives last rest ∧
      found = first ++ rest ++ [instr comparison.negated.branch [last.second, last.top, target]] := by
  cases condition with
  | literal node value => cases Trail.gives_fail.mp h
  | load node source => cases Trail.gives_fail.mp h
  | binary node op left right =>
    cases op with
    | arithmetic op => cases Trail.gives_fail.mp h
    | comparison op =>
      rw [conditionCode, Trail.gives_bind] at h
      obtain ⟨middle, first, _, hl, hright, rfl⟩ := h
      obtain ⟨last, rest, _, hr, htail, rfl⟩ := Trail.gives_bind.mp hright
      rw [gives_instruction] at htail
      subst htail
      exact ⟨node, op, left, right, middle, last, first, rest, rfl, hl, hr, by simp⟩

mutual

/-- An address takes one more scratch register than were in use. -/
theorem Variable.addressCode_scratch (v : Variable) {scratch result : Scratch} {found : Assembly}
    (h : (v.addressCode body scratch).Gives result found) : result = scratch.next := by
  cases v with
  | named node name =>
    obtain ⟨_, _, _, _, hr, _⟩ := Variable.named_shape h
    exact hr
  | element node array index =>
    obtain ⟨_, _, middle, last, _, _, _, ha, hi, _, hr, _⟩ := Variable.element_shape h
    rw [hr, index.valueCode_scratch hi, array.addressCode_scratch ha]
    rfl

/-- A value takes one more scratch register than were in use. -/
theorem Expr.valueCode_scratch (e : Expr) {scratch result : Scratch} {found : Assembly}
    (h : (e.valueCode body scratch).Gives result found) : result = scratch.next := by
  cases e with
  | literal node value => exact (Expr.literal_shape h).2.1
  | load node source =>
    obtain ⟨_, hs, _⟩ := Expr.load_shape h
    exact source.addressCode_scratch hs
  | binary node op left right =>
    obtain ⟨_, middle, last, _, _, _, hl, hright, hr, _⟩ := Expr.binary_shape h
    rw [hr, right.valueCode_scratch hright, left.valueCode_scratch hl]
    rfl

end

mutual

/-- An address takes a scratch register that was left. -/
theorem Variable.addressCode_room (v : Variable) {scratch result : Scratch} {found : Assembly}
    (h : (v.addressCode body scratch).Gives result found) : scratch.inUse < Scratch.capacity := by
  cases v with
  | named node name =>
    obtain ⟨_, _, _, hlt, _⟩ := Variable.named_shape h
    exact hlt
  | element node array index =>
    obtain ⟨_, _, _, _, _, _, _, ha, _⟩ := Variable.element_shape h
    exact array.addressCode_room ha

/-- A value takes a scratch register that was left. -/
theorem Expr.valueCode_room (e : Expr) {scratch result : Scratch} {found : Assembly}
    (h : (e.valueCode body scratch).Gives result found) : scratch.inUse < Scratch.capacity := by
  cases e with
  | literal node value => exact (Expr.literal_shape h).1
  | load node source =>
    obtain ⟨_, hs, _⟩ := Expr.load_shape h
    exact source.addressCode_room hs
  | binary node op left right =>
    obtain ⟨_, _, _, _, _, _, hl, _⟩ := Expr.binary_shape h
    exact left.valueCode_room hl

end

theorem Expr.value_argument_shape {argument : Expr}
    (h : (argument.argumentCode body false).Gives result found) :
    (argument.valueCode body .empty).Gives result found := by
  rwa [argumentCode] at h

theorem Expr.reference_argument_shape {argument : Expr}
    (h : (argument.argumentCode body true).Gives result found) :
    ∃ node source, argument = .load node source ∧
      (source.addressCode body .empty).Gives result found := by
  cases argument with
  | literal node value => cases Trail.gives_fail.mp h
  | load node source => exact ⟨node, source, rfl, h⟩
  | binary node op left right => cases Trail.gives_fail.mp h

/-- An argument is left in the first scratch register. -/
theorem Expr.argumentCode_scratch {byReference : Bool} {argument : Expr}
    (h : (argument.argumentCode body byReference).Gives result found) :
    result = Scratch.empty.next := by
  cases byReference with
  | false => exact argument.valueCode_scratch (Expr.value_argument_shape h)
  | true =>
    obtain ⟨_, source, _, hs⟩ := Expr.reference_argument_shape h
    exact source.addressCode_scratch hs

theorem arguments_shape {callee : Name} {slot : Slot} {slots : List Slot} {argument : Expr}
    {arguments : List Expr} {u : Unit}
    (h : (argumentsCode body callee (slot :: slots) (argument :: arguments)).Gives u found) :
    ∃ offset last first rest, slot.offset = some offset ∧
      (argument.argumentCode body slot.byReference).Gives last first ∧
      (argumentsCode body callee slots arguments).Gives u rest ∧
      found = first ++ instr .stw [last.top, Register.stackPointer, .imm offset.toNat] :: rest := by
  rw [argumentsCode, Trail.gives_bind] at h
  obtain ⟨last, first, _, ha, h₁, rfl⟩ := h
  obtain ⟨offset, ho, h₂⟩ := Trail.gives_expect_bind.mp h₁
  obtain ⟨rest, hr, rfl⟩ := gives_instruction_bind.mp h₂
  exact ⟨offset, last, first, rest, ho, ha, hr, rfl⟩

/-- Where slots or arguments have run out nothing is passed. -/
theorem no_arguments_shape {callee : Name} {slots : List Slot} {arguments : List Expr} {u : Unit}
    (hn : slots = [] ∨ arguments = []) (h : (argumentsCode body callee slots arguments).Gives u found) :
    found = [] := by
  rw [argumentsCode.eq_2] at h
  · exact (Trail.gives_pure.mp h).2
  · rintro slot slots argument arguments rfl rfl
    simp at hn

section
variable {labels labels' : LabelSupply} {position : Position} {condition : Expr}

theorem Stmt.assign_shape {target : Variable} {value : Expr}
    (h : ((Stmt.assign position target value).code body labels).Gives labels' found) :
    ∃ middle last first rest, labels' = labels ∧ (target.addressCode body .empty).Gives middle first ∧
      (value.valueCode body middle).Gives last rest ∧
      found = first ++ rest ++ [instr .stw [last.top, last.second, .imm 0]] := by
  rw [Stmt.code, Trail.gives_bind] at h
  obtain ⟨middle, first, _, ht, h₁, rfl⟩ := h
  obtain ⟨last, rest, _, hv, h₂, rfl⟩ := Trail.gives_bind.mp h₁
  obtain ⟨_, hp, rfl⟩ := gives_instruction_bind.mp h₂
  obtain ⟨rfl, rfl⟩ := Trail.gives_pure.mp hp
  exact ⟨middle, last, first, rest, rfl, ht, hv, by simp⟩

theorem Stmt.ifThen_shape {thenPart : Stmt}
    (h : ((Stmt.ifThen position condition thenPart).code body labels).Gives labels' found) :
    ∃ first rest, (condition.conditionCode body (.generated labels.issued)).Gives () first ∧
      (thenPart.code body ⟨labels.issued + 1⟩).Gives labels' rest ∧
      found = first ++ rest ++ [.label (.generated labels.issued)] := by
  simp only [Stmt.code, LabelSupply.next, Trail.gives_report_bind] at h
  obtain ⟨_, first, _, hc, h₁, rfl⟩ := Trail.gives_bind.mp h
  obtain ⟨_, rest, _, ht, h₂, rfl⟩ := Trail.gives_bind.mp h₁
  obtain ⟨_, hp, rfl⟩ := gives_label_bind.mp h₂
  obtain ⟨rfl, rfl⟩ := Trail.gives_pure.mp hp
  exact ⟨first, rest, hc, ht, by simp⟩

theorem Stmt.ifElse_shape {thenPart elsePart : Stmt}
    (h : ((Stmt.ifElse position condition thenPart elsePart).code body labels).Gives labels' found) :
    ∃ middle first rest last,
      (condition.conditionCode body (.generated labels.issued)).Gives () first ∧
      (thenPart.code body ⟨labels.issued + 2⟩).Gives middle rest ∧
      (elsePart.code body middle).Gives labels' last ∧
      found = first ++ rest ++ [instr .j [Label.generated (labels.issued + 1)],
        .label (.generated labels.issued)] ++ last ++ [.label (.generated (labels.issued + 1))] := by
  simp only [Stmt.code, LabelSupply.next, Trail.gives_report_bind] at h
  obtain ⟨_, first, _, hc, h₁, rfl⟩ := Trail.gives_bind.mp h
  obtain ⟨middle, rest, _, ht, h₂, rfl⟩ := Trail.gives_bind.mp h₁
  obtain ⟨_, h₃, rfl⟩ := gives_instruction_bind.mp h₂
  obtain ⟨_, h₄, rfl⟩ := gives_label_bind.mp h₃
  obtain ⟨_, last, _, he, h₅, rfl⟩ := Trail.gives_bind.mp h₄
  obtain ⟨_, hp, rfl⟩ := gives_label_bind.mp h₅
  obtain ⟨rfl, rfl⟩ := Trail.gives_pure.mp hp
  exact ⟨middle, first, rest, last, hc, ht, he, by simp⟩

theorem Stmt.whileDo_shape {loopBody : Stmt}
    (h : ((Stmt.whileDo position condition loopBody).code body labels).Gives labels' found) :
    ∃ first rest, (condition.conditionCode body (.generated (labels.issued + 1))).Gives () first ∧
      (loopBody.code body ⟨labels.issued + 2⟩).Gives labels' rest ∧
      found = .label (.generated labels.issued) :: first ++ rest ++
        [instr .j [Label.generated labels.issued], .label (.generated (labels.issued + 1))] := by
  simp only [Stmt.code, LabelSupply.next, Trail.gives_report_bind] at h
  obtain ⟨_, h₁, rfl⟩ := gives_label_bind.mp h
  obtain ⟨_, first, _, hc, h₂, rfl⟩ := Trail.gives_bind.mp h₁
  obtain ⟨_, rest, _, hb, h₃, rfl⟩ := Trail.gives_bind.mp h₂
  obtain ⟨_, h₄, rfl⟩ := gives_instruction_bind.mp h₃
  obtain ⟨_, hp, rfl⟩ := gives_label_bind.mp h₄
  obtain ⟨rfl, rfl⟩ := Trail.gives_pure.mp hp
  exact ⟨first, rest, hc, hb, by simp⟩

theorem Stmt.call_shape {callee : Name} {arguments : List Expr}
    (h : ((Stmt.call position callee arguments).code body labels).Gives labels' found) :
    ∃ entry rest, labels' = labels ∧ body.context.scopes.callee? body.scope callee = some entry ∧
      (argumentsCode body callee entry.parameters arguments).Gives () rest ∧
      found = rest ++ [instr .jal [Label.named callee]] := by
  rw [Stmt.code, Trail.gives_expect_bind] at h
  obtain ⟨entry, he, h₁⟩ := h
  obtain ⟨_, rest, _, ha, h₂, rfl⟩ := Trail.gives_bind.mp h₁
  obtain ⟨_, hp, rfl⟩ := gives_instruction_bind.mp h₂
  obtain ⟨rfl, rfl⟩ := Trail.gives_pure.mp hp
  exact ⟨entry, rest, rfl, he, ha, rfl⟩

theorem codeAll_shape {stmt : Stmt} {stmts : List Stmt}
    (h : (codeAll body labels (stmt :: stmts)).Gives labels' found) :
    ∃ middle first rest, (stmt.code body labels).Gives middle first ∧
      (codeAll body middle stmts).Gives labels' rest ∧ found = first ++ rest := by
  rw [codeAll, Trail.gives_bind] at h
  exact h

/-- What saves or restores the return address. -/
def returnAddressLines (frame : FrameLayout) (mnemonic : Mnemonic) : Assembly :=
  match frame.savedReturnAddress with
  | some offset => [instr mnemonic [Register.returnAddress, Register.framePointer, .imm offset.toInt]]
  | none => []

private theorem gives_returnAddressCode_bind {frame : FrameLayout} {mnemonic : Mnemonic} {α : Type}
    {next : Unit → Emit α} {a : α} :
    (frame.returnAddressCode mnemonic >>= next).Gives a found ↔
      ∃ rest, (next ()).Gives a rest ∧ found = returnAddressLines frame mnemonic ++ rest := by
  unfold FrameLayout.returnAddressCode returnAddressLines
  cases frame.savedReturnAddress with
  | none => simp
  | some offset => exact gives_instruction_bind

/-- What a procedure does before its body. -/
def prologue (frame : FrameLayout) : Assembly :=
  instr .sub [Register.stackPointer, Register.stackPointer, .imm frame.size.toNat] ::
  instr .stw [Register.framePointer, Register.stackPointer, .imm frame.savedFramePointer.toNat] ::
  instr .add [Register.framePointer, Register.stackPointer, .imm frame.size.toNat] ::
  returnAddressLines frame .stw

/-- What a procedure does behind its body. -/
def epilogue (frame : FrameLayout) : Assembly :=
  returnAddressLines frame .ldw ++
  [instr .ldw [Register.framePointer, Register.stackPointer, .imm frame.savedFramePointer.toNat],
    instr .add [Register.stackPointer, Register.stackPointer, .imm frame.size.toNat],
    instr .jr [Register.returnAddress]]

theorem Procedure.code_shape {context : Context} {scope : ScopeId} {frame : FrameLayout}
    {procedure : Procedure}
    (h : (procedure.code context scope frame labels).Gives labels' found) :
    ∃ inner, (codeAll ⟨context, scope⟩ labels procedure.body).Gives labels' inner ∧
      found = .directive (".export " ++ procedure.name) :: .label (.named procedure.name) ::
        prologue frame ++ inner ++ epilogue frame := by
  simp only [Procedure.code] at h
  obtain ⟨_, h₁, rfl⟩ := Trail.gives_leave_bind.mp h
  obtain ⟨_, h₂, rfl⟩ := gives_instruction_bind.mp h₁
  obtain ⟨_, h₃, rfl⟩ := gives_instruction_bind.mp h₂
  obtain ⟨_, h₄, rfl⟩ := gives_instruction_bind.mp h₃
  obtain ⟨_, h₅, rfl⟩ := gives_returnAddressCode_bind.mp h₄
  obtain ⟨_, inner, _, hi, h₆, rfl⟩ := Trail.gives_bind.mp h₅
  obtain ⟨_, h₇, rfl⟩ := gives_returnAddressCode_bind.mp h₆
  obtain ⟨_, h₈, rfl⟩ := gives_instruction_bind.mp h₇
  obtain ⟨_, h₉, rfl⟩ := gives_instruction_bind.mp h₈
  obtain ⟨_, hp, rfl⟩ := gives_instruction_bind.mp h₉
  obtain ⟨rfl, rfl⟩ := Trail.gives_pure.mp hp
  exact ⟨inner, hi, by simp [prologue, epilogue]⟩

theorem Procedure.frame_shape {scopes : ScopeTree} {procedure : Procedure} {scope : ScopeId}
    {frame : FrameLayout} (h : (procedure.frame scopes).Gives (scope, frame) found) :
    ∃ entry localArea outgoing, scopes.procedure? procedure.name = some entry ∧
      entry.scope = some scope ∧ entry.localArea = some localArea ∧
      entry.outgoing = some outgoing ∧ FrameLayout.of? localArea outgoing = some frame ∧
      found = [] := by
  simp only [Procedure.frame] at h
  obtain ⟨entry, he, h₁⟩ := Trail.gives_expect_bind.mp h
  obtain ⟨scope, hs, h₂⟩ := Trail.gives_expect_bind.mp h₁
  obtain ⟨localArea, hl, h₃⟩ := Trail.gives_expect_bind.mp h₂
  obtain ⟨outgoing, ho, h₄⟩ := Trail.gives_expect_bind.mp h₃
  obtain ⟨frame, hf, h₅⟩ := Trail.gives_expect_bind.mp h₄
  obtain ⟨hp, rfl⟩ := Trail.gives_pure.mp h₅
  cases hp
  exact ⟨entry, localArea, outgoing, he, hs, hl, ho, hf, rfl⟩

theorem procedures_shape {context : Context} {procedure : Procedure} {procedures : List Procedure}
    (h : (proceduresCode context labels (procedure :: procedures)).Gives labels' found) :
    ∃ scope frame middle first rest, (procedure.frame context.scopes).Gives (scope, frame) [] ∧
      (procedure.code context scope frame labels).Gives middle first ∧
      (proceduresCode context middle procedures).Gives labels' rest ∧
      found = .blank :: first ++ rest := by
  rw [proceduresCode, Trail.gives_bind] at h
  obtain ⟨⟨scope, frame⟩, none, _, hf, h₁, rfl⟩ := h
  have hnone : none = [] := by
    obtain ⟨_, _, _, _, _, _, _, _, hn⟩ := Procedure.frame_shape hf
    exact hn
  rw [hnone] at hf ⊢
  rw [Trail.gives_report_bind] at h₁
  obtain ⟨_, h₂, rfl⟩ := Trail.gives_leave_bind.mp h₁
  obtain ⟨middle, first, rest, hc, h₃, rfl⟩ := Trail.gives_bind.mp h₂
  exact ⟨scope, frame, middle, first, rest, hf, hc, h₃, by simp⟩

theorem Program.code_shape {context : Context} {program : Program}
    (h : (program.code context).Gives labels' found) :
    ∃ rest, (proceduresCode context .new program.procedures).Gives labels' rest ∧
      found = header ++ rest := by
  rw [Program.code] at h
  exact Trail.gives_leave_bind.mp h

/-- Code for two runs of procedures: the second run goes on with the labels that the first one leaves. -/
theorem proceduresCode_append {context : Context} (earlier later : List Procedure) (labels : LabelSupply) :
    proceduresCode context labels (earlier ++ later) =
      proceduresCode context labels earlier >>= fun middle => proceduresCode context middle later := by
  induction earlier generalizing labels with
  | nil => rw [List.nil_append, proceduresCode, pure_bind]
  | cons procedure earlier ih => simp only [List.cons_append, proceduresCode, bind_assoc, ih]

/-- The code of each procedure stands somewhere in the code of the program. -/
theorem Program.code_split {context : Context} {program : Program} {procedure : Procedure}
    (h : (program.code context).Gives labels' found) (hp : procedure ∈ program.procedures) :
    ∃ scope frame supply supply' inner before after, (procedure.frame context.scopes).Gives (scope, frame) [] ∧
      (codeAll ⟨context, scope⟩ supply procedure.body).Gives supply' inner ∧
      found = before ++ .label (.named procedure.name) :: (prologue frame ++ inner ++ epilogue frame) ++ after := by
  obtain ⟨rest, hr, rfl⟩ := Program.code_shape h
  obtain ⟨earlier, later, hsplit⟩ := List.append_of_mem hp
  rw [hsplit, proceduresCode_append] at hr
  obtain ⟨supply, first, _, _, hlater, rfl⟩ := Trail.gives_bind.mp hr
  obtain ⟨scope, frame, supply', code, after, hf, hc, _, rfl⟩ := procedures_shape hlater
  obtain ⟨inner, hi, rfl⟩ := Procedure.code_shape hc
  exact ⟨scope, frame, supply, supply', inner,
    header ++ first ++ [.blank, .directive (".export " ++ procedure.name)], after, hf, hi, by simp⟩

end
end
end SplLang

import SplLang.Code.Expression

/-! Code for statements. Labels are drawn from a supply that each statement hands on,
so no label is drawn twice. -/
namespace SplLang
open Machine

/-- Code that leaves the address of a variable passed by reference, or else the value. -/
def Expr.argumentCode (body : Body) (byReference : Bool) (argument : Expr) : Emit Scratch :=
  match byReference, argument with
  | false, _ => argument.valueCode body .empty
  | true, .load _ source => source.addressCode body .empty
  | true, _ => Trail.fail argument.node.position (.internal .valueArgumentByReference)

/-- Code that stores each argument in its slot of the outgoing area. -/
def argumentsCode (body : Body) (callee : Name) : List Slot → List Expr → Emit Unit
  | slot :: slots, argument :: arguments => do
    let scratch ← argument.argumentCode body slot.byReference
    let offset ← Trail.expect slot.offset argument.node.position
      (.internal (.noParameterSlot callee))
    Emit.instruction .stw [scratch.top, Register.stackPointer, .imm offset.toNat]
    argumentsCode body callee slots arguments
  | _, _ => return ()

mutual

/-- Code for a statement; answers the labels that are left. -/
def Stmt.code (body : Body) (labels : LabelSupply) : Stmt → Emit LabelSupply
  | .assign _ target value => do
    let scratch ← target.addressCode body .empty
    let scratch ← value.valueCode body scratch
    Emit.instruction .stw [scratch.top, scratch.second, .imm 0]
    return labels
  | .ifThen _ condition thenPart => do
    let (endLabel, labels) := labels.next
    Trail.report (.ifLabelled endLabel endLabel)
    condition.conditionCode body endLabel
    let labels ← thenPart.code body labels
    Emit.label endLabel
    return labels
  | .ifElse _ condition thenPart elsePart => do
    let (elseLabel, labels) := labels.next
    let (endLabel, labels) := labels.next
    Trail.report (.ifLabelled elseLabel endLabel)
    condition.conditionCode body elseLabel
    let labels ← thenPart.code body labels
    Emit.instruction .j [endLabel]
    Emit.label elseLabel
    let labels ← elsePart.code body labels
    Emit.label endLabel
    return labels
  | .whileDo _ condition loopBody => do
    let (conditionLabel, labels) := labels.next
    let (endLabel, labels) := labels.next
    Trail.report (.whileLabelled conditionLabel endLabel)
    Emit.label conditionLabel
    condition.conditionCode body endLabel
    let labels ← loopBody.code body labels
    Emit.instruction .j [conditionLabel]
    Emit.label endLabel
    return labels
  | .call position callee arguments => do
    let entry ← Trail.expect (body.context.scopes.callee? body.scope callee) position
      (.internal (.notProcedure callee))
    argumentsCode body callee entry.parameters arguments
    Emit.instruction .jal [Label.named callee]
    return labels
  | .block _ stmts => codeAll body labels stmts
  | .empty _ => return labels

/-- Code for statements in sequence; answers the labels that are left. -/
def codeAll (body : Body) (labels : LabelSupply) : List Stmt → Emit LabelSupply
  | [] => return labels
  | stmt :: rest => do
    let labels ← stmt.code body labels
    codeAll body labels rest

end
end SplLang

import SplLang.Machine.Assembly
import SplLang.Phase

/-! Code for expressions, addresses and conditions. An expression leaves its value, and
a variable its address, in one more scratch register than were in use. -/
namespace SplLang
open Machine

/-- What code is generated from: the finished context and the scope of the body. -/
structure Body where
  context : Context
  scope : ScopeId

abbrev Emit := Trail Line

namespace Emit

def instruction (mnemonic : Mnemonic) (operands : List Operand) : Emit Unit :=
  Trail.leave [.instruction ⟨mnemonic, operands⟩]

def label (label : Label) : Emit Unit := Trail.leave [.label label]

/-- Take a scratch register for the node at a position. -/
def push (scratch : Scratch) (position : Position) : Emit Scratch :=
  Trail.expect scratch.push? position .registersExhausted

end Emit

/-- The instruction that computes the operator. -/
def Arithmetic.mnemonic : Arithmetic → Mnemonic
  | .add => .add
  | .sub => .sub
  | .mul => .mul
  | .div => .div

/-- The branch that is taken when the comparison holds. -/
def Comparison.branch : Comparison → Mnemonic
  | .eq => .beq
  | .ne => .bne
  | .lt => .blt
  | .le => .ble
  | .gt => .bgt
  | .ge => .bge

/-- A named variable's offset from the frame pointer, and whether the slot there
holds the address of the variable instead of the variable. -/
def Body.place? (body : Body) (position : Position) (name : Name) : Emit (Int32 × Bool) := do
  let entry ← Trail.expect ((body.context.scopes.seen? body.scope name).bind (·.var?)) position
    (.internal (.notVariable name))
  let offset ← Trail.expect entry.offset position (.internal (.noFrameOffset name))
  return (offset, entry.byReference)

/-- Element type and length of the array type that was found for a variable. -/
def Body.array? (body : Body) (position : Position) (array : Variable) :
    Emit (TypeId × UInt32) :=
  Trail.expect ((body.context.findings.exprs.at? array.node.id).bind body.context.types.array?)
    position (.internal .notIndexable)

/-- Code that follows a reference: the slot at the address in the top register
holds the address that is meant. -/
def Emit.follow (byReference : Bool) (scratch : Scratch) : Emit Unit :=
  if byReference then Emit.instruction .ldw [scratch.top, scratch.top, .imm 0] else pure ()

mutual

/-- Code that leaves the address of a variable in the next scratch register. The index of
an element is compared with the length of its array before the address is used. -/
def Variable.addressCode (body : Body) (scratch : Scratch) : Variable → Emit Scratch
  | .named node name => do
    let (offset, byReference) ← body.place? node.position name
    let scratch ← Emit.push scratch node.position
    Emit.instruction .add [scratch.top, Register.framePointer, .imm offset.toInt]
    Emit.follow byReference scratch
    return scratch
  | .element node array index => do
    let (element, length) ← body.array? node.position array
    let elementSize := body.context.types.byteSize element
    let scratch ← array.addressCode body scratch
    let scratch ← index.valueCode body scratch
    let bound ← Emit.push scratch node.position
    Emit.instruction .add [bound.top, Register.zero, .imm length.toNat]
    Emit.instruction .bgeu [scratch.top, bound.top, Label.indexError]
    Emit.instruction .mul [scratch.top, scratch.top, .imm elementSize.toNat]
    Emit.instruction .add [scratch.second, scratch.second, scratch.top]
    return scratch.pop

/-- Code that leaves the value of an expression in the next scratch register. -/
def Expr.valueCode (body : Body) (scratch : Scratch) : Expr → Emit Scratch
  | .literal node value => do
    let scratch ← Emit.push scratch node.position
    Emit.instruction .add [scratch.top, Register.zero, .imm value.toInt]
    return scratch
  | .load _ source => do
    let scratch ← source.addressCode body scratch
    Emit.instruction .ldw [scratch.top, scratch.top, .imm 0]
    return scratch
  | .binary node op left right =>
    match op with
    | .comparison _ => Trail.fail node.position (.internal (.comparisonAsValue op))
    | .arithmetic arithmetic => do
      let scratch ← left.valueCode body scratch
      let scratch ← right.valueCode body scratch
      Emit.instruction arithmetic.mnemonic [scratch.second, scratch.second, scratch.top]
      return scratch.pop

end

/-- Code that branches to a label when a comparison does not hold. -/
def Expr.conditionCode (body : Body) (target : Label) : Expr → Emit Unit
  | .binary node op left right =>
    match op with
    | .arithmetic _ => Trail.fail node.position (.internal (.arithmeticAsCondition op))
    | .comparison comparison => do
      let scratch ← left.valueCode body .empty
      let scratch ← right.valueCode body scratch
      Emit.instruction comparison.negated.branch [scratch.second, scratch.top, target]
  | .literal node _ | .load node _ => Trail.fail node.position (.internal .valueAsCondition)

end SplLang

import SplLang.Code.Statement
import SplLang.Frame.Layout

/-! Code for procedures and whole programs. A procedure saves the frame pointer, and the
return address if it makes calls, before its body and restores them behind it. -/
namespace SplLang
open Machine

/-- Code that saves or restores the return address, if the frame has a place for it. -/
def FrameLayout.returnAddressCode (frame : FrameLayout) (mnemonic : Mnemonic) : Emit Unit :=
  match frame.savedReturnAddress with
  | some offset =>
    Emit.instruction mnemonic [Register.returnAddress, Register.framePointer, .imm offset.toInt]
  | none => pure ()

/-- Code for a procedure with the given frame; answers the labels that are left. -/
def Procedure.code (context : Context) (scope : ScopeId) (frame : FrameLayout)
    (labels : LabelSupply) (procedure : Procedure) : Emit LabelSupply := do
  let sp : Operand := Register.stackPointer
  let fp : Operand := Register.framePointer
  let size : Operand := .imm frame.size.toNat
  let saved : Operand := .imm frame.savedFramePointer.toNat
  Trail.leave [.directive (".export " ++ procedure.name), .label (.named procedure.name)]
  Emit.instruction .sub [sp, sp, size]
  Emit.instruction .stw [fp, sp, saved]
  Emit.instruction .add [fp, sp, size]
  frame.returnAddressCode .stw
  let labels ← codeAll ⟨context, scope⟩ labels procedure.body
  frame.returnAddressCode .ldw
  Emit.instruction .ldw [fp, sp, saved]
  Emit.instruction .add [sp, sp, size]
  Emit.instruction .jr [Register.returnAddress]
  return labels

/-- The scope and the frame that earlier stages gave a procedure. -/
def Procedure.frame (scopes : ScopeTree) (procedure : Procedure) : Emit (ScopeId × FrameLayout) :=
  let get {α : Type} (value : Option α) (missing : Name → Inconsistency) : Emit α :=
    Trail.expect value procedure.position (.internal (missing procedure.name))
  do
    let entry ← get (scopes.procedure? procedure.name) .noTableEntry
    let scope ← get entry.scope .noLocalScope
    let localArea ← get entry.localArea .noLocalArea
    let outgoing ← get entry.outgoing .noOutgoingArea
    let frame ← get (FrameLayout.of? localArea outgoing) .noAddressableFrame
    return (scope, frame)

/-- The imports of the library and the head of the code section. -/
def header : List Line :=
  library.map (fun procedure => Line.directive (".import " ++ procedure.name)) ++
    [.directive (".import " ++ Label.indexError.text), .blank,
      .directive ".code", .directive ".align 4"]

/-- Code for procedures in sequence; answers the labels that are left. -/
def proceduresCode (context : Context) : LabelSupply → List Procedure → Emit LabelSupply
  | labels, [] => return labels
  | labels, procedure :: rest => do
    let (scope, frame) ← procedure.frame context.scopes
    Trail.report (.frameSized procedure.name frame.size.toNat)
    Trail.leave [.blank]
    let labels ← procedure.code context scope frame labels
    proceduresCode context labels rest

/-- Code for a program whose frames are laid out; answers the labels that are left. -/
def Program.code (context : Context) (program : Program) : Emit LabelSupply := do
  Trail.leave header
  proceduresCode context .new program.procedures

/-- Generate the assembly program; the context stays as it is. -/
def Program.generate (program : Program) : Phase Assembly := do
  let code := program.code (← Phase.context)
  let labels ← Phase.follow code fun context _ => context
  Phase.report (.generated code.found.length labels.issued)
  return code.found

end SplLang

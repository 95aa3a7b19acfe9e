import SplLang.Frame.Layout
import SplLang.Phase

/-! Giving variables their places in the frames and sizing the areas of each procedure.
Signatures are placed for all procedures before any body is searched for calls. -/
namespace SplLang

/-- One thing decided about the frame of a procedure. -/
inductive Placement where
  | variableAt (scope : ScopeId) (name : Name) (offset : Int32)
  | areas (procedure : Name) (slots : List UInt32) (argumentArea localArea : UInt32)
  | outgoing (procedure : Name) (area : OutgoingArea)
  deriving DecidableEq

abbrev Place := Trail Placement

/-- The entry of a parameter or local in the procedure's scope. -/
def localEntry (scopes : ScopeTree) (scope : ScopeId) (position : Position) (name : Name) :
    Place VariableEntry :=
  Trail.expect ((scopes.held? scope name).bind (·.var?)) position
    (.internal (.notLocalVariable name))

/-- Bytes of an argument: a reference takes one word. -/
def VariableEntry.slotSize (types : TypeTable) (entry : VariableEntry) : UInt32 :=
  if entry.byReference then TypeTable.wordSize else types.byteSize entry.type

/-- Place parameters upwards from the frame pointer, the first one `start` bytes above it.
Answers their slots and the end of the last one. -/
def placeParameters (types : TypeTable) (scopes : ScopeTree) (procedure : Name)
    (scope : ScopeId) : Nat → List Parameter → Place (List UInt32 × Nat)
  | start, [] => return ([], start)
  | start, parameter :: rest => do
    let entry ← localEntry scopes scope parameter.position parameter.name
    Trail.leave [.variableAt scope parameter.name (Int32.ofInt start)]
    Trail.report (.parameterPlaced procedure parameter.name start)
    let next := start + (entry.slotSize types).toNat
    Trail.require (next < 0x80000000) parameter.position (.frameTooLarge procedure)
    let (slots, last) ← placeParameters types scopes procedure scope next rest
    return (UInt32.ofNat start :: slots, last)

/-- Place locals downwards from `below` bytes under the frame pointer.
Answers how far the last one lies below it. -/
def placeLocals (types : TypeTable) (scopes : ScopeTree) (procedure : Name)
    (scope : ScopeId) : Nat → List LocalVariable → Place Nat
  | below, [] => return below
  | below, declaration :: rest => do
    let entry ← localEntry scopes scope declaration.position declaration.name
    let size := (types.byteSize entry.type).toNat
    let next := below + size
    Trail.require (size < 0x80000000 ∧ next ≤ 0x80000000) declaration.position (.frameTooLarge procedure)
    Trail.leave [.variableAt scope declaration.name (Int32.ofInt (-next))]
    Trail.report (.localPlaced procedure declaration.name next)
    placeLocals types scopes procedure scope next rest

/-- Place the parameters and locals of a procedure. -/
def Procedure.placeVariables (types : TypeTable) (scopes : ScopeTree) (procedure : Procedure) :
    Place Unit := do
  let scope ← procedure.localScope scopes
  let (slots, argumentArea) ←
    placeParameters types scopes procedure.name scope 0 procedure.parameters
  let localArea ← placeLocals types scopes procedure.name scope 0 procedure.locals
  Trail.leave [.areas procedure.name slots (UInt32.ofNat argumentArea) (UInt32.ofNat localArea)]
  Trail.report (.areasSized procedure.name argumentArea localArea)

mutual

/-- Widen an area to hold the arguments of every call in a statement. -/
def Stmt.outgoing (scopes : ScopeTree) (scope : ScopeId) (area : OutgoingArea) :
    Stmt → Place OutgoingArea
  | .assign _ _ _ => return area
  | .ifThen _ _ thenPart => thenPart.outgoing scopes scope area
  | .ifElse _ _ thenPart elsePart => do
    let area ← thenPart.outgoing scopes scope area
    elsePart.outgoing scopes scope area
  | .whileDo _ _ body => body.outgoing scopes scope area
  | .call position callee _ => do
    let size ← Trail.expect ((scopes.callee? scope callee).bind (·.argumentArea)) position
      (.internal (.noArgumentArea callee))
    return area.widen size
  | .block _ body => outgoingAll scopes scope area body
  | .empty _ => return area

/-- Widen an area to hold the arguments of every call in a list of statements. -/
def outgoingAll (scopes : ScopeTree) (scope : ScopeId) (area : OutgoingArea) :
    List Stmt → Place OutgoingArea
  | [] => return area
  | stmt :: rest => do
    let area ← stmt.outgoing scopes scope area
    outgoingAll scopes scope area rest

end

/-- Size the outgoing area of a procedure, after which its frame has to be addressable. -/
def Procedure.sizeOutgoing (scopes : ScopeTree) (procedure : Procedure) : Place Unit := do
  let scope ← procedure.localScope scopes
  let area ← outgoingAll scopes scope .noCalls procedure.body
  Trail.report (.outgoingSized procedure.name area)
  let localArea := ((scopes.procedure? procedure.name).bind (·.localArea)).getD 0
  Trail.require (FrameLayout.of? localArea area).isSome procedure.position
    (.frameTooLarge procedure.name)
  Trail.leave [.outgoing procedure.name area]

/-- Give slots their offsets, as far as there are offsets. -/
def setOffsets : List Slot → List UInt32 → List Slot
  | slot :: slots, offset :: offsets =>
    { slot with offset := some offset } :: setOffsets slots offsets
  | slots, _ => slots

def Entry.mapVar (f : VariableEntry → VariableEntry) : Entry → Entry
  | .var entry => .var (f entry)
  | other => other

def Entry.mapProc (f : ProcedureEntry → ProcedureEntry) : Entry → Entry
  | .proc entry => .proc (f entry)
  | other => other

/-- Write a placement into the scopes. -/
def Placement.put (scopes : ScopeTree) : Placement → ScopeTree
  | .variableAt scope name offset =>
    scopes.adjust scope name (Entry.mapVar fun entry => { entry with offset := some offset })
  | .areas procedure slots argumentArea localArea =>
    scopes.adjust ScopeTree.globalScope procedure <| Entry.mapProc fun entry =>
      { entry with
        parameters := setOffsets entry.parameters slots
        argumentArea := some argumentArea
        localArea := some localArea }
  | .outgoing procedure area =>
    scopes.adjust ScopeTree.globalScope procedure <| Entry.mapProc fun entry =>
      { entry with outgoing := some area }

def Context.place (context : Context) (placements : List Placement) : Context :=
  { context with scopes := placements.foldl Placement.put context.scopes }

/-- Lay out the frames of a checked program; answers how many. -/
def Program.place (program : Program) : Phase Nat := do
  let procedures := program.procedures
  let context ← Phase.context
  Phase.follow (procedures.forM (·.placeVariables context.types context.scopes)) Context.place
  let context ← Phase.context
  Phase.follow (procedures.forM (·.sizeOutgoing context.scopes)) Context.place
  Phase.report (.allocated procedures.length)
  return procedures.length

end SplLang

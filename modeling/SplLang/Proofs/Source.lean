import SplLang.Compilation
import SplLang.Proofs.Sizes
import SplLang.Proofs.Target
import SplLang.Proofs.Typed

/-! What programs mean, apart from any code. Storage consists of cells of one word each; the cells
of a variable belong to the activation that declares it, and a reference parameter is bound to
cells of somebody else. A new activation finds its locals as they are. -/
namespace SplLang
open Machine

/-- One word of the storage of a variable, counted from the variable's start. -/
structure Cell where
  /-- The number of the call that made the activation. -/
  activation : Nat
  name : Name
  index : Nat
  deriving DecidableEq

def Cell.shift (cell : Cell) (count : Nat) : Cell := { cell with index := cell.index + count }

abbrev Store := Cell → Word

/-- Why a run does not come to an end. -/
inductive Fault where
  /-- A subscript is out of bounds. -/
  | subscript
  /-- A quotient by zero, a library procedure that does not return, or an ill-typed program. -/
  | undefined
  /-- The stack has no room for another frame. -/
  | overflow
  /-- The run takes more steps than it was given. -/
  | unfinished
  deriving DecidableEq

/-- What is passed for a parameter. -/
inductive Argument where
  | value (word : Word)
  | reference (cell : Cell)

/-- What a body is run in: the meaning of its names and the cells of its variables. -/
structure Activation where
  around : Surroundings
  cells : Keyed Name Cell

def Arithmetic.apply : Arithmetic → Word → Word → Except Fault Word
  | .add, a, b => .ok (a + b)
  | .sub, a, b => .ok (a - b)
  | .mul, a, b => .ok (a * b)
  | .div, a, b => if b = 0 then .error .undefined else .ok (a.sdiv b)

theorem Arithmetic.apply_error {op : Arithmetic} {a b : Word} {fault : Fault}
    (h : op.apply a b = .error fault) : fault = .undefined := by
  cases op with
  | add | sub | mul => cases h
  | div =>
    rw [apply] at h
    split at h
    · cases h
      rfl
    · cases h

/-- Whether a comparison of signed numbers holds. -/
def Comparison.holds : Comparison → Word → Word → Bool
  | .eq, a, b => a == b
  | .ne, a, b => a != b
  | .lt, a, b => a.slt b
  | .le, a, b => a.sle b
  | .gt, a, b => b.slt a
  | .ge, a, b => b.sle a

/-- The branch of a condition is taken if the comparison does not hold. -/
theorem Comparison.taken?_negated (c : Comparison) (a b : Word) :
    c.negated.branch.taken? a b = some !c.holds a b := by
  cases c with
  | eq => rfl
  | ne => exact congrArg some (Bool.not_not _).symm
  | lt => exact congrArg some BitVec.sle_eq_not_slt
  | le =>
    rw [holds, BitVec.sle_eq_not_slt, Bool.not_not]
    rfl
  | gt => exact congrArg some BitVec.sle_eq_not_slt
  | ge =>
    rw [holds, BitVec.sle_eq_not_slt, Bool.not_not]
    rfl

mutual

/-- The first cell of a variable, and its type. An index counts as an unsigned number. -/
def Variable.locate (act : Activation) (store : Store) : Variable → Except Fault (Cell × TypeId)
  | .named _ name =>
    match act.cells.at? name, act.around.varType? name with
    | some cell, some type => .ok (cell, type)
    | _, _ => .error .undefined
  | .element _ array index => do
    let (cell, type) ← array.locate act store
    let i ← index.eval act store
    match act.around.types.array? type with
    | some (element, length) =>
      if i.toNat < length.toNat then
        .ok (cell.shift (i.toNat * act.around.types.words element), element)
      else .error .subscript
    | none => .error .undefined

/-- The value of an expression. -/
def Expr.eval (act : Activation) (store : Store) : Expr → Except Fault Word
  | .literal _ value => .ok (BitVec.ofInt 32 value.toInt)
  | .load _ source => do
    let (cell, _) ← source.locate act store
    return store cell
  | .binary _ op left right =>
    match op with
    | .arithmetic op => do
      let a ← left.eval act store
      let b ← right.eval act store
      op.apply a b
    | .comparison _ => .error .undefined

end

/-- Whether a condition holds. -/
def Expr.test (act : Activation) (store : Store) : Expr → Except Fault Bool
  | .binary _ op left right =>
    match op with
    | .comparison op => do
      let a ← left.eval act store
      let b ← right.eval act store
      return op.holds a b
    | .arithmetic _ => .error .undefined
  | .literal _ _ | .load _ _ => .error .undefined

/-- What an argument passes for a parameter of the given kind. -/
def Expr.pass (act : Activation) (store : Store) (byReference : Bool) (argument : Expr) :
    Except Fault Argument :=
  match byReference, argument with
  | false, _ => .value <$> argument.eval act store
  | true, .load _ source => (fun found => .reference found.1) <$> source.locate act store
  | true, _ => .error .undefined

/-- What the arguments of a call pass, from left to right. -/
def passAll (act : Activation) (store : Store) : List Slot → List Expr → Except Fault (List Argument)
  | slot :: slots, argument :: arguments => do
    let passed ← argument.pass act store slot.byReference
    let rest ← passAll act store slots arguments
    return passed :: rest
  | _, _ => return []

/-- The cells of parameters: those of the referenced variables, and new ones for values. -/
def parameterCells (activation : Nat) : List Parameter → List Argument → Keyed Name Cell
  | parameter :: parameters, .value _ :: arguments =>
    (parameter.name, ⟨activation, parameter.name, 0⟩) :: parameterCells activation parameters arguments
  | parameter :: parameters, .reference cell :: arguments =>
    (parameter.name, cell) :: parameterCells activation parameters arguments
  | _, _ => []

/-- Copy the values that are passed into the cells of their parameters. -/
def copyValues (activation : Nat) : List Parameter → List Argument → Store → Store
  | parameter :: parameters, .value word :: arguments, store =>
    copyValues activation parameters arguments
      (Function.update store ⟨activation, parameter.name, 0⟩ word)
  | _ :: parameters, .reference _ :: arguments, store =>
    copyValues activation parameters arguments store
  | _, _, store => store

/-- What the run-time library does: from the name of a procedure and the words of its arguments,
new words for the arguments that are references. It need not return. -/
abbrev LibraryMeaning (World : Type) := Name → List Word → World → Option (List Word × World)

/-- The word that an argument stands for. -/
def Argument.word (store : Store) : Argument → Word
  | .value word => word
  | .reference cell => store cell

/-- Put the words that a library procedure leaves into the cells it was given. -/
def putResults : List Argument → List Word → Store → Store
  | .reference cell :: arguments, word :: words, store =>
    putResults arguments words (Function.update store cell word)
  | .value _ :: arguments, _ :: words, store => putResults arguments words store
  | _, _, store => store

/-- What the names in a program mean while it runs. -/
structure Source (World : Type) where
  context : Context
  procedures : List Procedure
  library : LibraryMeaning World
  /-- How many words of stack an activation of a procedure takes. -/
  frameWords : Name → Nat

namespace Source
variable {World : Type}

structure State (World : Type) where
  store : Store
  /-- How many calls were made. -/
  calls : Nat
  world : World

/-- A new activation of a procedure, numbered like the call that makes it. -/
def activate (source : Source World) (scope : ScopeId) (procedure : Procedure)
    (arguments : List Argument) (activation : Nat) : Activation where
  around := ⟨source.context.types, source.context.scopes, scope⟩
  cells := parameterCells activation procedure.parameters arguments ++
    procedure.locals.map fun declaration => (declaration.name, ⟨activation, declaration.name, 0⟩)

/-- A call of a library procedure. -/
def callLibrary (source : Source World) (callee : Name) (arguments : List Argument)
    (s : State World) : Except Fault (State World) :=
  match source.library callee (arguments.map (·.word s.store)) s.world with
  | some (words, world) => .ok { s with store := putResults arguments words s.store, world }
  | none => .error .undefined

/-- Run a procedure; `exec` runs its body in the new activation with the room that is left. -/
def enter (source : Source World)
    (exec : Activation → Nat → Stmt → State World → Except Fault (State World))
    (callee : Name) (arguments : List Argument) (room : Nat) (s : State World) :
    Except Fault (State World) :=
  match source.procedures.find? (·.name = callee),
    (source.context.scopes.procedure? callee).bind (·.scope) with
  | some procedure, some scope =>
    if source.frameWords callee ≤ room then
      exec (source.activate scope procedure arguments s.calls) (room - source.frameWords callee)
        (.block procedure.position procedure.body)
        { s with store := copyValues s.calls procedure.parameters arguments s.store }
    else .error .overflow
  | _, _ => .error .undefined

/-- Run a statement with the given number of words left on the stack. Every statement inside
another one, every round of a loop and every procedure is run with less fuel. -/
def exec (source : Source World) :
    Nat → Activation → Nat → Stmt → State World → Except Fault (State World)
  | 0, _, _, _, _ => .error .unfinished
  | fuel + 1, act, room, stmt, s =>
    match stmt with
    | .assign _ target value => do
      let (cell, _) ← target.locate act s.store
      let word ← value.eval act s.store
      return { s with store := Function.update s.store cell word }
    | .ifThen _ condition thenPart => do
      if ← condition.test act s.store then source.exec fuel act room thenPart s else return s
    | .ifElse _ condition thenPart elsePart => do
      if ← condition.test act s.store then source.exec fuel act room thenPart s
      else source.exec fuel act room elsePart s
    | .whileDo position condition body => do
      if ← condition.test act s.store then
        let s ← source.exec fuel act room body s
        source.exec fuel act room (.whileDo position condition body) s
      else return s
    | .call _ callee arguments =>
      match act.around.scopes.callee? act.around.scope callee with
      | none => .error .undefined
      | some entry => do
        let passed ← passAll act s.store entry.parameters arguments
        let called := { s with calls := s.calls + 1 }
        match entry.scope with
        | none => source.callLibrary callee passed called
        | some _ => source.enter (source.exec fuel) callee passed room called
    | .block _ [] => return s
    | .block position (first :: rest) => do
      let s ← source.exec fuel act room first s
      source.exec fuel act room (.block position rest) s
    | .empty _ => return s

/-- Run a procedure with the given arguments. -/
def run (source : Source World) (fuel : Nat) (callee : Name) (arguments : List Argument)
    (room : Nat) (s : State World) : Except Fault (State World) :=
  source.enter (source.exec fuel) callee arguments room s

end Source
end SplLang

import SplLang.ScopeTree

/-! The predeclared names: the type `int` and the procedures of the run-time library.
No frame is laid out for a library procedure, so its argument area is known beforehand. -/
namespace SplLang

/-- A procedure of the run-time library; each of its parameters is an `int`. -/
structure LibraryProcedure where
  name : Name
  /-- Whether each parameter is passed by reference. -/
  byReference : List Bool

namespace LibraryProcedure

/-- The argument slots: one word each, in order. -/
def slots (procedure : LibraryProcedure) : List Slot :=
  procedure.byReference.mapIdx fun i byReference =>
    { type := .int, byReference, offset := some (UInt32.ofNat i * TypeTable.wordSize) }

/-- Bytes of all arguments. -/
def argumentArea (procedure : LibraryProcedure) : UInt32 :=
  UInt32.ofNat procedure.byReference.length * TypeTable.wordSize

def entry (procedure : LibraryProcedure) : ProcedureEntry where
  scope := none
  parameters := procedure.slots
  argumentArea := some procedure.argumentArea
  localArea := none
  outgoing := none

end LibraryProcedure

/-- The library in its order of declaration. -/
def library : List LibraryProcedure :=
  [⟨"printi", [false]⟩,
    ⟨"printc", [false]⟩,
    ⟨"readi", [true]⟩,
    ⟨"readc", [true]⟩,
    ⟨"exit", []⟩,
    ⟨"time", [true]⟩,
    ⟨"clearAll", [false]⟩,
    ⟨"setPixel", [false, false, false]⟩,
    ⟨"drawLine", [false, false, false, false, false]⟩,
    ⟨"drawCircle", [false, false, false, false]⟩]

/-- The predeclared names with their entries. -/
def predeclared : Keyed Name Entry :=
  ("int", .type .int) :: library.map fun procedure => (procedure.name, .proc procedure.entry)

/-- A global scope that holds the predeclared names. -/
def ScopeTree.initial : ScopeTree := ⟨[⟨none, predeclared⟩]⟩

end SplLang

import SplLang.Name
import SplLang.TypeTable

/-! What a name stands for: a type, a variable with its place in the frame,
or a procedure with its signature and the sizes of its frame areas. -/
namespace SplLang

/-- The number of a scope. -/
abbrev ScopeId := Nat

structure VariableEntry where
  type : TypeId
  byReference : Bool
  /-- Distance from the frame pointer, once placed. -/
  offset : Option Int32
  deriving DecidableEq

/-- One parameter as the callers of a procedure see it. -/
structure Slot where
  type : TypeId
  byReference : Bool
  /-- Distance from the start of the argument area, once placed. -/
  offset : Option UInt32
  deriving DecidableEq

/-- The area that a procedure reserves for the arguments of the calls it makes. -/
inductive OutgoingArea where
  | noCalls
  | bytes (size : UInt32)
  deriving DecidableEq

namespace OutgoingArea

/-- Widen the area to hold arguments of the given size. -/
def widen : OutgoingArea → UInt32 → OutgoingArea
  | .noCalls, size => .bytes size
  | .bytes held, size => .bytes (max held size)

def hasCalls : OutgoingArea → Bool
  | .noCalls => false
  | .bytes _ => true

/-- Bytes reserved, none when there are no calls. -/
def size : OutgoingArea → UInt32
  | .noCalls => 0
  | .bytes size => size

def text : OutgoingArea → String
  | .noCalls => "NoCalls"
  | .bytes size => s!"Bytes({size.toNat})"

end OutgoingArea

structure ProcedureEntry where
  /-- The scope of parameters and locals; library procedures have none. -/
  scope : Option ScopeId
  parameters : List Slot
  argumentArea : Option UInt32
  localArea : Option UInt32
  outgoing : Option OutgoingArea
  deriving DecidableEq

inductive Entry where
  | type (id : TypeId)
  | var (entry : VariableEntry)
  | proc (entry : ProcedureEntry)
  deriving DecidableEq

namespace Entry

def var? : Entry → Option VariableEntry
  | .var entry => some entry
  | _ => none

def proc? : Entry → Option ProcedureEntry
  | .proc entry => some entry
  | _ => none

end Entry
end SplLang

import SplLang.Numbered
import SplLang.Word

/-! The table of types. A type is a number; two array types are the same type only
if they were entered as one, whatever their elements and lengths. -/
namespace SplLang

/-- The number of a type in the table. -/
abbrev TypeId := Nat

inductive Primitive where
  | int | boolean
  deriving DecidableEq

def Primitive.text : Primitive → String
  | .int => "int"
  | .boolean => "boolean"

inductive TypeDef where
  | primitive (kind : Primitive)
  | array (element : TypeId) (length : UInt32)
  deriving DecidableEq

/-- Definitions, the newest first: an array's element type is looked up among the older ones. -/
structure TypeTable where
  newestFirst : List TypeDef
  deriving DecidableEq

namespace TypeId

def int : TypeId := 0

/-- What a comparison yields; no declaration can name it. -/
def boolean : TypeId := 1

end TypeId

namespace TypeTable

/-- Bytes of an `int` or `boolean`. -/
def wordSize : UInt32 := 4

/-- The table that knows `int` and `boolean` only. -/
def primitives : TypeTable := ⟨[.primitive .boolean, .primitive .int]⟩

def count (table : TypeTable) : Nat := table.newestFirst.length

def def? (table : TypeTable) (type : TypeId) : Option TypeDef :=
  Numbered.at? table.newestFirst type

/-- Element type and length of an array type. -/
def array? (table : TypeTable) (type : TypeId) : Option (TypeId × UInt32) :=
  match table.def? type with
  | some (.array element length) => some (element, length)
  | _ => none

def isArray (table : TypeTable) (type : TypeId) : Bool := (table.array? type).isSome

/-- Bytes of a value as the definitions give them; nothing for a type that is not there. -/
def byteSizeIn : List TypeDef → TypeId → UInt32
  | [], _ => 0
  | newest :: older, type =>
    if type = older.length then
      match newest with
      | .primitive _ => wordSize
      | .array element length => Word.saturatingMul length (byteSizeIn older element)
    else byteSizeIn older type

def byteSize (table : TypeTable) (type : TypeId) : UInt32 :=
  byteSizeIn table.newestFirst type

/-- The text of a type as the definitions give it. -/
def textIn : List TypeDef → TypeId → String
  | [], _ => ""
  | newest :: older, type =>
    if type = older.length then
      match newest with
      | .primitive kind => kind.text
      | .array element length => s!"array [{length.toNat}] of " ++ textIn older element
    else textIn older type

/-- The type spelled out down to its primitive. -/
def text (table : TypeTable) (type : TypeId) : String :=
  textIn table.newestFirst type

/-- Enter a new array type, unless its values would not fit in the address space. -/
def addArray? (table : TypeTable) (element : TypeId) (length : UInt32) :
    Option (TypeId × TypeTable) := do
  let _ ← Word.unsigned? (length.toNat * (table.byteSize element).toNat)
  return (table.count, ⟨.array element length :: table.newestFirst⟩)

/-- The types with their numbers ascending. -/
def types (table : TypeTable) : List TypeId := List.range table.count

end TypeTable
end SplLang

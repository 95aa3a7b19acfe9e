import SplLang.Name
import SplLang.Machine.Register

/-! Instructions of the target machine, the labels they name and their text. -/
namespace SplLang.Machine

/-- A place in the code that a jump, branch or call can name. -/
inductive Label where
  | generated (number : Nat)
  | named (name : Name)
  deriving DecidableEq

def Label.text : Label → String
  | .generated number => s!"L{number}"
  | .named name => name

/-- The routine reached when a subscript is out of bounds. -/
def Label.indexError : Label := .named "_indexError"

/-- How many labels have been generated so far. -/
structure LabelSupply where
  issued : Nat
  deriving DecidableEq

namespace LabelSupply

def new : LabelSupply := ⟨0⟩

def next (supply : LabelSupply) : Label × LabelSupply :=
  (.generated supply.issued, ⟨supply.issued + 1⟩)

end LabelSupply

inductive Mnemonic where
  | add | sub | mul | div
  | ldw | stw
  | beq | bne | blt | ble | bgt | bge | bgeu
  | j | jal | jr
  deriving DecidableEq

namespace Mnemonic

def text : Mnemonic → String
  | .add => "add"
  | .sub => "sub"
  | .mul => "mul"
  | .div => "div"
  | .ldw => "ldw"
  | .stw => "stw"
  | .beq => "beq"
  | .bne => "bne"
  | .blt => "blt"
  | .ble => "ble"
  | .bgt => "bgt"
  | .bge => "bge"
  | .bgeu => "bgeu"
  | .j => "j"
  | .jal => "jal"
  | .jr => "jr"

def all : List Mnemonic :=
  [.add, .sub, .mul, .div, .ldw, .stw, .beq, .bne, .blt, .ble, .bgt, .bge, .bgeu, .j, .jal, .jr]

def ofText? (text : String) : Option Mnemonic := all.find? (·.text = text)

end Mnemonic

inductive Operand where
  | reg (register : Register)
  | imm (value : Int)
  | label (target : Label)
  deriving DecidableEq

namespace Operand

def text : Operand → String
  | .reg register => register.text
  | .imm value => toString value
  | .label target => target.text

end Operand

instance : Coe Register Operand := ⟨.reg⟩
instance : Coe Label Operand := ⟨.label⟩

structure Instruction where
  mnemonic : Mnemonic
  operands : List Operand
  deriving DecidableEq

/-- The mnemonic behind a tab, then the operands behind another, joined by commas. -/
def Instruction.text (instruction : Instruction) : String :=
  "\t" ++ instruction.mnemonic.text ++
    match instruction.operands with
    | [] => ""
    | operands => "\t" ++ ",".intercalate (operands.map (·.text))

end SplLang.Machine

import Mathlib.Data.BitVec
import Mathlib.Logic.Function.Basic
import Mathlib.Logic.Relation
import SplLang.Library
import SplLang.Machine.Assembly

/-! The target machine. Its words have 32 bits, its instructions lie one behind the other, and
whatever the assembly program does not define is reached at an address from outside. -/
namespace SplLang.Machine

abbrev Word := BitVec 32

structure State (World : Type) where
  pc : Word
  registers : Nat → Word
  /-- The word at an address; only addresses that are multiples of four are used. -/
  memory : Word → Word
  /-- How many calls were made. No instruction depends on it. -/
  calls : Nat
  /-- What lies outside of the machine. -/
  world : World

namespace State
variable {World : Type}

def get (s : State World) (r : Register) : Word :=
  if r.number = 0 then 0 else s.registers r.number

def set (s : State World) (r : Register) (w : Word) : State World :=
  { s with registers := Function.update s.registers r.number w }

def advance (s : State World) : State World := { s with pc := s.pc + 4 }

end State

/-- An address of a whole word. -/
def Aligned (address : Word) : Prop := address.toNat % 4 = 0

instance (address : Word) : Decidable (Aligned address) := inferInstanceAs (Decidable (_ = _))

/-- What an arithmetic instruction computes; there is no quotient by zero. -/
def Mnemonic.compute? : Mnemonic → Word → Word → Option Word
  | .add, a, b => some (a + b)
  | .sub, a, b => some (a - b)
  | .mul, a, b => some (a * b)
  | .div, a, b => if b = 0 then none else some (a.sdiv b)
  | _, _, _ => none

/-- Whether a conditional branch is taken. -/
def Mnemonic.taken? : Mnemonic → Word → Word → Option Bool
  | .beq, a, b => some (a == b)
  | .bne, a, b => some (a != b)
  | .blt, a, b => some (a.slt b)
  | .ble, a, b => some (a.sle b)
  | .bgt, a, b => some (b.slt a)
  | .bge, a, b => some (b.sle a)
  | .bgeu, a, b => some (b.ule a)
  | _, _, _ => none

/-- One instruction, for given addresses of the labels. -/
def Instruction.execute? {World : Type} (address : Label → Word) (s : State World) :
    Instruction → Option (State World)
  | ⟨.ldw, [.reg r, .reg base, .imm offset]⟩ =>
    let a := s.get base + BitVec.ofInt 32 offset
    if Aligned a then some (s.set r (s.memory a)).advance else none
  | ⟨.stw, [.reg r, .reg base, .imm offset]⟩ =>
    let a := s.get base + BitVec.ofInt 32 offset
    if Aligned a then some { s with memory := Function.update s.memory a (s.get r) }.advance else none
  | ⟨.j, [.label target]⟩ => some { s with pc := address target }
  | ⟨.jal, [.label target]⟩ =>
    some { s.set .returnAddress (s.pc + 4) with pc := address target, calls := s.calls + 1 }
  | ⟨.jr, [.reg r]⟩ => some { s with pc := s.get r }
  | ⟨branch, [.reg a, .reg b, .label target]⟩ =>
    (branch.taken? (s.get a) (s.get b)).map fun taken =>
      if taken then { s with pc := address target } else s.advance
  | ⟨arithmetic, [.reg r, .reg a, .reg b]⟩ =>
    (arithmetic.compute? (s.get a) (s.get b)).map fun w => (s.set r w).advance
  | ⟨arithmetic, [.reg r, .reg a, .imm b]⟩ =>
    (arithmetic.compute? (s.get a) (BitVec.ofInt 32 b)).map fun w => (s.set r w).advance
  | _ => none

/-- The number of the first instruction behind a label. -/
def Assembly.position? : Assembly → Label → Option Nat
  | [], _ => none
  | .label l :: rest, target =>
    if l = target then some 0 else position? rest target
  | .instruction _ :: rest, target => (position? rest target).map (· + 1)
  | .directive _ :: rest, target | .blank :: rest, target => position? rest target

/-- A loaded assembly program. -/
structure Target (World : Type) where
  assembly : Assembly
  /-- The address of the first instruction. -/
  origin : Word
  /-- The addresses of names that the program does not define. -/
  outside : Name → Word
  /-- What happens at an address where the program has no instruction. -/
  service : State World → Option (State World)
  /-- The lowest address of the stack, which grows down to it. -/
  stack : Word

namespace Target
variable {World : Type} (target : Target World)

/-- The address of the instruction with the given number. -/
def codeAddress (n : Nat) : Word := target.origin + BitVec.ofNat 32 (4 * n)

def address (l : Label) : Word :=
  match target.assembly.position? l, l with
  | some n, _ => target.codeAddress n
  | none, .named name => target.outside name
  | none, .generated _ => target.origin

/-- The instruction at an address. -/
def fetch? (pc : Word) : Option Instruction :=
  if Aligned (pc - target.origin) then target.assembly.instructions[(pc - target.origin).toNat / 4]?
  else none

def step? (s : State World) : Option (State World) :=
  match target.fetch? s.pc with
  | some instruction => instruction.execute? target.address s
  | none => (target.service s).map fun after => { after with calls := s.calls }

/-- The machine gets from one state to the other in some number of steps. -/
def Reaches : State World → State World → Prop :=
  Relation.ReflTransGen fun s s' => target.step? s = some s'

end Target
end SplLang.Machine

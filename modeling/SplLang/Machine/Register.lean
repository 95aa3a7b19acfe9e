/-! Registers of the target machine and the stack of scratch registers.
Expression code keeps its intermediate values in consecutive scratch registers. -/
namespace SplLang.Machine

structure Register where
  number : Nat
  deriving DecidableEq

namespace Register

def text (register : Register) : String := s!"${register.number}"

/-- Always reads as zero. -/
def zero : Register := ⟨0⟩

def framePointer : Register := ⟨25⟩

def stackPointer : Register := ⟨29⟩

/-- Where a call leaves the address to return to. -/
def returnAddress : Register := ⟨31⟩

end Register

/-- How many scratch registers are in use, counted from the first one. -/
structure Scratch where
  inUse : Nat
  deriving DecidableEq

namespace Scratch

/-- The number of the first scratch register. -/
def first : Nat := 8

/-- How many scratch registers there are. -/
def capacity : Nat := 16

def empty : Scratch := ⟨0⟩

/-- Take the next register into use, if one is left. -/
def push? (scratch : Scratch) : Option Scratch :=
  if scratch.inUse < capacity then some ⟨scratch.inUse + 1⟩ else none

/-- Give the register taken last back. -/
def pop (scratch : Scratch) : Scratch := ⟨scratch.inUse - 1⟩

/-- The register taken last. -/
def top (scratch : Scratch) : Register := ⟨first + scratch.inUse - 1⟩

/-- The register taken before the last one. -/
def second (scratch : Scratch) : Register := ⟨first + scratch.inUse - 2⟩

theorem push?_eq_some_iff {scratch pushed : Scratch} :
    scratch.push? = some pushed ↔ scratch.inUse < capacity ∧ pushed = ⟨scratch.inUse + 1⟩ := by
  unfold push?
  split
  · next h => simp [h, eq_comm]
  · next h => simp [h]

/-- Giving the last register back undoes taking it. -/
theorem pop_of_push? {scratch pushed : Scratch} (h : scratch.push? = some pushed) :
    pushed.pop = scratch := by
  obtain ⟨_, rfl⟩ := push?_eq_some_iff.mp h
  rfl

end Scratch
end SplLang.Machine

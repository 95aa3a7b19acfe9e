import SplLang.Entry

/-! The stack frame of a procedure. From the stack pointer upwards it holds the outgoing
arguments, the saved frame pointer, the saved return address if there are calls, and the locals;
the frame pointer stands above them, at the incoming arguments. -/
namespace SplLang

structure FrameLayout where
  /-- Bytes by which the stack pointer moves on entry. -/
  size : UInt32
  /-- Where the caller's frame pointer is saved, from the new stack pointer. -/
  savedFramePointer : UInt32
  /-- Where the return address is saved, from the new frame pointer; without calls it is not. -/
  savedReturnAddress : Option Int32
  deriving DecidableEq

/-- Bytes of a frame, for locals of the given size. -/
def FrameLayout.exactSize (localArea : UInt32) : OutgoingArea → Nat
  | .noCalls => localArea.toNat + 4
  | .bytes outgoing => localArea.toNat + outgoing.toNat + 8

/-- The frame for the given areas; every offset in it has to be a signed word. -/
def FrameLayout.of? (localArea : UInt32) (area : OutgoingArea) : Option FrameLayout :=
  let size := exactSize localArea area
  if size < 0x80000000 then
    some <| match area with
      | .noCalls => ⟨UInt32.ofNat size, 0, none⟩
      | .bytes outgoing =>
        ⟨UInt32.ofNat size, UInt32.ofNat (outgoing.toNat + 4),
          some (Int32.ofInt (-(localArea.toNat + 8)))⟩
  else none

end SplLang

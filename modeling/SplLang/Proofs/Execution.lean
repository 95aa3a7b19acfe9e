import SplLang.Proofs.Location

/-! Runs of the machine through located code, and what it means that the machine follows a
computation of the source. -/
namespace SplLang.Machine

namespace State
variable {World : Type} {s after last : State World} {r other : Register} {w : Word} {low high : Nat}

/-- The state behind an instruction that writes a register. -/
def put (s : State World) (r : Register) (w : Word) : State World := (s.set r w).advance

@[simp] theorem put_pc : (s.put r w).pc = s.pc + 4 := rfl
@[simp] theorem put_memory : (s.put r w).memory = s.memory := rfl
@[simp] theorem put_calls : (s.put r w).calls = s.calls := rfl
@[simp] theorem put_world : (s.put r w).world = s.world := rfl

theorem put_registers : (s.put r w).registers = Function.update s.registers r.number w := rfl

theorem get_put (hr : r.number ≠ 0) : (s.put r w).get r = w := by
  rw [get, if_neg hr, put_registers, Function.update_self]

theorem get_put_of_ne (hr : other.number ≠ r.number) : (s.put r w).get other = s.get other := by
  rw [get, put_registers, Function.update_of_ne hr, get]

@[simp]
theorem get_zero : s.get .zero = 0 := rfl

/-- The state behind an instruction that writes a word of the memory. -/
def store (s : State World) (a : Word) (w : Word) : State World :=
  { s with memory := Function.update s.memory a w }.advance

@[simp] theorem store_pc {a : Word} : (s.store a w).pc = s.pc + 4 := rfl
@[simp] theorem store_calls {a : Word} : (s.store a w).calls = s.calls := rfl
@[simp] theorem store_world {a : Word} : (s.store a w).world = s.world := rfl
@[simp] theorem store_registers {a : Word} : (s.store a w).registers = s.registers := rfl
@[simp] theorem get_store {a : Word} : (s.store a w).get r = s.get r := rfl

theorem store_memory {a : Word} : (s.store a w).memory = Function.update s.memory a w := rfl

/-- Nothing but scratch registers from the given number on has changed. -/
structure Scratched (low : Nat) (s after : State World) : Prop where
  memory : after.memory = s.memory
  calls : after.calls = s.calls
  world : after.world = s.world
  registers : ∀ r, r < low ∨ 24 ≤ r → after.registers r = s.registers r

theorem Scratched.refl (low : Nat) (s : State World) : s.Scratched low s := ⟨rfl, rfl, rfl, fun _ _ => rfl⟩

theorem Scratched.trans (h : s.Scratched low after) (h' : after.Scratched high last) (hle : low ≤ high) :
    s.Scratched low last where
  memory := h'.memory.trans h.memory
  calls := h'.calls.trans h.calls
  world := h'.world.trans h.world
  registers r hr := (h'.registers r (by omega)).trans (h.registers r hr)

theorem Scratched.mono (h : s.Scratched high after) (hle : low ≤ high) : s.Scratched low after :=
  (refl low s).trans h hle

theorem Scratched.get (h : s.Scratched low after) (hr : r.number < low ∨ 24 ≤ r.number) :
    after.get r = s.get r := by
  unfold State.get
  rw [h.registers r.number hr]

/-- The state behind a call. -/
def call (s : State World) (a : Word) : State World :=
  { s.set .returnAddress (s.pc + 4) with pc := a, calls := s.calls + 1 }

theorem get_call {a : Word} (hr : r.number ≠ 31) : (s.call a).get r = s.get r := get_put_of_ne hr

theorem call_returnAddress {a : Word} : (s.call a).get .returnAddress = s.pc + 4 := get_put (by decide)

theorem scratched_put (hr : low ≤ r.number) (hlt : r.number < 24) : s.Scratched low (s.put r w) where
  memory := rfl
  calls := rfl
  world := rfl
  registers n hn := Function.update_of_ne (by omega) _ _

theorem scratched_jump (low : Nat) (s : State World) (a : Word) : s.Scratched low { s with pc := a } :=
  ⟨rfl, rfl, rfl, fun _ _ => rfl⟩

theorem scratched_advance (low : Nat) (s : State World) : s.Scratched low s.advance :=
  ⟨rfl, rfl, rfl, fun _ _ => rfl⟩

end State

namespace Target
open Assembly
variable {World : Type} {target : Target World} {rest : Assembly} {n : Nat} {s after : State World}
  {r a b : Register}

theorem Reaches.refl (s : State World) : target.Reaches s s := Relation.ReflTransGen.refl

theorem Reaches.trans {last : State World} (h : target.Reaches s after) (h' : target.Reaches after last) :
    target.Reaches s last := Relation.ReflTransGen.trans h h'

theorem step?_of_fetch {i : Instruction} (h : target.fetch? s.pc = some i) :
    target.step? s = i.execute? target.address s := by
  unfold step?
  rw [h]

theorem execute?_branch {address : Label → Word} {m : Mnemonic} {l : Label} :
    Instruction.execute? address s ⟨m, [a, b, l]⟩ = (m.taken? (s.get a) (s.get b)).map fun taken =>
      if taken then { s with pc := address l } else s.advance := by
  cases m <;> rfl

section
variable (hl : target.Loaded) (hs : s.pc = target.codeAddress n)
include hl hs

private theorem CodeAt.step {i : Instruction} (h : target.CodeAt n (.instruction i :: rest)) :
    target.step? s = i.execute? target.address s := by
  apply step?_of_fetch
  rw [hs]
  exact h.fetch hl

theorem CodeAt.reaches {i : Instruction} (h : target.CodeAt n (.instruction i :: rest))
    (he : i.execute? target.address s = some after) : target.Reaches s after :=
  Relation.ReflTransGen.single ((h.step hl hs).trans he)

theorem CodeAt.addConstant {c : Int} (h : target.CodeAt n (instr .add [r, a, .imm c] :: rest)) :
    target.Reaches s (s.put r (s.get a + BitVec.ofInt 32 c)) := h.reaches hl hs rfl

theorem CodeAt.subConstant {c : Int} (h : target.CodeAt n (instr .sub [r, a, .imm c] :: rest)) :
    target.Reaches s (s.put r (s.get a - BitVec.ofInt 32 c)) := h.reaches hl hs rfl

theorem CodeAt.load {c : Int} (h : target.CodeAt n (instr .ldw [r, a, .imm c] :: rest))
    (ha : Aligned (s.get a + BitVec.ofInt 32 c)) :
    target.Reaches s (s.put r (s.memory (s.get a + BitVec.ofInt 32 c))) := h.reaches hl hs (if_pos ha)

theorem CodeAt.store {c : Int} (h : target.CodeAt n (instr .stw [r, a, .imm c] :: rest))
    (ha : Aligned (s.get a + BitVec.ofInt 32 c)) :
    target.Reaches s (s.store (s.get a + BitVec.ofInt 32 c) (s.get r)) := h.reaches hl hs (if_pos ha)

theorem CodeAt.branch {m : Mnemonic} {l : Label} {taken : Bool}
    (h : target.CodeAt n (instr m [a, b, l] :: rest)) (ht : m.taken? (s.get a) (s.get b) = some taken) :
    target.Reaches s (if taken then { s with pc := target.address l } else s.advance) := by
  apply h.reaches hl hs
  rw [execute?_branch, ht]
  rfl

theorem CodeAt.jump {l : Label} (h : target.CodeAt n (instr .j [l] :: rest)) :
    target.Reaches s { s with pc := target.address l } := h.reaches hl hs rfl

theorem CodeAt.call {l : Label} (h : target.CodeAt n (instr .jal [l] :: rest)) :
    target.fetch? s.pc = some ⟨.jal, [l]⟩ ∧ target.step? s = some (s.call (target.address l)) := by
  refine ⟨?_, h.step hl hs⟩
  rw [hs]
  exact h.fetch hl

theorem CodeAt.return (h : target.CodeAt n (instr .jr [r] :: rest)) :
    target.Reaches s { s with pc := s.get r } := h.reaches hl hs rfl

omit hl in
theorem put_pc_eq {w : Word} : (s.put r w).pc = target.codeAddress (n + 1) := by
  rw [State.put_pc, hs, codeAddress_succ]

omit hl in
theorem advance_pc_eq : s.advance.pc = target.codeAddress (n + 1) := by
  rw [← codeAddress_succ, ← hs]
  rfl

omit hl in
theorem store_pc_eq {x w : Word} : (s.store x w).pc = target.codeAddress (n + 1) := by
  rw [State.store_pc, hs, codeAddress_succ]

end

/-- The machine follows a computation of the source: it gets from the state to one that fits the
result, or to the routine for subscripts out of bounds. Other faults leave it free. -/
def Follows {α : Type} (target : Target World) (s : State World) (result : Except Fault α)
    (post : α → State World → Prop) : Prop :=
  match result with
  | .ok value => ∃ after, target.Reaches s after ∧ post value after
  | .error .subscript => ∃ after, target.Reaches s after ∧ after.pc = target.address .indexError
  | .error _ => True

namespace Follows
variable {α β : Type} {result : Except Fault α} {post : α → State World → Prop}
  {post' : β → State World → Prop}

theorem ok {value : α} (hr : target.Reaches s after) (hp : post value after) :
    target.Follows s (.ok value) post := ⟨after, hr, hp⟩

theorem behind (hr : target.Reaches s after) (h : target.Follows after result post) :
    target.Follows s result post := by
  cases result with
  | ok value =>
    obtain ⟨last, hlast, hp⟩ := h
    exact ⟨last, hr.trans hlast, hp⟩
  | error fault =>
    cases fault with
    | subscript =>
      obtain ⟨last, hlast, hp⟩ := h
      exact ⟨last, hr.trans hlast, hp⟩
    | undefined | overflow | unfinished => trivial

/-- The machine follows a sequence if it follows one part after the other. -/
theorem bind {next : α → Except Fault β} (h : target.Follows s result post)
    (hn : ∀ value after, target.Reaches s after → post value after →
      target.Follows after (next value) post') : target.Follows s (result >>= next) post' := by
  cases result with
  | ok value =>
    obtain ⟨after, hr, hp⟩ := h
    exact (hn value after hr hp).behind hr
  | error fault => cases fault <;> exact h

/-- The machine may go on behind what it follows. -/
theorem further {post' : α → State World → Prop} (h : target.Follows s result post)
    (hp : ∀ value after, target.Reaches s after → post value after →
      ∃ last, target.Reaches after last ∧ post' value last) : target.Follows s result post' := by
  cases result with
  | ok value =>
    obtain ⟨after, hr, hpost⟩ := h
    obtain ⟨last, hlast, hpost'⟩ := hp value after hr hpost
    exact ⟨last, hr.trans hlast, hpost'⟩
  | error fault => cases fault <;> exact h

theorem mono {post' : α → State World → Prop} (h : target.Follows s result post)
    (hp : ∀ value after, post value after → post' value after) : target.Follows s result post' :=
  h.further fun value after _ hpost => ⟨after, .refl after, hp value after hpost⟩

end Follows
end Target
end SplLang.Machine

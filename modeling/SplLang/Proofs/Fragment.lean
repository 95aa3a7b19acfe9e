import SplLang.Proofs.Execution

/-! Runs of a piece of code on its own, wherever it stands: from its first line until it is left through its end
or by a jump. A loaded program that contains the piece makes the same run. -/
namespace SplLang.Machine

/-- How a run leaves a piece of code. -/
inductive Leaving (World : Type) where
  /-- Behind its last line. -/
  | through (after : State World)
  /-- By a jump to where the operand says. -/
  | away (destination : Operand) (after : State World)

section
variable {World : Type} {address : Label → Word} {s after : State World} {first rest code : Assembly}
  {r a b : Register}

/-- Where the instruction jumps to, if it does. -/
def Instruction.goes? (s : State World) : Instruction → Option Operand
  | ⟨.j, [.label target]⟩ | ⟨.jal, [.label target]⟩ => some target
  | ⟨.jr, [.reg r]⟩ => some r
  | ⟨branch, [.reg a, .reg b, .label target]⟩ =>
    if branch.taken? (s.get a) (s.get b) = some true then some target else none
  | _ => none

private theorem goes?_branch {m : Mnemonic} {l : Label} : Instruction.goes? s ⟨m, [a, b, l]⟩ =
    if m.taken? (s.get a) (s.get b) = some true then some (.label l) else none := by
  cases m <;> rfl

/-- What computes a word does not jump. -/
theorem goes?_of_compute? {m : Mnemonic} {x y w : Word} (h : m.compute? x y = some w) {o : Operand} :
    Instruction.goes? s ⟨m, [r, a, o]⟩ = none := by
  cases m <;> first | (cases o <;> rfl) | cases h

/-- One line. -/
def Line.run? (address : Label → Word) (s : State World) : Line → Option (Leaving World)
  | .instruction i => (i.execute? address s).map fun after =>
    match i.goes? s with
    | some destination => .away destination after
    | none => .through after
  | .label _ | .directive _ | .blank => some (.through s)

/-- The lines one behind the other, until one of them jumps. -/
def Assembly.run? (address : Label → Word) : Assembly → State World → Option (Leaving World)
  | [], s => some (.through s)
  | line :: rest, s => (line.run? address s).bind fun
    | .through after => run? address rest after
    | .away destination after => some (.away destination after)

theorem run?_append : Assembly.run? address (first ++ rest) s = (Assembly.run? address first s).bind fun
    | .through after => Assembly.run? address rest after
    | .away destination after => some (.away destination after) := by
  induction first generalizing s with
  | nil => rfl
  | cons line first ih =>
    rw [List.cons_append, Assembly.run?, Assembly.run?, Option.bind_assoc]
    congr 1
    funext leaving
    cases leaving with
    | through after => exact ih
    | away destination after => rfl

/-- An instruction that does not jump. -/
theorem run?_instruction {i : Instruction} (he : i.execute? address s = some after) (hg : i.goes? s = none) :
    Assembly.run? address (.instruction i :: rest) s = Assembly.run? address rest after := by
  rw [Assembly.run?, Line.run?, he, Option.map_some, hg]
  rfl

theorem run?_addConstant {c : Int} : Assembly.run? address (instr .add [r, a, .imm c] :: rest) s =
    Assembly.run? address rest (s.put r (s.get a + BitVec.ofInt 32 c)) := run?_instruction rfl rfl

theorem run?_mulConstant {c : Int} : Assembly.run? address (instr .mul [r, a, .imm c] :: rest) s =
    Assembly.run? address rest (s.put r (s.get a * BitVec.ofInt 32 c)) := run?_instruction rfl rfl

theorem run?_addRegister : Assembly.run? address (instr .add [r, a, b] :: rest) s =
    Assembly.run? address rest (s.put r (s.get a + s.get b)) := run?_instruction rfl rfl

/-- A load from the address in a register itself. -/
theorem run?_load (ha : Aligned (s.get a)) : Assembly.run? address (instr .ldw [r, a, .imm 0] :: rest) s =
    Assembly.run? address rest (s.put r (s.memory (s.get a))) := by
  have hsame : s.get a + BitVec.ofInt 32 0 = s.get a := BitVec.add_zero _
  refine run?_instruction ?_ rfl
  show (if Aligned (s.get a + BitVec.ofInt 32 0) then _ else _) = _
  rw [hsame, if_pos ha]
  rfl

/-- An arithmetic instruction; a quotient by zero has no run. -/
theorem run?_compute {op : Arithmetic} : Assembly.run? address (instr op.mnemonic [r, a, b] :: rest) s =
    (op.apply (s.get a) (s.get b)).toOption.bind fun w => Assembly.run? address rest (s.put r w) := by
  cases op with
  | add | sub | mul => exact run?_instruction rfl rfl
  | div =>
    rw [Arithmetic.apply]
    split
    · next hz =>
      rw [Assembly.run?, Line.run?]
      show (((Mnemonic.compute? .div (s.get a) (s.get b)).map _).map _).bind _ = _
      rw [Mnemonic.compute?, if_pos hz]
      rfl
    · next hz =>
      refine run?_instruction ?_ rfl
      show (Mnemonic.compute? .div (s.get a) (s.get b)).map _ = _
      rw [Mnemonic.compute?, if_neg hz]
      rfl

theorem run?_branch {m : Mnemonic} {l : Label} {taken : Bool} (ht : m.taken? (s.get a) (s.get b) = some taken) :
    Assembly.run? address (instr m [a, b, l] :: rest) s =
      if taken then some (.away l { s with pc := address l }) else Assembly.run? address rest s.advance := by
  have hexecute : (Instruction.execute? address s ⟨m, [a, b, l]⟩) =
      some (if taken then { s with pc := address l } else s.advance) := by
    rw [Target.execute?_branch, ht]
    rfl
  have hgoes : Instruction.goes? s ⟨m, [a, b, l]⟩ = if taken then some (.label l) else none := by
    rw [goes?_branch, ht]
    cases taken <;> rfl
  cases taken with
  | false => exact run?_instruction hexecute hgoes
  | true =>
    rw [Assembly.run?, Line.run?, hexecute, hgoes]
    rfl

end

/-- A run follows a computation of the source. It leaves the code through its end in a state that fits the result,
or it jumps to the routine for subscripts out of bounds. What else goes wrong, if the computation is `complete`, is
undefined, and there is no run. -/
def Computes {World α : Type} (complete : Prop) (run : Option (Leaving World)) (result : Except Fault α)
    (post : α → State World → Prop) : Prop :=
  match result with
  | .ok value => ∃ after, run = some (.through after) ∧ post value after
  | .error .subscript => ∃ after, run = some (.away Label.indexError after)
  | .error fault => complete → fault = .undefined ∧ run = none

namespace Computes
variable {World α β : Type} {complete : Prop} {address : Label → Word} {s after : State World}
  {first rest code : Assembly} {run : Option (Leaving World)} {result : Except Fault α}
  {post : α → State World → Prop} {post' : β → State World → Prop}

theorem ok {value : α} (hr : run = some (.through after)) (hp : post value after) :
    Computes complete run (.ok value) post := ⟨after, hr, hp⟩

/-- One piece of code behind the other computes what comes behind. -/
theorem bind {next : α → Except Fault β} (h : Computes complete (first.run? address s) result post)
    (hn : ∀ value after, post value after → Computes complete (rest.run? address after) (next value) post') :
    Computes complete (Assembly.run? address (first ++ rest) s) (result >>= next) post' := by
  rw [run?_append]
  cases result with
  | ok value =>
    obtain ⟨after, hr, hp⟩ := h
    rw [hr]
    exact hn value after hp
  | error fault =>
    cases fault with
    | subscript =>
      obtain ⟨after, hr⟩ := h
      rw [hr]
      exact ⟨after, rfl⟩
    | undefined | overflow | unfinished =>
      intro hc
      obtain ⟨hf, hr⟩ := h hc
      rw [hr]
      exact ⟨hf, rfl⟩

theorem of_complete (h : Computes complete run result post) (hc : complete) : Computes True run result post := by
  rwa [eq_true hc] at h

/-- The same computation with another result. -/
theorem map {f : α → β} (h : Computes complete run result post) (hc : complete)
    (hp : ∀ value after, post value after → post' (f value) after) : Computes True run (f <$> result) post' := by
  cases result with
  | ok value =>
    obtain ⟨after, hr, hpost⟩ := h
    exact ⟨after, hr, hp value after hpost⟩
  | error fault =>
    cases fault with
    | subscript => exact h
    | undefined | overflow | unfinished => exact fun _ => h hc

/-- How a run ends is decided by the result, and decides it. -/
theorem cases (h : Computes True run result post) :
    (∀ value, result = .ok value → ∃ after, run = some (.through after) ∧ post value after) ∧
      (result = .error .subscript ↔ ∃ after, run = some (.away Label.indexError after)) ∧
      (result = .error .undefined ↔ run = none) := by
  cases result with
  | ok value =>
    obtain ⟨after, rfl, hp⟩ := h
    refine ⟨?_, by simp, by simp⟩
    intro _ he
    cases he
    exact ⟨after, rfl, hp⟩
  | error fault =>
    refine ⟨by simp, ?_⟩
    cases fault with
    | subscript =>
      obtain ⟨after, rfl⟩ := h
      simp
    | undefined =>
      obtain ⟨-, rfl⟩ := h trivial
      simp
    | overflow | unfinished => cases (h trivial).1

end Computes

/-- Behind an instruction the machine goes on with the next one, unless it jumps. -/
theorem Instruction.execute?_pc {World : Type} {address : Label → Word} {s after : State World} {i : Instruction}
    (h : i.execute? address s = some after) :
    (i.goes? s = none → after.pc = s.pc + 4) ∧ ∀ l, i.goes? s = some (.label l) → after.pc = address l := by
  -- What a line behind which the machine goes on, and one that jumps, have to show.
  have hnext : i.goes? s = none → after.pc = s.pc + 4 →
      (i.goes? s = none → after.pc = s.pc + 4) ∧ ∀ l, i.goes? s = some (.label l) → after.pc = address l :=
    fun hg hpc => ⟨fun _ => hpc, by simp [hg]⟩
  have hjump : ∀ l, i.goes? s = some (.label l) → after.pc = address l →
      (i.goes? s = none → after.pc = s.pc + 4) ∧ ∀ l, i.goes? s = some (.label l) → after.pc = address l :=
    fun l hg hpc => ⟨by simp [hg], by simp [hg, hpc]⟩
  unfold execute? at h
  split at h
  · dsimp only at h
    split at h <;> cases h
    exact hnext rfl rfl
  · dsimp only at h
    split at h <;> cases h
    exact hnext rfl rfl
  · cases h
    exact hjump _ rfl rfl
  · cases h
    exact hjump _ rfl rfl
  · exact ⟨by simp [goes?], by simp [goes?]⟩
  · obtain ⟨taken, htaken, rfl⟩ := Option.map_eq_some_iff.mp h
    cases taken with
    | false => exact hnext (by rw [goes?_branch, htaken]; rfl) rfl
    | true => exact hjump _ (by rw [goes?_branch, htaken]; rfl) rfl
  · obtain ⟨w, hw, rfl⟩ := Option.map_eq_some_iff.mp h
    exact hnext (goes?_of_compute? hw) rfl
  · obtain ⟨w, hw, rfl⟩ := Option.map_eq_some_iff.mp h
    exact hnext (goes?_of_compute? hw) rfl
  · cases h

namespace Target
open Assembly
variable {World : Type} {target : Target World} {code : Assembly} {n : Nat} {s : State World}

/-- Where the machine is when a run of code up to the given number of instructions is over. -/
def Arrives (target : Target World) (n : Nat) (s : State World) : Leaving World → Prop
  | .through after => target.Reaches s after ∧ after.pc = target.codeAddress n
  | .away destination after => target.Reaches s after ∧ ∀ l, destination = .label l → after.pc = target.address l

private theorem Arrives.behind {after : State World} {leaving : Leaving World} (hr : target.Reaches s after)
    (h : target.Arrives n after leaving) : target.Arrives n s leaving := by
  cases leaving with
  | through last => exact ⟨hr.trans h.1, h.2⟩
  | away destination last => exact ⟨hr.trans h.1, h.2⟩

/-- A loaded program that contains the code makes its run. -/
theorem CodeAt.run (hl : target.Loaded) (hat : target.CodeAt n code) (hs : s.pc = target.codeAddress n)
    {leaving : Leaving World} (hr : code.run? target.address s = some leaving) :
    target.Arrives (n + size code) s leaving := by
  induction code generalizing n s with
  | nil =>
    cases hr
    exact ⟨.refl s, hs⟩
  | cons line code ih =>
    have htail := hat.tail
    have hsize : n + size (line :: code) = n + size [line] + size code := by
      rw [Nat.add_assoc, ← size_append]
      rfl
    rw [hsize]
    cases line with
    | label l => exact ih htail hs hr
    | directive words => exact ih htail hs hr
    | blank => exact ih htail hs hr
    | instruction i =>
      obtain ⟨first, hfirst, hrest⟩ := Option.bind_eq_some_iff.mp hr
      obtain ⟨after, he, rfl⟩ := Option.map_eq_some_iff.mp hfirst
      obtain ⟨hnext, hjump⟩ := Instruction.execute?_pc he
      have hreach := hat.reaches hl hs he
      cases hg : i.goes? s with
      | none =>
        rw [hg] at hrest
        refine .behind hreach (ih htail ?_ hrest)
        rw [hnext hg, hs, codeAddress_succ]
        rfl
      | some destination =>
        rw [hg] at hrest
        cases hrest
        exact ⟨hreach, fun l hl => hjump l (hl ▸ hg)⟩

end Target

/-- A loaded program follows what a piece of its code computes. -/
theorem Computes.follows {World α : Type} {target : Target World} {code : Assembly} {n : Nat} {s : State World}
    {complete : Prop} {result : Except Fault α} {post : α → State World → Prop}
    (h : Computes complete (code.run? target.address s) result post) (hl : target.Loaded) (hat : target.CodeAt n code)
    (hs : s.pc = target.codeAddress n) : target.Follows s result fun value after =>
      after.pc = target.codeAddress (n + Assembly.size code) ∧ post value after := by
  cases result with
  | ok value =>
    obtain ⟨after, hr, hp⟩ := h
    obtain ⟨hreach, hpc⟩ := hat.run hl hs hr
    exact ⟨after, hreach, hpc, hp⟩
  | error fault =>
    cases fault with
    | subscript =>
      obtain ⟨after, hr⟩ := h
      obtain ⟨hreach, hpc⟩ := hat.run hl hs hr
      exact ⟨after, hreach, hpc _ rfl⟩
    | undefined | overflow | unfinished => trivial

end SplLang.Machine

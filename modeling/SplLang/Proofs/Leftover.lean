import SplLang.Proofs.Execution
import SplLang.Proofs.Shapes

/-! What memory holds before a program writes it. The machine makes its calls one after the other,
so their numbers tell the activations apart, and a store can have for the locals of each one whatever
words it finds. -/
namespace SplLang
open Machine

namespace Machine
variable {World : Type}

private theorem Instruction.execute?_calls {address : Label → Word} {s after : State World} {i : Instruction}
    (h : i.execute? address s = some after) : s.calls ≤ after.calls := by
  unfold execute? at h
  split at h
  · dsimp only at h
    split at h <;> cases h
    exact Nat.le_refl _
  · dsimp only at h
    split at h <;> cases h
    exact Nat.le_refl _
  · cases h
    exact Nat.le_refl _
  · cases h
    exact Nat.le_succ _
  · cases h
    exact Nat.le_refl _
  · obtain ⟨taken, _, rfl⟩ := Option.map_eq_some_iff.mp h
    cases taken <;> exact Nat.le_refl _
  · obtain ⟨w, _, rfl⟩ := Option.map_eq_some_iff.mp h
    exact Nat.le_refl _
  · obtain ⟨w, _, rfl⟩ := Option.map_eq_some_iff.mp h
    exact Nat.le_refl _
  · cases h

namespace Target
variable {target : Target World} {start s s' after after' : State World} {first name name' : Name}

/-- No step takes a call back. -/
theorem step?_calls (h : target.step? s = some after) : s.calls ≤ after.calls := by
  unfold step? at h
  split at h
  · exact Instruction.execute?_calls h
  · obtain ⟨served, _, rfl⟩ := Option.map_eq_some_iff.mp h
    exact Nat.le_refl _

private theorem Reaches.calls_le (h : target.Reaches s after) : s.calls ≤ after.calls := by
  induction h with
  | refl => exact Nat.le_refl _
  | tail _ hstep ih => exact Nat.le_trans ih (step?_calls hstep)

/-- The machine begins to run a procedure: it is started there, or it has just called it. -/
inductive Begins (target : Target World) (first : Name) (start : State World) : Name → State World → Prop
  | start : Begins target first start first start
  | call {name : Name} {s after : State World} : target.Reaches start s →
      target.fetch? s.pc = some ⟨.jal, [Label.named name]⟩ → target.step? s = some after →
        Begins target first start name after

private theorem calls_of_jal (hf : target.fetch? s.pc = some ⟨.jal, [Label.named name]⟩)
    (h : target.step? s = some after) : after.calls = s.calls + 1 := by
  rw [step?_of_fetch hf] at h
  cases h
  rfl

private theorem Begins.calls_le (h : target.Begins first start name s) : start.calls ≤ s.calls := by
  cases h with
  | start => exact Nat.le_refl _
  | call hr hf hstep =>
    have hle := Reaches.calls_le hr
    rw [calls_of_jal hf hstep]
    omega

/-- Of two calls on one way the second one has the higher number. -/
private theorem eq_of_calls (hr : target.Reaches s s') (h : target.step? s = some after)
    (hf' : target.fetch? s'.pc = some ⟨.jal, [Label.named name']⟩) (h' : target.step? s' = some after') (hc : after.calls = after'.calls) : s = s' := by
  rcases Relation.ReflTransGen.cases_head hr with rfl | ⟨middle, hstep, hrest⟩
  · rfl
  · cases Option.some.inj (h.symm.trans hstep)
    have hle := Reaches.calls_le hrest
    have hlast := calls_of_jal hf' h'
    omega

/-- The number of calls tells which procedure is begun and in which state. -/
theorem Begins.unique (h : target.Begins first start name s) (h' : target.Begins first start name' s')
    (hc : s.calls = s'.calls) : name = name' ∧ s = s' := by
  cases h with
  | start =>
    cases h' with
    | start => exact ⟨rfl, rfl⟩
    | call hr hf hstep =>
      have hle := Reaches.calls_le hr
      have hlast := calls_of_jal hf hstep
      omega
  | @call _ caller _ hr hf hstep =>
    cases h' with
    | start =>
      have hle := Reaches.calls_le hr
      have hlast := calls_of_jal hf hstep
      omega
    | @call _ caller' _ hr' hf' hstep' =>
      have hsame : caller = caller' := by
        have hone : Relator.RightUnique fun s s' => target.step? s = some s' := by
          intro a b c hb hc
          exact Option.some.inj (hb.symm.trans hc)
        rcases Relation.ReflTransGen.total_of_right_unique hone hr hr' with hr | hr
        · exact eq_of_calls hr hstep hf' hstep' hc
        · exact (eq_of_calls hr hstep' hf hstep hc.symm).symm
      subst hsame
      rw [hf] at hf'
      cases hf'
      exact ⟨rfl, Option.some.inj (hstep.symm.trans hstep')⟩

end Target
end Machine

section
variable {World : Type}

/-- What the store holds for the variables of an activation before they are written: the words that
lie where the code of the body will find them when the machine begins to run it. -/
def Leftover (target : Target World) (context : Context) (first : Name) (start : Machine.State World)
    (store : Store) : Prop :=
  ∀ name s, target.Begins first start name s →
    ∀ scope, (context.scopes.procedure? name).bind (·.scope) = some scope →
      ∀ variableName offset byReference,
        Body.placed? ⟨context, scope⟩ variableName = some (offset, byReference) →
          ∀ index, store ⟨s.calls, variableName, index⟩ =
            s.memory (s.get .stackPointer + offset.toBitVec + BitVec.ofNat 32 (4 * index))

/-- A new activation may find anything, so there is a store for every machine; older cells are
free to choose. -/
theorem exists_leftover (target : Target World) (context : Context) (first : Name)
    (start : Machine.State World) (store : Store) :
    ∃ store', Leftover target context first start store' ∧
      ∀ cell : Cell, cell.activation < start.calls → store' cell = store cell := by
  classical
  refine ⟨fun cell => if h : ∃ w, ∃ name s scope offset byReference, target.Begins first start name s ∧
      s.calls = cell.activation ∧ (context.scopes.procedure? name).bind (·.scope) = some scope ∧
      Body.placed? ⟨context, scope⟩ cell.name = some (offset, byReference) ∧
      w = s.memory (s.get .stackPointer + offset.toBitVec + BitVec.ofNat 32 (4 * cell.index))
    then h.choose else store cell, ?_, ?_⟩
  · intro name s hbegins scope hscope variableName offset byReference hplaced index
    have h : ∃ w, ∃ name' s' scope' offset' byReference', target.Begins first start name' s' ∧
        s'.calls = s.calls ∧ (context.scopes.procedure? name').bind (·.scope) = some scope' ∧
        Body.placed? ⟨context, scope'⟩ variableName = some (offset', byReference') ∧
        w = s'.memory (s'.get .stackPointer + offset'.toBitVec + BitVec.ofNat 32 (4 * index)) :=
      ⟨_, name, s, scope, offset, byReference, hbegins, rfl, hscope, hplaced, rfl⟩
    obtain ⟨name', s', scope', offset', byReference', hbegins', hcalls, hscope', hplaced', hw⟩ := h.choose_spec
    -- The number of calls tells the activation, so the word that was chosen is the only one there is.
    obtain ⟨rfl, rfl⟩ := hbegins'.unique hbegins hcalls
    rw [hscope] at hscope'
    cases hscope'
    rw [hplaced] at hplaced'
    cases hplaced'
    exact (dif_pos h).trans hw
  · intro cell hc
    refine dif_neg ?_
    rintro ⟨_, name, s, _, _, _, hbegins, hcalls, _⟩
    have hle := hbegins.calls_le
    omega

end
end SplLang

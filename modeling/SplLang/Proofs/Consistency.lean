import SplLang.Proofs.CheckingRules
import SplLang.Proofs.DeclarationRules

/-! No compilation fails with an internal error. Each stage provides what the later ones expect;
whatever a stage refuses is a fault of the program. -/
namespace SplLang
open Machine

section
variable {program : Program} {declared finish : Progress} {d : Diagnostic}

/-- Declarations are refused for faults of the program only. -/
theorem Program.declare_code_le (hr : program.declare.run .initial = .error d finish) : d.code ≤ 128 :=
  ((program.declare_refuses d).mp ⟨finish, hr⟩).code_le fun located => located.2.code_le located.1

/-- Bodies are refused for faults of the program only. -/
theorem Program.check_code_le {count : DeclarationCount} (hd : program.declare.run .initial = .ok count declared)
    (hr : program.check.run declared = .error d finish) : d.code ≤ 128 :=
  ((Program.check_refuses hd d).mp ⟨finish, hr⟩).code_le fun rule => rule.code_le _ _

end

/-- What is left of the compilation once its first three stages have run. -/
theorem Program.Runs.ready {program : Program} {declared checked placed : Progress}
    (h : program.Runs declared checked placed) (hn : program.nodeIds.Nodup) :
    ∀ procedure ∈ program.procedures, procedure.Ready placed.context := by
  obtain ⟨⟨_, hd⟩, ⟨_, hc⟩, ⟨_, hp⟩⟩ := h
  obtain ⟨sigs, hsigs, hdeclared⟩ := Program.declare_ok hd
  obtain ⟨area, found, hprepared, hrecorded, _⟩ := hdeclared.prepare hsigs hc hp
  intro procedure hmem
  rw [← hsigs] at hmem
  obtain ⟨sig, hs, rfl⟩ := List.mem_map.mp hmem
  exact hprepared.ready hs (hrecorded.noted hprepared hsigs hn hs)

/-- If the first three stages succeed, it is the last one that fails. -/
theorem Program.Runs.generate_of_error {program : Program} {declared checked placed : Progress}
    (h : program.Runs declared checked placed) {last : Stage} {d : Diagnostic} {finish : Progress}
    (he : (program.runStages last).run .initial = .error d finish) :
    ∃ other, program.generate.run placed = .error d other := by
  obtain ⟨_, hd⟩ := h.declare
  obtain ⟨_, hc⟩ := h.check
  obtain ⟨_, hp⟩ := h.place
  rcases Program.runStages_eq_error he with he | ⟨_, _, hd', he⟩ | ⟨_, _, _, hruns, he⟩
  · rw [hd] at he
    cases he
  · rw [hd] at hd'
    cases hd'
    rcases he with he | ⟨_, _, hc', he⟩
    · rw [hc] at he
      cases he
    · rw [hc] at hc'
      cases hc'
      rw [hp] at he
      cases he
  · obtain rfl := h.unique hruns
    exact ⟨_, he⟩

/-- No stage finds anything missing that an earlier one should have provided. -/
structure Program.Consistent (program : Program) : Prop where
  never_internal : ∀ last d, (compile program last).1 = .error d → d.code ≠ 199
  ready : ∀ c, (compile program .placed).1 = .ok c → ∀ procedure ∈ program.procedures, procedure.Ready c.context
  /-- The last stage succeeds, or it runs out of scratch registers. -/
  generated : ∀ c, (compile program .placed).1 = .ok c → (∃ whole, (compile program .generated).1 = .ok whole) ∨
    ∃ d, (compile program .generated).1 = .error d ∧ d.cause = .registersExhausted

/-- If no node number occurs at two places of the tree, no compilation ends in an internal error.
In particular, once the first three stages succeed every procedure is ready, and generation
succeeds or runs out of scratch registers. -/
theorem compile_never_internal (program : Program) (hn : program.nodeIds.Nodup) : program.Consistent where
  never_internal := by
    intro last d h
    obtain ⟨finish, h⟩ := compile_eq_error.mp h
    rcases Program.runStages_eq_error h with h | ⟨_, declared, hd, h⟩ | ⟨_, _, placed, hruns, h⟩
    · have hcode := Program.declare_code_le h
      omega
    · rcases h with h | ⟨_, checked, hc, h⟩
      · have hcode := Program.check_code_le hd h
        omega
      · have hcode := Program.place_code hd hc h
        omega
    · have hexhausted := Program.code_failsOnly (hruns.ready hn) d (Program.generate_error h)
      rw [Diagnostic.code, hexhausted]
      decide
  ready := by
    intro c hc
    obtain ⟨declared, checked, placed, hruns, hctx⟩ := compile_placed hc
    rw [hctx]
    exact hruns.ready hn
  generated := by
    intro c hc
    obtain ⟨declared, checked, placed, hruns, -⟩ := compile_placed hc
    cases h : (compile program .generated).1 with
    | ok whole => exact .inl ⟨whole, rfl⟩
    | error d =>
      obtain ⟨finish, h⟩ := compile_eq_error.mp h
      obtain ⟨other, hcode⟩ := hruns.generate_of_error h
      exact .inr ⟨d, rfl, Program.code_failsOnly (hruns.ready hn) d (Program.generate_error hcode)⟩

/-- A procedure `main` that assigns to an element of its local array. -/
def elementAssigned : Program where
  position := ⟨1, 1⟩
  declarations := [.procedure {
    position := ⟨1, 1⟩
    name := "main"
    parameters := []
    locals := [⟨⟨2, 3⟩, "a", .array ⟨1, ⟨2, 10⟩⟩ 3 (.named ⟨0, ⟨2, 20⟩⟩ "int")⟩]
    body := [.assign ⟨3, 3⟩
      (.element ⟨4, ⟨3, 3⟩⟩ (.named ⟨3, ⟨3, 3⟩⟩ "a") (.literal ⟨2, ⟨3, 5⟩⟩ 1)) (.literal ⟨5, ⟨3, 11⟩⟩ 7)] }]

theorem elementAssigned_never_internal :
    elementAssigned.nodeIds.Nodup ∧ (∃ c, (compile elementAssigned .placed).1 = .ok c) ∧ elementAssigned.Consistent :=
  ⟨by decide, ⟨_, rfl⟩, compile_never_internal elementAssigned (by decide)⟩

end SplLang

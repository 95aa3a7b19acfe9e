import SplLang.Proofs.CheckingRules
import SplLang.Proofs.DeclarationRules

/-! The errors that a program owes to the rules of the language: each is that of the first rule that the program
breaks, and a program that breaks a rule gets it. -/
namespace SplLang
open Phase

/-- The program breaks a rule, the diagnostic is that of the rule, and no rule in front of it is broken. The rules
for declarations come before the others, which count once all declarations are entered. -/
inductive Program.FirstFault (program : Program) (last : Stage) (d : Diagnostic) : Prop where
  | declaring : FirstBroken locatedDemand program.declarationRules d → FirstFault program last d
  | checking {count : DeclarationCount} {declared : Progress} :
      Stage.checked.runs last → program.declare.run .initial = .ok count declared →
        FirstBroken (CheckingRule.demand program declared.context) program.checkingRules d →
          FirstFault program last d

section
variable {program : Program} {last : Stage} {d : Diagnostic}

/-- Every rule has a code of the language. -/
theorem Program.FirstFault.code_le (h : program.FirstFault last d) : d.code ≤ 128 := by
  rcases h with h | ⟨_, _, h⟩
  · exact h.code_le fun located => located.2.code_le located.1
  · exact h.code_le fun rule => rule.code_le _ _

/-- The stages behind the check fail with other codes. -/
theorem Program.late_code {count : DeclarationCount} {bodies : Nat} {declared checked finish : Progress}
    (hd : program.declare.run .initial = .ok count declared) (hc : program.check.run declared = .ok bodies checked)
    (h : program.place.run checked = .error d finish ∨
      ∃ placed, program.generate.run placed = .error d finish) : 128 < d.code := by
  rcases h with hp | ⟨placed, hg⟩
  · rw [Program.place_code hd hc hp]
    decide
  · have hlate : Trail.FailsOnly (fun cause => 128 < cause.code) (program.code placed.context) :=
      Program.code_fails (by decide) (.inr fun _ => (by decide : 128 < 199))
    exact hlate d (Program.generate_error hg)

private theorem Program.firstFault_of_error {finish : Progress} (hcode : d.code ≤ 128)
    (h : (program.runStages last).run .initial = .error d finish) : program.FirstFault last d := by
  unfold runStages at h
  rcases run_bind_eq_error.mp h with h | ⟨count, declared, hd, h⟩
  · exact .declaring ((program.declare_refuses d).mp ⟨finish, h⟩)
  rcases run_bind_eq_error.mp h with h | ⟨_, checked, hc, h⟩
  · obtain ⟨hruns, h⟩ := run_within_eq_error.mp h
    exact .checking hruns hd ((Program.check_refuses hd d).mp ⟨finish, h⟩)
  refine absurd hcode (Nat.not_le.mpr ?_)
  rcases run_bind_eq_error.mp h with h | ⟨_, placed, _, h⟩
  · obtain ⟨hruns, h⟩ := run_within_eq_error.mp h
    obtain ⟨_, _, hc⟩ := run_of_within (runs_of_runs hruns (by decide)) hc
    exact late_code hd hc (.inl h)
  rcases run_bind_eq_error.mp h with h | ⟨_, _, _, h⟩
  · obtain ⟨hruns, h⟩ := run_within_eq_error.mp h
    obtain ⟨_, _, hc⟩ := run_of_within (runs_of_runs hruns (by decide)) hc
    exact late_code hd hc (.inr ⟨placed, h⟩)
  · cases h

private theorem Program.FirstFault.error (h : program.FirstFault last d) :
    ∃ finish, (program.runStages last).run .initial = .error d finish := by
  unfold runStages
  rcases h with h | ⟨hruns, hd, h⟩
  · obtain ⟨finish, h⟩ := (program.declare_refuses d).mpr h
    exact ⟨finish, run_bind_eq_error.mpr (.inl h)⟩
  · obtain ⟨finish, h⟩ := (Program.check_refuses hd d).mpr h
    exact ⟨finish, run_bind_eq_error.mpr (.inr ⟨_, _, hd,
      run_bind_eq_error.mpr (.inl (run_within_eq_error.mpr ⟨hruns, h⟩))⟩)⟩

/-- A compilation ends in an error of the language exactly if the program breaks a rule, and the error is that of the
first rule that is broken. Each rule is about something that stands in the program, and what names mean to it
follows from the declarations. -/
theorem Program.compile_first_fault (program : Program) (last : Stage) :
    (∀ d, (compile program last).1 = .error d ∧ d.code ≤ 128 ↔ program.FirstFault last d) ∧
    (∀ visible rule, (visible, rule) ∈ program.declarationRules → rule.StandsIn program) ∧
    (∀ rule ∈ program.checkingRules, rule.StandsIn program) ∧
    ∀ count declared, program.declare.run .initial = .ok count declared → ∀ procedure ∈ program.procedures,
      program.Sees procedure (declared.context.around procedure) := by
  refine ⟨fun d => ⟨?_, fun h => ⟨compile_eq_error.mpr h.error, h.code_le⟩⟩, ?_, ?_, ?_⟩
  · rintro ⟨he, hcode⟩
    obtain ⟨finish, h⟩ := compile_eq_error.mp he
    exact Program.firstFault_of_error hcode h
  · exact fun visible rule h => program.declarationRules_standIn h
  · exact fun rule h => program.checkingRules_standIn h
  · exact fun count declared hd procedure hp => Program.sees hd hp

end

/-- A procedure `main` that assigns to an element of an array. Neither the array nor its index is declared. -/
def undeclaredElement : Program where
  position := ⟨1, 1⟩
  declarations := [.procedure {
    position := ⟨1, 1⟩
    name := "main"
    parameters := []
    locals := []
    body := [.assign ⟨2, 3⟩
      (.element ⟨3, ⟨2, 3⟩⟩ (.named ⟨0, ⟨2, 3⟩⟩ "a") (.load ⟨2, ⟨2, 5⟩⟩ (.named ⟨1, ⟨2, 5⟩⟩ "i")))
      (.literal ⟨4, ⟨2, 11⟩⟩ 1)] }]

/-- The index comes before the array. -/
theorem undeclaredElement_first_fault :
    undeclaredElement.FirstFault .checked ⟨⟨2, 5⟩, .undefinedVariable "i"⟩ :=
  ((Program.compile_first_fault undeclaredElement .checked).1 _).mp ⟨rfl, by decide⟩

end SplLang

import SplLang.Proofs.Stages

/-! Compilations of one program that stop at different stages. They run the same stages from the same
start, so each goes as far as the others do and answers the context it has come to. -/
namespace SplLang
open Phase Machine

section
variable {program : Program} {last : Stage} {c : Compilation}

/-- A compilation succeeds through its stages, one after the other. -/
theorem compile_ok_iff : (compile program last).1 = .ok c ↔
    ∃ declarations declared bodies checked frames placed assembly generated,
      program.declare.run .initial = .ok declarations declared ∧
      (within .checked last program.check).run declared = .ok bodies checked ∧
      (within .placed last program.place).run checked = .ok frames placed ∧
      (within .generated last program.generate).run placed = .ok assembly generated ∧
      c = ⟨generated.context, assembly, last⟩ := by
  rw [compile_eq_ok]
  constructor
  · rintro ⟨finish, h⟩
    obtain ⟨declarations, declared, hd, h⟩ := run_bind_eq_ok.mp h
    obtain ⟨bodies, checked, hc, h⟩ := run_bind_eq_ok.mp h
    obtain ⟨frames, placed, hp, h⟩ := run_bind_eq_ok.mp h
    obtain ⟨assembly, generated, hg, h⟩ := run_bind_eq_ok.mp h
    cases h
    exact ⟨declarations, declared, bodies, checked, frames, placed, assembly, generated, hd, hc, hp, hg, rfl⟩
  · rintro ⟨declarations, declared, bodies, checked, frames, placed, assembly, generated, hd, hc, hp, hg, rfl⟩
    refine ⟨{ generated with events := generated.events ++ [.completed last] }, ?_⟩
    refine run_bind_eq_ok.mpr ⟨declarations, declared, hd, run_bind_eq_ok.mpr ⟨bodies, checked, hc, ?_⟩⟩
    exact run_bind_eq_ok.mpr ⟨frames, placed, hp, run_bind_eq_ok.mpr ⟨assembly, generated, hg, rfl⟩⟩

private theorem run_within_of_runs {α : Type} {stage : Stage} {x : Phase α} {a : α} {start finish : Progress}
    (hr : stage.runs last) (h : x.run start = .ok a finish) :
    (within stage last x).run start = .ok (some a) finish :=
  run_within_eq_ok.mpr (.inl ⟨hr, a, rfl, h⟩)

private theorem run_within_of_not_runs {α : Type} {stage : Stage} (hr : ¬ stage.runs last) (x : Phase α)
    (start : Progress) : (within stage last x).run start = .ok none start :=
  run_within_eq_ok.mpr (.inr ⟨hr, rfl, rfl⟩)

/-- A compilation up to the declarations. -/
theorem compile_declared_iff : (compile program .declared).1 = .ok c ↔
    ∃ count declared, program.declare.run .initial = .ok count declared ∧
      c = ⟨declared.context, none, .declared⟩ := by
  rw [compile_ok_iff]
  constructor
  · rintro ⟨count, declared, _, checked, _, placed, _, generated, hd, hc, hp, hg, rfl⟩
    rw [run_within_of_not_runs (by decide)] at hc
    cases hc
    rw [run_within_of_not_runs (by decide)] at hp
    cases hp
    rw [run_within_of_not_runs (by decide)] at hg
    cases hg
    exact ⟨count, declared, hd, rfl⟩
  · rintro ⟨count, declared, hd, rfl⟩
    exact ⟨count, declared, none, declared, none, declared, none, declared, hd,
      run_within_of_not_runs (by decide) _ _, run_within_of_not_runs (by decide) _ _,
      run_within_of_not_runs (by decide) _ _, rfl⟩

/-- A compilation up to the checks. -/
theorem compile_checked_iff : (compile program .checked).1 = .ok c ↔
    ∃ count declared bodies checked, program.declare.run .initial = .ok count declared ∧
      program.check.run declared = .ok bodies checked ∧ c = ⟨checked.context, none, .checked⟩ := by
  rw [compile_ok_iff]
  constructor
  · rintro ⟨count, declared, _, checked, _, placed, _, generated, hd, hc, hp, hg, rfl⟩
    rcases run_within_eq_ok.mp hc with ⟨_, bodies, rfl, hb⟩ | ⟨hn, _⟩
    · rw [run_within_of_not_runs (by decide)] at hp
      cases hp
      rw [run_within_of_not_runs (by decide)] at hg
      cases hg
      exact ⟨count, declared, bodies, checked, hd, hb, rfl⟩
    · exact absurd rfl hn
  · rintro ⟨count, declared, bodies, checked, hd, hc, rfl⟩
    exact ⟨count, declared, some bodies, checked, none, checked, none, checked, hd,
      run_within_of_runs rfl hc, run_within_of_not_runs (by decide) _ _,
      run_within_of_not_runs (by decide) _ _, rfl⟩

/-- A compilation up to the frames. -/
theorem compile_placed_iff : (compile program .placed).1 = .ok c ↔
    ∃ declared checked placed, program.Runs declared checked placed ∧ c = ⟨placed.context, none, .placed⟩ := by
  rw [compile_ok_iff]
  constructor
  · rintro ⟨count, declared, _, checked, _, placed, _, generated, hd, hc, hp, hg, rfl⟩
    rcases run_within_eq_ok.mp hc with ⟨_, bodies, rfl, hb⟩ | ⟨hn, _⟩
    · rcases run_within_eq_ok.mp hp with ⟨_, frames, rfl, hf⟩ | ⟨hn, _⟩
      · rw [run_within_of_not_runs (by decide)] at hg
        cases hg
        exact ⟨declared, checked, placed, ⟨⟨count, hd⟩, ⟨bodies, hb⟩, ⟨frames, hf⟩⟩, rfl⟩
      · exact absurd rfl hn
    · exact absurd rfl hn
  · rintro ⟨declared, checked, placed, ⟨⟨count, hd⟩, ⟨bodies, hc⟩, ⟨frames, hp⟩⟩, rfl⟩
    exact ⟨count, declared, some bodies, checked, some frames, placed, none, placed, hd,
      run_within_of_runs rfl hc, run_within_of_runs rfl hp, run_within_of_not_runs (by decide) _ _, rfl⟩

/-- What a compilation has come to when it has gone through a stage. -/
def contextAt (declared checked placed : Progress) : Stage → Context
  | .declared => declared.context
  | .checked => checked.context
  | .placed => placed.context
  | .generated => placed.context

/-- A program that is compiled to the end can be stopped at every stage. -/
theorem compile_stops (h : (compile program .generated).1 = .ok c) :
    ∃ declared checked placed, program.Runs declared checked placed ∧ c.context = placed.context ∧
      ∀ last, ∃ stopped, (compile program last).1 = .ok stopped ∧
        stopped.context = contextAt declared checked placed last := by
  obtain ⟨declared, checked, placed, hr, hc, _⟩ := compile_generated h
  refine ⟨declared, checked, placed, hr, hc, fun last => ?_⟩
  obtain ⟨count, hd⟩ := hr.declare
  obtain ⟨bodies, hb⟩ := hr.check
  cases last with
  | declared => exact ⟨_, compile_declared_iff.mpr ⟨count, declared, hd, rfl⟩, rfl⟩
  | checked => exact ⟨_, compile_checked_iff.mpr ⟨count, declared, bodies, checked, hd, hb, rfl⟩, rfl⟩
  | placed => exact ⟨_, compile_placed_iff.mpr ⟨declared, checked, placed, hr, rfl⟩, rfl⟩
  | generated => exact ⟨c, h, hc⟩

end
end SplLang

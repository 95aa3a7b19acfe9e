import SplLang.Diagnostic
import SplLang.Event

/-! Computations that leave a trail: what they found, in order, and what they reported.
A failing computation keeps the trail up to its failure. -/
namespace SplLang

structure Trail (ω α : Type) where
  found : List ω
  events : List Event
  result : Except Diagnostic α

namespace Trail
variable {ω α β : Type}

/-- Continue behind a computation that does not fail. -/
def andThen (t : Trail ω α) (next : α → Trail ω β) : Trail ω β :=
  match t.result with
  | .ok a =>
    let rest := next a
    ⟨t.found ++ rest.found, t.events ++ rest.events, rest.result⟩
  | .error d => ⟨t.found, t.events, .error d⟩

instance : Monad (Trail ω) where
  pure a := ⟨[], [], .ok a⟩
  bind := andThen

/-- Leave findings. -/
def leave (found : List ω) : Trail ω Unit := ⟨found, [], .ok ()⟩

/-- Report an event. -/
def report (event : Event) : Trail ω Unit := ⟨[], [event], .ok ()⟩

def fail (position : Position) (cause : Cause) : Trail ω α := ⟨[], [], .error ⟨position, cause⟩⟩

/-- The value there should be, or else the given failure. -/
def expect (value : Option α) (position : Position) (cause : Cause) : Trail ω α :=
  match value with
  | some a => pure a
  | none => fail position cause

/-- Go on only if a condition holds. -/
def require (condition : Prop) [Decidable condition] (position : Position) (cause : Cause) :
    Trail ω Unit :=
  if condition then pure () else fail position cause

theorem andThen_pure (t : Trail ω α) : t.andThen (fun a => ⟨[], [], .ok a⟩) = t := by
  obtain ⟨found, events, result⟩ := t
  cases result <;> simp [andThen]

theorem andThen_assoc {γ : Type} (t : Trail ω α) (f : α → Trail ω β) (g : β → Trail ω γ) :
    (t.andThen f).andThen g = t.andThen fun a => (f a).andThen g := by
  obtain ⟨found, events, result⟩ := t
  cases result with
  | error d => rfl
  | ok a =>
    simp only [andThen]
    cases (f a).result <;> simp

instance : LawfulMonad (Trail ω) :=
  LawfulMonad.mk' (Trail ω) (fun t => andThen_pure t) (fun _ _ => rfl) andThen_assoc

@[simp]
theorem result_pure (a : α) : (pure a : Trail ω α).result = .ok a := rfl

@[simp]
theorem found_pure (a : α) : (pure a : Trail ω α).found = [] := rfl

/-- A sequence succeeds if both parts do. -/
theorem result_bind_eq_ok {t : Trail ω α} {next : α → Trail ω β} {b : β} :
    (t >>= next).result = .ok b ↔ ∃ a, t.result = .ok a ∧ (next a).result = .ok b := by
  obtain ⟨found, events, result⟩ := t
  cases result <;> simp [bind, andThen]

theorem found_bind_of_ok {t : Trail ω α} {a : α} (next : α → Trail ω β)
    (h : t.result = .ok a) : (t >>= next).found = t.found ++ (next a).found := by
  obtain ⟨found, events, result⟩ := t
  cases h
  rfl

theorem result_expect_eq_ok {value : Option α} {p : Position} {cause : Cause} {a : α} :
    (expect value p cause : Trail ω α).result = .ok a ↔ value = some a := by
  cases value <;> simp [expect, fail]

theorem result_require_eq_ok {condition : Prop} [Decidable condition] {p : Position}
    {cause : Cause} :
    (require condition p cause : Trail ω Unit).result = .ok () ↔ condition := by
  unfold require
  split <;> simp_all [fail]

end Trail
end SplLang

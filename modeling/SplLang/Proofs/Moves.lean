import Mathlib.Order.Defs.Unbundled
import SplLang.Declaring
import SplLang.Proofs.Steps

/-! What a step does to the context, be it that it succeeds or that it fails on the way. A sequence keeps to a
transitive relation of contexts if its parts do. -/
namespace SplLang.Phase
variable {α β : Type} {R : Context → Context → Prop} {x : Phase α} {next : α → Phase β} {start finish : Progress}

/-- Whether the step succeeds or fails, the contexts before and behind it are related. -/
def Moves (R : Context → Context → Prop) (x : Phase α) (start : Progress) : Prop :=
  R start.context (x.runFrom start).2.context

/-- If the step fails, the contexts before and behind it are related. -/
def Halts (R : Context → Context → Prop) (x : Phase α) (start : Progress) : Prop :=
  ∀ d finish, x.run start = .error d finish → R start.context finish.context

namespace Moves

theorem of_ok (h : x.Moves R start) {a : α} (hr : x.run start = .ok a finish) : R start.context finish.context := by
  unfold Moves runFrom at h
  rw [hr] at h
  exact h

private theorem halts (h : x.Moves R start) : x.Halts R start := by
  intro d finish hr
  unfold Moves runFrom at h
  rw [hr] at h
  exact h

private theorem of_halts (hok : ∀ a finish, x.run start = .ok a finish → R start.context finish.context)
    (herror : x.Halts R start) : x.Moves R start := by
  unfold Moves runFrom
  cases hr : x.run start with
  | ok a finish => exact hok a finish hr
  | error d finish => exact herror d finish hr

theorem mono {R' : Context → Context → Prop} (h : x.Moves R start) (hw : ∀ old new, R old new → R' old new) :
    x.Moves R' start :=
  hw _ _ h

end Moves

theorem Halts.bind [IsTrans Context R] (hx : x.Moves R start)
    (hn : ∀ a middle, x.run start = .ok a middle → (next a).Halts R middle) : (x >>= next).Halts R start := by
  intro d finish hr
  rcases run_bind_eq_error.mp hr with hr | ⟨a, middle, ha, hr⟩
  · exact hx.halts d finish hr
  · exact trans_of R (hx.of_ok ha) (hn a middle ha d finish hr)

/-- A sequence whose rest never fails fails where its first part does. -/
theorem Halts.bind_of_never (hx : x.Halts R start)
    (hn : ∀ a middle d finish, (next a).run middle ≠ .error d finish) : (x >>= next).Halts R start := by
  intro d finish hr
  rcases run_bind_eq_error.mp hr with hr | ⟨a, middle, -, hr⟩
  · exact hx d finish hr
  · exact absurd hr (hn a middle d finish)

namespace Moves

theorem bind [IsTrans Context R] (hx : x.Moves R start)
    (hn : ∀ a middle, x.run start = .ok a middle → (next a).Moves R middle) : (x >>= next).Moves R start := by
  refine of_halts (fun b finish hr => ?_) (.bind hx fun a middle ha => (hn a middle ha).halts)
  obtain ⟨a, middle, ha, hb⟩ := run_bind_eq_ok.mp hr
  exact trans_of R (hx.of_ok ha) ((hn a middle ha).of_ok hb)

section
variable [Std.Refl R]

theorem pure (a : α) : (Pure.pure a : Phase α).Moves R start := refl_of R _

theorem fail (position : Position) (cause : Cause) : (Phase.fail position cause : Phase α).Moves R start := refl_of R _

theorem context : Phase.context.Moves R start := refl_of R _

theorem report (event : Event) : (Phase.report event).Moves R start := refl_of R _

theorem require {condition : Prop} [Decidable condition] {position : Position} {cause : Cause} :
    (Phase.require condition position cause).Moves R start := by
  unfold Phase.require
  split
  · exact pure ()
  · exact fail position cause

theorem reportEmpty {position : Position} {length : UInt32} : (Phase.reportEmpty position length).Moves R start := by
  unfold Phase.reportEmpty
  split
  · exact report _
  · exact pure ()

/-- An array type that is too large changes nothing. -/
theorem addArray {position : Position} {element : TypeId} {length : UInt32}
    (h : ∀ type types, start.context.types.addArray? element length = some (type, types) →
      R start.context { start.context with types }) :
    (Phase.addArray position element length).Moves R start := by
  unfold Moves runFrom Phase.addArray
  rw [run_context_bind, EStateM.run_bind]
  cases ha : start.context.types.addArray? element length with
  | none => exact refl_of R _
  | some added => exact h _ _ ha

/-- A name that is taken changes nothing. -/
theorem enter {scope : ScopeId} {name : Name} {entry : Entry} {position : Position} {taken : Cause}
    (h : ∀ scopes, start.context.scopes.enter? scope name entry = some scopes →
      R start.context { start.context with scopes }) :
    (Phase.enter scope name entry position taken).Moves R start := by
  unfold Moves runFrom Phase.enter
  rw [run_context_bind, EStateM.run_bind]
  cases he : start.context.scopes.enter? scope name entry with
  | none => exact refl_of R _
  | some scopes => exact h scopes he

end

section
variable {γ : Type} [IsPreorder Context R]

theorem forM {f : γ → Phase Unit} (xs : List γ) (h : ∀ x ∈ xs, ∀ start, (f x).Moves R start) :
    (xs.forM f).Moves R start := by
  induction xs generalizing start with
  | nil => exact .pure ()
  | cons x xs ih =>
    obtain ⟨hx, hxs⟩ := List.forall_mem_cons.mp h
    exact (hx start).bind fun _ _ _ => ih hxs

theorem mapM {f : γ → Phase α} (xs : List γ) (h : ∀ x ∈ xs, ∀ start, (f x).Moves R start) :
    (xs.mapM f).Moves R start := by
  induction xs generalizing start with
  | nil => exact .pure []
  | cons x xs ih =>
    obtain ⟨hx, hxs⟩ := List.forall_mem_cons.mp h
    rw [List.mapM_cons]
    exact (hx start).bind fun _ _ _ => (ih hxs).bind fun _ _ _ => .pure _

end
end Moves

theorem Halts.enter [Std.Refl R] {scope : ScopeId} {name : Name} {entry : Entry} {position : Position}
    {taken : Cause} : (Phase.enter scope name entry position taken).Halts R start := by
  intro d finish hr
  unfold Phase.enter at hr
  rw [run_context_bind] at hr
  cases he : start.context.scopes.enter? scope name entry with
  | none =>
    rw [he] at hr
    cases hr
    exact refl_of R _
  | some scopes =>
    rw [he] at hr
    cases hr

end SplLang.Phase

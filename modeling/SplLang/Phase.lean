import SplLang.Context
import SplLang.Trail

/-! Steps of a compilation. A step changes the context and reports events;
a failing step leaves behind what it had done before. -/
namespace SplLang

/-- The context built so far and the events so far, the oldest first. -/
structure Progress where
  context : Context
  events : List Event

/-- The start of a compilation. -/
def Progress.initial : Progress := ⟨.initial, []⟩

abbrev Phase := EStateM Diagnostic Progress

namespace Phase
variable {ω α : Type}

def context : Phase Context := return (← get).context

def setContext (context : Context) : Phase Unit :=
  modify fun progress => { progress with context }

def report (event : Event) : Phase Unit :=
  modify fun progress => { progress with events := progress.events ++ [event] }

def fail (position : Position) (cause : Cause) : Phase α := throw ⟨position, cause⟩

/-- The value there should be, or else the given failure. -/
def expect (value : Option α) (position : Position) (cause : Cause) : Phase α :=
  match value with
  | some a => pure a
  | none => fail position cause

/-- Go on only if a condition holds. -/
def require (condition : Prop) [Decidable condition] (position : Position) (cause : Cause) :
    Phase Unit :=
  if condition then pure () else fail position cause

/-- Put the findings of a trail into the context, whether it fails or not. -/
def follow (t : Trail ω α) (put : Context → List ω → Context) : Phase α := do
  modify fun progress => ⟨put progress.context t.found, progress.events ++ t.events⟩
  match t.result with
  | .ok a => return a
  | .error d => throw d

/-- Run a step if it belongs to a compilation that ends with `last`. -/
def within (stage last : Stage) (phase : Phase α) : Phase (Option α) :=
  if stage.runs last then some <$> phase else pure none

/-- What a step comes to and what it leaves behind. -/
def runFrom (phase : Phase α) (start : Progress) : Except Diagnostic α × Progress :=
  match phase.run start with
  | .ok a progress => (.ok a, progress)
  | .error d progress => (.error d, progress)

end Phase

/-- The scope that was made for a procedure. -/
def Procedure.localScope {ω : Type} (scopes : ScopeTree) (procedure : Procedure) :
    Trail ω ScopeId :=
  Trail.expect ((scopes.procedure? procedure.name).bind (·.scope)) procedure.position
    (.internal (.noLocalScope procedure.name))

end SplLang

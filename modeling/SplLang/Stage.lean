/-! The stages of a compilation in the order in which they run. -/
namespace SplLang

inductive Stage where
  /-- The declarations are entered. -/
  | declared
  /-- The bodies are checked. -/
  | checked
  /-- The frames are laid out. -/
  | placed
  /-- The assembly program is generated. -/
  | generated
  deriving DecidableEq

namespace Stage

def text : Stage → String
  | .declared => "Tables"
  | .checked => "Semant"
  | .placed => "Vars"
  | .generated => "Codegen"

/-- The place in the order. -/
def rank : Stage → Nat
  | .declared => 0
  | .checked => 1
  | .placed => 2
  | .generated => 3

/-- Whether a compilation that ends with `last` runs this stage. -/
def runs (stage last : Stage) : Bool := stage.rank ≤ last.rank

end Stage
end SplLang

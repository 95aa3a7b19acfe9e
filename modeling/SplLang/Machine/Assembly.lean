import SplLang.Machine.Instruction

/-! Assembly programs: lines of directives, labels, instructions and blanks. -/
namespace SplLang.Machine

inductive Line where
  | directive (words : String)
  | label (target : Label)
  | instruction (code : Instruction)
  | blank
  deriving DecidableEq

/-- The line without its end. -/
def Line.text : Line → String
  | .directive words => "\t" ++ words
  | .label target => target.text ++ ":"
  | .instruction code => code.text
  | .blank => ""

abbrev Assembly := List Line

namespace Assembly

/-- The whole text; every line ends with a line break. -/
def text (assembly : Assembly) : String :=
  String.join (assembly.map fun line => line.text ++ "\n")

def instructions (assembly : Assembly) : List Instruction :=
  assembly.filterMap fun
    | .instruction instruction => some instruction
    | _ => none

end Assembly
end SplLang.Machine

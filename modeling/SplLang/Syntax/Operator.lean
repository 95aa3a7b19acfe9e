/-! Binary operators: four that compute an int and six that compare two. -/
namespace SplLang

inductive Arithmetic where
  | add | sub | mul | div
  deriving DecidableEq

inductive Comparison where
  | eq | ne | lt | le | gt | ge
  deriving DecidableEq

/-- The comparison that holds exactly when this one does not. -/
def Comparison.negated : Comparison → Comparison
  | .eq => .ne
  | .ne => .eq
  | .lt => .ge
  | .le => .gt
  | .gt => .le
  | .ge => .lt

@[simp]
theorem Comparison.negated_negated (c : Comparison) : c.negated.negated = c := by
  cases c <;> rfl

inductive Operator where
  | arithmetic (op : Arithmetic)
  | comparison (op : Comparison)
  deriving DecidableEq

namespace Operator

/-- The spelling in a source text. -/
def text : Operator → String
  | .arithmetic .add => "+"
  | .arithmetic .sub => "-"
  | .arithmetic .mul => "*"
  | .arithmetic .div => "/"
  | .comparison .eq => "="
  | .comparison .ne => "#"
  | .comparison .lt => "<"
  | .comparison .le => "<="
  | .comparison .gt => ">"
  | .comparison .ge => ">="

/-- Every operator, once. -/
def all : List Operator :=
  [.arithmetic .add, .arithmetic .sub, .arithmetic .mul, .arithmetic .div,
    .comparison .eq, .comparison .ne, .comparison .lt, .comparison .le,
    .comparison .gt, .comparison .ge]

/-- The operator spelled so. -/
def ofText? (text : String) : Option Operator := all.find? (·.text = text)

def isComparison : Operator → Bool
  | .comparison _ => true
  | .arithmetic _ => false

def isArithmetic (op : Operator) : Bool := !op.isComparison

/-- The opposite of a comparison; an arithmetic operator has none. -/
def negated? : Operator → Option Operator
  | .comparison op => some (.comparison op.negated)
  | .arithmetic _ => none

end Operator
end SplLang

import SplLang.Name
import SplLang.Position
import SplLang.Syntax.Operator

/-! Why a compilation fails: a cause at a position. Each kind of cause has a code.
Causes from 140 on concern code generation, those before it the program's rules. -/
namespace SplLang

/-- Something that an earlier stage should have provided and did not. -/
inductive Inconsistency where
  | noLocalScope (procedure : Name)
  | noTableEntry (procedure : Name)
  | noLocalArea (procedure : Name)
  | noOutgoingArea (procedure : Name)
  | noAddressableFrame (procedure : Name)
  | noArgumentArea (callee : Name)
  | noParameterSlot (callee : Name)
  | noFrameOffset (name : Name)
  | notLocalVariable (name : Name)
  | notVariable (name : Name)
  | notProcedure (name : Name)
  | notIndexable
  | callOutsideProcedure
  | valueArgumentByReference
  | comparisonAsValue (op : Operator)
  | arithmeticAsCondition (op : Operator)
  | valueAsCondition
  | other (description : String)
  deriving DecidableEq

def Inconsistency.text : Inconsistency → String
  | .noLocalScope procedure => s!"procedure '{procedure}' has no local scope"
  | .noTableEntry procedure => s!"procedure '{procedure}' has no table entry"
  | .noLocalArea procedure => s!"procedure '{procedure}' has no localvar area"
  | .noOutgoingArea procedure => s!"procedure '{procedure}' has no outgoing area"
  | .noAddressableFrame procedure => s!"procedure '{procedure}' has no addressable frame"
  | .noArgumentArea callee => s!"callee '{callee}' has no argument area"
  | .noParameterSlot callee => s!"parameter slot of '{callee}' is not allocated"
  | .noFrameOffset name => s!"'{name}' has no frame offset"
  | .notLocalVariable name => s!"'{name}' is not a local variable"
  | .notVariable name => s!"'{name}' is not a variable"
  | .notProcedure name => s!"'{name}' is not a procedure"
  | .notIndexable => "indexed variable is not an array"
  | .callOutsideProcedure => "call checked outside of a procedure scope"
  | .valueArgumentByReference => "reference argument is not a variable"
  | .comparisonAsValue op => s!"comparison '{op.text}' used as a value"
  | .arithmeticAsCondition op => s!"operator '{op.text}' is not a comparison"
  | .valueAsCondition => "condition is not a comparison"
  | .other description => description

inductive Cause where
  | undefinedType (name : Name)
  | notAType (name : Name)
  | redeclaredAsType (name : Name)
  | arrayByValue (name : Name)
  | redeclaredAsProcedure (name : Name)
  | redeclaredAsParameter (name : Name)
  | redeclaredAsVariable (name : Name)
  | assignmentTypesDiffer
  | assignmentToNonInteger
  | ifConditionNotBoolean
  | whileConditionNotBoolean
  | undefinedProcedure (name : Name)
  | calledNonProcedure (name : Name)
  /-- Arguments are counted from one. -/
  | argumentTypeMismatch (procedure : Name) (argument : Nat)
  /-- Arguments are counted from one. -/
  | argumentNotVariable (procedure : Name) (argument : Nat)
  | tooFewArguments (procedure : Name)
  | tooManyArguments (procedure : Name)
  | operandTypesDiffer
  | comparedNonInteger
  | computedNonInteger
  | undefinedVariable (name : Name)
  | notAVariable (name : Name)
  | indexedNonArray
  | indexNotInteger
  | mainMissing
  | mainNotProcedure
  | mainHasParameters
  | typeTooLarge
  | frameTooLarge (procedure : Name)
  | registersExhausted
  | internal (inconsistency : Inconsistency)
  deriving DecidableEq

namespace Cause

/-- What a diagnostic says behind its position. -/
def text : Cause → String
  | .undefinedType name => s!"undefined type '{name}'"
  | .notAType name => s!"'{name}' is not a type"
  | .redeclaredAsType name => s!"redeclaration of '{name}' as type"
  | .arrayByValue name => s!"parameter '{name}' must be a reference parameter"
  | .redeclaredAsProcedure name => s!"redeclaration of '{name}' as procedure"
  | .redeclaredAsParameter name => s!"redeclaration of '{name}' as parameter"
  | .redeclaredAsVariable name => s!"redeclaration of '{name}' as variable"
  | .assignmentTypesDiffer => "assignment has different types"
  | .assignmentToNonInteger => "assignment requires integer variable"
  | .ifConditionNotBoolean => "'if' test expression must be of type boolean"
  | .whileConditionNotBoolean => "'while' test expression must be of type boolean"
  | .undefinedProcedure name => s!"undefined procedure '{name}'"
  | .calledNonProcedure name => s!"call of non-procedure '{name}'"
  | .argumentTypeMismatch procedure argument =>
    s!"argument {argument} of call to '{procedure}' has the wrong type"
  | .argumentNotVariable procedure argument =>
    s!"argument {argument} of call to '{procedure}' must be a variable"
  | .tooFewArguments procedure => s!"too few arguments for procedure '{procedure}'"
  | .tooManyArguments procedure => s!"too many arguments for procedure '{procedure}'"
  | .operandTypesDiffer => "expression combines different types"
  | .comparedNonInteger => "comparison requires integer operands"
  | .computedNonInteger => "arithmetic operation requires integer operands"
  | .undefinedVariable name => s!"undefined variable '{name}'"
  | .notAVariable name => s!"'{name}' is not a variable"
  | .indexedNonArray => "illegal indexing a non-array"
  | .indexNotInteger => "illegal indexing with a non-integer"
  | .mainMissing => "procedure 'main' is missing"
  | .mainNotProcedure => "'main' is not a procedure"
  | .mainHasParameters => "procedure 'main' must not have any parameters"
  | .typeTooLarge => "array type is too large"
  | .frameTooLarge procedure => s!"stack frame of procedure '{procedure}' is too large"
  | .registersExhausted => "expression too complicated, running out of registers"
  | .internal inconsistency => s!"internal compiler error: {inconsistency.text}"

/-- The stable number of the kind of cause. -/
def code : Cause → Nat
  | .undefinedType _ => 101
  | .notAType _ => 102
  | .redeclaredAsType _ => 103
  | .arrayByValue _ => 104
  | .redeclaredAsProcedure _ => 105
  | .redeclaredAsParameter _ => 106
  | .redeclaredAsVariable _ => 107
  | .assignmentTypesDiffer => 108
  | .assignmentToNonInteger => 109
  | .ifConditionNotBoolean => 110
  | .whileConditionNotBoolean => 111
  | .undefinedProcedure _ => 112
  | .calledNonProcedure _ => 113
  | .argumentTypeMismatch _ _ => 114
  | .argumentNotVariable _ _ => 115
  | .tooFewArguments _ => 116
  | .tooManyArguments _ => 117
  | .operandTypesDiffer => 118
  | .comparedNonInteger => 119
  | .computedNonInteger => 120
  | .undefinedVariable _ => 121
  | .notAVariable _ => 122
  | .indexedNonArray => 123
  | .indexNotInteger => 124
  | .mainMissing => 125
  | .mainNotProcedure => 126
  | .mainHasParameters => 127
  | .typeTooLarge => 128
  | .frameTooLarge _ => 129
  | .registersExhausted => 140
  | .internal _ => 199

/-- Whether some cause has the given code. -/
def isCode (n : Nat) : Bool := (101 ≤ n ∧ n ≤ 129) ∨ n = 140 ∨ n = 199

theorem isCode_code (cause : Cause) : isCode cause.code := by
  cases cause <;> rfl

end Cause

structure Diagnostic where
  position : Position
  cause : Cause
  deriving DecidableEq

namespace Diagnostic

def text (d : Diagnostic) : String := s!"{d.position.text}: {d.cause.text}"

/-- The exit status of a compilation that fails so. -/
def code (d : Diagnostic) : Nat := d.cause.code

end Diagnostic
end SplLang

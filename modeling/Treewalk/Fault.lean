import Treewalk.Token.Basic

/-!
# Failures of a run

A run fails for one of the reasons of `Cause`, at the token of the code that could not go on.
-/

namespace Treewalk

/-- Why a run fails. -/
inductive Cause where
  | undefinedVariable (name : String)
  | undefinedProperty (name : String)
  | notNumber
  | notNumbers
  | notAddable
  | divisionByZero
  | unknownOperator
  | notCallable
  | wrongArity (expected got : Nat)
  | stackOverflow
  | noProperties
  | noFields
  | notSuperclass
  | misplacedSuper
  | sinkFull
  /-- A function of the host failed, in its own words. -/
  | host (message : String)
deriving DecidableEq, Repr

/-- The wording of a cause. -/
def Cause.message : Cause → String
  | .undefinedVariable name => "Undefined variable '" ++ name ++ "'."
  | .undefinedProperty name => "Undefined property '" ++ name ++ "'."
  | .notNumber => "Operand must be a number."
  | .notNumbers => "Operands must be numbers."
  | .notAddable => "Operands must be two numbers or at least one string."
  | .divisionByZero => "Division by zero."
  | .unknownOperator => "Unknown operator."
  | .notCallable => "Can only call functions and classes."
  | .wrongArity expected got => s!"Expected {expected} arguments but got {got}."
  | .stackOverflow => "Stack overflow."
  | .noProperties => "Only instances and classes have properties."
  | .noFields => "Only instances and classes have fields."
  | .notSuperclass => "Superclass must be a class."
  | .misplacedSuper => "Can't use 'super' here."
  | .sinkFull => "Can't print: sink full."
  | .host message => message

/-- A failure: its cause and the place of the code that failed. -/
structure Fault where
  cause : Cause
  pos : Pos
  file : Option String
deriving DecidableEq, Repr

namespace Fault

/-- A failure at a token. -/
def ofToken (t : Token) (cause : Cause) : Fault := ⟨cause, t.pos, t.file⟩

/-- The wording of a failure. -/
def message (f : Fault) : String := f.cause.message

/-- The place and the message; the file does not show. -/
def text (f : Fault) : String := f.pos.text ++ " - " ++ f.message

end Fault

end Treewalk

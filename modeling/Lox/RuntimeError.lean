import Lox.Token

namespace Lox

inductive RuntimeFault where
  | undefinedVariable (name : String)
  | unassignedVariable (name : String)
  | alreadyDefined (name : String)
  | undefinedProperty (name : String)
  | noProperties
  | noFields
  | operandNotNumber
  | operandsNotNumbers
  | operandsNotAddable
  | notCallable
  | wrongArgumentCount (expected given : Nat)
  | superclassNotClass
  /-- The construct has a fault that was reported before. -/
  | malformed
deriving DecidableEq, Repr

def RuntimeFault.message : RuntimeFault → String
  | undefinedVariable name => "Undefined variable " ++ name
  | unassignedVariable name => "Unassigned variable " ++ name
  | alreadyDefined name => "Variable " ++ name ++ " already defined"
  | undefinedProperty name => "Undefined property '" ++ name ++ "'."
  | noProperties => "Only instances have properties."
  | noFields => "Only instances have fields."
  | operandNotNumber => "Operand must be a number."
  | operandsNotNumbers => "Operands must be numbers."
  | operandsNotAddable => "Operands must be two numbers or two strings."
  | notCallable => "Can only call functions and classes."
  | wrongArgumentCount expected given =>
    "Expected " ++ toString expected ++ " arguments but got " ++ toString given ++ "."
  | superclassNotClass => "Superclass must be a class."
  | malformed => "Compilation error"

/-- A fault of a running program, with the token that it comes from. -/
structure RuntimeError where
  token : Token
  fault : RuntimeFault

/-- The report of an error has the line below the message. -/
def RuntimeError.report (e : RuntimeError) : String :=
  e.fault.message ++ "\n[line " ++ toString e.token.line ++ "]"

end Lox

import Lox.Value

namespace Lox

/-- An operator that has no left operand, and so no postfix form. -/
structure DanglingOperator where
  line : Nat
  lexeme : String
deriving DecidableEq, Repr

def DanglingOperator.message (d : DanglingOperator) : String :=
  "[line " ++ toString d.line ++ "] Can't print a binary operator without left operand '"
    ++ d.lexeme ++ "'"

namespace Expr

mutual

/-- The expression with every operator behind its operands. Groupings leave no trace. -/
def postfixForm : Expr → Except DanglingOperator String
  | .literal value => pure value.value.text
  | .grouping inner => inner.postfixForm
  | .unary operator right => do return (← right.postfixForm) ++ " " ++ operator.lexeme
  | .binary left operator right => do
    let left ← left.postfixForm
    let right ← right.postfixForm
    return left ++ " " ++ right ++ " " ++ operator.lexeme
  | .binaryError operator _ => throw ⟨operator.line, operator.lexeme⟩
  | .conditional condition thenBranch elseBranch => do
    let condition ← condition.postfixForm
    let thenBranch ← thenBranch.postfixForm
    let elseBranch ← elseBranch.postfixForm
    return condition ++ " " ++ thenBranch ++ " " ++ elseBranch ++ " ?"
  | .variable ref => pure ref.name.lexeme
  | .assign target value => do return target.name.lexeme ++ " " ++ (← value.postfixForm) ++ " ="
  | .call callee _ arguments => do
    let callee ← callee.postfixForm
    let arguments ← postfixForms arguments
    return callee ++ arguments ++ " call"
  | .get object name => do return (← object.postfixForm) ++ " " ++ name.lexeme ++ " ."
  | .set object name value => do
    let object ← object.postfixForm
    let value ← value.postfixForm
    return object ++ " " ++ name.lexeme ++ " " ++ value ++ " .="
  | .this _ => pure "this"
  | .super _ method => pure ("super " ++ method.lexeme ++ " .")
  | .lambda (.mk params _) => pure ("fun/" ++ toString params.length)

/-- The forms of a list, each after a space. -/
def postfixForms : List Expr → Except DanglingOperator String
  | [] => pure ""
  | e :: rest => do
    let first ← e.postfixForm
    let others ← postfixForms rest
    return " " ++ first ++ others

end

end Expr

end Lox

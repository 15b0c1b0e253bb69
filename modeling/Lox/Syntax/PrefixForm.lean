import Lox.Value

namespace Lox

def lexemes (tokens : List Token) : String := " ".intercalate (tokens.map Token.lexeme)

namespace Expr

mutual

/-- The expression with every operator before its operands, each in parentheses of its own. -/
def prefixForm : Expr → String
  | .literal value => value.value.text
  | .grouping inner => "(group " ++ inner.prefixForm ++ ")"
  | .unary operator right => "(" ++ operator.lexeme ++ " " ++ right.prefixForm ++ ")"
  | .binary left operator right =>
    "(" ++ operator.lexeme ++ " " ++ left.prefixForm ++ " " ++ right.prefixForm ++ ")"
  | .binaryError operator right => "(error " ++ operator.lexeme ++ " " ++ right.prefixForm ++ ")"
  | .conditional condition thenBranch elseBranch =>
    "(?: " ++ condition.prefixForm ++ " " ++ thenBranch.prefixForm ++ " "
      ++ elseBranch.prefixForm ++ ")"
  | .variable ref => ref.name.lexeme
  | .assign target value => "(= " ++ target.name.lexeme ++ " " ++ value.prefixForm ++ ")"
  | .call callee _ arguments => "(call " ++ callee.prefixForm ++ prefixForms arguments ++ ")"
  | .get object name => "(. " ++ object.prefixForm ++ " " ++ name.lexeme ++ ")"
  | .set object name value =>
    "(= (. " ++ object.prefixForm ++ " " ++ name.lexeme ++ ") " ++ value.prefixForm ++ ")"
  | .this _ => "this"
  | .super _ method => "(super " ++ method.lexeme ++ ")"
  | .lambda (.mk params _) => "(fun (" ++ lexemes params ++ "))"

/-- The forms of a list, each after a space. -/
def prefixForms : List Expr → String
  | [] => ""
  | e :: rest => " " ++ e.prefixForm ++ prefixForms rest

end

end Expr

end Lox

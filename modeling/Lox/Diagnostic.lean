import Lox.Token

namespace Lox

/-- What stops the text from being cut into tokens. -/
inductive LexicalFault where
  | unexpectedCharacter
  | unterminatedString
  | unterminatedComment
deriving DecidableEq, Repr

def LexicalFault.message : LexicalFault → String
  | unexpectedCharacter => "Unexpected character."
  | unterminatedString => "Unterminated string."
  | unterminatedComment => "Unterminated block comment."

/-- Where a body with parameters stands. -/
inductive FunctionRole where
  | function
  | method
  | staticMethod
deriving DecidableEq, Repr

def FunctionRole.text : FunctionRole → String
  | function => "function"
  | method => "method"
  | staticMethod => "static method"

/-- What the grammar asks for next. -/
inductive Expected where
  | expression
  | className
  | superclassName
  | variableName
  | parameterName
  | propertyName
  | superclassMethodName
  | functionName (role : FunctionRole)
  | parenAfterName (role : FunctionRole)
  | parenAfterFun
  | parenAfterParameters
  | braceBeforeBody (role : FunctionRole)
  | braceBeforeClassBody
  | braceAfterClassBody
  | braceAfterBlock
  | parenAfterFor
  | parenAfterForClauses
  | parenAfterWhile
  | parenAfterLoopCondition
  | parenAfterIf
  | parenAfterIfCondition
  | parenAfterArguments
  | parenAfterExpression
  | colonAfterConditional
  | dotAfterSuper
  | semicolonAfterExpression
  | semicolonAfterPrinted
  | semicolonAfterVariable
  | semicolonAfterLoopCondition
  | semicolonAfterReturn
  | semicolonAfterBreak
  | semicolonAfterContinue
deriving DecidableEq, Repr

def Expected.text : Expected → String
  | expression => "expression"
  | className => "class name"
  | superclassName => "superclass name"
  | variableName => "variable name"
  | parameterName => "parameter name"
  | propertyName => "property name after '.'"
  | superclassMethodName => "superclass method name"
  | functionName role => role.text ++ " name"
  | parenAfterName role => "'(' after " ++ role.text ++ " name"
  | parenAfterFun => "'(' after 'fun'"
  | parenAfterParameters => "')' after parameters"
  | braceBeforeBody role => "'\x7b' before " ++ role.text ++ " body"
  | braceBeforeClassBody => "'\x7b' before class body"
  | braceAfterClassBody => "'\x7d' after class body"
  | braceAfterBlock => "'\x7d' after block"
  | parenAfterFor => "'(' after 'for'"
  | parenAfterForClauses => "')' after for clauses"
  | parenAfterWhile => "'(' after 'while'"
  | parenAfterLoopCondition => "')' after condition"
  | parenAfterIf => "'(' after 'if'"
  | parenAfterIfCondition => "')' after if condition"
  | parenAfterArguments => "')' after arguments"
  | parenAfterExpression => "')' after expression"
  | colonAfterConditional => "':' after conditional"
  | dotAfterSuper => "'.' after 'super'"
  | semicolonAfterExpression => "';' after expression"
  | semicolonAfterPrinted => "';' after value"
  | semicolonAfterVariable => "';' after variable declaration"
  | semicolonAfterLoopCondition => "';' after loop condition"
  | semicolonAfterReturn => "';' after return value"
  | semicolonAfterBreak => "';' after 'break'"
  | semicolonAfterContinue => "';' after 'continue'"

inductive SyntaxFault where
  | missing (what : Expected)
  | tooManyParameters
  | tooManyArguments
  | noLeftOperand
  | invalidAssignmentTarget
  | misplacedBreak
  | misplacedContinue
deriving DecidableEq, Repr

def SyntaxFault.message : SyntaxFault → String
  | missing what => "Expect " ++ what.text ++ "."
  | tooManyParameters => "Can't have more than 255 parameters."
  | tooManyArguments => "Can't have more than 255 arguments."
  | noLeftOperand => "Binary operator without left operand"
  | invalidAssignmentTarget => "Invalid assignment target."
  | misplacedBreak => "Invalid break statement"
  | misplacedContinue => "Invalid continue statement"

inductive ScopeFault where
  | redeclared (name : String)
  | readInOwnInitializer (name : String)
  | neverUsed (name : String)
  | inheritsFromItself
  | returnOutsideFunction
  | returnFromInitializer
  | thisOutsideClass
  | thisInStaticMethod
  | superOutsideClass
  | superWithoutSuperclass
  | superInStaticMethod
deriving DecidableEq, Repr

def ScopeFault.message : ScopeFault → String
  | redeclared name => "Variable " ++ name ++ " already declared in this scope."
  | readInOwnInitializer name => "Can't read local variable " ++ name ++ " in its own initializer."
  | neverUsed name => "Local variable " ++ name ++ " is never used."
  | inheritsFromItself => "A class can't inherit from itself."
  | returnOutsideFunction => "Can't return from top-level code."
  | returnFromInitializer => "Can't return a value from an initializer."
  | thisOutsideClass => "Can't use 'this' outside of a class."
  | thisInStaticMethod => "Can't use 'this' in a static method."
  | superOutsideClass => "Can't use 'super' outside of a class."
  | superWithoutSuperclass => "Can't use 'super' in a class with no superclass."
  | superInStaticMethod => "Can't use 'super' in a static method."

inductive Problem where
  | lexical (fault : LexicalFault)
  | syntactic (fault : SyntaxFault)
  | scoping (fault : ScopeFault)
deriving DecidableEq, Repr

def Problem.message : Problem → String
  | lexical fault => fault.message
  | syntactic fault => fault.message
  | scoping fault => fault.message

/-- How a diagnostic points into its line. -/
inductive Place where
  | unmarked
  | atEnd
  | atLexeme (lexeme : String)
deriving DecidableEq, Repr

def Place.text : Place → String
  | unmarked => ""
  | atEnd => " at end"
  | atLexeme lexeme => " at '" ++ lexeme ++ "'"

def Token.place (t : Token) : Place := if t.kind = .eof then .atEnd else .atLexeme t.lexeme

/-- A finding about a program that has not run. -/
structure Diagnostic where
  line : Nat
  place : Place
  problem : Problem
deriving DecidableEq, Repr

namespace Diagnostic

def lexical (line : Nat) (fault : LexicalFault) : Diagnostic := ⟨line, .unmarked, .lexical fault⟩

/-- A finding at a token. -/
def atToken (t : Token) (problem : Problem) : Diagnostic := ⟨t.line, t.place, problem⟩

def text (d : Diagnostic) : String :=
  "[line " ++ toString d.line ++ "] Error" ++ d.place.text ++ ": " ++ d.problem.message

end Diagnostic

end Lox

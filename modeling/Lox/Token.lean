import Lox.Decimal.Text

namespace Lox

inductive TokenKind where
  | leftParen | rightParen | leftBrace | rightBrace
  | comma | dot | minus | plus | semicolon | slash | star | question | colon
  | bang | bangEqual | equal | equalEqual | greater | greaterEqual | less | lessEqual
  | identifier | string | number
  | and | «break» | «class» | «continue» | «else» | false | «fun» | «for» | «if» | nil | or
  | print | «return» | super | this | true | var | «while»
  | eof
deriving DecidableEq, Repr

namespace TokenKind

def name : TokenKind → String
  | leftParen => "LEFT_PAREN"
  | rightParen => "RIGHT_PAREN"
  | leftBrace => "LEFT_BRACE"
  | rightBrace => "RIGHT_BRACE"
  | comma => "COMMA"
  | dot => "DOT"
  | minus => "MINUS"
  | plus => "PLUS"
  | semicolon => "SEMICOLON"
  | slash => "SLASH"
  | star => "STAR"
  | question => "QUESTION"
  | colon => "COLON"
  | bang => "BANG"
  | bangEqual => "BANG_EQUAL"
  | equal => "EQUAL"
  | equalEqual => "EQUAL_EQUAL"
  | greater => "GREATER"
  | greaterEqual => "GREATER_EQUAL"
  | less => "LESS"
  | lessEqual => "LESS_EQUAL"
  | identifier => "IDENTIFIER"
  | string => "STRING"
  | number => "NUMBER"
  | and => "AND"
  | «break» => "BREAK"
  | «class» => "CLASS"
  | «continue» => "CONTINUE"
  | «else» => "ELSE"
  | false => "FALSE"
  | «fun» => "FUN"
  | «for» => "FOR"
  | «if» => "IF"
  | nil => "NIL"
  | or => "OR"
  | print => "PRINT"
  | «return» => "RETURN"
  | super => "SUPER"
  | this => "THIS"
  | true => "TRUE"
  | var => "VAR"
  | «while» => "WHILE"
  | eof => "EOF"

def all : List TokenKind :=
  [leftParen, rightParen, leftBrace, rightBrace, comma, dot, minus, plus, semicolon, slash, star,
    question, colon, bang, bangEqual, equal, equalEqual, greater, greaterEqual, less, lessEqual,
    identifier, string, number, and, «break», «class», «continue», «else», false, «fun», «for», «if»,
    nil, or, print, «return», super, this, true, var, «while», eof]

def ofName? (text : String) : Option TokenKind := all.find? (·.name == text)

end TokenKind

/-- The words that are not identifiers. -/
def keywords : List (String × TokenKind) :=
  [("and", .and), ("break", .break), ("class", .class), ("continue", .continue), ("else", .else),
    ("false", .false), ("fun", .fun), ("for", .for), ("if", .if), ("nil", .nil), ("or", .or),
    ("print", .print), ("return", .return), ("super", .super), ("this", .this), ("true", .true),
    ("var", .var), ("while", .while)]

/-- The value a token stands for on its own. -/
inductive Literal where
  | number (value : Float)
  | string (text : String)
  | boolean (value : Bool)
  | nil

/-- Literals show the fraction of a whole number. -/
def Literal.numberStyle : Decimal.Style := ⟨"NaN", "inf", ".0"⟩

def Literal.text : Literal → String
  | number value => Decimal.render numberStyle value
  | string text => text
  | boolean value => if value then "true" else "false"
  | nil => "nil"

/-- A word of the language with the line on which it ends. -/
structure Token where
  kind : TokenKind
  lexeme : String
  literal : Option Literal
  line : Nat

namespace Token

/-- A token that stands in no text. -/
def synthetic (kind : TokenKind) (lexeme : String) (line : Nat) : Token := ⟨kind, lexeme, none, line⟩

def text (t : Token) : String :=
  t.kind.name ++ " " ++ t.lexeme ++ " " ++ (t.literal.map Literal.text).getD "null"

end Token

end Lox

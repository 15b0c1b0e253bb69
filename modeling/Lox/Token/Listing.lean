import Lox.Text.Quoted
import Lox.Token

namespace Lox

/-- The value of a literal in a listing, four levels of indentation deep. -/
def Literal.listing : Literal → String
  | .number value => field "Number" (Decimal.renderJson value)
  | .string text => field "Str" (Text.jsonQuoted text)
  | .boolean value => if value then "\"True\"" else "\"False\""
  | .nil => "\"Nil\""
where
  field (key value : String) : String :=
    "\x7b\n      " ++ Text.jsonQuoted key ++ ": " ++ value ++ "\n    \x7d"

def Token.listing (t : Token) : String :=
  "  \x7b\n    \"type\": " ++ Text.jsonQuoted t.kind.name
    ++ ",\n    \"lexeme\": " ++ Text.jsonQuoted t.lexeme
    ++ ",\n    \"literal\": " ++ (t.literal.map Literal.listing).getD "null"
    ++ ",\n    \"line\": " ++ toString t.line ++ "\n  \x7d"

/-- The tokens as an array in JSON, with two spaces for each level. -/
def tokenListing (tokens : List Token) : String :=
  match tokens with
  | [] => "[]"
  | _ => "[\n" ++ ",\n".intercalate (tokens.map Token.listing) ++ "\n]"

end Lox

import Lox.Token.Span

namespace Lox

/-- What scanning finds: a token, or a fault with the line on which its span ends. -/
inductive ScanItem where
  | token (t : Token)
  | fault (fault : LexicalFault) (line : Nat)

namespace ScanItem

def token? : ScanItem → Option Token
  | token t => some t
  | fault _ _ => none

def diagnostic? : ScanItem → Option Diagnostic
  | token _ => none
  | fault f line => some (.lexical line f)

end ScanItem

namespace Span

def lineBreaks (s : Span) : Nat := s.text.count '\n'

/-- Blanks and comments yield nothing. -/
def item? (s : Span) (line : Nat) : Option ScanItem :=
  match s.cls with
  | .token kind literal => some (.token ⟨kind, String.ofList s.text, literal, line⟩)
  | .fault f => some (.fault f line)
  | .blank | .lineComment | .blockComment => none

end Span

/-- The items of the spans, each on the line on which its span ends, and the end mark. -/
def itemsFrom (line : Nat) : List Span → List ScanItem
  | [] => [.token (.synthetic .eof "" line)]
  | s :: rest =>
    let ending := line + s.lineBreaks
    (s.item? ending).toList ++ itemsFrom ending rest

def scan (source : String) : List ScanItem := itemsFrom 1 (spans source.toList)

def tokensOf (items : List ScanItem) : List Token := items.filterMap ScanItem.token?

def faultsOf (items : List ScanItem) : List Diagnostic := items.filterMap ScanItem.diagnostic?

end Lox

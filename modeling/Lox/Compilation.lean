import Lox.Scope.Resolve
import Lox.Syntax.Grammar
import Lox.Token.Scan

namespace Lox

/-- Whether an input is a script, or a line that may be a single expression. -/
inductive Mode where
  | script
  | line
deriving DecidableEq, Repr

/-- What is known of an input before it runs. -/
structure Compilation where
  program : Program
  hops : HopMap
  diagnostics : List Diagnostic
  nextId : NodeId

/-- Reads tokens and resolves their names. `found` are the diagnostics of an earlier pass. -/
def compileTokens (found : List Diagnostic) (tokens : List Token) (mode : Mode) (nextId : NodeId) :
    Compilation :=
  let read := parse tokens (mode == .line) nextId
  let resolved := resolve read.program
  { program := read.program
    hops := resolved.hops
    diagnostics := found ++ read.diagnostics ++ resolved.log.reverse
    nextId := read.nextId }

/-- Every pass runs, whatever an earlier one has found. -/
def compile (source : String) (mode : Mode) (nextId : NodeId) : Compilation :=
  let items := scan source
  compileTokens (faultsOf items) (tokensOf items) mode nextId

end Lox

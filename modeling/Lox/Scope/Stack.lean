import Lox.Diagnostic
import Lox.Syntax

namespace Lox

/-- What is known of a name in the scope that declares it. -/
structure Binding where
  defined : Bool
  used : Bool
  token : Token

abbrev Scope := Std.TreeMap String Binding

/-- The state of name resolution: the open scopes, innermost first, the hops found and the
diagnostics, latest first. At top level no scope is open. -/
structure Resolution where
  scopes : List Scope
  hops : HopMap
  log : List Diagnostic

namespace Resolution

def start : Resolution := ⟨[], ∅, []⟩

def report (t : Token) (fault : ScopeFault) (r : Resolution) : Resolution :=
  { r with log := .atToken t (.scoping fault) :: r.log }

def openScope (r : Resolution) : Resolution := { r with scopes := ∅ :: r.scopes }

end Resolution

/-- Whether one token is reported before another: by line, and by name on one line. -/
def Token.reportedBefore (a b : Token) : Bool :=
  a.line < b.line || (a.line == b.line && a.lexeme ≤ b.lexeme)

/-- The names of a scope that nothing reads, in the order of their reports. -/
def Scope.unused (s : Scope) : List Token :=
  ((s.values.filter (!·.used)).map Binding.token).mergeSort Token.reportedBefore

namespace Resolution

/-- Leaves the innermost scope. Its names that were never read are reported. -/
def closeScope (r : Resolution) : Resolution :=
  match r.scopes with
  | [] => r
  | s :: rest => s.unused.foldl (fun r t => r.report t (.neverUsed t.lexeme)) { r with scopes := rest }

/-- Puts a name into the innermost scope, in place of an earlier one that it repeats. -/
def declare (name : Token) (r : Resolution) : Resolution :=
  match r.scopes with
  | [] => r
  | s :: rest =>
    let r' := { r with scopes := s.insert name.lexeme ⟨false, false, name⟩ :: rest }
    if s.contains name.lexeme then r'.report name (.redeclared name.lexeme) else r'

def modifyInnermost (name : String) (f : Binding → Binding) (r : Resolution) : Resolution :=
  match r.scopes with
  | [] => r
  | s :: rest => { r with scopes := s.modify name f :: rest }

/-- From here on the name may be read. -/
def define (name : Token) : Resolution → Resolution :=
  modifyInnermost name.lexeme ({ · with defined := true })

/-- A parameter may be left unread. -/
def declareParameter (name : Token) (r : Resolution) : Resolution :=
  modifyInnermost name.lexeme ({ · with used := true }) (define name (declare name r))

/-- Binds `this` or `super`, which no text declares, on the line of the class name. -/
def bindImplicit (lexeme : String) (className : Token) (r : Resolution) : Resolution :=
  match r.scopes with
  | [] => r
  | s :: rest =>
    let token := Token.synthetic className.kind lexeme className.line
    { r with scopes := s.insert lexeme ⟨true, true, token⟩ :: rest }

/-- Whether the name is declared in the innermost scope and its initializer has not ended. -/
def inOwnInitializer (name : Token) (r : Resolution) : Bool :=
  (r.scopes.head?.bind (·[name.lexeme]?)).any (!·.defined)

/-- Records the hops to the innermost scope that declares the name. A read marks it as used. -/
def record (ref : Reference) (isRead : Bool) (r : Resolution) : Resolution :=
  match r.scopes.findIdx? (·.contains ref.name.lexeme) with
  | none => r
  | some depth =>
    let mark := fun b : Binding => { b with used := b.used || isRead }
    { r with
      scopes := r.scopes.modify depth (·.modify ref.name.lexeme mark)
      hops := r.hops.insert ref.id depth }

end Resolution

end Lox
